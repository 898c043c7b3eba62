import TypeFlow.Algebra.Basic
import TypeFlow.Proofs.Checked
import TypeFlow.Proofs.Inside
import TypeFlow.Proofs.Num.Normal

/-!
# What a level of the algebra owes

An `Invariant` is what the operations keep: soundness for one assignment of field names, and a
further property that passes between a type and its fields and members. A level is `Lawful` when
its operations, on types that keep the invariant and are nested less deep than the level, end
without a clash in a type that keeps the invariant again and has the right values.
-/

namespace TypeFlow

open Ty

namespace Ty

/-- How many fields have different types. -/
def differing (fields fields' : List (String × Ty)) : Nat :=
  ((fields.zip fields').filter fun (f, f') => f.2 ≠ f'.2).length

/-- Two members of a union could be one, given a notion of subset: numbers that join, a text beside
all texts, structs of one name one of which is a subset of the other or that differ in at most one
field. -/
def MergeableBy (subset : Ty → Ty → Prop) : Ty → Ty → Prop
  | number a, number b => Numbers.join a b ≠ none
  | string a, string b => a = .all ∨ b = .all
  | struct name fields, struct name' fields' =>
    name = name' ∧ (subset (struct name fields) (struct name' fields') ∨
      subset (struct name' fields') (struct name fields) ∨ differing fields fields' ≤ 1)
  | _, _ => False

/-- No two members could be merged. -/
def IrreducibleBy (subset : Ty → Ty → Prop) (items : List Ty) : Prop :=
  ∀ a ∈ items, ∀ b ∈ items, a ≠ b → ¬ MergeableBy subset a b

theorem nestingFields_lt {fields : List (String × Ty)} {n : Nat} :
    nestingFields fields < n ↔ 0 < n ∧ ∀ f ∈ fields, f.2.nesting < n := by
  induction fields with
  | nil => simp [nestingFields]
  | cons f rest ih =>
    simp only [nestingFields, Nat.max_lt, ih, List.forall_mem_cons]
    tauto

theorem nestingItems_lt {items : List Ty} {n : Nat} :
    nestingItems items < n ↔ 0 < n ∧ ∀ t ∈ items, t.nesting < n := by
  induction items with
  | nil => simp [nestingItems]
  | cons t rest ih =>
    simp only [nestingItems, Nat.max_lt, ih, List.forall_mem_cons]
    tauto

end Ty

/-- What the operations keep: soundness and a property that passes between a type and its fields
and members. -/
structure Invariant where
  /-- The field names of the structs of each name. -/
  shape : String → List String
  /-- The further property. -/
  Extra : Ty → Prop
  extra_never : Extra never
  extra_any : Extra any
  extra_number : ∀ n : NumberTy, n.Tame → Extra (number n)
  extra_string : ∀ s, Extra (string s)
  extra_struct : ∀ name fields, Extra (struct name fields) ↔ ∀ f ∈ fields, Extra f.2
  extra_item : ∀ items, Extra (union items) → ∀ t ∈ items, Extra t
  extra_union : ∀ items, (∀ t ∈ items, Sound shape t ∧ Extra t) → IrreducibleBy Inside items →
    Numbers.Normal (items.filterMap number?) → Extra (union items)

namespace Invariant

variable (inv : Invariant)

/-- Soundness alone. -/
def sound (shape : String → List String) : Invariant where
  shape := shape
  Extra _ := True
  extra_never := trivial
  extra_any := trivial
  extra_number _ _ := trivial
  extra_string _ := trivial
  extra_struct _ _ := by simp
  extra_item _ _ _ _ := trivial
  extra_union _ _ _ _ := trivial

/-- A type keeps the invariant and is nested less than `n` deep. -/
def Fits (n : Nat) (t : Ty) : Prop := Sound inv.shape t ∧ inv.Extra t ∧ t.nesting < n

variable {inv} {n : Nat}

theorem Fits.pos {t : Ty} (fits : inv.Fits n t) : 0 < n := Nat.zero_lt_of_lt fits.2.2

theorem fits_never (pos : 0 < n) : inv.Fits n never := ⟨sound_never, inv.extra_never, pos⟩

theorem fits_any (pos : 0 < n) : inv.Fits n any := ⟨sound_any, inv.extra_any, pos⟩

theorem fits_number (pos : 0 < n) {m : NumberTy} (tame : m.Tame) : inv.Fits n (number m) :=
  ⟨sound_number.mpr tame, inv.extra_number m tame, pos⟩

theorem fits_string (pos : 0 < n) {s : StringTy} : inv.Fits n (string s) :=
  ⟨sound_string, inv.extra_string s, pos⟩

theorem fits_struct {name : String} {fields : List (String × Ty)} :
    inv.Fits (n + 1) (struct name fields) ↔
      0 < n ∧ fields.map (·.1) = inv.shape name ∧ ∀ f ∈ fields, f.2 ≠ never ∧ inv.Fits n f.2 := by
  simp only [Fits, sound_struct, inv.extra_struct, nesting, Nat.add_lt_add_iff_right,
    nestingFields_lt]
  constructor
  · rintro ⟨⟨names, each⟩, extra, pos, nested⟩
    exact ⟨pos, names, fun f mem => ⟨(each f mem).1, (each f mem).2, extra f mem, nested f mem⟩⟩
  · rintro ⟨pos, names, each⟩
    exact ⟨⟨names, fun f mem => ⟨(each f mem).1, (each f mem).2.1⟩⟩,
      fun f mem => (each f mem).2.2.1, pos, fun f mem => (each f mem).2.2.2⟩

theorem Fits.of_mem_members {t m : Ty} (fits : inv.Fits n t) (mem : m ∈ t.members) :
    inv.Fits n m := by
  cases t with
  | never => cases mem
  | union items =>
    obtain ⟨sound, extra, nested⟩ := fits
    exact ⟨sound.of_mem_members mem, inv.extra_item items extra m mem,
      (nestingItems_lt.mp nested).2 m mem⟩
  | _ =>
    rw [List.mem_singleton.mp mem]
    exact fits

/-- A type of members that fit and cannot be merged, with numbers in normal form, fits. -/
theorem fits_ofMembers (pos : 0 < n) {items : List Ty} (values : ∀ t ∈ items, t.isValue = true)
    (each : ∀ t ∈ items, inv.Fits n t) (irreducible : IrreducibleBy Inside items)
    (normal : Numbers.Normal (items.filterMap number?)) : inv.Fits n (ofMembers items) := by
  have sound := sound_ofMembers values fun t mem => (each t mem).1
  rcases ofMembers_cases items with ⟨empty, _⟩ | ⟨t, single, mem, _⟩ | ⟨several, _⟩
  · rw [empty]
    exact fits_never pos
  · rw [single]
    exact each t mem
  · rw [several] at sound ⊢
    refine ⟨sound, inv.extra_union _ (fun t mem => ?_) ?_ (normal.of_subset fun m mem => ?_),
      nestingItems_lt.mpr ⟨pos, fun t mem => ?_⟩⟩
    · have fits := each t (Sorted.mem_ofList.mp mem)
      exact ⟨fits.1, fits.2.1⟩
    · exact fun a memA b memB =>
        irreducible a (Sorted.mem_ofList.mp memA) b (Sorted.mem_ofList.mp memB)
    · obtain ⟨t, found, same⟩ := List.mem_filterMap.mp mem
      exact List.mem_filterMap.mpr ⟨t, Sorted.mem_ofList.mp found, same⟩
    · exact (each t (Sorted.mem_ofList.mp mem)).2.2

theorem fits_build (pos : 0 < n) {name : String} {fields : List (String × Ty)}
    (names : fields.map (·.1) = inv.shape name) (each : ∀ f ∈ fields, inv.Fits n f.2) :
    inv.Fits (n + 1) (Record.build name fields) := by
  rcases Record.build_cases name fields with ⟨empty, _⟩ | ⟨same, proper⟩
  · rw [empty]
    exact fits_never (Nat.succ_pos n)
  · rw [same]
    exact fits_struct.mpr ⟨pos, names, fun f mem => ⟨proper f mem, each f mem⟩⟩

theorem Fits.withField {r : Record} (fits : inv.Fits (n + 1) r.toTy) {index : Nat} {t : Ty}
    (fitsT : inv.Fits n t) : inv.Fits (n + 1) (r.withField index t) := by
  obtain ⟨pos, names, each⟩ := fits_struct.mp fits
  refine fits_build pos (by rw [Record.map_fst_setField, names]) fun f mem => ?_
  rcases Record.mem_setField mem with same | mem
  · exact same ▸ fitsT
  · exact (each f mem).2

/-- Subset, intersection, difference and union do what they say below a nesting of `n`. -/
structure Lawful (inv : Invariant) (n : Nat) (algebra : Algebra) : Prop where
  union : ∀ items, items ≠ [] → (∀ t ∈ items, inv.Fits n t) →
    Yields (algebra.union items) fun u => inv.Fits n u ∧ ∀ v, v ∈ u ↔ ∃ t ∈ items, v ∈ t
  intersect : ∀ a b, inv.Fits n a → inv.Fits n b →
    Yields (algebra.intersect [a, b]) fun u => inv.Fits n u ∧ ∀ v, v ∈ u ↔ v ∈ a ∧ v ∈ b
  without : ∀ a b, inv.Fits n a → inv.Fits n b →
    Yields (algebra.without a b) fun u => inv.Fits n u ∧
      ∀ v, (v ∈ u → v ∈ a) ∧ (v ∈ a → ¬ v ∈ b → v ∈ u)
  subset : ∀ a b, inv.Fits n a → inv.Fits n b → Decides (algebra.subset a b) (Inside a b)

end Invariant

end TypeFlow
