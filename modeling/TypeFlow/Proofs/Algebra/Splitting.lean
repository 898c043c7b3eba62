import Mathlib.Data.Fintype.EquivFin
import Mathlib.Data.Fintype.Sets
import TypeFlow.Proofs.Algebra.Structs

/-!
# Splitting and dropping struct types

The union of struct types starts by splitting them into atoms and goes on by dropping those inside
others. Neither changes which records the list has. Dropping is safe because `Inside` is
transitive: above every struct type there is one that is kept.
-/

namespace TypeFlow.Structs

open List Ty

/-- Some struct type of the list has the value. -/
def Covers (items : List Record) (v : Value) : Prop := ∃ r ∈ items, v ∈ r.toTy

theorem record?_eq_some_iff {t : Ty} {r : Record} : t.record? = some r ↔ t = r.toTy := by
  cases r
  cases t <;> simp [record?, Record.toTy]

variable {inv : Invariant} {n : Nat}

theorem record?_withField {r : Record} {index : Nat} {t : Ty} {v : Value}
    (has : v ∈ r.withField index t) :
    (r.withField index t).record? = some ⟨r.name, Record.setField r.fields index t⟩ := by
  rcases Record.build_cases r.name (Record.setField r.fields index t) with ⟨empty, _⟩ | ⟨same, _⟩
  · rw [Record.withField, empty] at has
    exact absurd has (not_mem_never v)
  · rw [Record.withField, same]
    rfl

theorem fields_of_record? {r s : Record} {index : Nat} {t : Ty}
    (found : (r.withField index t).record? = some s) :
    s.name = r.name ∧ s.fields = Record.setField r.fields index t := by
  rcases Record.build_cases r.name (Record.setField r.fields index t) with ⟨empty, _⟩ | ⟨same, _⟩
  · rw [Record.withField, empty] at found
    cases found
  · rw [Record.withField, same, record?_eq_some_iff] at found
    exact ⟨(struct.inj found).1.symm, (struct.inj found).2.symm⟩

/-- A property of struct types that stays when a field is replaced by one of its members. -/
def Hereditary (P : Record → Prop) : Prop :=
  ∀ r, P r → ∀ index f, r.fields[index]? = some f → ∀ m ∈ f.2.members, ∀ s,
    (r.withField index m).record? = some s → P s

theorem hereditary_fits : Hereditary fun r => inv.Fits (n + 1) r.toTy := by
  intro r fits index f position m memM s found
  have fitsF := ((Invariant.fits_struct.mp fits).2.2 f (mem_of_getElem? position)).2
  rw [← record?_eq_some_iff.mp found]
  exact fits.withField (fitsF.of_mem_members memM)

section Atoms

variable {partials : List Record} {index : Nat} {f : String × Ty}
  (position : ∀ p ∈ partials, p.fields[index]? = some f)
include position

theorem covers_splitField {v : Value} :
    Covers (splitField partials index f.2.members) v ↔ Covers partials v := by
  constructor
  · rintro ⟨s, mem, has⟩
    obtain ⟨p, memP, mem⟩ := mem_flatMap.mp mem
    obtain ⟨m, memM, found⟩ := mem_filterMap.mp mem
    rw [← record?_eq_some_iff.mp found] at has
    have bound : index < p.fields.length := (List.getElem?_eq_some_iff.mp (position p memP)).1
    obtain ⟨others, w, value, inside⟩ := (Record.mem_withField bound).mp has
    exact ⟨p, memP, (Record.mem_toTy_iff (position p memP)).mpr
      ⟨others, w, value, (mem_iff_members f.2 w).mpr ⟨m, memM, inside⟩⟩⟩
  · rintro ⟨p, memP, has⟩
    have bound : index < p.fields.length := (List.getElem?_eq_some_iff.mp (position p memP)).1
    obtain ⟨others, w, value, inside⟩ := (Record.mem_toTy_iff (position p memP)).mp has
    obtain ⟨m, memM, inside⟩ := (mem_iff_members f.2 w).mp inside
    have replaced := (Record.mem_withField bound).mpr ⟨others, w, value, inside⟩
    have found := record?_withField replaced
    refine ⟨_, mem_flatMap.mpr ⟨p, memP, mem_filterMap.mpr ⟨m, memM, found⟩⟩, ?_⟩
    rw [← record?_eq_some_iff.mp found]
    exact replaced

theorem splitField_keeps {P : Record → Prop} (hereditary : Hereditary P)
    (each : ∀ p ∈ partials, P p) : ∀ s ∈ splitField partials index f.2.members, P s := by
  intro s mem
  obtain ⟨p, memP, mem⟩ := mem_flatMap.mp mem
  obtain ⟨m, memM, found⟩ := mem_filterMap.mp mem
  exact hereditary p (each p memP) index f (position p memP) m memM s found

omit position in
theorem getElem?_of_mem_splitField {members : List Ty} {s : Record}
    (mem : s ∈ splitField partials index members) {j : Nat} (other : j ≠ index) :
    ∃ p ∈ partials, s.fields[j]? = p.fields[j]? := by
  obtain ⟨p, memP, mem⟩ := mem_flatMap.mp mem
  obtain ⟨m, _, found⟩ := mem_filterMap.mp mem
  exact ⟨p, memP, by rw [(fields_of_record? found).2, Record.getElem?_setField_of_ne other]⟩

end Atoms

section Split

variable {P : Record → Prop} (hereditary : Hereditary P)
include hereditary

theorem split_exact (fields : List (String × Ty)) (index : Nat) (partials : List Record)
    (position : ∀ p ∈ partials, ∀ j, p.fields[index + j]? = fields[j]?)
    (holds : ∀ p ∈ partials, P p) :
    let result := (fields.zipIdx index).foldl (fun partials (field, index) =>
      if field.2.members.length < 2 then partials
      else splitField partials index field.2.members) partials
    (∀ s ∈ result, P s) ∧ ∀ v, Covers result v ↔ Covers partials v := by
  induction fields generalizing index partials with
  | nil => exact ⟨holds, fun v => Iff.rfl⟩
  | cons f rest ih =>
    have here : ∀ p ∈ partials, p.fields[index]? = some f := fun p mem => position p mem 0
    rw [zipIdx_cons, foldl_cons]
    by_cases single : f.2.members.length < 2
    · simp only [if_pos single]
      refine ih (index + 1) partials (fun p mem j => ?_) holds
      rw [Nat.add_assoc, Nat.add_comm 1 j]
      exact position p mem (j + 1)
    · simp only [if_neg single]
      have next : ∀ s ∈ splitField partials index f.2.members, ∀ j,
          s.fields[index + 1 + j]? = rest[j]? := by
        intro s mem j
        obtain ⟨p, memP, same⟩ := getElem?_of_mem_splitField mem (j := index + 1 + j) (by omega)
        rw [same, Nat.add_assoc, Nat.add_comm 1 j]
        exact position p memP (j + 1)
      obtain ⟨each, values⟩ := ih (index + 1) _ next (splitField_keeps here hereditary holds)
      exact ⟨each, fun v => (values v).trans (covers_splitField here)⟩

/-- The atoms of a struct type have its records, and its hereditary properties. -/
theorem atoms_exact {r : Record} (holds : P r) :
    (∀ s ∈ atoms r, P s) ∧ ∀ v, Covers (atoms r) v ↔ v ∈ r.toTy := by
  have single : ∀ v, Covers [r] v ↔ v ∈ r.toTy := by simp [Covers]
  unfold atoms
  split
  · exact ⟨by simpa using holds, single⟩
  · have holdsSingle : ∀ p ∈ [r], P p := by simpa using holds
    obtain ⟨each, values⟩ := split_exact hereditary r.fields 0 [r] (by simp) holdsSingle
    exact ⟨each, fun v => (values v).trans (single v)⟩

end Split

/-- An item gives way to another one: it is inside that one, which is not inside it or comes
earlier. -/
def GivesWay (x y : Record × Nat) : Prop :=
  x.2 ≠ y.2 ∧ Inside x.1.toTy y.1.toTy ∧ (¬ Inside y.1.toTy x.1.toTy ∨ y.2 < x.2)

/-- Giving way is transitive among items that are told apart by their positions. -/
theorem GivesWay.trans {x y z : Record × Nat} (same : x.2 = z.2 → x.1 = z.1)
    (first : GivesWay x y) (second : GivesWay y z) : GivesWay x z := by
  obtain ⟨_, insideXY, backYX⟩ := first
  obtain ⟨_, insideYZ, backZY⟩ := second
  refine ⟨fun position => ?_, insideXY.trans insideYZ, ?_⟩
  · -- Items inside each other give way to the earlier one, so there is no way back.
    have item := same position
    rw [← item] at insideYZ backZY
    have left := backYX.resolve_left (not_not_intro insideYZ)
    have right := backZY.resolve_left (not_not_intro insideXY)
    omega
  · by_cases back : Inside z.1.toTy x.1.toTy
    · have left := backYX.resolve_left (not_not_intro (insideYZ.trans back))
      have right := backZY.resolve_left (not_not_intro (back.trans insideXY))
      exact .inr (by omega)
    · exact .inl back

theorem not_givesWay_self (x : Record × Nat) : ¬ GivesWay x x := fun gives => gives.1 rfl

section Dropping

variable {items : List (Record × Nat)}
  (positions : ∀ x ∈ items, ∀ y ∈ items, x.2 = y.2 → x.1 = y.1)
include positions

/-- Every item is inside one that gives way to none. -/
theorem exists_inside_kept (refl : ∀ x ∈ items, Inside x.1.toTy x.1.toTy) {x : Record × Nat}
    (mem : x ∈ items) :
    ∃ z ∈ items, (∀ y ∈ items, ¬ GivesWay z y) ∧ Inside x.1.toTy z.1.toTy := by
  let above (x y : {p // p ∈ items}) : Prop := GivesWay y.1 x.1
  have trans : IsTrans _ above := ⟨fun x y z first second =>
    second.trans (positions _ z.2 _ x.2) first⟩
  have irrefl : Std.Irrefl above := ⟨fun x => not_givesWay_self x.1⟩
  have wellFounded : WellFounded above := Finite.wellFounded_of_trans_of_irrefl above
  suffices ∀ x : {p // p ∈ items}, ∃ z ∈ items, (∀ y ∈ items, ¬ GivesWay z y) ∧
      Inside x.1.1.toTy z.1.toTy from this ⟨x, mem⟩
  intro x
  induction x using wellFounded.induction with
  | _ x ih =>
    by_cases kept : ∀ y ∈ items, ¬ GivesWay x.1 y
    · exact ⟨x.1, x.2, kept, refl x.1 x.2⟩
    · obtain ⟨y, memY, gives⟩ : ∃ y ∈ items, GivesWay x.1 y := by
        simpa only [not_forall, not_not, exists_prop] using kept
      obtain ⟨z, memZ, keptZ, inside⟩ := ih ⟨y, memY⟩ gives
      exact ⟨z, memZ, keptZ, gives.2.1.trans inside⟩

end Dropping

section DropSubsumed

variable {lower : Algebra} (lawful : inv.Lawful n lower)
include lawful

/-- The test for being dropped decides whether an item gives way. -/
theorem subsumed_decides {items : List (Record × Nat)} {a : Record} (i : Nat)
    (fitsA : inv.Fits (n + 1) a.toTy) (fits : ∀ y ∈ items, inv.Fits (n + 1) y.1.toTy) :
    Decides (subsumed lower items a i) (∃ y ∈ items, GivesWay (a, i) y) := by
  refine Decides.anyM fun y mem => ?_
  obtain ⟨b, j⟩ := y
  have fitsB := fits _ mem
  by_cases same : i = j
  · simp only [if_pos same]
    exact Decides.pure (by simp [GivesWay, same])
  · simp only [if_neg same]
    refine Decides.ite (subset_decides lawful fitsA fitsB) (fun inside => ?_) fun outside => ?_
    · refine Yields.bind (subset_decides lawful fitsB fitsA) fun back holds => Decides.pure ?_
      simp [GivesWay, same, inside, ← holds]
    · exact Decides.pure (by simp [GivesWay, outside])

theorem dropSubsumed_exact {items : List Record} (fits : ∀ r ∈ items, inv.Fits (n + 1) r.toTy) :
    Yields (dropSubsumed lower items) fun kept => kept.Sublist items ∧
      (∀ v, Covers kept v ↔ Covers items v) ∧
      ∀ a ∈ kept, ∀ b ∈ kept, a ≠ b → ¬ Inside a.toTy b.toTy := by
  have member (x : Record × Nat) : x ∈ items.zipIdx ↔ items[x.2]? = some x.1 := by
    rw [← mem_zipIdx_iff_getElem?]
  have positions : ∀ x ∈ items.zipIdx, ∀ y ∈ items.zipIdx, x.2 = y.2 → x.1 = y.1 := by
    intro x memX y memY same
    rw [member] at memX memY
    rw [same, memY] at memX
    exact (Option.some.inj memX).symm
  have fitsAll : ∀ x ∈ items.zipIdx, inv.Fits (n + 1) x.1.toTy :=
    fun x mem => fits x.1 (mem_of_getElem? ((member x).mp mem))
  have test : ∀ x ∈ items.zipIdx,
      Decides (do return !(← subsumed lower items.zipIdx x.1 x.2))
        (∀ y ∈ items.zipIdx, ¬ GivesWay x y) := by
    intro x mem
    refine Yields.bind (subsumed_decides lawful x.2 (fitsAll x mem) fitsAll) fun b holds => ?_
    refine Decides.pure ?_
    rw [Bool.not_eq_true', ← Bool.not_eq_true, holds, not_exists]
    exact forall_congr' fun y => not_and
  refine Yields.bind (Decides.filterM test) fun kept ⟨sublist, members⟩ => Yields.pure ⟨?_, ?_, ?_⟩
  · simpa only [zipIdx_map_fst] using sublist.map Prod.fst
  · intro v
    constructor
    · rintro ⟨r, mem, has⟩
      obtain ⟨x, memX, rfl⟩ := mem_map.mp mem
      exact ⟨x.1, mem_of_getElem? ((member x).mp ((members x).mp memX).1), has⟩
    · rintro ⟨r, mem, has⟩
      obtain ⟨i, position⟩ := mem_iff_getElem?.mp mem
      obtain ⟨z, memZ, keptZ, inside⟩ := exists_inside_kept positions
        (fun x mem => inside_refl _ (fitsAll x mem).1) ((member (r, i)).mpr position)
      exact ⟨z.1, mem_map_of_mem ((members z).mpr ⟨memZ, keptZ⟩), inside.mem v has⟩
  · intro a memA b memB differ inside
    obtain ⟨x, memX, rfl⟩ := mem_map.mp memA
    obtain ⟨y, memY, rfl⟩ := mem_map.mp memB
    obtain ⟨memX, keptX⟩ := (members x).mp memX
    obtain ⟨memY, keptY⟩ := (members y).mp memY
    have apart : x.2 ≠ y.2 := fun same => differ (positions x memX y memY same)
    -- Neither gives way, so each is inside the other, and then the later one does.
    have stays := keptX y memY
    have staysToo := keptY x memX
    simp only [GivesWay, not_and_or, not_or, not_not, not_lt] at stays staysToo
    have back := (stays.resolve_left (by simpa using apart)).resolve_left (not_not_intro inside)
    have forth := (staysToo.resolve_left (by simpa using apart.symm)).resolve_left
      (not_not_intro back.1)
    omega

end DropSubsumed

end TypeFlow.Structs
