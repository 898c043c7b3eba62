import Mathlib.Data.List.Forall2
import TypeFlow.Proofs.WellFormed
import TypeFlow.Ty.Value

/-!
# Values of types

Which values the types have that the operations build: from members, from fields, and by
replacing one field. Every well-formed type other than `never` has a value.
-/

namespace TypeFlow

open List

/-- The value of the field at a position. -/
def Value.field? (index : Nat) : Value → Option Value
  | .record _ values => values[index]?.map (·.2)
  | _ => none

namespace Ty

@[simp] theorem mem_number_iff {n : NumberTy} {x : Num} :
    Value.number x ∈ number n ↔ n.has x = true := by
  simp [mem_iff, has]

@[simp] theorem mem_string_iff {s : StringTy} {x : String} :
    Value.string x ∈ string s ↔ s.has x = true := by
  simp [mem_iff, has]

variable {v : Value} {fields : List (String × Ty)} {values : List (String × Value)}
  {f : String × Ty} {t : Ty} {shape : String → List String}

theorem exists_number_of_mem {n : NumberTy} (mem : v ∈ number n) :
    ∃ x, v = .number x ∧ n.has x = true := by
  cases v with
  | number x => exact ⟨x, rfl, mem⟩
  | _ => simp [mem_iff, has] at mem

theorem exists_string_of_mem {s : StringTy} (mem : v ∈ string s) :
    ∃ x, v = .string x ∧ s.has x = true := by
  cases v with
  | string x => exact ⟨x, rfl, mem⟩
  | _ => simp [mem_iff, has] at mem

@[simp] theorem record_mem_iff {name name' : String} :
    Value.record name' values ∈ struct name fields ↔
      name' = name ∧ hasFields fields values = true := by
  simp [mem_iff, has]

theorem exists_record_of_mem {name : String} (mem : v ∈ struct name fields) :
    ∃ values, v = .record name values ∧ hasFields fields values = true := by
  cases v with
  | record name' values =>
    obtain ⟨rfl, holds⟩ := record_mem_iff.mp mem
    exact ⟨values, rfl, holds⟩
  | _ => simp [mem_iff, has] at mem

@[simp] theorem hasFields_nil : hasFields [] values = true ↔ values = [] := by
  cases values <;> simp [hasFields]

@[simp] theorem hasFields_cons_nil : ¬ hasFields (f :: fields) [] = true := by
  simp [hasFields]

@[simp] theorem hasFields_cons_cons {w : String × Value} :
    hasFields (f :: fields) (w :: values) = true ↔
      w.1 = f.1 ∧ w.2 ∈ f.2 ∧ hasFields fields values = true := by
  simp [hasFields, mem_iff, and_assoc]

/-- A type with a field that has no value has no value. -/
theorem not_hasFields_of_never (mem : f ∈ fields) (empty : f.2 = never) :
    ¬ hasFields fields values = true := by
  induction fields generalizing values with
  | nil => cases mem
  | cons g rest ih =>
    cases values with
    | nil => exact hasFields_cons_nil
    | cons w values =>
      rw [hasFields_cons_cons]
      rintro ⟨_, head, tail⟩
      rcases mem_cons.mp mem with rfl | mem
      · exact not_mem_never w.2 (empty ▸ head)
      · exact ih mem tail

/-- The type is not a union. -/
def Single (t : Ty) : Prop := ∀ items, t ≠ union items

theorem single_of_isValue (value : t.isValue = true) : Single t := by
  rintro items rfl
  cases value

theorem members_of_isValue (value : t.isValue = true) : t.members = [t] := by
  cases t with
  | never => cases value
  | union items => cases value
  | _ => rfl

theorem not_mem_of_kind_ne {a b : Ty} (kindA : a.isValue = true) (kindB : b.isValue = true)
    (differ : a.kind? ≠ b.kind?) (v : Value) : ¬ (v ∈ a ∧ v ∈ b) := by
  cases a <;> cases b <;> simp [isValue, kind?] at kindA kindB differ <;> cases v <;>
    simp [mem_iff, has]

theorem isNever_iff : t.isNever = true ↔ t = never := by
  cases t <;> simp [isNever]

/-- A type of given members is one of them, or a union of at least two in canonical order. -/
theorem ofMembers_cases (items : List Ty) :
    (ofMembers items = never ∧ items = []) ∨
      (∃ t, ofMembers items = t ∧ t ∈ items ∧ ∀ s ∈ items, s = t) ∨
      (ofMembers items = union (Sorted.ofList compare items) ∧
        2 ≤ (Sorted.ofList compare items).length) := by
  have members : ∀ t, t ∈ Sorted.ofList compare items ↔ t ∈ items := fun t => Sorted.mem_ofList
  unfold ofMembers
  split
  · next empty =>
    left
    refine ⟨rfl, eq_nil_iff_forall_not_mem.mpr fun t mem => ?_⟩
    rw [← members, empty] at mem
    cases mem
  · next t single =>
    right; left
    simp only [single, mem_singleton] at members
    exact ⟨t, rfl, (members t).mp rfl, fun s mem => (members s).mpr mem⟩
  · next notEmpty notSingle =>
    right; right
    refine ⟨rfl, ?_⟩
    cases sorted : Sorted.ofList compare items with
    | nil => exact absurd sorted notEmpty
    | cons t rest =>
      cases rest with
      | nil => exact absurd sorted (notSingle t)
      | cons s rest => simp

theorem mem_ofMembers {items : List Ty} : v ∈ ofMembers items ↔ ∃ t ∈ items, v ∈ t := by
  rcases ofMembers_cases items with ⟨never, empty⟩ | ⟨t, single, mem, only⟩ | ⟨several, _⟩
  · rw [never]
    simp [empty, not_mem_never]
  · rw [single]
    exact ⟨fun has => ⟨t, mem, has⟩, fun ⟨s, mem, has⟩ => only s mem ▸ has⟩
  · simp only [several, mem_union_iff, Sorted.mem_ofList]

theorem sound_ofMembers {items : List Ty} (values : ∀ t ∈ items, t.isValue = true)
    (sound : ∀ t ∈ items, Sound shape t) : Sound shape (ofMembers items) := by
  rcases ofMembers_cases items with ⟨empty, _⟩ | ⟨t, single, mem, _⟩ | ⟨several, length⟩
  · rw [empty]
    exact sound_never
  · rw [single]
    exact sound t mem
  · rw [several, sound_union]
    refine ⟨⟨length, fun t mem => values t (Sorted.mem_ofList.mp mem),
      Sorted.increasing_ofList items⟩, fun t mem => sound t (Sorted.mem_ofList.mp mem)⟩

theorem exists_hasFields (each : ∀ f ∈ fields, ∃ v, v ∈ f.2) :
    ∃ values, hasFields fields values = true := by
  induction fields with
  | nil => exact ⟨[], hasFields_nil.mpr rfl⟩
  | cons f rest ih =>
    obtain ⟨w, head⟩ := each f mem_cons_self
    obtain ⟨values, tail⟩ := ih fun g mem => each g (mem_cons_of_mem f mem)
    exact ⟨(f.1, w) :: values, hasFields_cons_cons.mpr ⟨rfl, head, tail⟩⟩

theorem exists_mem (t : Ty) (wellFormed : t.WellFormed) (proper : t ≠ never) : ∃ v, v ∈ t := by
  induction t using Ty.induction with
  | never => exact absurd rfl proper
  | number n =>
    have member := NumberTy.has_min (everywhere_number.mp wellFormed)
    exact ⟨.number n.min, mem_number_iff.mpr member⟩
  | string s =>
    cases s with
    | literal x => exact ⟨.string x, by simp [StringTy.has]⟩
    | all => exact ⟨.string "", by simp [StringTy.has]⟩
  | struct name fields each =>
    obtain ⟨notEmpty, fieldsFormed⟩ := everywhere_struct.mp wellFormed
    obtain ⟨values, holds⟩ := exists_hasFields fun f mem =>
      each f mem (fieldsFormed f mem) (notEmpty f mem)
    exact ⟨.record name values, record_mem_iff.mpr ⟨rfl, holds⟩⟩
  | union items each =>
    obtain ⟨⟨length, values, _⟩, itemsFormed⟩ := everywhere_union.mp wellFormed
    obtain ⟨t, mem⟩ : ∃ t, t ∈ items := exists_mem_of_length_pos (by omega)
    have notNever : t ≠ never := by
      rintro rfl
      cases values never mem
    obtain ⟨v, has⟩ := each t mem (itemsFormed t mem) notNever
    exact ⟨v, (mem_union_iff items v).mpr ⟨t, mem, has⟩⟩
  | any => exact ⟨.string "", mem_any _⟩

theorem eq_never_iff (sound : Sound shape t) : t = never ↔ ∀ v, ¬ v ∈ t := by
  constructor
  · rintro rfl
    exact not_mem_never
  · intro empty
    by_contra proper
    obtain ⟨v, member⟩ := exists_mem t sound.wellFormed proper
    exact empty v member

end Ty

namespace Record

open Ty

/-- Building gives a struct type unless a field is empty. -/
theorem build_cases (name : String) (fields : List (String × Ty)) :
    (build name fields = never ∧ ∃ f ∈ fields, f.2 = never) ∨
      (build name fields = struct name fields ∧ ∀ f ∈ fields, f.2 ≠ never) := by
  unfold build
  split
  · next empty =>
    obtain ⟨f, mem, isNever⟩ := any_eq_true.mp empty
    exact .inl ⟨rfl, f, mem, isNever_iff.mp isNever⟩
  · next proper =>
    refine .inr ⟨rfl, fun f mem never => proper (any_eq_true.mpr ⟨f, mem, ?_⟩)⟩
    exact isNever_iff.mpr never

variable {fields : List (String × Ty)} {f : String × Ty} {t : Ty} {index : Nat}

theorem single_build {name : String} : Single (build name fields) := by
  intro items
  rcases build_cases name fields with ⟨empty, _⟩ | ⟨same, _⟩
  · simp [empty]
  · simp [same]

/-- A struct type with an empty field is empty, so building one keeps the values. -/
theorem mem_build {name : String} {v : Value} : v ∈ build name fields ↔ v ∈ struct name fields := by
  rcases build_cases name fields with ⟨empty, f, mem, never⟩ | ⟨same, _⟩
  · rw [empty]
    refine ⟨fun has => absurd has (not_mem_never v), fun has => ?_⟩
    obtain ⟨values, _, holds⟩ := exists_record_of_mem has
    exact absurd holds (not_hasFields_of_never mem never)
  · rw [same]

@[simp] theorem setField_cons_zero : setField (f :: fields) 0 t = (f.1, t) :: fields := by
  simp [setField]

@[simp] theorem setField_cons_succ :
    setField (f :: fields) (index + 1) t = f :: setField fields index t := by
  simp [setField]

@[simp] theorem map_fst_setField : (setField fields index t).map (·.1) = fields.map (·.1) := by
  induction fields generalizing index with
  | nil => simp [setField]
  | cons f rest ih => cases index <;> simp [ih]

theorem getElem?_setField_of_ne {index j : Nat}
    (other : j ≠ index) : (setField fields index t)[j]? = fields[j]? := by
  simp [setField, other.symm]

theorem getElem?_setField_self :
    (setField fields index t)[index]? = fields[index]?.map fun f => (f.1, t) := by
  simp [setField]

theorem setField_self (found : fields[index]? = some f) : setField fields index f.2 = fields := by
  induction fields generalizing index with
  | nil => simp at found
  | cons g rest ih =>
    cases index with
    | zero =>
      obtain rfl : g = f := by simpa using found
      simp
    | succ index => simpa using ih (by simpa using found)

theorem mem_setField {g : String × Ty}
    (mem : g ∈ setField fields index t) : g.2 = t ∨ g ∈ fields := by
  induction fields generalizing index with
  | nil => simp [setField] at mem
  | cons f rest ih =>
    cases index with
    | zero =>
      rw [setField_cons_zero, mem_cons] at mem
      rcases mem with rfl | mem
      · exact .inl rfl
      · exact .inr (mem_cons_of_mem f mem)
    | succ index =>
      rw [setField_cons_succ, mem_cons] at mem
      rcases mem with rfl | mem
      · exact .inr mem_cons_self
      · exact (ih mem).imp_right (mem_cons_of_mem f)

/-- Whether values fit a list of fields with one replaced is told by the value of that one. -/
theorem hasFields_setField (bound : index < fields.length) {values : List (String × Value)} :
    hasFields (setField fields index t) values = true ↔
      hasFields (setField fields index any) values = true ∧
        ∃ w, values[index]?.map (·.2) = some w ∧ w ∈ t := by
  induction fields generalizing index values with
  | nil => simp at bound
  | cons f rest ih =>
    cases values with
    | nil => cases index <;> simp
    | cons w values =>
      cases index with
      | zero => simp [mem_any, and_comm, and_left_comm]
      | succ index => simp [ih (by simpa using bound), and_assoc]

theorem mem_withField {r : Record} (bound : index < r.fields.length) {v : Value} :
    v ∈ r.withField index t ↔
      v ∈ r.withField index any ∧ ∃ w, v.field? index = some w ∧ w ∈ t := by
  rw [withField, withField, mem_build, mem_build]
  cases v with
  | record name values =>
    simp only [record_mem_iff, hasFields_setField (t := t) bound, and_assoc, Value.field?]
  | _ => simp [mem_iff, has]

/-- A struct type has the values that one with the field left open has, if the field fits. -/
theorem mem_toTy_iff {r : Record} (found : r.fields[index]? = some f) {v : Value} :
    v ∈ r.toTy ↔ v ∈ r.withField index any ∧ ∃ w, v.field? index = some w ∧ w ∈ f.2 := by
  have bound : index < r.fields.length := (List.getElem?_eq_some_iff.mp found).1
  rw [← mem_withField bound, withField, mem_build, setField_self found]
  rfl

end Record

end TypeFlow
