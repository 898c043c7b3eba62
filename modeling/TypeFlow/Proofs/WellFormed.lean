import TypeFlow.Algebra.Structs
import TypeFlow.Proofs.Num.Sets
import TypeFlow.Proofs.Order

/-!
# Well-formed types

A type is well formed when every range in it has bounds in order, no struct has an empty field,
and every union has at least two members that are numbers, texts or structs, in canonical order.
Types go together when structs of one name have the same field names everywhere in them. The
operations of the algebra keep a little less and a little more than this, which is `Sound`: steps
of one from the bounds are exact, and the field names of a struct are a function of its name.
-/

namespace TypeFlow.Ty

open List

mutual
/-- A type and all types inside it. -/
def parts : Ty → List Ty
  | .struct name fields => .struct name fields :: partsOfFields fields
  | .union items => .union items :: partsOfItems items
  | t => [t]
/-- `parts` of all fields. -/
def partsOfFields : List (String × Ty) → List Ty
  | [] => []
  | (_, t) :: rest => parts t ++ partsOfFields rest
/-- `parts` of all items. -/
def partsOfItems : List Ty → List Ty
  | [] => []
  | t :: rest => parts t ++ partsOfItems rest
end

theorem mem_partsOfFields {s : Ty} {fields : List (String × Ty)} :
    s ∈ partsOfFields fields ↔ ∃ f ∈ fields, s ∈ f.2.parts := by
  induction fields with
  | nil => simp [partsOfFields]
  | cons f rest ih => simp [partsOfFields, ih]

theorem mem_partsOfItems {s : Ty} {items : List Ty} :
    s ∈ partsOfItems items ↔ ∃ t ∈ items, s ∈ t.parts := by
  induction items with
  | nil => simp [partsOfItems]
  | cons t rest ih => simp [partsOfItems, ih]

/-- A property holds of a type and of all types inside it. -/
def Everywhere (P : Ty → Prop) (t : Ty) : Prop := ∀ s ∈ t.parts, P s

instance (P : Ty → Prop) [DecidablePred P] (t : Ty) : Decidable (t.Everywhere P) :=
  inferInstanceAs (Decidable (∀ s ∈ t.parts, P s))

section Everywhere

variable {P : Ty → Prop}

theorem everywhere_struct {name : String} {fields : List (String × Ty)} :
    (struct name fields).Everywhere P ↔
      P (struct name fields) ∧ ∀ f ∈ fields, f.2.Everywhere P := by
  show (∀ s ∈ struct name fields :: partsOfFields fields, P s) ↔ _
  simp only [forall_mem_cons, mem_partsOfFields]
  exact and_congr_right fun _ =>
    ⟨fun each f mem s part => each s ⟨f, mem, part⟩, fun each s ⟨f, mem, part⟩ => each f mem s part⟩

theorem everywhere_union {items : List Ty} :
    (union items).Everywhere P ↔ P (union items) ∧ ∀ t ∈ items, t.Everywhere P := by
  show (∀ s ∈ union items :: partsOfItems items, P s) ↔ _
  simp only [forall_mem_cons, mem_partsOfItems]
  exact and_congr_right fun _ =>
    ⟨fun each t mem s part => each s ⟨t, mem, part⟩, fun each s ⟨t, mem, part⟩ => each t mem s part⟩

/-- A type that is its own only part has a property everywhere if it has the property. -/
theorem everywhere_of_parts_eq {t : Ty} (alone : t.parts = [t]) : t.Everywhere P ↔ P t := by
  simp [Everywhere, alone]

@[simp] theorem everywhere_never : never.Everywhere P ↔ P never := everywhere_of_parts_eq rfl

@[simp] theorem everywhere_any : any.Everywhere P ↔ P any := everywhere_of_parts_eq rfl

@[simp] theorem everywhere_number {n : NumberTy} : (number n).Everywhere P ↔ P (number n) :=
  everywhere_of_parts_eq rfl

@[simp] theorem everywhere_string {s : StringTy} : (string s).Everywhere P ↔ P (string s) :=
  everywhere_of_parts_eq rfl

theorem Everywhere.of_mem_members {t m : Ty} (everywhere : t.Everywhere P) (mem : m ∈ t.members) :
    m.Everywhere P := by
  cases t with
  | never => cases mem
  | union items => exact (everywhere_union.mp everywhere).2 m mem
  | _ =>
    rw [mem_singleton.mp mem]
    exact everywhere

end Everywhere

/-- What is asked of the members of a union: two or more numbers, texts or structs in canonical
order. -/
def ProperUnion (items : List Ty) : Prop :=
  2 ≤ items.length ∧ (∀ t ∈ items, t.isValue = true) ∧ Increasing compare items
deriving Decidable

/-- What is asked of a type apart from the types inside it. -/
def Proper : Ty → Prop
  | number n => n.Valid
  | struct _ fields => ∀ f ∈ fields, f.2 ≠ never
  | union items => ProperUnion items
  | _ => True

instance (t : Ty) : Decidable t.Proper := by
  rcases t <;> dsimp only [Proper] <;> infer_instance

/-- Bounds are in order, no field is empty and unions are proper, everywhere in the type. -/
def WellFormed (t : Ty) : Prop := t.Everywhere Proper
deriving Decidable

/-- The finite numbers of a number type are small. -/
def SmallHere : Ty → Prop
  | number n => n.Small
  | _ => True

instance (t : Ty) : Decidable t.SmallHere := by
  rcases t <;> dsimp only [SmallHere] <;> infer_instance

/-- Every finite number in the type has a magnitude below `2 ^ 53`. -/
def Small (t : Ty) : Prop := t.Everywhere SmallHere
deriving Decidable

/-- The struct types that occur in a list of types. -/
def records (types : List Ty) : List Record := (partsOfItems types).filterMap record?

/-- Structs of one name have the same field names in the same order. -/
def Consistent (types : List Ty) : Prop :=
  ∀ a ∈ records types, ∀ b ∈ records types, a.name = b.name → a.sameShape b = true
deriving Decidable

/-- What the algebra keeps of a type apart from the types inside it, where `shape` gives the
field names of the structs of each name. -/
def SoundHere (shape : String → List String) : Ty → Prop
  | number n => n.Tame
  | struct name fields => fields.map (·.1) = shape name ∧ ∀ f ∈ fields, f.2 ≠ never
  | union items => ProperUnion items
  | _ => True

/-- What the algebra keeps of a type. -/
def Sound (shape : String → List String) (t : Ty) : Prop := t.Everywhere (SoundHere shape)

section Sound

variable {shape : String → List String}

@[simp] theorem sound_never : Sound shape never := everywhere_never.mpr trivial

@[simp] theorem sound_any : Sound shape any := everywhere_any.mpr trivial

@[simp] theorem sound_string {s : StringTy} : Sound shape (string s) :=
  everywhere_string.mpr trivial

@[simp] theorem sound_number {n : NumberTy} : Sound shape (number n) ↔ n.Tame := everywhere_number

theorem sound_struct {name : String} {fields : List (String × Ty)} :
    Sound shape (struct name fields) ↔
      fields.map (·.1) = shape name ∧ ∀ f ∈ fields, f.2 ≠ never ∧ Sound shape f.2 := by
  simp only [Sound, everywhere_struct, SoundHere, and_assoc, ← forall_and]

theorem sound_union {items : List Ty} :
    Sound shape (union items) ↔ ProperUnion items ∧ ∀ t ∈ items, Sound shape t := by
  simp only [Sound, everywhere_union, SoundHere]

theorem Sound.of_mem_members {t m : Ty} (sound : Sound shape t) (mem : m ∈ t.members) :
    Sound shape m :=
  Everywhere.of_mem_members sound mem

theorem Sound.wellFormed {t : Ty} (sound : Sound shape t) : t.WellFormed := by
  intro s part
  have here := sound s part
  cases s with
  | number n => exact here.valid
  | struct name fields => exact here.2
  | union items => exact here
  | _ => trivial

/-- Types that go together have their field names by one assignment. -/
theorem exists_shape {types : List Ty} (consistent : Consistent types) :
    ∃ shape : String → List String, ∀ {t name fields}, t ∈ types →
      struct name fields ∈ t.parts → fields.map (·.1) = shape name := by
  let shape (name : String) : List String :=
    (((records types).find? fun r => r.name = name).map fun r => r.fields.map (·.1)).getD []
  refine ⟨shape, fun {t name fields} mem part => ?_⟩
  have found : (⟨name, fields⟩ : Record) ∈ records types :=
    mem_filterMap.mpr ⟨_, mem_partsOfItems.mpr ⟨t, mem, part⟩, rfl⟩
  cases first : (records types).find? fun r => r.name = name with
  | none =>
    rw [find?_eq_none] at first
    exact absurd (decide_eq_true rfl) (first _ found)
  | some r =>
    have accepted := find?_some first
    have same : name = r.name := (of_decide_eq_true accepted).symm
    have agree := consistent _ found r (mem_of_find?_eq_some first) same
    simp only [shape, first, Option.map_some, Option.getD_some]
    exact of_decide_eq_true agree

theorem exists_sound {types : List Ty} (wellFormed : ∀ t ∈ types, t.WellFormed)
    (small : ∀ t ∈ types, t.Small) (consistent : Consistent types) :
    ∃ shape, ∀ t ∈ types, Sound shape t := by
  obtain ⟨shape, names⟩ := exists_shape consistent
  refine ⟨shape, fun t mem s part => ?_⟩
  have proper := wellFormed t mem s part
  have limited := small t mem s part
  cases s with
  | number n => exact NumberTy.tame_of_valid proper limited
  | struct name fields => exact ⟨names mem part, proper⟩
  | union items => exact proper
  | _ => trivial

end Sound

end TypeFlow.Ty
