import TypeFlow.Proofs.Values

/-!
# One type inside another

`Inside` says what the subset test decides: numbers and texts are compared by what they have, a
struct has to be inside a single struct of the other type field by field. It implies that all
values are shared, and it is reflexive and transitive, so that of types inside each other it does
not matter which ones are dropped.
-/

namespace TypeFlow.Ty

open List

mutual
/-- What the test for subsets decides. -/
def Inside : Ty → Ty → Prop
  | .never, _ => True
  | .any, b => b = any
  | .number n, b => ∀ x, n.has x = true → Value.number x ∈ b
  | .string s, b => ∀ x, s.has x = true → Value.string x ∈ b
  | .struct name fields, b =>
    b = any ∨ ∃ fields', struct name fields' ∈ b.members ∧ InsideFields fields fields'
  | .union items, b => InsideItems items b
/-- `Inside` field by field. -/
def InsideFields : List (String × Ty) → List (String × Ty) → Prop
  | [], [] => True
  | f :: fields, f' :: fields' => f.1 = f'.1 ∧ Inside f.2 f'.2 ∧ InsideFields fields fields'
  | _, _ => False
/-- `Inside` for each item. -/
def InsideItems : List Ty → Ty → Prop
  | [], _ => True
  | t :: rest, b => Inside t b ∧ InsideItems rest b
end

variable {b a m : Ty} {fields fields' : List (String × Ty)}

/-- Being inside item by item. -/
theorem insideItems_iff {items : List Ty} : InsideItems items b ↔ ∀ t ∈ items, Inside t b := by
  induction items with
  | nil => simp [InsideItems]
  | cons t rest ih => simp [InsideItems, ih]

/-- A union is inside if its items are. -/
theorem inside_union {items : List Ty} : Inside (union items) b ↔ ∀ t ∈ items, Inside t b := by
  rw [Inside, insideItems_iff]

/-- Everything is inside `any`. -/
theorem inside_any (a : Ty) : Inside a any := by
  induction a using Ty.induction with
  | union items each => exact inside_union.mpr each
  | _ => simp [Inside, mem_any]

/-- Members of what is inside are inside. -/
theorem Inside.of_mem_members (inside : Inside a b) (mem : m ∈ a.members) : Inside m b := by
  cases a with
  | never => cases mem
  | union items => exact inside_union.mp inside m mem
  | _ =>
    rw [mem_singleton.mp mem]
    exact inside

/-- Records stay records when fields grow. -/
theorem hasFields_of_inside (each : ∀ f ∈ fields, ∀ b, Inside f.2 b → ∀ v, v ∈ f.2 → v ∈ b)
    (inside : InsideFields fields fields') {values : List (String × Value)}
    (holds : hasFields fields values = true) : hasFields fields' values = true := by
  induction fields generalizing fields' values with
  | nil =>
    cases fields' with
    | nil => exact holds
    | cons f' rest' => cases inside
  | cons f rest ih =>
    cases fields' with
    | nil => cases inside
    | cons f' rest' =>
      obtain ⟨name, head, tail⟩ := inside
      cases values with
      | nil => exact absurd holds hasFields_cons_nil
      | cons w values =>
        obtain ⟨same, has, others⟩ := hasFields_cons_cons.mp holds
        exact hasFields_cons_cons.mpr ⟨same.trans name, each f mem_cons_self _ head _ has,
          ih (fun g mem => each g (mem_cons_of_mem f mem)) tail others⟩

/-- What is inside has no other values. -/
theorem Inside.mem (inside : Inside a b) (v : Value) (has : v ∈ a) : v ∈ b := by
  induction a using Ty.induction generalizing b v with
  | never => exact absurd has (not_mem_never v)
  | number n =>
    obtain ⟨x, rfl, member⟩ := exists_number_of_mem has
    exact inside x member
  | string s =>
    obtain ⟨x, rfl, member⟩ := exists_string_of_mem has
    exact inside x member
  | struct name fields each =>
    obtain rfl | ⟨fields', mem, fieldwise⟩ := inside
    · exact mem_any v
    · obtain ⟨values, rfl, holds⟩ := exists_record_of_mem has
      have other :=
        hasFields_of_inside (fun f mem b inside v => each f mem inside v) fieldwise holds
      exact (mem_iff_members b _).mpr ⟨_, mem, record_mem_iff.mpr ⟨rfl, other⟩⟩
  | union items each =>
    obtain ⟨t, mem, has⟩ := (mem_union_iff items v).mp has
    exact each t mem (inside_union.mp inside t mem) v has
  | any =>
    rw [show b = any from inside]
    exact mem_any v

/-- What is inside has the same kind. -/
theorem Inside.kind?_eq (inside : Inside a b) (wellFormed : a.WellFormed)
    (valueA : a.isValue = true) (valueB : b.isValue = true) : a.kind? = b.kind? := by
  by_contra differ
  have proper : a ≠ never := by
    rintro rfl
    cases valueA
  obtain ⟨v, member⟩ := exists_mem a wellFormed proper
  exact not_mem_of_kind_ne valueA valueB differ v ⟨member, inside.mem v member⟩

/-- Fields inside fields inside fields. -/
theorem insideFields_trans {fields fields' fields'' : List (String × Ty)}
    (each : ∀ f ∈ fields, ∀ b c, Inside f.2 b → Inside b c → Inside f.2 c)
    (first : InsideFields fields fields') (second : InsideFields fields' fields'') :
    InsideFields fields fields'' := by
  induction fields generalizing fields' fields'' with
  | nil =>
    cases fields' with
    | nil => exact second
    | cons f' rest' => cases first
  | cons f rest ih =>
    cases fields' with
    | nil => cases first
    | cons f' rest' =>
      cases fields'' with
      | nil => cases second
      | cons f'' rest'' =>
        obtain ⟨name, head, tail⟩ := first
        obtain ⟨name', head', tail'⟩ := second
        exact ⟨name.trans name', each f mem_cons_self _ _ head head',
          ih (fun g mem => each g (mem_cons_of_mem f mem)) tail tail'⟩

/-- Being inside is transitive. -/
theorem Inside.trans {a b c : Ty} (first : Inside a b) (second : Inside b c) : Inside a c := by
  induction a using Ty.induction generalizing b c with
  | never => trivial
  | number n => exact fun x member => second.mem _ (first x member)
  | string s => exact fun x member => second.mem _ (first x member)
  | struct name fields each =>
    obtain rfl | ⟨fields', mem, fieldwise⟩ := first
    · exact .inl second
    · obtain rfl | ⟨fields'', mem', fieldwise'⟩ := second.of_mem_members mem
      · exact inside_any _
      · exact .inr ⟨fields'', mem',
          insideFields_trans (fun f mem b c => each f mem) fieldwise fieldwise'⟩
  | union items each =>
    rw [inside_union] at first ⊢
    exact fun t mem => each t mem (first t mem) second
  | any =>
    rw [show b = any from first] at second
    exact second

/-- Fields are inside themselves. -/
theorem insideFields_refl (each : ∀ f ∈ fields, Inside f.2 f.2) : InsideFields fields fields := by
  induction fields with
  | nil => trivial
  | cons f rest ih =>
    exact ⟨rfl, each f mem_cons_self, ih fun g mem => each g (mem_cons_of_mem f mem)⟩

/-- A number, text or struct that is inside itself is inside any union that lists it. -/
theorem Inside.of_self (value : m.isValue = true) (self : Inside m m)
    (mem : m ∈ b.members) : Inside m b := by
  cases m with
  | number n => exact fun x member => (mem_iff_members b _).mpr ⟨_, mem, mem_number_iff.mpr member⟩
  | string s => exact fun x member => (mem_iff_members b _).mpr ⟨_, mem, mem_string_iff.mpr member⟩
  | struct name fields =>
    rcases self with same | ⟨fields', single, fieldwise⟩
    · cases same
    · obtain ⟨_, rfl⟩ := struct.inj (mem_singleton.mp single)
      exact .inr ⟨fields', mem, fieldwise⟩
  | _ => cases value

/-- A sound type is inside itself. -/
theorem inside_refl {shape : String → List String} (t : Ty) (sound : Sound shape t) :
    Inside t t := by
  induction t using Ty.induction with
  | never => trivial
  | number n => exact fun x member => mem_number_iff.mpr member
  | string s => exact fun x member => mem_string_iff.mpr member
  | struct name fields each =>
    have fieldsSound := (sound_struct.mp sound).2
    exact .inr ⟨fields, mem_singleton_self _,
      insideFields_refl fun f mem => each f mem (fieldsSound f mem).2⟩
  | union items each =>
    obtain ⟨⟨_, values, _⟩, itemsSound⟩ := sound_union.mp sound
    exact inside_union.mpr fun t mem =>
      (each t mem (itemsSound t mem)).of_self (values t mem) mem
  | any => rfl

end TypeFlow.Ty
