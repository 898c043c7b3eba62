import TypeFlow.Proofs.Exactness
import TypeFlow.Proofs.Results

/-!
# The subset test

A positive answer of the subset test can be trusted: the test decides `Inside`, and what is inside a
type has no values outside of it. Of numbers and texts no positive answer is missed. As `Inside` is
reflexive and transitive, so is the test.
-/

namespace TypeFlow.Ty

open List

/-- Numbers and texts are inside a type as soon as it has all of them, so only structs are in
question. -/
theorem inside_of_structs {shape : String → List String} {a b : Ty} (sound : Sound shape a)
    (proper : a ≠ any) (within : ∀ v, v ∈ a → v ∈ b)
    (structs : ∀ name fields, struct name fields ∈ a.members → Inside (struct name fields) b) :
    Inside a b := by
  have member : ∀ m ∈ a.members, Inside m b := by
    intro m mem
    have value := isValue_of_mem_members sound proper mem
    cases m with
    | number n =>
      exact fun x has => within _ ((mem_iff_members a _).mpr ⟨_, mem, mem_number_iff.mpr has⟩)
    | string s =>
      exact fun x has => within _ ((mem_iff_members a _).mpr ⟨_, mem, mem_string_iff.mpr has⟩)
    | struct name fields => exact structs name fields mem
    | _ => cases value
  cases a with
  | never => trivial
  | union items => exact inside_union.mpr member
  | any => exact absurd rfl proper
  | _ => exact member _ mem_cons_self

/-- Numbers inside a type by values are inside it. -/
theorem inside_of_numeric {shape : String → List String} {a b : Ty} (sound : Sound shape a)
    (numeric : Numeric a) (within : ∀ v, v ∈ a → v ∈ b) : Inside a b := by
  refine inside_of_structs sound numeric.ne_any within fun name fields mem => ?_
  -- a struct has a record for a value, which is no number
  obtain ⟨v, has⟩ := exists_mem _ (sound.of_mem_members mem).wellFormed (by simp)
  obtain ⟨values, rfl, -⟩ := exists_record_of_mem has
  obtain ⟨x, same⟩ := numeric _ ((mem_iff_members a _).mpr ⟨_, mem, has⟩)
  cases same

/-- The subset test is sound: it always has an answer, and if the answer is positive, every value
of the first type is a value of the second, also where it takes several members of the second type
to cover a number type of the first. If all values of the first type are numbers, a negative
answer is right as well. -/
theorem subset_sound {a b : Ty} (wellFormedA : a.WellFormed) (wellFormedB : b.WellFormed)
    (smallA : a.Small) (smallB : b.Small) (consistent : Consistent [a, b]) :
    ∃ answer, a.subset b = .ok answer ∧
      (answer = true → ∀ v, v ∈ a → v ∈ b) ∧
      (Numeric a → answer = false → ∃ v, v ∈ a ∧ ¬ v ∈ b) := by
  have wellFormed : ∀ t ∈ [a, b], t.WellFormed := by simpa using ⟨wellFormedA, wellFormedB⟩
  have small : ∀ t ∈ [a, b], t.Small := by simpa using ⟨smallA, smallB⟩
  obtain ⟨shape, keeps⟩ := exists_keeps wellFormed small consistent
  have keepsA := keeps a mem_cons_self
  have keepsB := keeps b (mem_cons_of_mem a mem_cons_self)
  obtain ⟨answer, same, inside⟩ := Invariant.subset_decides keepsA keepsB
  refine ⟨answer, same, fun positive v has => (inside.mp positive).mem v has, ?_⟩
  intro numeric negative
  by_contra missing
  push Not at missing
  have positive := inside.mpr (inside_of_numeric keepsA.1 numeric missing)
  rw [negative] at positive
  cases positive

namespace Sample

/-- No member has all the digits, but together the members do. -/
def halves : Ty := union [number (.ints (.fin 0) (.fin 4)), number (.reals (.fin 5) (.fin 20))]

/-- Pairs of digits, and pairs that begin with such a number. -/
def digitPair : Ty := pair digits digitsOrWord

def halvesPair : Ty := union [digits, pair halves any]

end Sample

open Sample

/-- One range covered by two. -/
theorem subset_sound_jointly : digitPair.WellFormed ∧ halvesPair.WellFormed ∧ digitPair.Small ∧
    halvesPair.Small ∧ Consistent [digitPair, halvesPair] ∧
    digitPair.subset halvesPair = .ok true ∧ ∀ v, v ∈ digitPair → v ∈ halvesPair := by
  have wellFormedA : digitPair.WellFormed := by decide
  have wellFormedB : halvesPair.WellFormed := by decide
  have smallA : digitPair.Small := by decide
  have smallB : halvesPair.Small := by decide
  have consistent : Consistent [digitPair, halvesPair] := by decide
  have tested : digitPair.subset halvesPair = .ok true :=
    eq_ok_of_toOption (by decide +kernel)
  obtain ⟨answer, same, sound, -⟩ :=
    subset_sound wellFormedA wellFormedB smallA smallB consistent
  obtain rfl := Except.ok.inj (tested.symm.trans same)
  exact ⟨wellFormedA, wellFormedB, smallA, smallB, consistent, tested, sound rfl⟩

/-- The subset test is a preorder: every type is a subset of itself, and a subset of a subset is a
subset, whether it takes one member or several to cover another. Types that are subsets of each
other have the same values. -/
theorem subset_preorder {a b c : Ty} (wellFormed : ∀ t ∈ [a, b, c], t.WellFormed)
    (small : ∀ t ∈ [a, b, c], t.Small) (consistent : Consistent [a, b, c]) :
    a.subset a = .ok true ∧
      (a.subset b = .ok true → b.subset c = .ok true → a.subset c = .ok true) ∧
      (a.subset b = .ok true → b.subset a = .ok true → ∀ v, v ∈ a ↔ v ∈ b) := by
  obtain ⟨shape, keeps⟩ := exists_keeps wellFormed small consistent
  have keepsA := keeps a (by simp)
  have keepsB := keeps b (by simp)
  have keepsC := keeps c (by simp)
  have decided {s t : Ty} (keepsS : (Invariant.sound shape).Keeps s)
      (keepsT : (Invariant.sound shape).Keeps t) : s.subset t = .ok true ↔ Inside s t := by
    obtain ⟨answer, same, inside⟩ := Invariant.subset_decides keepsS keepsT
    rw [same, Except.ok.injEq, inside]
  rw [decided keepsA keepsA, decided keepsA keepsB, decided keepsB keepsC, decided keepsA keepsC,
    decided keepsB keepsA]
  refine ⟨inside_refl a keepsA.1, Inside.trans, fun forth back v => ⟨forth.mem v, back.mem v⟩⟩

namespace Sample

/-- Numbers, and pairs that begin with a number from 0 to 20. -/
def rangePair : Ty := union [number .all, pair (number (.reals (.fin 0) (.fin 20))) any]

end Sample

/-- Three pairs, each inside the next. -/
theorem subset_preorder_jointly : (∀ t ∈ [digitPair, halvesPair, rangePair], t.WellFormed) ∧
    (∀ t ∈ [digitPair, halvesPair, rangePair], t.Small) ∧
    Consistent [digitPair, halvesPair, rangePair] ∧ digitPair.subset halvesPair = .ok true ∧
    halvesPair.subset rangePair = .ok true ∧ digitPair.subset rangePair = .ok true := by
  have wellFormed : ∀ t ∈ [digitPair, halvesPair, rangePair], t.WellFormed := by decide
  have small : ∀ t ∈ [digitPair, halvesPair, rangePair], t.Small := by decide
  have consistent : Consistent [digitPair, halvesPair, rangePair] := by decide
  have first : digitPair.subset halvesPair = .ok true := eq_ok_of_toOption (by decide +kernel)
  have second : halvesPair.subset rangePair = .ok true := eq_ok_of_toOption (by decide +kernel)
  obtain ⟨-, trans, -⟩ := subset_preorder wellFormed small consistent
  exact ⟨wellFormed, small, consistent, first, second, trans first second⟩

/-- The type is neither a struct nor `any`. -/
def FlatHere : Ty → Prop
  | struct _ _ => False
  | any => False
  | _ => True

instance (t : Ty) : Decidable t.FlatHere := by
  rcases t <;> dsimp only [FlatHere] <;> infer_instance

/-- The type is made of numbers and texts. -/
def Flat (t : Ty) : Prop := t.Everywhere FlatHere
deriving Decidable

/-- Flat types are not `any`. -/
theorem Flat.ne_any {t : Ty} (flat : t.Flat) : t ≠ any := by
  rintro rfl
  exact everywhere_any.mp flat

/-- Flat types have no structs. -/
theorem Flat.not_mem_members {t : Ty} (flat : t.Flat) {name : String}
    {fields : List (String × Ty)} : struct name fields ∉ t.members := by
  intro mem
  cases t with
  | union items => exact (everywhere_struct.mp ((everywhere_union.mp flat).2 _ mem)).1
  | struct name' fields' => exact (everywhere_struct.mp flat).1
  | _ => simp [members] at mem

/-- Without structs there is nothing that could disagree on its fields. -/
theorem consistent_of_flat {types : List Ty} (flat : ∀ t ∈ types, t.Flat) : Consistent types := by
  intro r mem
  obtain ⟨s, part, found⟩ := mem_filterMap.mp mem
  obtain ⟨t, memT, part⟩ := mem_partsOfItems.mp part
  rw [Structs.record?_eq_some_iff.mp found] at part
  exact absurd (flat t memT _ part) not_false

/-- On numbers and texts the subset test is complete: it always has an answer, and the answer is
positive exactly when every value of the first type is a value of the second, however many
literals and ranges of the second it takes to cover a range of the first. -/
theorem subset_complete {a b : Ty} (wellFormedA : a.WellFormed) (wellFormedB : b.WellFormed)
    (smallA : a.Small) (smallB : b.Small) (flatA : a.Flat) (flatB : b.Flat) :
    ∃ answer, a.subset b = .ok answer ∧ (answer = true ↔ ∀ v, v ∈ a → v ∈ b) := by
  have wellFormed : ∀ t ∈ [a, b], t.WellFormed := by simpa using ⟨wellFormedA, wellFormedB⟩
  have small : ∀ t ∈ [a, b], t.Small := by simpa using ⟨smallA, smallB⟩
  have flat : ∀ t ∈ [a, b], t.Flat := by simpa using ⟨flatA, flatB⟩
  obtain ⟨shape, keeps⟩ := exists_keeps wellFormed small (consistent_of_flat flat)
  have keepsA := keeps a mem_cons_self
  have keepsB := keeps b (mem_cons_of_mem a mem_cons_self)
  obtain ⟨answer, same, inside⟩ := Invariant.subset_decides keepsA keepsB
  refine ⟨answer, same, inside.trans ⟨Inside.mem, fun within => ?_⟩⟩
  exact inside_of_structs keepsA.1 flatA.ne_any within
    fun name fields mem => absurd mem flatA.not_mem_members

namespace Sample

/-- A literal, a range of whole numbers and two other ranges, which have the digits together. -/
def mosaic : Ty := union [number (.literal (.fin 0)), number (.ints (.fin 4) (.fin 6)),
  number (.reals (.fin 1) (.fin 3)), number (.reals (.fin 7) (.fin 9)), string .all]

end Sample

/-- A range and a word in a mosaic. -/
theorem subset_complete_mosaic : digitsOrWord.WellFormed ∧ mosaic.WellFormed ∧
    digitsOrWord.Small ∧ mosaic.Small ∧ digitsOrWord.Flat ∧ mosaic.Flat ∧
    digitsOrWord.subset mosaic = .ok true ∧ ∀ v, v ∈ digitsOrWord → v ∈ mosaic := by
  have wellFormedA : digitsOrWord.WellFormed := by decide
  have wellFormedB : mosaic.WellFormed := by decide
  have smallA : digitsOrWord.Small := by decide
  have smallB : mosaic.Small := by decide
  have flatA : digitsOrWord.Flat := by decide
  have flatB : mosaic.Flat := by decide
  have tested : digitsOrWord.subset mosaic = .ok true := eq_ok_of_toOption (by decide +kernel)
  obtain ⟨answer, same, complete⟩ :=
    subset_complete wellFormedA wellFormedB smallA smallB flatA flatB
  obtain rfl := Except.ok.inj (tested.symm.trans same)
  exact ⟨wellFormedA, wellFormedB, smallA, smallB, flatA, flatB, tested, complete.mp rfl⟩

end TypeFlow.Ty
