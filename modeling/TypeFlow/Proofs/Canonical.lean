import TypeFlow.Proofs.Exactness

/-!
# Canonical types

A type is canonical when it is well-formed and no two members of a union in it could be merged.
Union, intersection and difference keep types canonical. That one type is a subset of another is
said by the test itself here; on sound types it implies `Inside`, which is what the merging of
members goes by.
-/

namespace TypeFlow

open Ty

namespace Ty

/-- The subset test says yes. -/
def IsSubset (a b : Ty) : Prop := subset a b = .ok true

instance (a b : Ty) : Decidable (IsSubset a b) :=
  match answer : subset a b with
  | .ok true => isTrue answer
  | .ok false => isFalse (by simp [IsSubset, answer])
  | .error _ => isFalse (by simp [IsSubset, answer])

instance (a b : Ty) : Decidable (MergeableBy IsSubset a b) := by
  rcases a <;> rcases b <;> dsimp only [MergeableBy] <;> infer_instance

instance (items : List Ty) : Decidable (IrreducibleBy IsSubset items) :=
  inferInstanceAs (Decidable (∀ a ∈ items, ∀ b ∈ items, a ≠ b → ¬ MergeableBy IsSubset a b))

/-- No two members of a union could be merged. -/
def Reduced : Ty → Prop
  | union items => IrreducibleBy IsSubset items
  | _ => True

instance (t : Ty) : Decidable t.Reduced := by
  rcases t <;> dsimp only [Reduced] <;> infer_instance

/-- The type is well-formed, and all unions in it are reduced. -/
def Canonical (t : Ty) : Prop := t.WellFormed ∧ t.Everywhere Reduced
deriving Decidable

/-- What can be merged can be merged under a weaker relation. -/
theorem MergeableBy.mono {R S : Ty → Ty → Prop} {a b : Ty} (forth : R a b → S a b)
    (back : R b a → S b a) (mergeable : MergeableBy R a b) : MergeableBy S a b := by
  cases a <;> cases b <;> try exact mergeable
  obtain ⟨name, cases⟩ := mergeable
  exact ⟨name, cases.imp forth (Or.imp_left back)⟩

/-- What the test finds to be a subset is inside. -/
theorem IsSubset.inside {shape : String → List String} {a b : Ty} (soundA : Sound shape a)
    (soundB : Sound shape b) (subset : IsSubset a b) : Inside a b := by
  have keepsA : (Invariant.sound shape).Keeps a := ⟨soundA, trivial⟩
  have keepsB : (Invariant.sound shape).Keeps b := ⟨soundB, trivial⟩
  obtain ⟨answer, same, holds⟩ := Invariant.subset_decides keepsA keepsB
  rw [IsSubset, same] at subset
  exact holds.mp (Except.ok.inj subset)

end Ty

/-- Soundness, and that all unions are reduced. -/
def Invariant.canonical (shape : String → List String) : Invariant where
  shape := shape
  Extra := Everywhere Reduced
  extra_never := everywhere_never.mpr trivial
  extra_any := everywhere_any.mpr trivial
  extra_number _ _ := everywhere_number.mpr trivial
  extra_string _ := everywhere_string.mpr trivial
  extra_struct _ _ := by simp [everywhere_struct, Reduced]
  extra_item _ extra := (everywhere_union.mp extra).2
  extra_union items each irreducible _ := by
    refine everywhere_union.mpr ⟨?_, fun t mem => (each t mem).2⟩
    intro a memA b memB differ mergeable
    -- The test accepts only what is inside, so it finds nothing to merge either.
    have soundA := (each a memA).1
    have soundB := (each b memB).1
    exact irreducible a memA b memB differ
      (mergeable.mono (IsSubset.inside soundA soundB) (IsSubset.inside soundB soundA))

namespace Ty

/-- What the operations keep is canonical. -/
theorem canonical_of_keeps {shape : String → List String} {t : Ty}
    (keeps : (Invariant.canonical shape).Keeps t) : t.Canonical :=
  ⟨keeps.1.wellFormed, keeps.2⟩

open Sample

/-- Structs of one name that differ in both fields. -/
def Sample.pairs : Ty :=
  union [pair digits (string .all), pair (string (.literal "a")) digitsOrWord]

/-- Union, intersection and difference of canonical types are canonical, with the values they
should have. -/
theorem canonical_results {items : List Ty} (canonical : ∀ t ∈ items, t.Canonical)
    (small : ∀ t ∈ items, t.Small) (consistent : Consistent items) :
    (∃ u, unionOf items = .ok u ∧ u.Canonical ∧ ∀ v, v ∈ u ↔ ∃ t ∈ items, v ∈ t) ∧
    (∃ u, intersectionOf items = .ok u ∧ u.Canonical ∧ ∀ v, v ∈ u ↔ ∀ t ∈ items, v ∈ t) ∧
    ∀ a ∈ items, ∀ b ∈ items, ∃ u, a.without b = .ok u ∧ u.Canonical ∧
      ∀ v, (v ∈ u → v ∈ a) ∧ (v ∈ a → ¬ v ∈ b → v ∈ u) := by
  obtain ⟨shape, sound⟩ := exists_sound (fun t mem => (canonical t mem).1) small consistent
  have keeps : ∀ t ∈ items, (Invariant.canonical shape).Keeps t :=
    fun t mem => ⟨sound t mem, (canonical t mem).2⟩
  refine ⟨?_, ?_, fun a memA b memB => ?_⟩
  · exact (Invariant.unionOf_yields keeps).mono fun u => And.imp_left canonical_of_keeps
  · exact (Invariant.intersectionOf_yields keeps).mono fun u => And.imp_left canonical_of_keeps
  · exact (Invariant.without_yields (keeps a memA) (keeps b memB)).mono
      fun u => And.imp_left canonical_of_keeps

/-- Two pairs of overlapping ranges. -/
theorem canonical_results_pairs :
    let items := [pairs, pair digits digitsOrWord]
    (∀ t ∈ items, t.Canonical) ∧ (∀ t ∈ items, t.Small) ∧ Consistent items ∧
    (∃ u, unionOf items = .ok u ∧ u.Canonical ∧ ∀ v, v ∈ u ↔ ∃ t ∈ items, v ∈ t) ∧
    (∃ u, intersectionOf items = .ok u ∧ u.Canonical ∧ ∀ v, v ∈ u ↔ ∀ t ∈ items, v ∈ t) ∧
    ∃ u, pairs.without (pair digits digitsOrWord) = .ok u ∧ u.Canonical ∧
      ∀ v, (v ∈ u → v ∈ pairs) ∧ (v ∈ pairs → ¬ v ∈ pair digits digitsOrWord → v ∈ u) :=
  have canonical : ∀ t ∈ [pairs, pair digits digitsOrWord], t.Canonical := by decide
  have small : ∀ t ∈ [pairs, pair digits digitsOrWord], t.Small := by decide
  have consistent : Consistent [pairs, pair digits digitsOrWord] := by decide
  have ⟨united, common, left⟩ := canonical_results canonical small consistent
  ⟨canonical, small, consistent, united, common, left _ (by decide) _ (by decide)⟩

end Ty

end TypeFlow
