import TypeFlow.Proofs.Algebra.Levels

/-!
# Exactness of the operations on types

A type stands for the values that belong to it. On well-formed types with small numbers, in which
structs of one name have the same fields, union and intersection are exact and never clash,
disjointness is the absence of a common value, and difference lies between what the second type
lacks and the first type.
-/

namespace TypeFlow.Ty

/-- Nothing has a value in common with `never`. -/
theorem intersectionOf_never (items : List Ty) : intersectionOf (never :: items) = .ok never := rfl

/-- `never` is disjoint from everything. -/
theorem disjoint_never (t : Ty) : never.disjoint t = .ok true := by
  rw [disjoint, intersectionOf_never]
  rfl

/-- Such types keep what the operations keep. -/
theorem exists_keeps {items : List Ty} (wellFormed : ∀ t ∈ items, t.WellFormed)
    (small : ∀ t ∈ items, t.Small) (consistent : Consistent items) :
    ∃ shape, ∀ t ∈ items, (Invariant.sound shape).Keeps t := by
  obtain ⟨shape, sound⟩ := exists_sound wellFormed small consistent
  exact ⟨shape, fun t mem => ⟨sound t mem, trivial⟩⟩

namespace Sample

def digits : Ty := number (.ints (.fin 0) (.fin 9))

def digitsOrWord : Ty := union [digits, string (.literal "a")]

def pair (left right : Ty) : Ty := struct "pair" [("left", left), ("right", right)]

/-- Types that overlap in several ways: a range takes whole numbers from another one, and structs
can be split, dropped or merged. -/
def overlapping : List Ty :=
  [digitsOrWord, number (.reals (.fin 3) (.fin 20)), pair digits digitsOrWord,
    pair (number .all) digits, pair any (string .all)]

end Sample

open Sample

/-- Union is exact: a value belongs to the union of types exactly when it belongs to one of
them. -/
theorem mem_unionOf {items : List Ty} (wellFormed : ∀ t ∈ items, t.WellFormed)
    (small : ∀ t ∈ items, t.Small) (consistent : Consistent items) :
    ∃ u, unionOf items = .ok u ∧ ∀ v, v ∈ u ↔ ∃ t ∈ items, v ∈ t := by
  obtain ⟨shape, keeps⟩ := exists_keeps wellFormed small consistent
  obtain ⟨u, same, _, values⟩ := Invariant.unionOf_yields keeps
  exact ⟨u, same, values⟩

/-- Types that overlap. -/
theorem mem_unionOf_overlapping : (∀ t ∈ overlapping, t.WellFormed) ∧
    (∀ t ∈ overlapping, t.Small) ∧ Consistent overlapping ∧
    ∃ u, unionOf overlapping = .ok u ∧ ∀ v, v ∈ u ↔ ∃ t ∈ overlapping, v ∈ t :=
  have wellFormed : ∀ t ∈ overlapping, t.WellFormed := by decide
  have small : ∀ t ∈ overlapping, t.Small := by decide
  have consistent : Consistent overlapping := by decide
  ⟨wellFormed, small, consistent, mem_unionOf wellFormed small consistent⟩

/-- Intersection is exact: a value belongs to the intersection of types exactly when it belongs
to all of them. Every well-formed type other than `never` has a value, so two types are disjoint
exactly when no value belongs to both. -/
theorem mem_intersectionOf {items : List Ty} (wellFormed : ∀ t ∈ items, t.WellFormed)
    (small : ∀ t ∈ items, t.Small) (consistent : Consistent items) :
    (∃ u, intersectionOf items = .ok u ∧ ∀ v, v ∈ u ↔ ∀ t ∈ items, v ∈ t) ∧
    (∀ t : Ty, t.WellFormed → t ≠ never → ∃ v, v ∈ t) ∧
    ∀ a ∈ items, ∀ b ∈ items,
      ∃ apart, disjoint a b = .ok apart ∧ (apart = true ↔ ∀ v, ¬ (v ∈ a ∧ v ∈ b)) := by
  obtain ⟨shape, keeps⟩ := exists_keeps wellFormed small consistent
  refine ⟨?_, exists_mem, fun a memA b memB => ?_⟩
  · obtain ⟨u, same, _, values⟩ := Invariant.intersectionOf_yields keeps
    exact ⟨u, same, values⟩
  · exact Invariant.disjoint_decides (keeps a memA) (keeps b memB)

/-- Types that overlap, and two pairs that do not. -/
theorem mem_intersectionOf_overlapping : (∀ t ∈ overlapping, t.WellFormed) ∧
    (∀ t ∈ overlapping, t.Small) ∧ Consistent overlapping ∧
    (∃ u, intersectionOf overlapping = .ok u ∧ ∀ v, v ∈ u ↔ ∀ t ∈ overlapping, v ∈ t) ∧
    ∃ apart, disjoint (pair digits digitsOrWord) (pair any (string .all)) = .ok apart ∧
      (apart = true ↔
        ∀ v, ¬ (v ∈ pair digits digitsOrWord ∧ v ∈ pair any (string .all))) :=
  have wellFormed : ∀ t ∈ overlapping, t.WellFormed := by decide
  have small : ∀ t ∈ overlapping, t.Small := by decide
  have consistent : Consistent overlapping := by decide
  have ⟨exact, _, decides⟩ := mem_intersectionOf wellFormed small consistent
  ⟨wellFormed, small, consistent, exact, decides _ (by decide) _ (by decide)⟩

/-- Difference loses no value that it should keep and gains none: what is left belongs to the
first type, and what belongs to the first type only is left. Of numbers nothing is left when all
of them belong to the second type. -/
theorem mem_without {l r : Ty} (wellFormedL : l.WellFormed) (wellFormedR : r.WellFormed)
    (smallL : l.Small) (smallR : r.Small) (consistent : Consistent [l, r]) :
    ∃ u, l.without r = .ok u ∧
      (∀ v, v ∈ u → v ∈ l) ∧ (∀ v, v ∈ l → ¬ v ∈ r → v ∈ u) ∧
      (Numeric l → (∀ v, v ∈ l → v ∈ r) → u = never) := by
  have wellFormed : ∀ t ∈ [l, r], t.WellFormed := by simpa using ⟨wellFormedL, wellFormedR⟩
  have small : ∀ t ∈ [l, r], t.Small := by simpa using ⟨smallL, smallR⟩
  obtain ⟨shape, keeps⟩ := exists_keeps wellFormed small consistent
  have keepsL := keeps l List.mem_cons_self
  have keepsR := keeps r (List.mem_cons_of_mem l List.mem_cons_self)
  obtain ⟨u, same, _, values⟩ := Invariant.without_yields keepsL keepsR
  refine ⟨u, same, fun v => (values v).1, fun v => (values v).2, fun numeric inside => ?_⟩
  obtain ⟨w, same', empty⟩ := Invariant.without_eq_never keepsL keepsR numeric inside
  rw [same] at same'
  cases same'
  exact empty

/-- Pairs that differ in one field. -/
theorem mem_without_pair : (pair digits digitsOrWord).WellFormed ∧
    (pair (number .all) digits).WellFormed ∧ (pair digits digitsOrWord).Small ∧
    (pair (number .all) digits).Small ∧
    Consistent [pair digits digitsOrWord, pair (number .all) digits] ∧
    ∃ u, (pair digits digitsOrWord).without (pair (number .all) digits) = .ok u ∧
      (∀ v, v ∈ u → v ∈ pair digits digitsOrWord) ∧
      ∀ v, v ∈ pair digits digitsOrWord → ¬ v ∈ pair (number .all) digits → v ∈ u :=
  have wellFormedL : (pair digits digitsOrWord).WellFormed := by decide
  have wellFormedR : (pair (number .all) digits).WellFormed := by decide
  have smallL : (pair digits digitsOrWord).Small := by decide
  have smallR : (pair (number .all) digits).Small := by decide
  have consistent : Consistent [pair digits digitsOrWord, pair (number .all) digits] := by decide
  have ⟨u, same, within, kept, _⟩ :=
    mem_without wellFormedL wellFormedR smallL smallR consistent
  ⟨wellFormedL, wellFormedR, smallL, smallR, consistent, u, same, within, kept⟩

end TypeFlow.Ty
