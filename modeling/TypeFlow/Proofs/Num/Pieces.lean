import TypeFlow.Proofs.Num.Conservative

/-!
# Parts of a set

What is left of a set after others were taken out of it is part of it, and so is the union of such
parts: a set that replaces two others has its bounds from them. So nothing is left as soon as the
set itself is taken out, whatever the order. Bounds are doubles of any size.
-/

namespace TypeFlow

open List
open scoped Num.Linear

/-- A set with doubles for bounds whose numbers are all in another set. -/
structure NumberTy.PartOf (p x : NumberTy) : Prop where
  held : p.Held
  inside : ∀ v, p.has v = true → x.has v = true

namespace Numbers

open NumberTy (literal ints reals all real Held PartOf has_max has_min held_of_range?)

variable {a b c p q x : NumberTy}

theorem held_cut (heldA : a.Held) (heldB : b.Held) (piece : c ∈ cut a b) : c.Held := by
  cases a with
  | ints lo hi =>
    simp only [cut, intsOutside_eq, mem_append, Option.mem_toList,
      Option.ite_none_left_eq_some] at piece
    rcases piece with ⟨-, range⟩ | ⟨-, range⟩
    · exact NumberTy.held_of_intRange? heldA.min (Num.isDouble_before heldB.min) range
    · exact NumberTy.held_of_intRange? (Num.isDouble_after heldB.max) heldA.max range
  | reals lo hi =>
    cases b with
    | reals lo' hi' =>
      simp only [cut] at piece
      split at piece
      · exact held_of_range? heldB.max heldA.max (Option.mem_toList.mp piece)
      · split at piece
        · exact held_of_range? heldA.min heldB.min (Option.mem_toList.mp piece)
        · exact mem_singleton.mp piece ▸ heldA
    | _ => exact mem_singleton.mp piece ▸ heldA
  | _ => exact mem_singleton.mp piece ▸ heldA

theorem held_withoutProper (heldA : a.Held) (heldB : b.Held) (piece : c ∈ withoutProper a b) :
    c.Held := by
  unfold withoutProper at piece
  split at piece
  · cases piece
  · split at piece
    · exact mem_singleton.mp piece ▸ heldA
    · exact held_cut heldA heldB piece

theorem held_without (heldA : a.Held) (heldB : b.Held) (piece : c ∈ without a b) : c.Held := by
  cases a with
  | all =>
    have heldReal : real.Held := ⟨⟨by simp, by simp⟩, trivial, trivial⟩
    rw [without_all] at piece
    split at piece
    · cases piece
    · rcases mem_append.mp piece with piece | piece
      · exact held_withoutProper heldReal heldB piece
      · split at piece
        · cases piece
        · rw [mem_singleton.mp piece]
          exact NumberTy.held_literal.mpr trivial
  | _ => exact held_withoutProper heldA heldB piece

theorem partOf_without (part : p.PartOf x) (held : b.Held) (piece : q ∈ without p b) :
    q.PartOf x where
  held := held_without part.held held piece
  inside v has := part.inside v (has_of_has_without part.held.valid held.outward piece has)

theorem without_eq_nil_of_partOf (valid : x.Valid) (part : p.PartOf x) : without p x = [] :=
  without_of_subset (subset_of_has part.held.valid valid part.inside)

/-- A whole range is inside every set that has both bounds. -/
theorem subset_ints_of_has {lo hi : Num} (differ : lo ≠ hi) (low : x.has lo = true)
    (high : x.has hi = true) : subset (ints lo hi) x = true := by
  cases x with
  | literal y =>
    rw [NumberTy.has_literal] at low high
    exact absurd (low.trans high.symm) differ
  | ints l h =>
    rw [NumberTy.has_ints] at low high
    simp only [subset, low.2.1, high.2.2, decide_true, Bool.and_self]
  | reals l h =>
    rw [NumberTy.has_reals] at low high
    simp only [subset, low.1, high.2, decide_true, Bool.and_self]
  | all => rfl

theorem Joins.inside (joins : Joins a b c) (valid : x.Valid) (validA : a.Valid) (validB : b.Valid)
    (insideA : subset a x = true) (insideB : subset b x = true) : subset c x = true := by
  -- the bounds of the sets are members of what the sets are inside of
  have minA := has_of_subset insideA (has_min validA)
  have minB := has_of_subset insideB (has_min validB)
  have maxA := has_of_subset insideA (has_max validA)
  have maxB := has_of_subset insideB (has_max validB)
  cases joins with
  | same | all => exact insideA
  | member | within => exact insideB
  | nan =>
    -- only the set of all numbers has `nan` beside other numbers
    rcases (NumberTy.has_nan_iff valid).mp minA with rfl | rfl
    · rfl
    · cases insideB
  | neighbours n => exact subset_ints_of_has (by simp) minA minB
  | below _ outside _ =>
    refine subset_ints_of_has ?_ minA maxB
    rintro rfl
    exact outside (has_max validB)
  | above _ outside _ =>
    refine subset_ints_of_has ?_ minB minA
    rintro rfl
    exact outside (has_min validB)
  | @ints lo hi lo' hi' first second =>
    have order : min lo lo' < max hi hi' :=
      (min_le_left _ _).trans_lt (validA.2.2.trans_le (le_max_left _ _))
    exact subset_ints_of_has order.ne (min_cases (motive := fun z => x.has z = true) minA minB)
      (max_cases (motive := fun z => x.has z = true) maxA maxB)
  | reals first second =>
    cases x with
    | all => rfl
    | reals l h =>
      simp only [subset, Bool.and_eq_true, decide_eq_true_eq] at insideA insideB ⊢
      exact ⟨le_min insideA.1 insideB.1, max_le insideA.2 insideB.2⟩
    | _ => cases insideA

theorem join_inside (valid : x.Valid) (validA : a.Valid) (validB : b.Valid)
    (joined : join a b = some c) (insideA : subset a x = true) (insideB : subset b x = true) :
    subset c x = true := by
  rcases joins_of_join joined with joins | joins
  · exact joins.inside valid validA validB insideA insideB
  · exact joins.inside valid validB validA insideB insideA

theorem mergeAll_partOf (valid : x.Valid) {items : List NumberTy}
    (parts : ∀ p ∈ items, p.PartOf x) : ∀ m ∈ mergeAll join items, m.PartOf x := by
  refine mem_mergeAll_of_keeps (fun y z c partY partZ joined => ?_) parts
  refine ⟨(join_keeps partY.held partZ.held joined).1, fun v => has_of_subset ?_⟩
  exact join_inside valid partY.held.valid partZ.held.valid joined
    (subset_of_has partY.held.valid valid partY.inside)
    (subset_of_has partZ.held.valid valid partZ.inside)

/-- The union of parts of a set is made of parts of it. -/
theorem partOf_unionMembers (valid : x.Valid) {items : List NumberTy}
    (parts : ∀ p ∈ items, p.PartOf x) (mem : q ∈ unionMembers items) : q.PartOf x := by
  have held : ∀ p ∈ items, p.Held := fun p mem => (parts p mem).held
  have heldQ : q.Held := held_of_mem_union held (Sorted.mem_ofList.mpr mem)
  unfold unionMembers at mem
  split at mem
  · next every =>
    rw [mem_singleton.mp mem]
    exact parts all (by simpa using every)
  · obtain ⟨m, memM, piece⟩ := mem_flatMap.mp mem
    have sorted : ∀ p ∈ Sorted.ofList NumberTy.compare items, p.PartOf x := by simpa using parts
    have merged := mergeAll_partOf valid sorted
    refine ⟨heldQ, fun v has => (merged m memM).inside v ?_⟩
    refine trim_gains (merged m memM).held (fun r range => ?_) ⟨q, piece, has⟩
    obtain ⟨memR, reals⟩ := mem_filter.mp range
    exact ⟨reals, (merged r memR).held⟩

end Numbers

end TypeFlow
