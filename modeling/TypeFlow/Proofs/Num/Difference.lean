import TypeFlow.Proofs.Num.Sets

/-!
# Differences of number types

A difference keeps every number of the first set that the second one lacks, and all it keeps is
of the first set. Whole ranges are cut exactly, except at an infinite literal. Other ranges keep
what a closed range cannot leave out, so a kept number is at least a limit of the true
difference, unless the second range is a hole inside the first.
-/

namespace TypeFlow

open List hiding all
open scoped Num.Linear

namespace Num

/-- The last whole number before a bound. -/
def before (x : Num) : Num := if x.isWhole then x.sub 1 else x.floor

/-- The first whole number after a bound. -/
def after (x : Num) : Num := if x.isWhole then x.add 1 else x.ceil

variable {x v : Num}

theorem before_le (number : x ≠ nan) (step : x.StepsDown) : x.before ≤ x := by
  unfold before
  split
  · next whole => exact sub_one_le whole step
  · exact (le_floor_iff (isWhole_floor number)).mp (le_refl _)

theorem le_after (number : x ≠ nan) (step : x.StepsUp) : x ≤ x.after := by
  unfold after
  split
  · next whole => exact le_add_one whole step
  · exact (ceil_le_iff (isWhole_ceil number)).mp (le_refl _)

theorem isWhole_before (number : x ≠ nan) : x.before.isWhole = true := by
  unfold before
  split
  · next whole =>
    obtain rfl | rfl | ⟨n, rfl⟩ := isWhole_iff.mp whole
    · rfl
    · rfl
    · change (ofRat ((n : ℚ) + -((1 : ℕ) : ℚ))).isWhole = true
      exact_mod_cast isWhole_ofRat_intCast (n + -1)
  · exact isWhole_floor number

theorem isWhole_after (number : x ≠ nan) : x.after.isWhole = true := by
  unfold after
  split
  · next whole =>
    obtain rfl | rfl | ⟨n, rfl⟩ := isWhole_iff.mp whole
    · rfl
    · rfl
    · change (ofRat ((n : ℚ) + ((1 : ℕ) : ℚ))).isWhole = true
      exact_mod_cast isWhole_ofRat_intCast (n + 1)
  · exact isWhole_ceil number

theorem stepsUp_before (step : x.StepsDown) : x.before.StepsUp := by
  cases x with
  | fin q =>
    unfold before
    split
    · next whole =>
      obtain ⟨n, rfl⟩ := isWhole_fin_iff.mp whole
      rw [sub_one_intCast step]
      have lower : -2 ^ 53 < n := by exact_mod_cast step.1
      have upper : n ≤ 2 ^ 53 := by exact_mod_cast step.2
      exact ⟨by exact_mod_cast (by omega : -2 ^ 53 ≤ n - 1),
        by exact_mod_cast (by omega : n - 1 < 2 ^ 53)⟩
    · next fraction =>
      -- The bound `2 ^ 53` itself is whole, so a fraction is strictly below it.
      refine NumberTy.stepsUp_floor ⟨step.1.le, lt_of_le_of_ne step.2 ?_⟩
      rintro rfl
      exact fraction rfl
  | _ => trivial

theorem stepsDown_after (step : x.StepsUp) : x.after.StepsDown := by
  cases x with
  | fin q =>
    unfold after
    split
    · next whole =>
      obtain ⟨n, rfl⟩ := isWhole_fin_iff.mp whole
      rw [add_one_intCast step]
      have lower : -2 ^ 53 ≤ n := by exact_mod_cast step.1
      have upper : n < 2 ^ 53 := by exact_mod_cast step.2
      exact ⟨by exact_mod_cast (by omega : -2 ^ 53 < n + 1),
        by exact_mod_cast (by omega : n + 1 ≤ 2 ^ 53)⟩
    · next fraction =>
      refine NumberTy.stepsDown_ceil ⟨lt_of_le_of_ne step.1 ?_, step.2.le⟩
      rintro rfl
      exact fraction rfl
  | _ => trivial

theorem le_before_of_lt (step : x.StepsDown) (whole : v.isWhole = true)
    (less : v < x) : v ≤ x.before := by
  unfold before
  split
  · next wholeX => exact le_sub_one_of_lt wholeX whole step less
  · exact (le_floor_iff whole).mpr less.le

theorem after_le_of_lt (step : x.StepsUp) (whole : v.isWhole = true)
    (less : x < v) : x.after ≤ v := by
  unfold after
  split
  · next wholeX => exact add_one_le_of_lt wholeX whole step less
  · exact (ceil_le_iff whole).mpr less.le

theorem before_lt {q : ℚ} (step : (fin q).StepsDown) : (fin q).before < fin q := by
  unfold before
  split
  · next whole =>
    obtain ⟨n, rfl⟩ := isWhole_fin_iff.mp whole
    rw [sub_one_intCast step, fin_lt_fin, Int.cast_lt]
    omega
  · next fraction =>
    refine lt_of_le_of_ne (fin_le_fin.mpr (Rat.floor_le q)) ?_
    intro same
    exact fraction (same ▸ isWhole_floor (by simp))

theorem lt_after {q : ℚ} (step : (fin q).StepsUp) : fin q < (fin q).after := by
  unfold after
  split
  · next whole =>
    obtain ⟨n, rfl⟩ := isWhole_fin_iff.mp whole
    rw [add_one_intCast step, fin_lt_fin, Int.cast_lt]
    omega
  · next fraction =>
    refine lt_of_le_of_ne (fin_le_fin.mpr Rat.le_ceil) ?_
    intro same
    exact fraction (same ▸ isWhole_ceil (by simp))

end Num

namespace NumberTy

/-- A valid set from whose bounds steps of one do not lead inwards. -/
structure Outward (n : NumberTy) : Prop where
  valid : n.Valid
  down : n.min ≠ .nan → n.min.before ≤ n.min
  up : n.max ≠ .nan → n.max ≤ n.max.after

theorem Tame.outward {n : NumberTy} (tame : n.Tame) : n.Outward where
  valid := tame.valid
  down number := Num.before_le number tame.stepsDown_min
  up number := Num.le_after number tame.stepsUp_max

end NumberTy

namespace Numbers

open NumberTy (literal ints reals all real range? intRange? Tame Valid Outward has_all has_intRange?
  has_ints has_literal has_range? has_reals ne_nan_of_le tame_of_range?)

/-- A whole range outside two bounds: what is before the lower and after the upper one. -/
theorem intsOutside_eq (lo hi l h : Num) :
    intsOutside lo hi l h =
      (if l = .negInf then none else intRange? lo l.before).toList ++
        (if h = .posInf then none else intRange? h.after hi).toList := rfl

variable {lo hi l h v : Num} {c b a : NumberTy}

theorem has_intsOutside (numbers : lo ≠ .nan ∧ hi ≠ .nan) (numberL : l ≠ .nan) (numberH : h ≠ .nan)
    (v : Num) :
    (∃ c ∈ intsOutside lo hi l h, c.has v = true) ↔
      v.isWhole = true ∧ (l ≠ .negInf ∧ lo ≤ v ∧ v ≤ l.before ∨
        h ≠ .posInf ∧ h.after ≤ v ∧ v ≤ hi) := by
  have left : (∃ c ∈ (if l = .negInf then none else intRange? lo l.before), c.has v = true) ↔
      l ≠ .negInf ∧ v.isWhole = true ∧ lo ≤ v ∧ v ≤ l.before := by
    have whole := Num.isWhole_before numberL
    split
    · next same => simp [same]
    · next differ =>
      rw [has_intRange? numbers.1 (Num.ne_nan_of_isWhole whole)]
      simp [differ]
  have right : (∃ c ∈ (if h = .posInf then none else intRange? h.after hi), c.has v = true) ↔
      h ≠ .posInf ∧ v.isWhole = true ∧ h.after ≤ v ∧ v ≤ hi := by
    have whole := Num.isWhole_after numberH
    split
    · next same => simp [same]
    · next differ =>
      rw [has_intRange? (Num.ne_nan_of_isWhole whole) numbers.2]
      simp [differ]
  simp only [intsOutside_eq, mem_append, Option.mem_toList, or_and_right, exists_or]
  refine (or_congr left right).trans ?_
  rw [and_or_left]
  exact or_congr and_left_comm and_left_comm

theorem tame_of_intsOutside (below : lo.StepsDown) (above : hi.StepsUp) (down : l.StepsDown)
    (up : h.StepsUp) (left : c ∈ intsOutside lo hi l h) : c.Tame := by
  rw [intsOutside_eq, mem_append, Option.mem_toList, Option.mem_toList] at left
  rcases left with left | right
  · split at left
    · cases left
    · exact NumberTy.tame_of_intRange? below (Num.stepsUp_before down) left
  · split at right
    · cases right
    · exact NumberTy.tame_of_intRange? (Num.stepsDown_after up) above right

/-- A whole number outside a set is before or after it. -/
theorem lt_min_or_max_lt (proper : b ≠ all) (whole : v.isWhole = true)
    (outside : ¬ b.has v = true) : v < b.min ∨ b.max < v := by
  cases b with
  | all => exact absurd rfl proper
  | literal x =>
    rw [has_literal] at outside
    exact lt_or_gt_of_ne outside
  | ints l h =>
    rw [has_ints, not_and, not_and_or, not_le, not_le] at outside
    exact outside whole
  | reals l h =>
    rw [has_reals, not_and_or, not_le, not_le] at outside
    exact outside

theorem bounds_ne_nan_of_has (valid : b.Valid) {w : Num} (whole : w.isWhole = true)
    (has : b.has w = true) : b.min ≠ .nan ∧ b.max ≠ .nan := by
  cases b with
  | literal x =>
    have number := Num.ne_nan_of_isWhole whole
    rw [has_literal.mp has] at number
    exact ⟨number, number⟩
  | ints l h => exact ⟨Num.ne_nan_of_isWhole valid.1, Num.ne_nan_of_isWhole valid.2.1⟩
  | reals l h => exact ⟨ne_nan_of_le valid.1 valid.2.le, valid.1⟩
  | all => exact ⟨by simp [NumberTy.min], by simp [NumberTy.max]⟩

theorem min_le_and_le_max {w : Num} (number : w ≠ .nan) (has : b.has w = true) :
    b.min ≤ w ∧ w ≤ b.max := by
  cases b with
  | literal x =>
    rw [has_literal.mp has]
    exact ⟨le_refl x, le_refl x⟩
  | ints l h => exact (has_ints.mp has).2
  | reals l h => exact has_reals.mp has
  | all => exact ⟨Num.negInf_le w, Num.le_posInf_iff.mpr number⟩

theorem tame_cut (tameA : a.Tame) (tameB : b.Tame) (piece : c ∈ cut a b) : c.Tame := by
  cases a with
  | ints lo hi =>
    obtain ⟨_, _, _, down, up⟩ := tameA
    exact tame_of_intsOutside down up tameB.stepsDown_min tameB.stepsUp_max piece
  | reals lo hi =>
    cases b with
    | reals lo' hi' =>
      obtain ⟨_, _, smallLo, smallHi⟩ := tameA
      obtain ⟨_, _, smallLo', smallHi'⟩ := tameB
      simp only [cut] at piece
      split at piece
      · exact tame_of_range? smallHi' smallHi (Option.mem_toList.mp piece)
      · split at piece
        · exact tame_of_range? smallLo smallLo' (Option.mem_toList.mp piece)
        · obtain rfl := mem_singleton.mp piece
          exact ⟨‹_›, ‹_›, smallLo, smallHi⟩
    | _ =>
      obtain rfl := mem_singleton.mp piece
      exact tameA
  | _ =>
    obtain rfl := mem_singleton.mp piece
    exact tameA

/-- What is cut out of a whole range lies between the bounds of the other set. -/
theorem has_cut_ints (validA : (ints lo hi).Valid) (validB : b.Valid) {w : Num}
    (hasA : (ints lo hi).has w = true) (hasB : b.has w = true) (v : Num) :
    (∃ c ∈ cut (ints lo hi) b, c.has v = true) ↔
      v.isWhole = true ∧ (b.min ≠ .negInf ∧ lo ≤ v ∧ v ≤ b.min.before ∨
        b.max ≠ .posInf ∧ b.max.after ≤ v ∧ v ≤ hi) := by
  obtain ⟨numberL, numberH⟩ :=
    bounds_ne_nan_of_has validB (has_ints.mp hasA).1 hasB
  exact has_intsOutside ⟨Num.ne_nan_of_isWhole validA.1, Num.ne_nan_of_isWhole validA.2.1⟩
    numberL numberH v

theorem has_of_has_cut (validA : a.Valid) (outward : b.Outward) {w : Num} (hasA : a.has w = true)
    (hasB : b.has w = true) (piece : c ∈ cut a b) {v : Num}
    (has : c.has v = true) : a.has v = true := by
  cases a with
  | ints lo hi =>
    have whole := (has_ints.mp hasA).1
    have between := min_le_and_le_max (Num.ne_nan_of_isWhole whole) hasB
    obtain ⟨numberL, numberH⟩ := bounds_ne_nan_of_has outward.valid whole hasB
    obtain ⟨wholeV, left | right⟩ :=
      (has_cut_ints validA outward.valid hasA hasB v).mp ⟨c, piece, has⟩
    · have upper : v ≤ hi := calc
        v ≤ b.min.before := left.2.2
        _ ≤ b.min := outward.down numberL
        _ ≤ w := between.1
        _ ≤ hi := (has_ints.mp hasA).2.2
      exact has_ints.mpr ⟨wholeV, left.2.1, upper⟩
    · have lower : lo ≤ v := calc
        lo ≤ w := (has_ints.mp hasA).2.1
        _ ≤ b.max := between.2
        _ ≤ b.max.after := outward.up numberH
        _ ≤ v := right.2.1
      exact has_ints.mpr ⟨wholeV, lower, right.2.2⟩
  | reals lo hi =>
    cases b with
    | reals lo' hi' =>
      obtain ⟨lowA, highA⟩ := has_reals.mp hasA
      obtain ⟨lowB, highB⟩ := has_reals.mp hasB
      have numberLo := ne_nan_of_le validA.1 validA.2.le
      have validB : (reals lo' hi').Valid := outward.valid
      have numberLo' := ne_nan_of_le validB.1 validB.2.le
      simp only [cut] at piece
      split at piece
      · obtain ⟨low, high⟩ := (has_range? validB.1 validA.1 v).mp
          ⟨c, Option.mem_toList.mp piece, has⟩
        exact has_reals.mpr ⟨(lowA.trans highB).trans low, high⟩
      · split at piece
        · obtain ⟨low, high⟩ := (has_range? numberLo numberLo' v).mp
            ⟨c, Option.mem_toList.mp piece, has⟩
          exact has_reals.mpr ⟨low, high.trans (lowB.trans highA)⟩
        · obtain rfl := mem_singleton.mp piece
          exact has
    | _ =>
      obtain rfl := mem_singleton.mp piece
      exact has
  | _ =>
    obtain rfl := mem_singleton.mp piece
    exact has

theorem exists_has_cut (tameA : a.Tame) (tameB : b.Tame) (proper : b ≠ all) {w : Num}
    (hasA : a.has w = true) (hasB : b.has w = true) {v : Num} (has : a.has v = true)
    (outside : ¬ b.has v = true) : ∃ c ∈ cut a b, c.has v = true := by
  cases a with
  | ints lo hi =>
    obtain ⟨wholeV, lower, upper⟩ := has_ints.mp has
    rw [has_cut_ints tameA.valid tameB.valid hasA hasB v]
    refine ⟨wholeV, ?_⟩
    rcases lt_min_or_max_lt proper wholeV outside with less | greater
    · left
      refine ⟨?_, lower, Num.le_before_of_lt tameB.stepsDown_min wholeV less⟩
      intro same
      exact Num.not_lt_negInf v (same ▸ less)
    · right
      refine ⟨?_, Num.after_le_of_lt tameB.stepsUp_max wholeV greater, upper⟩
      intro same
      rw [same, Num.posInf_lt_iff] at greater
      exact Num.ne_nan_of_isWhole wholeV greater
  | reals lo hi =>
    cases b with
    | reals lo' hi' =>
      obtain ⟨lower, upper⟩ := has_reals.mp has
      have numberLo := ne_nan_of_le tameA.1 tameA.2.1.le
      have numberLo' := ne_nan_of_le tameB.1 tameB.2.1.le
      rw [has_reals, not_and_or, not_le, not_le] at outside
      simp only [cut]
      split
      · next first =>
        have high : hi' < v := outside.resolve_left (not_lt.mpr (first.trans lower))
        obtain ⟨c, found, member⟩ := (has_range? tameB.1 tameA.1 v).mpr ⟨high.le, upper⟩
        exact ⟨c, Option.mem_toList.mpr found, member⟩
      · split
        · next last =>
          have low : v < lo' := outside.resolve_right (not_lt.mpr (upper.trans last))
          obtain ⟨c, found, member⟩ :=
            (has_range? numberLo numberLo' v).mpr ⟨lower, low.le⟩
          exact ⟨c, Option.mem_toList.mpr found, member⟩
        -- A hole in the middle stays filled.
        · exact ⟨reals lo hi, mem_singleton_self _, has⟩
    | all => exact absurd rfl proper
    | _ => exact ⟨reals lo hi, mem_singleton_self _, has⟩
  | literal x => exact ⟨literal x, mem_singleton_self _, has⟩
  | all => exact ⟨all, mem_singleton_self _, has⟩

theorem tame_withoutProper (tameA : a.Tame) (tameB : b.Tame)
    (piece : c ∈ withoutProper a b) : c.Tame := by
  unfold withoutProper at piece
  split at piece
  · cases piece
  · split at piece
    · obtain rfl := mem_singleton.mp piece
      exact tameA
    · exact tame_cut tameA tameB piece

theorem has_of_has_withoutProper (validA : a.Valid) (outward : b.Outward)
    (piece : c ∈ withoutProper a b) {v : Num} (has : c.has v = true) : a.has v = true := by
  unfold withoutProper at piece
  split at piece
  · cases piece
  · split at piece
    · obtain rfl := mem_singleton.mp piece
      exact has
    · next meet =>
      obtain ⟨w, hasA, hasB⟩ := exists_has_of_intersect validA outward.valid meet
      exact has_of_has_cut validA outward hasA hasB piece has

theorem exists_has_withoutProper (tameA : a.Tame) (tameB : b.Tame) {v : Num} (has : a.has v = true)
    (outside : ¬ b.has v = true) : ∃ c ∈ withoutProper a b, c.has v = true := by
  unfold withoutProper
  split
  · next inside => exact absurd (has_of_subset inside has) outside
  · split
    · exact ⟨a, mem_singleton_self a, has⟩
    · next meet =>
      obtain ⟨w, hasA, hasB⟩ := exists_has_of_intersect tameA.valid tameB.valid meet
      have proper : b ≠ all := fun same => outside (same ▸ has_all v)
      exact exists_has_cut tameA tameB proper hasA hasB has outside

theorem tame_real : real.Tame := ⟨by simp, by simp, trivial, trivial⟩

theorem has_real_iff : real.has v = true ↔ v ≠ .nan := by
  simp [real]

/-- Differences from the set of all numbers go through the set of those that are not `nan`. -/
theorem without_all (b : NumberTy) : without all b =
    if b = all then [] else withoutProper real b ++ (if b.isNan then [] else [literal .nan]) := by
  cases b <;> simp [without, subset, intersect]

theorem without_of_subset (inside : subset a b = true) : without a b = [] := by
  cases a <;> simp [without, withoutProper, inside]

theorem tame_without (tameA : a.Tame) (tameB : b.Tame) (piece : c ∈ without a b) : c.Tame := by
  cases a with
  | all =>
    rw [without_all] at piece
    split at piece
    · cases piece
    · rcases mem_append.mp piece with piece | piece
      · exact tame_withoutProper tame_real tameB piece
      · split at piece
        · cases piece
        · obtain rfl := mem_singleton.mp piece
          trivial
  | _ => exact tame_withoutProper tameA tameB piece

theorem has_of_has_without (validA : a.Valid) (outward : b.Outward) (piece : c ∈ without a b)
    {v : Num} (has : c.has v = true) : a.has v = true := by
  cases a with
  | all => rfl
  | _ => exact has_of_has_withoutProper validA outward piece has

theorem exists_has_without (tameA : a.Tame) (tameB : b.Tame) {v : Num} (has : a.has v = true)
    (outside : ¬ b.has v = true) : ∃ c ∈ without a b, c.has v = true := by
  cases a with
  | all =>
    rw [without_all]
    have proper : b ≠ all := fun same => outside (same ▸ has_all v)
    rw [if_neg proper]
    by_cases number : v = .nan
    · have other : ¬ b.isNan = true := by
        intro nan
        cases b with
        | literal x =>
          rw [NumberTy.isNan, Num.isNan_eq_true_iff] at nan
          exact outside (has_literal.mpr (number.trans nan.symm))
        | _ => cases nan
      exact ⟨literal .nan, by simp [other], by simp [number]⟩
    · obtain ⟨c, piece, member⟩ :=
        exists_has_withoutProper tame_real tameB (has_real_iff.mpr number) outside
      exact ⟨c, mem_append_left _ piece, member⟩
  | _ => exact exists_has_withoutProper tameA tameB has outside

end Numbers
end TypeFlow
