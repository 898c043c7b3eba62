import TypeFlow.Algebra.Numbers
import TypeFlow.Proofs.Num.Order

/-!
# Sets of numbers

What the operations on number types mean for the numbers in them. Ranges are `Valid` when their
bounds are in order, and `Tame` when in addition every step of one that the operations take from
a bound is exact. Every operation keeps sets tame. Intersection and subset are exact. Difference
never loses a number, and never gains one that was not in its first operand.
-/

namespace TypeFlow

open scoped Num.Linear

namespace NumberTy

/-- The bounds make a range: the lower one is below the upper one, which is a number, and the
bounds of a whole range are whole. -/
def Valid : NumberTy → Prop
  | literal _ => True
  | ints min max => min.isWhole = true ∧ max.isWhole = true ∧ min < max
  | reals min max => max ≠ .nan ∧ min < max
  | all => True

/-- Every finite number that the type is written with is small. -/
def Small : NumberTy → Prop
  | literal v => v.Small
  | ints min max => min.Small ∧ max.Small
  | reals min max => min.Small ∧ max.Small
  | all => True

/-- The bounds make a range and steps of one from them are exact. A whole range is only ever
extended by a step outwards, so its bounds may reach `2 ^ 53` inwards. -/
def Tame : NumberTy → Prop
  | literal v => v.Small
  | ints min max =>
    min.isWhole = true ∧ max.isWhole = true ∧ min < max ∧ min.StepsDown ∧ max.StepsUp
  | reals min max => max ≠ .nan ∧ min < max ∧ min.Small ∧ max.Small
  | all => True

instance (n : NumberTy) : Decidable n.Valid := by
  rcases n <;> dsimp only [Valid] <;> infer_instance

instance (n : NumberTy) : Decidable n.Small := by
  rcases n <;> dsimp only [Small] <;> infer_instance

variable {n c : NumberTy} {x v lo hi a b : Num}

theorem tame_of_valid (valid : n.Valid) (small : n.Small) : n.Tame := by
  cases n with
  | literal v => exact small
  | ints lo hi =>
    obtain ⟨wholeLo, wholeHi, order⟩ := valid
    exact ⟨wholeLo, wholeHi, order, (Num.small_iff.mp small.1).2, (Num.small_iff.mp small.2).1⟩
  | reals lo hi => exact ⟨valid.1, valid.2, small⟩
  | all => trivial

theorem Tame.valid (tame : n.Tame) : n.Valid := by
  cases n with
  | literal v => trivial
  | ints lo hi => exact ⟨tame.1, tame.2.1, tame.2.2.1⟩
  | reals lo hi => exact ⟨tame.1, tame.2.1⟩
  | all => trivial

theorem Tame.stepsDown_min (tame : n.Tame) : n.min.StepsDown := by
  cases n with
  | literal v => exact (Num.small_iff.mp tame).2
  | ints lo hi => exact tame.2.2.2.1
  | reals lo hi => exact (Num.small_iff.mp tame.2.2.1).2
  | all => trivial

theorem Tame.stepsUp_max (tame : n.Tame) : n.max.StepsUp := by
  cases n with
  | literal v => exact (Num.small_iff.mp tame).1
  | ints lo hi => exact tame.2.2.2.2
  | reals lo hi => exact (Num.small_iff.mp tame.2.2.2).1
  | all => trivial

@[simp] theorem has_literal : (literal x).has v = true ↔ v = x := by
  simp [has]

@[simp] theorem has_ints : (ints lo hi).has v = true ↔ v.isWhole = true ∧ lo ≤ v ∧ v ≤ hi := by
  simp [has, and_assoc]

@[simp] theorem has_reals : (reals lo hi).has v = true ↔ lo ≤ v ∧ v ≤ hi := by
  simp [has]

@[simp] theorem has_all (v : Num) : all.has v = true := rfl

theorem ne_nan_of_le (number : hi ≠ .nan) (le : v ≤ hi) : v ≠ .nan := by
  rintro rfl
  exact number (Num.nan_le_iff.mp le)

theorem has_nan_iff (valid : n.Valid) : n.has .nan = true ↔ n = all ∨ n = literal .nan := by
  cases n with
  | literal x =>
    simp only [has_literal, reduceCtorEq, literal.injEq, false_or]
    exact eq_comm
  | ints lo hi => simp [Num.isWhole]
  | reals lo hi => simpa using valid.1
  | all => simp

theorem has_min (valid : n.Valid) : n.has n.min = true := by
  cases n with
  | literal x => simp [min]
  | ints lo hi => exact has_ints.mpr ⟨valid.1, le_refl lo, valid.2.2.le⟩
  | reals lo hi => exact has_reals.mpr ⟨le_refl lo, valid.2.le⟩
  | all => rfl

theorem has_max (valid : n.Valid) : n.has n.max = true := by
  cases n with
  | literal x => simp [max]
  | ints lo hi => exact has_ints.mpr ⟨valid.2.1, valid.2.2.le, le_refl hi⟩
  | reals lo hi => exact has_reals.mpr ⟨valid.2.le, le_refl hi⟩
  | all => rfl

theorem stepsDown_ceil (step : x.StepsDown) : x.ceil.StepsDown := by
  cases x with
  | fin q =>
    obtain ⟨lower, upper⟩ := step
    have reached : (q.ceil : ℚ) ≤ ((2 ^ 53 : ℤ) : ℚ) := by
      rw [Int.cast_le, Rat.ceil_le_iff]
      exact_mod_cast upper
    exact ⟨lower.trans_le Rat.le_ceil, by exact_mod_cast reached⟩
  | _ => trivial

theorem stepsUp_floor (step : x.StepsUp) : x.floor.StepsUp := by
  cases x with
  | fin q =>
    obtain ⟨lower, upper⟩ := step
    have reached : ((-2 ^ 53 : ℤ) : ℚ) ≤ (q.floor : ℚ) := by
      rw [Int.cast_le, Rat.le_floor_iff]
      exact_mod_cast lower
    exact ⟨by exact_mod_cast reached, (Rat.floor_le q).trans_lt upper⟩
  | _ => trivial

theorem intRange?_cases (range : intRange? a b = some c) :
    a ≠ .nan ∧ b ≠ .nan ∧ (a.ceil = b.floor ∧ c = literal a.ceil ∨
      a.ceil < b.floor ∧ c = ints a.ceil b.floor) := by
  simp only [intRange?, Option.ite_none_left_eq_some, Bool.or_eq_true, Num.isNan_eq_true_iff,
    not_or, not_lt] at range
  obtain ⟨⟨numberA, numberB⟩, ordered, range⟩ := range
  refine ⟨numberA, numberB, ?_⟩
  split at range
  · next same => exact .inl ⟨same, (Option.some.inj range).symm⟩
  · next differ => exact .inr ⟨lt_of_le_of_ne ordered differ, (Option.some.inj range).symm⟩

theorem valid_of_intRange? (range : intRange? a b = some c) : c.Valid := by
  obtain ⟨numberA, numberB, ⟨-, rfl⟩ | ⟨order, rfl⟩⟩ := intRange?_cases range
  · trivial
  · exact ⟨Num.isWhole_ceil numberA, Num.isWhole_floor numberB, order⟩

theorem tame_of_intRange? (below : a.StepsDown) (above : b.StepsUp)
    (range : intRange? a b = some c) : c.Tame := by
  obtain ⟨numberA, numberB, ⟨same, rfl⟩ | ⟨order, rfl⟩⟩ := intRange?_cases range
  · exact Num.small_iff.mpr ⟨same ▸ stepsUp_floor above, stepsDown_ceil below⟩
  · exact ⟨Num.isWhole_ceil numberA, Num.isWhole_floor numberB, order, stepsDown_ceil below,
      stepsUp_floor above⟩

theorem has_intRange? (numberA : a ≠ .nan) (numberB : b ≠ .nan) (v : Num) :
    (∃ c ∈ intRange? a b, c.has v = true) ↔ v.isWhole = true ∧ a ≤ v ∧ v ≤ b := by
  have numbers : ¬ (a.isNan || b.isNan) = true := by
    simp [Num.isNan_eq_true_iff, numberA, numberB]
  have bounds : v.isWhole = true → (a.ceil ≤ v ∧ v ≤ b.floor ↔ a ≤ v ∧ v ≤ b) := fun whole => by
    rw [Num.ceil_le_iff whole, Num.le_floor_iff whole]
  rw [intRange?, if_neg numbers]
  dsimp only
  split
  · next crossed =>
    simp only [Option.mem_def, reduceCtorEq, false_and, exists_false, false_iff, not_and]
    intro whole lower upper
    obtain ⟨low, high⟩ := (bounds whole).mpr ⟨lower, upper⟩
    exact absurd (low.trans high) (not_le.mpr crossed)
  · next ordered =>
    split
    · next same =>
      simp only [Option.mem_def, Option.some.injEq, exists_eq_left', has_literal]
      constructor
      · rintro rfl
        have whole := Num.isWhole_ceil numberA
        exact ⟨whole, (bounds whole).mp ⟨le_refl _, same.le⟩⟩
      · rintro ⟨whole, inside⟩
        obtain ⟨low, high⟩ := (bounds whole).mpr inside
        exact le_antisymm (same ▸ high) low
    · simp only [Option.mem_def, Option.some.injEq, exists_eq_left', has_ints]
      exact and_congr_right bounds

theorem range?_cases (range : range? a b = some c) :
    b ≠ .nan ∧ (c = literal a ∨ a < b ∧ c = reals a b) := by
  simp only [range?, Option.ite_none_left_eq_some, Bool.or_eq_true, Num.isNan_eq_true_iff,
    decide_eq_true_eq, not_or, not_lt] at range
  obtain ⟨⟨⟨-, number⟩, ordered⟩, range⟩ := range
  refine ⟨number, ?_⟩
  split at range
  · exact .inl (Option.some.inj range).symm
  · next differ => exact .inr ⟨lt_of_le_of_ne ordered differ, (Option.some.inj range).symm⟩

theorem valid_of_range? (range : range? a b = some c) : c.Valid := by
  obtain ⟨number, rfl | ⟨order, rfl⟩⟩ := range?_cases range
  · trivial
  · exact ⟨number, order⟩

theorem tame_of_range? (smallA : a.Small) (smallB : b.Small)
    (range : range? a b = some c) : c.Tame := by
  obtain ⟨number, rfl | ⟨order, rfl⟩⟩ := range?_cases range
  · exact smallA
  · exact ⟨number, order, smallA, smallB⟩

theorem has_range? (numberA : a ≠ .nan) (numberB : b ≠ .nan) (v : Num) :
    (∃ c ∈ range? a b, c.has v = true) ↔ a ≤ v ∧ v ≤ b := by
  unfold range?
  have numbers : (a.isNan || b.isNan) = false := by
    rw [Bool.or_eq_false_iff, ← Bool.not_eq_true, ← Bool.not_eq_true, Num.isNan_eq_true_iff,
      Num.isNan_eq_true_iff]
    exact ⟨numberA, numberB⟩
  simp only [numbers, Bool.false_or, decide_eq_true_eq]
  split
  · next crossed =>
    simp only [Option.mem_def, reduceCtorEq, false_and, exists_false, false_iff, not_and, not_le]
    exact fun lower => crossed.trans_le lower
  · next ordered =>
    split
    · next same =>
      subst same
      simp only [Option.mem_def, Option.some.injEq, exists_eq_left', has_literal]
      exact ⟨fun same => ⟨same.ge, same.le⟩, fun inside => le_antisymm inside.2 inside.1⟩
    · simp

end NumberTy

namespace Numbers

open NumberTy (literal ints reals all real range? intRange? Tame Valid has_intRange? has_ints
  has_literal has_max has_min has_reals ne_nan_of_le)

variable {v lo hi : Num} {motive : Num → Prop}

theorem min_cases {a b : Num} (left : motive a) (right : motive b) : motive (min a b) := by
  rcases min_choice a b with same | same <;> rw [same] <;> assumption

theorem max_cases {a b : Num} (left : motive a) (right : motive b) : motive (max a b) := by
  rcases max_choice a b with same | same <;> rw [same] <;> assumption

/-- Bounds of tame ranges overlap in numbers. -/
theorem bounds_ne_nan {lo hi lo' hi' : Num} (order : lo < hi) (number : hi ≠ .nan)
    (order' : lo' < hi') (number' : hi' ≠ .nan) : max lo lo' ≠ .nan ∧ min hi hi' ≠ .nan := by
  constructor
  · exact max_cases (motive := (· ≠ .nan)) (ne_nan_of_le number order.le)
      (ne_nan_of_le number' order'.le)
  · exact min_cases (motive := (· ≠ .nan)) number number'

theorem intersect_comm (a b : NumberTy) : intersect a b = intersect b a := by
  cases a <;> cases b <;> simp only [intersect, max_comm, min_comm]
  next x y =>
    by_cases same : x = y
    · rw [same]
    · rw [if_neg (by simpa using same), if_neg (by simpa using Ne.symm same)]

variable {a b c : NumberTy}

/-- An intersection is one of the sets, or what lies between the inner bounds. -/
theorem intersect_cases (both : intersect a b = some c) :
    c = a ∨ c = b ∨ intRange? (max a.min b.min) (min a.max b.max) = some c ∨
      ∃ lo hi lo' hi', a = reals lo hi ∧ b = reals lo' hi' ∧
        range? (max lo lo') (min hi hi') = some c := by
  unfold intersect at both
  split at both
  · exact .inr (.inl (Option.some.inj both).symm)
  · exact .inl (Option.some.inj both).symm
  · exact .inl (Option.some.inj (Option.ite_none_right_eq_some.mp both).2).symm
  · exact .inr (.inl (Option.some.inj (Option.ite_none_right_eq_some.mp both).2).symm)
  · exact .inr (.inr (.inl both))
  · exact .inr (.inr (.inl both))
  · exact .inr (.inr (.inl (by rwa [max_comm, min_comm])))
  · exact .inr (.inr (.inr ⟨_, _, _, _, rfl, rfl, both⟩))

theorem tame_intersect (tameA : a.Tame) (tameB : b.Tame)
    (both : intersect a b = some c) : c.Tame := by
  obtain rfl | rfl | range | ⟨lo, hi, lo', hi', rfl, rfl, range⟩ := intersect_cases both
  · exact tameA
  · exact tameB
  · exact NumberTy.tame_of_intRange? (max_cases tameA.stepsDown_min tameB.stepsDown_min)
      (min_cases tameA.stepsUp_max tameB.stepsUp_max) range
  · exact NumberTy.tame_of_range? (max_cases tameA.2.2.1 tameB.2.2.1)
      (min_cases tameA.2.2.2 tameB.2.2.2) range

theorem valid_intersect (validA : a.Valid) (validB : b.Valid)
    (both : intersect a b = some c) : c.Valid := by
  obtain rfl | rfl | range | ⟨_, _, _, _, rfl, rfl, range⟩ := intersect_cases both
  · exact validA
  · exact validB
  · exact NumberTy.valid_of_intRange? range
  · exact NumberTy.valid_of_range? range

/-- The intersection with a single number tests that number. -/
theorem has_intersect_literal (x v : Num) : (∃ c ∈ intersect (literal x) b, c.has v = true) ↔
      (literal x).has v = true ∧ b.has v = true := by
  cases b with
  | all => simp [intersect]
  | _ =>
    simp only [intersect, Option.mem_def, Option.ite_none_right_eq_some, Option.some.injEq]
    constructor
    · rintro ⟨c, ⟨inside, rfl⟩, has⟩
      rw [has_literal] at has
      subst has
      exact ⟨has_literal.mpr rfl, inside⟩
    · rintro ⟨has, inside⟩
      rw [has_literal] at has
      subst has
      exact ⟨literal v, ⟨inside, rfl⟩, has_literal.mpr rfl⟩

theorem has_intersect (validA : a.Valid) (validB : b.Valid) (v : Num) :
    (∃ c ∈ intersect a b, c.has v = true) ↔ a.has v = true ∧ b.has v = true := by
  cases a with
  | all => cases b <;> simp [intersect]
  | literal x => exact has_intersect_literal x v
  | ints lo hi =>
    have number := Num.ne_nan_of_isWhole validA.2.1
    cases b with
    | all => simp [intersect]
    | literal x => rw [intersect_comm, has_intersect_literal, and_comm]
    | ints lo' hi' =>
      obtain ⟨left, right⟩ := bounds_ne_nan validA.2.2 number validB.2.2
        (Num.ne_nan_of_isWhole validB.2.1)
      rw [intersect, has_intRange? left right, max_le_iff, le_min_iff, has_ints, has_ints]
      tauto
    | reals lo' hi' =>
      obtain ⟨left, right⟩ := bounds_ne_nan validA.2.2 number validB.2 validB.1
      rw [intersect, has_intRange? left right, max_le_iff, le_min_iff, has_ints, has_reals]
      tauto
  | reals lo hi =>
    cases b with
    | all => simp [intersect]
    | literal x => rw [intersect_comm, has_intersect_literal, and_comm]
    | ints lo' hi' =>
      obtain ⟨left, right⟩ := bounds_ne_nan validB.2.2 (Num.ne_nan_of_isWhole validB.2.1)
        validA.2 validA.1
      rw [intersect, has_intRange? left right, max_le_iff, le_min_iff, has_ints, has_reals]
      tauto
    | reals lo' hi' =>
      obtain ⟨left, right⟩ := bounds_ne_nan validA.2 validA.1 validB.2 validB.1
      rw [intersect, NumberTy.has_range? left right, max_le_iff, le_min_iff, has_reals, has_reals]
      tauto

theorem not_has_of_intersect_none (validA : a.Valid) (validB : b.Valid)
    (apart : (intersect a b).isNone = true) (has : a.has v = true) : ¬ b.has v = true := by
  intro other
  obtain ⟨c, found, _⟩ := (has_intersect validA validB v).mpr ⟨has, other⟩
  rw [Option.isNone_iff_eq_none] at apart
  rw [apart] at found
  cases found

theorem exists_has_of_intersect (validA : a.Valid) (validB : b.Valid)
    (meet : ¬ (intersect a b).isNone = true) : ∃ v, a.has v = true ∧ b.has v = true := by
  rw [Option.isNone_iff_eq_none, ← Ne, Option.ne_none_iff_exists'] at meet
  obtain ⟨c, both⟩ := meet
  have member := has_min (valid_intersect validA validB both)
  exact ⟨c.min, (has_intersect validA validB c.min).mp ⟨c, both, member⟩⟩

theorem exists_fraction_between {a b : ℚ} (order : a < b) (x : ℚ) :
    ∃ q : ℚ, a < q ∧ q < b ∧ q.den ≠ 1 ∧ q ≠ x := by
  -- every point between `a` and the next integer is no integer, and there are two of them
  obtain ⟨p, lowP, highP⟩ := exists_between (lt_min order (Rat.lt_floor_add_one a))
  obtain ⟨r, lowR, highR⟩ := exists_between lowP
  have fraction : ∀ q : ℚ, a < q → q < min b ((a.floor + 1 : ℤ) : ℚ) → q.den ≠ 1 := by
    intro q low high whole
    obtain ⟨n, same⟩ : ∃ n : ℤ, q = n := ⟨q.num, ((Rat.den_eq_one_iff q).mp whole).symm⟩
    have above : a.floor < n := Rat.floor_lt_iff.mpr (same ▸ low)
    have below : n < a.floor + 1 := by
      exact_mod_cast (same ▸ high.trans_le (min_le_right _ _) : (n : ℚ) < ((a.floor + 1 : ℤ) : ℚ))
    omega
  by_cases same : p = x
  · exact ⟨r, lowR, highR.trans (highP.trans_le (min_le_left _ _)), fraction r lowR
      (highR.trans highP), fun other => absurd (other.trans same.symm) highR.ne⟩
  · exact ⟨p, lowP, highP.trans_le (min_le_left _ _), fraction p lowP highP, same⟩

theorem exists_rat_between (order : lo < hi) (number : hi ≠ .nan) :
    ∃ a b : ℚ, a < b ∧ lo ≤ .fin a ∧ .fin b ≤ hi := by
  cases lo with
  | nan => exact absurd order (Num.not_nan_lt hi)
  | posInf => exact absurd (Num.posInf_lt_iff.mp order) number
  | negInf =>
    cases hi with
    | nan => exact absurd rfl number
    | negInf => exact absurd order (lt_irrefl _)
    | posInf => exact ⟨0, 1, by norm_num, by simp, by simp⟩
    | fin b => exact ⟨b - 1, b, by linarith, by simp, by simp⟩
  | fin a =>
    cases hi with
    | nan => exact absurd rfl number
    | negInf => exact absurd order (Num.not_lt_negInf _)
    | posInf => exact ⟨a, a + 1, by linarith, by simp, by simp⟩
    | fin b => exact ⟨a, b, Num.fin_lt_fin.mp order, by simp, by simp⟩

theorem exists_fraction_in_reals (valid : (reals lo hi).Valid) :
    ∃ v, (reals lo hi).has v = true ∧ ¬ v.isWhole = true := by
  obtain ⟨a, b, order, low, high⟩ := exists_rat_between valid.2 valid.1
  obtain ⟨q, above, below, fraction, _⟩ := exists_fraction_between order 0
  refine ⟨.fin q, has_reals.mpr ⟨low.trans (Num.fin_le_fin.mpr above.le),
    (Num.fin_le_fin.mpr below.le).trans high⟩, ?_⟩
  simpa [Num.isWhole] using fraction

/-- The test finds only sets whose numbers are all in the second one. -/
theorem has_of_subset (inside : subset a b = true) (has : a.has v = true) : b.has v = true := by
  cases b with
  | all => rfl
  | literal y =>
    cases a with
    | literal x =>
      rw [has_literal.mp has]
      exact inside
    | _ => simp [subset] at inside
  | ints lo' hi' =>
    cases a with
    | literal x =>
      rw [has_literal.mp has]
      exact inside
    | ints lo hi =>
      simp only [subset, Bool.and_eq_true, decide_eq_true_eq] at inside
      rw [has_ints] at has ⊢
      exact ⟨has.1, inside.1.trans has.2.1, has.2.2.trans inside.2⟩
    | _ => simp [subset] at inside
  | reals lo' hi' =>
    cases a with
    | literal x =>
      rw [has_literal.mp has]
      exact inside
    | all => simp [subset] at inside
    | ints lo hi =>
      simp only [subset, Bool.and_eq_true, decide_eq_true_eq] at inside
      rw [has_ints] at has
      exact has_reals.mpr ⟨inside.1.trans has.2.1, has.2.2.trans inside.2⟩
    | reals lo hi =>
      simp only [subset, Bool.and_eq_true, decide_eq_true_eq] at inside
      rw [has_reals] at has ⊢
      exact ⟨inside.1.trans has.1, has.2.trans inside.2⟩

/-- The test finds every set whose numbers are all in the second one. -/
theorem subset_of_has (validA : a.Valid) (validB : b.Valid)
    (inside : ∀ v, a.has v = true → b.has v = true) : subset a b = true := by
  cases b with
  | all => cases a <;> rfl
  | literal y =>
    cases a with
    | literal x => exact inside x (has_literal.mpr rfl)
    | all =>
      have first := has_literal.mp (inside .nan rfl)
      have second := has_literal.mp (inside .negInf rfl)
      exact absurd (first.trans second.symm) (by simp)
    | ints lo hi =>
      have low := inside lo (has_min validA)
      have high := inside hi (has_max validA)
      rw [has_literal] at low high
      exact absurd (low.trans high.symm) validA.2.2.ne
    | reals lo hi =>
      have low := inside lo (has_min validA)
      have high := inside hi (has_max validA)
      rw [has_literal] at low high
      exact absurd (low.trans high.symm) validA.2.ne
  | ints lo' hi' =>
    cases a with
    | literal x => exact inside x (has_literal.mpr rfl)
    | all =>
      have whole := (has_ints.mp (inside .nan rfl)).1
      cases whole
    | ints lo hi =>
      have low := has_ints.mp (inside lo (has_min validA))
      have high := has_ints.mp (inside hi (has_max validA))
      simp [subset, low.2.1, high.2.2]
    | reals lo hi =>
      obtain ⟨v, member, fraction⟩ := exists_fraction_in_reals validA
      exact absurd (has_ints.mp (inside v member)).1 fraction
  | reals lo' hi' =>
    cases a with
    | literal x => exact inside x (has_literal.mpr rfl)
    | all =>
      have upper := (has_reals.mp (inside .nan rfl)).2
      exact absurd (Num.nan_le_iff.mp upper) validB.1
    | ints lo hi =>
      have low := has_reals.mp (inside lo (has_min validA))
      have high := has_reals.mp (inside hi (has_max validA))
      simp [subset, low.1, high.2]
    | reals lo hi =>
      have low := has_reals.mp (inside lo (has_min validA))
      have high := has_reals.mp (inside hi (has_max validA))
      simp [subset, low.1, high.2]

end Numbers
end TypeFlow
