import Mathlib.Data.List.Range
import TypeFlow.Proofs.Arithmetic.Ranges

/-!
# Listing and counting whole numbers

The members of a finite whole range can be had in three ways: by a loop that takes steps of one
while it is not past the upper bound, by a count that is computed from the bounds, and by asking
each number whether it is a member. Every step is exact while the bounds are below `2 ^ 53`. The
count is rounded twice, once for the width of the range and once for the number of members.
-/

namespace TypeFlow

open List

namespace Binary64

/-- Halves go to the even integer. -/
theorem roundHalfEven_half (k : ℤ) :
    roundHalfEven ((k : ℚ) + 1 / 2) = if k % 2 = 0 then k else k + 1 := by
  have below : ((k : ℚ) + 1 / 2).floor = k := by
    have lower : k ≤ ((k : ℚ) + 1 / 2).floor := Rat.le_floor_iff.mpr (by linarith)
    have upper : ((k : ℚ) + 1 / 2).floor < k + 1 :=
      Rat.floor_lt_iff.mpr (by push_cast; linarith)
    omega
  have rest : (k : ℚ) + 1 / 2 - k = 1 / 2 := by ring
  simp only [roundHalfEven, below, rest, lt_irrefl, if_false]

variable {n : ℤ}

/-- Even integers of 54 binary digits are doubles. -/
theorem nearest_intCast_of_even (even : n % 2 = 0) (size : |n| ≤ 2 ^ 54) :
    nearest (n : ℚ) = n := by
  refine nearest_of_coefficient (m := n / 2) (k := 1) ?_ ?_ (by decide)
  · have halves : n = n / 2 * 2 := by omega
    rw [zpow_one]
    exact_mod_cast halves
  · rw [abs_le] at size ⊢
    omega

/-- Odd ones are halfway between two doubles and go to the multiple of four. -/
theorem nearest_intCast_of_odd (odd : n % 2 = 1) (low : 2 ^ 53 < n) (high : n < 2 ^ 54) :
    nearest (n : ℚ) = (4 * ((n + 1) / 4) : ℤ) := by
  have nonzero : n ≠ 0 := by omega
  have log : Nat.log2 n.natAbs = 53 := (Nat.log2_eq_iff (by omega)).mpr ⟨by omega, by omega⟩
  have unit : quantum (n : ℚ) = 2 := by
    rw [quantum, lastPlace_intCast nonzero, log]
    norm_num
  have half : (n : ℚ) / 2 = (n / 2 : ℤ) + 1 / 2 := by
    have parts : (n : ℚ) = 2 * (n / 2 : ℤ) + 1 := by exact_mod_cast (by omega : n = 2 * (n / 2) + 1)
    linarith
  have doubled : (if (n / 2) % 2 = 0 then n / 2 else n / 2 + 1) * 2 = 4 * ((n + 1) / 4) := by
    split <;> omega
  rw [nearest, if_neg (by exact_mod_cast nonzero), unit, half, roundHalfEven_half, ← doubled]
  push_cast
  rfl

end Binary64

namespace Num

theorem exists_intCast {x : Num} (whole : x.isWhole = true) (finite : x.isFinite = true) :
    ∃ n : ℤ, x = fin n := by
  obtain rfl | rfl | integer := isWhole_iff.mp whole
  · cases finite
  · cases finite
  · exact integer

variable {n : ℤ}

theorem add_one_of_lt (low : -2 ^ 53 ≤ n) (high : n < 2 ^ 53) :
    (fin n).add 1 = fin (n + 1 : ℤ) :=
  add_one_intCast ⟨by exact_mod_cast low, by exact_mod_cast high⟩

/-- The double that an integer of 54 binary digits goes to. -/
def roundedInt (n : ℤ) : ℤ := if n ≤ 2 ^ 53 ∨ n % 2 = 0 then n else 4 * ((n + 1) / 4)

theorem ofRat_eq_roundedInt (nonneg : 0 ≤ n) (high : n < 2 ^ 54) :
    ofRat (n : ℚ) = fin (roundedInt n) := by
  have range := abs_lt.mp (Binary64.abs_nearest_intCast_lt (n := n) (by omega) (by omega))
  rw [ofRat, if_neg range.2.not_ge, if_neg range.1.not_ge, roundedInt]
  split
  · next fits =>
    rcases fits with small | even
    · rw [Binary64.nearest_intCast (by omega)]
    · rw [Binary64.nearest_intCast_of_even even (abs_le.mpr ⟨by omega, by omega⟩)]
  · next between =>
    rw [Binary64.nearest_intCast_of_odd (by omega) (by omega) high]

theorem add_one_eq_roundedInt (nonneg : 0 ≤ n) (high : n + 1 < 2 ^ 54) :
    (fin n).add 1 = fin (roundedInt (n + 1)) := by
  rw [← ofRat_eq_roundedInt (by omega) high]
  change ofRat ((n : ℚ) + ((1 : ℕ) : ℚ)) = _
  push_cast
  rfl

end Num

namespace NumberTy

/-- A loop from a number on ends with a list: it lists numbers that are not past the last one, in
rounded steps of one. -/
inductive CountsUp (last : Num) : Num → List Num → Prop where
  | stop {v : Num} (past : ¬ v ≤ last) : CountsUp last v []
  | step {v : Num} {xs : List Num} (le : v ≤ last) (rest : CountsUp last (v.add 1) xs) :
    CountsUp last v (v :: xs)

theorem CountsUp.unique {last v : Num} {xs ys : List Num} (counts : CountsUp last v xs)
    (counts' : CountsUp last v ys) : xs = ys := by
  induction counts generalizing ys with
  | stop past =>
    cases counts' with
    | stop _ => rfl
    | step le _ => exact absurd le past
  | step le _ ih =>
    cases counts' with
    | stop past => exact absurd le past
    | step _ rest => rw [ih rest]

/-- So many integers in a row. -/
def upFrom (first : ℤ) (length : ℕ) : List Num :=
  (List.range length).map fun (i : ℕ) => .fin ((first + i : ℤ) : ℚ)

@[simp] theorem length_upFrom (first : ℤ) (length : ℕ) :
    (upFrom first length).length = length := by
  simp [upFrom]

theorem upFrom_succ (first : ℤ) (length : ℕ) :
    upFrom first (length + 1) = .fin first :: upFrom (first + 1) length := by
  rw [upFrom, range_succ_eq_map, map_cons, map_map, upFrom]
  congr 1
  · simp
  · refine map_congr_left fun i _ => ?_
    simp only [Function.comp_apply, Nat.succ_eq_add_one]
    congr 2
    push_cast
    ring

/-- Steps between small bounds are exact, so the loop ends with the integers from one bound to the
other. -/
theorem countsUp_upFrom {hi : ℤ} (high : hi < 2 ^ 53) (length : ℕ) (lo : ℤ) (low : -2 ^ 53 ≤ lo)
    (width : lo + length = hi + 1) : CountsUp (.fin hi) (.fin lo) (upFrom lo length) := by
  induction length generalizing lo with
  | zero =>
    refine .stop fun le => ?_
    rw [Num.fin_le_fin, Int.cast_le] at le
    omega
  | succ length ih =>
    have le : lo ≤ hi := by omega
    rw [upFrom_succ]
    refine .step (Num.fin_le_fin.mpr (Int.cast_le.mpr le)) ?_
    rw [Num.add_one_of_lt low (by omega)]
    exact ih (lo + 1) (by omega) (by omega)

/-- Beyond these bounds it does not end: it comes to `2 ^ 53` and stays there. -/
theorem not_countsUp {lo hi : ℤ} (low : -2 ^ 53 ≤ lo) (reached : lo ≤ 2 ^ 53)
    (high : 2 ^ 53 ≤ hi) (xs : List Num) : ¬ CountsUp (.fin hi) (.fin lo) xs := by
  intro counts
  -- Whatever the loop comes to is an integer up to `2 ^ 53`, which is not past the last one.
  generalize start : Num.fin lo = v at counts
  induction counts generalizing lo with
  | stop past =>
    subst start
    exact past (Num.fin_le_fin.mpr (Int.cast_le.mpr (reached.trans high)))
  | step _ _ ih =>
    subst start
    obtain below | rfl := reached.lt_or_eq
    · exact ih (by omega) below (Num.add_one_of_lt low below).symm
    · have lost : (Num.fin ((2 ^ 53 : ℤ) : ℚ)).add 1 = .fin ((2 ^ 53 : ℤ) : ℚ) :=
        Num.add_one_eq_roundedInt (by norm_num) (by norm_num)
      exact ih low reached lost.symm

/-- The count of so many members: beyond `2 ^ 53` a multiple of four. -/
def counted (n : ℕ) : ℕ := if n ≤ 2 ^ 53 then n else 4 * ((n + 1) / 4)

/-- The count is right up to `2 ^ 53` members, and beyond for multiples of four. -/
theorem counted_eq_iff {n : ℕ} : counted n = n ↔ n ≤ 2 ^ 53 ∨ 4 ∣ n := by
  unfold counted
  split <;> omega

/-- The count is past a limit below `2 ^ 53` when the number of members is. -/
theorem counted_le_iff {n limit : ℕ} (small : limit < 2 ^ 53) : counted n ≤ limit ↔ n ≤ limit := by
  unfold counted
  split <;> omega

/-- The count is rounded for the width of the range, and again for the one that is added to it. -/
theorem count_intCast (lo : ℤ) {width : ℕ} (bound : width + 1 < 2 ^ 54) :
    (ints (.fin lo) (.fin (lo + width : ℤ))).count = some (.fin (counted (width + 1))) := by
  have difference : (Num.fin (lo + width : ℤ)).sub (.fin lo) = .fin (Num.roundedInt width) := by
    rw [← Num.ofRat_eq_roundedInt (by omega) (by omega)]
    change Num.ofRat (((lo + width : ℤ) : ℚ) + -(lo : ℚ)) = _
    push_cast
    rw [add_neg_cancel_comm]
  have range : 0 ≤ Num.roundedInt width ∧ Num.roundedInt width + 1 < 2 ^ 54 := by
    unfold Num.roundedInt
    split <;> omega
  have twice : Num.roundedInt (Num.roundedInt width + 1) = counted (width + 1) := by
    unfold Num.roundedInt counted
    split_ifs <;> omega
  change some (((Num.fin (lo + width : ℤ)).sub (.fin lo)).add 1) = _
  rw [difference, Num.add_one_eq_roundedInt range.1 range.2, twice, Int.cast_natCast]

/-- Whole numbers in steps of one from a first to a last one. -/
structure Consecutive (first last : Num) (xs : List Num) : Prop where
  first : xs.head? = some first
  last : xs.getLast? = some last
  step : xs.IsChain fun x y => ∃ k : ℤ, x = .fin k ∧ y = .fin (k + 1)

theorem consecutive_upFrom (lo : ℤ) (length : ℕ) :
    Consecutive (.fin lo) (.fin (lo + length : ℤ)) (upFrom lo (length + 1)) where
  first := by rw [upFrom_succ]; rfl
  last := by
    rw [upFrom, range_succ, map_append]
    simp
  step := by
    rw [upFrom, isChain_map, isChain_range_succ]
    intro i _
    refine ⟨lo + i, rfl, ?_⟩
    push_cast
    ring_nf

/-- The members of a whole range are as many integers in a row. -/
theorem members_intCast (lo : ℤ) (width : ℕ) :
    (ints (.fin lo) (.fin (lo + width : ℤ))).members = some (upFrom lo (width + 1)) := by
  rw [members, ← Int.cast_sub, Rat.floor_intCast, add_sub_cancel_left, Int.toNat_natCast, upFrom]
  push_cast
  rfl

/-- The loop ends with the members if the upper bound is below `2 ^ 53`, and otherwise it does not
end. -/
theorem countsUp_iff_members {lo : ℤ} (low : -2 ^ 53 ≤ lo) (reached : lo ≤ 2 ^ 53) (width : ℕ)
    (xs : List Num) : CountsUp (.fin (lo + width : ℤ)) (.fin lo) xs ↔
      lo + width < 2 ^ 53 ∧ (ints (.fin lo) (.fin (lo + width : ℤ))).members = some xs := by
  rw [members_intCast, Option.some.injEq]
  by_cases high : lo + width < 2 ^ 53
  · have counts := countsUp_upFrom high (width + 1) lo low (by omega)
    refine ⟨fun counts' => ⟨high, counts.unique counts'⟩, ?_⟩
    rintro ⟨-, rfl⟩
    exact counts
  · exact iff_of_false (not_countsUp low reached (by omega) xs) fun both => high both.1

/-- Loop, list, membership and count of a whole range between small bounds. The loop ends with the
members from the lower bound to the upper one. The count is their number up to `2 ^ 53`, beyond
only if this is a multiple of four; but it is past any smaller limit whenever their number is. -/
theorem counting_agrees {min max : Num} (valid : (ints min max).Valid)
    (finite : min.isFinite = true ∧ max.isFinite = true) (small : min.Small ∧ max.Small) :
    ∃ xs, (∀ ys, CountsUp max min ys ↔ ys = xs) ∧ (ints min max).members = some xs ∧
      Consecutive min max xs ∧ (∀ v, v ∈ xs ↔ (ints min max).has v = true) ∧
      ∃ c, (ints min max).count = some c ∧
        (c = .fin xs.length ↔ xs.length ≤ 2 ^ 53 ∨ 4 ∣ xs.length) ∧
        ∀ limit : ℕ, limit < 2 ^ 53 → (c ≤ .fin limit ↔ xs.length ≤ limit) := by
  obtain ⟨lo, rfl⟩ := Num.exists_intCast valid.1 finite.1
  obtain ⟨hi, rfl⟩ := Num.exists_intCast valid.2.1 finite.2
  obtain ⟨⟨low, -⟩, -, high⟩ := small
  have order : lo < hi := Int.cast_lt.mp (Num.fin_lt_fin.mp valid.2.2)
  have low : -2 ^ 53 < lo := by exact_mod_cast low
  have high : hi < 2 ^ 53 := by exact_mod_cast high
  obtain ⟨width, rfl⟩ : ∃ width : ℕ, hi = lo + width := ⟨(hi - lo).toNat, by omega⟩
  have listed := members_intCast lo width
  refine ⟨upFrom lo (width + 1), fun ys => ?_, listed,
    consecutive_upFrom lo width, Arithmetic.mem_members_iff valid listed, _,
    count_intCast lo (by omega), ?_, fun limit below => ?_⟩
  · rw [countsUp_iff_members low.le (by omega) width ys, listed, Option.some.injEq, eq_comm]
    exact and_iff_right high
  · rw [length_upFrom, Num.fin.injEq, Nat.cast_inj, counted_eq_iff]
  · rw [length_upFrom, Num.fin_le_fin, Nat.cast_le, counted_le_iff below]

/-- Three whole numbers as large as they can be. -/
theorem counting_agrees_largest :
    let min : Num := 9007199254740989
    let max : Num := 9007199254740991
    (ints min max).Valid ∧ (min.isFinite = true ∧ max.isFinite = true) ∧ (min.Small ∧ max.Small) ∧
      CountsUp max min [min, 9007199254740990, max] ∧ (ints min max).count = some 3 := by
  intro min max
  have valid : (ints min max).Valid := by decide
  have small : min.Small ∧ max.Small := by decide
  obtain ⟨xs, ended, listed, -, -, c, counted, right, -⟩ := counting_agrees valid ⟨rfl, rfl⟩ small
  obtain rfl : [min, 9007199254740990, max] = xs :=
    Option.some.inj ((by decide +kernel : _ = (ints min max).members).trans listed)
  rw [right.mpr (.inl (by decide))] at counted
  exact ⟨valid, ⟨rfl, rfl⟩, small, (ended _).mpr rfl, counted⟩

/-- The bounds are small, but there are `2 ^ 53 + 2` members. Their number is a double, which the
count misses by two. -/
theorem count_misses_two :
    let min : Num := .fin (-9007199254740991)
    let max : Num := .fin 2
    (ints min max).Valid ∧ (min.isFinite = true ∧ max.isFinite = true) ∧ (min.Small ∧ max.Small) ∧
      (∃ xs, CountsUp max min xs ∧ (ints min max).members = some xs ∧
        xs.length = 9007199254740994) ∧
      (Num.fin 9007199254740994).IsDouble ∧
      (ints min max).count = some (.fin 9007199254740992) := by
  intro min max
  refine ⟨by decide, ⟨rfl, rfl⟩, by decide, ?_, by decide +kernel, by decide +kernel⟩
  have high : (2 : ℤ) < 2 ^ 53 := by norm_num
  exact ⟨_, countsUp_upFrom high 9007199254740994 (-9007199254740991) (by norm_num) (by norm_num),
    members_intCast (-9007199254740991) 9007199254740993, length_upFrom _ _⟩

end NumberTy
end TypeFlow
