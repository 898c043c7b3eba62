import TypeFlow.Num.Decimal
import TypeFlow.Proofs.Num.Monotone

/-!
# Shortest decimals

The shortest decimal for a double reads back as that double. A rational that is said to round to a
double does so, also below a power of two, where the neighbour is nearer; and among the grids that
are tried the last one has seventeen digits, which is fine enough to have a point near every double.
-/

namespace TypeFlow.Binary64

variable {x q : ℚ} {m k : ℤ}

/-- An integer that is a half away, or less if it is odd, is the nearest one. -/
theorem roundHalfEven_eq {y : ℚ} (low : m - 1 / 2 ≤ y) (high : y ≤ m + 1 / 2)
    (odd : m % 2 = 1 → m - 1 / 2 < y ∧ y < m + 1 / 2) : roundHalfEven y = m := by
  have floorLow : m - 1 ≤ y.floor := Rat.le_floor_iff.mpr (by push_cast; linarith)
  have floorHigh : y.floor < m + 1 := Rat.floor_lt_iff.mpr (by push_cast; linarith)
  obtain below | here : y.floor = m - 1 ∨ y.floor = m := by omega
  · simp only [roundHalfEven, below]
    push_cast
    split_ifs with first second even
    · linarith
    · omega
    · have := (odd (by omega)).1
      linarith
    · omega
  · simp only [roundHalfEven, here]
    split_ifs with first second even
    · rfl
    · linarith
    · rfl
    · have := (odd (by omega)).2
      linarith

/-- A rational near a multiple of its last digit is rounded to it. -/
theorem nearest_of_near (nonzero : x ≠ 0) (place : lastPlace x = k)
    (low : (m - 1 / 2) * (2 : ℚ) ^ k ≤ x) (high : x ≤ (m + 1 / 2) * (2 : ℚ) ^ k)
    (odd : m % 2 = 1 → (m - 1 / 2) * (2 : ℚ) ^ k < x ∧ x < (m + 1 / 2) * (2 : ℚ) ^ k) :
    nearest x = m * (2 : ℚ) ^ k := by
  have unit : (0 : ℚ) < 2 ^ k := by positivity
  have rounded : roundHalfEven (x / 2 ^ k) = m := by
    refine roundHalfEven_eq ((le_div_iff₀ unit).mpr low) ((div_le_iff₀ unit).mpr high)
      fun isOdd => ?_
    exact ⟨(lt_div_iff₀ unit).mpr (odd isOdd).1, (div_lt_iff₀ unit).mpr (odd isOdd).2⟩
  rw [nearest, if_neg nonzero, quantum, place, rounded]

/-- A positive rational between the powers of two around its last digit. -/
theorem lastPlace_eq (positive : 0 < x) (least : leastExponent ≤ k) (high : x < (2 : ℚ) ^ (k + 53))
    (low : leastExponent < k → (2 : ℚ) ^ (k + 52) ≤ x) : lastPlace x = k := by
  have size : |x| = x := abs_of_pos positive
  have upper : lastPlace x ≤ k := lastPlace_le positive.ne' (by rwa [size]) least
  have lower : leastExponent ≤ lastPlace x := le_max_right _ _
  by_cases least' : leastExponent < k
  · have reached := (low least').trans_lt (size ▸ lt_of_lastPlace positive.ne')
    have := two_zpow_lt_iff.mp reached
    omega
  · omega

theorem two_zpow_lastPlace_add (q : ℚ) (n : ℤ) :
    (2 : ℚ) ^ (lastPlace q + n) = 2 ^ n * quantum q := by
  rw [quantum, zpow_add₀ two_ne_zero, mul_comm]

/-- The coefficient of a positive double. -/
structure Placed (q : ℚ) (m : ℤ) : Prop where
  product : q = m * quantum q
  positive : 0 < m
  small : m < 2 ^ 53
  full : leastExponent < lastPlace q → 2 ^ 52 ≤ m

theorem exists_placed (positive : 0 < q) (double : nearest q = q) : ∃ m, Placed q m := by
  have unit := quantum_pos q
  obtain ⟨m, product⟩ : ∃ m : ℤ, q = m * quantum q := by
    rw [nearest, if_neg positive.ne'] at double
    exact ⟨_, double.symm⟩
  have coefficient : (0 : ℚ) < m := by
    rw [product] at positive
    exact pos_of_mul_pos_left positive unit.le
  refine ⟨m, product, by exact_mod_cast coefficient, ?_, fun above => ?_⟩
  · have below : m * quantum q < 2 ^ (53 : ℤ) * quantum q := by
      rw [← two_zpow_lastPlace_add, ← product]
      exact (le_abs_self q).trans_lt (lt_of_lastPlace positive.ne')
    have cast := lt_of_mul_lt_mul_right below unit.le
    exact_mod_cast cast
  · have full : 2 ^ (52 : ℤ) * quantum q ≤ m * quantum q := by
      rw [← two_zpow_lastPlace_add, ← product]
      exact full_of_lt_lastPlace positive above
    have cast := le_of_mul_le_mul_right full unit
    exact_mod_cast cast

theorem Placed.floor_eq (placed : Placed q m) : (q / quantum q).floor = m := by
  have unit := quantum_pos q
  have quotient : q / quantum q = m := (div_eq_iff unit.ne').mpr placed.product
  rw [quotient, Rat.floor_intCast]

end TypeFlow.Binary64

namespace TypeFlow.Decimal

open Binary64

/-- How far below a double with the given coefficient the interval reaches. -/
def reachBelow (q : ℚ) (m : ℤ) : ℚ :=
  if m = leastFull ∧ leastExponent < lastPlace q then quantum q / 4 else quantum q / 2

variable {q x : ℚ} {m : ℤ}

theorem reachBelow_le (q : ℚ) (m : ℤ) : reachBelow q m ≤ quantum q / 2 := by
  have unit := quantum_pos q
  unfold reachBelow
  split_ifs <;> linarith

theorem roundsTo_iff (placed : Placed q m) :
    roundsTo q x = true ↔ (q - reachBelow q m ≤ x ∧ x ≤ q + quantum q / 2) ∧
      (m % 2 = 1 → q - reachBelow q m < x ∧ x < q + quantum q / 2) := by
  simp only [roundsTo, placed.floor_eq]
  rw [← reachBelow]
  by_cases even : m % 2 = 0
  · simp [even]
  · have odd : m % 2 = 1 := by omega
    simp only [odd, one_ne_zero, if_false, decide_eq_true_eq, forall_const]
    exact ⟨fun inside => ⟨⟨inside.1.le, inside.2.le⟩, inside⟩, And.right⟩

/-- Just below a power of two the last digit of a rational counts half as much. Only a double that
is a power of two has such rationals in its interval, which then reaches half as far. -/
theorem nearest_of_lt_power (placed : Placed q m) (positive : 0 < x)
    (low : q - reachBelow q m ≤ x) (above : leastExponent < lastPlace q)
    (under : x < (2 : ℚ) ^ (lastPlace q + 52)) : nearest x = q := by
  have unit := quantum_pos q
  have reach := reachBelow_le q m
  have product := placed.product
  rw [two_zpow_lastPlace_add] at under
  have coefficient : m = leastFull := by
    have least : m < 2 ^ 52 + 1 := by
      by_contra more
      have : (2 : ℚ) ^ 52 + 1 ≤ m := by exact_mod_cast not_lt.mp more
      nlinarith
    have := placed.full above
    rw [leastFull]
    omega
  have quarter : reachBelow q m = quantum q / 4 := if_pos ⟨coefficient, above⟩
  have value : (m : ℚ) = 2 ^ 52 := by rw [coefficient]; norm_num [leastFull]
  rw [value] at product
  have half : (2 : ℚ) ^ (lastPlace q - 1) = quantum q / 2 := by
    rw [quantum, zpow_sub_one₀ two_ne_zero, div_eq_mul_inv]
  have place : lastPlace x = lastPlace q - 1 := by
    refine lastPlace_eq positive (by omega) ?_ fun _ => ?_
    · rw [show lastPlace q - 1 + 53 = lastPlace q + 52 by ring, two_zpow_lastPlace_add]
      exact under
    · rw [show lastPlace q - 1 + 52 = lastPlace q + 51 by ring, two_zpow_lastPlace_add]
      norm_num at under ⊢
      linarith
  rw [nearest_of_near (m := 2 ^ 53) positive.ne' place, half]
  · push_cast
    linarith
  · rw [half]
    push_cast
    linarith
  · rw [half]
    norm_num at under ⊢
    linarith
  · norm_num

/-- The interval is one of rationals that round to the double. -/
theorem nearest_of_roundsTo (placed : Placed q m) (rounds : roundsTo q x = true) :
    nearest x = q := by
  obtain ⟨⟨low, high⟩, odd⟩ := (roundsTo_iff placed).mp rounds
  have unit := quantum_pos q
  have reach := reachBelow_le q m
  have product := placed.product
  have one : (1 : ℚ) ≤ m := by exact_mod_cast placed.positive
  have small : (m : ℚ) ≤ 2 ^ 53 - 1 := by exact_mod_cast Int.le_sub_one_of_lt placed.small
  have positive : 0 < x := by nlinarith
  have least : leastExponent ≤ lastPlace q := le_max_right _ _
  by_cases below : leastExponent < lastPlace q ∧ x < (2 : ℚ) ^ (lastPlace q + 52)
  · exact nearest_of_lt_power placed positive low below.1 below.2
  · have place : lastPlace x = lastPlace q := by
      refine lastPlace_eq positive least ?_ fun above => not_lt.mp fun under => below ⟨above, under⟩
      rw [two_zpow_lastPlace_add]
      norm_num at small ⊢
      nlinarith
    rw [nearest_of_near (m := m) positive.ne' place, ← quantum, ← product]
    · rw [← quantum]
      linarith
    · rw [← quantum]
      linarith
    · intro isOdd
      have := odd isOdd
      rw [← quantum]
      constructor <;> linarith

/-- A grid point on either side of the double is further away than the interval reaches. -/
theorem gap_le_of_not_roundsTo {unit : ℚ} {low : ℤ} (placed : Placed q m)
    (below : low * unit ≤ q) (above : q ≤ (low + 1) * unit)
    (down : roundsTo q (low * unit) = false) (up : roundsTo q ((low + 1) * unit) = false) :
    quantum q / 2 + reachBelow q m ≤ unit := by
  have positive := quantum_pos q
  have reach : 0 < reachBelow q m := by
    unfold reachBelow
    split_ifs <;> linarith
  rw [← Bool.not_eq_true, roundsTo_iff placed, not_and_or] at down up
  have lower : low * unit ≤ q - reachBelow q m := by
    by_contra more
    rcases down with outside | outside
    · exact outside ⟨by linarith, by linarith⟩
    · exact outside fun _ => ⟨by linarith, by linarith⟩
  have upper : q + quantum q / 2 ≤ (low + 1) * unit := by
    by_contra less
    rcases up with outside | outside
    · exact outside ⟨by linarith, by linarith⟩
    · exact outside fun _ => ⟨by linarith, by linarith⟩
  linarith

/-- Seventeen digits are enough for every double. -/
theorem lt_gap {unit : ℚ} (placed : Placed q m) (fine : unit * 10 ^ 16 ≤ q) :
    unit < quantum q / 2 + reachBelow q m := by
  have positive := quantum_pos q
  have product := placed.product
  by_cases least : m = leastFull ∧ leastExponent < lastPlace q
  · have value : (m : ℚ) = 2 ^ 52 := by rw [least.1]; norm_num [leastFull]
    rw [value] at product
    rw [reachBelow, if_pos least]
    norm_num at product fine
    linarith
  · have small : (m : ℚ) < 2 ^ 53 := by exact_mod_cast placed.small
    rw [reachBelow, if_neg least]
    norm_num at small fine
    nlinarith

theorem roundsTo_onGrid {tie : Tie} {e : ℤ} {d : Decimal} (positive : 0 < q)
    (found : onGrid tie q e = some d) : roundsTo q d.toRat = true := by
  have unit : (0 : ℚ) < 10 ^ e := by positivity
  have low : 0 ≤ (q / 10 ^ e).floor := Rat.le_floor_iff.mpr (by positivity)
  have toRat {n : ℤ} (natural : 0 ≤ n) : toRat ⟨n.toNat, e⟩ = n * (10 : ℚ) ^ e := by
    have cast : ((n.toNat : ℕ) : ℚ) = n := by exact_mod_cast Int.toNat_of_nonneg natural
    rw [Decimal.toRat, cast]
  simp only [onGrid] at found
  split_ifs at found with up down
  · rw [Bool.and_eq_true] at up
    rw [← Option.some.inj found, toRat (by omega)]
    exact_mod_cast up.1
  · rw [← Option.some.inj found, toRat low]
    exact down

theorem onGrid_ne_none {e : ℤ} (tie : Tie) (placed : Placed q m)
    (fine : (10 : ℚ) ^ e * 10 ^ 16 ≤ q) : onGrid tie q e ≠ none := by
  intro missed
  have unit : (0 : ℚ) < 10 ^ e := by positivity
  simp only [onGrid] at missed
  split_ifs at missed with up down
  rw [Bool.not_eq_true] at down
  simp only [down, Bool.not_false, Bool.true_or, Bool.and_true, Bool.not_eq_true] at up
  have below := (le_div_iff₀ unit).mp (Rat.floor_le (q / 10 ^ e))
  have above := (div_lt_iff₀ unit).mp (sub_lt_iff_lt_add.mp (Rat.lt_floor : q / 10 ^ e - 1 < _))
  exact (lt_gap placed fine).not_ge (gap_le_of_not_roundsTo placed below above.le down up)

theorem roundsTo_searchGrids (tie : Tie) (positive : 0 < q) (placed : Placed q m) (tries : ℕ)
    (e : ℤ) (fine : (10 : ℚ) ^ (e - tries) * 10 ^ 16 ≤ q) :
    roundsTo q (searchGrids tie q (tries + 1) e).toRat = true := by
  induction tries generalizing e with
  | zero =>
    obtain ⟨d, found⟩ := Option.ne_none_iff_exists'.mp
      (onGrid_ne_none (e := e) tie placed (by simpa using fine))
    rw [searchGrids, found]
    exact roundsTo_onGrid positive found
  | succ tries next =>
    rw [searchGrids]
    split
    · next found => exact roundsTo_onGrid positive found
    · refine next (e - 1) ?_
      rwa [show e - 1 - (tries : ℤ) = e - ((tries + 1 : ℕ) : ℤ) by push_cast; ring]

/-- Powers compare as their powers do. -/
theorem zpow_le_zpow_of_mul {a b : ℚ} {g n : ℤ} (r : ℕ) (nonzero : r ≠ 0) (positive : 0 < b)
    (powers : a ^ (r * g) ≤ b ^ (r * n)) : a ^ g ≤ b ^ n := by
  rw [mul_comm, zpow_mul, mul_comm, zpow_mul, zpow_natCast, zpow_natCast] at powers
  exact le_of_pow_le_pow_left₀ nonzero (by positivity) powers

/-- The power of ten that is taken for a power of two is at most ten times too great. -/
theorem ten_zpow_le {g n : ℤ} (low : -1074 ≤ n) (high : n ≤ 1023)
    (guess : g ≤ n * 30103 / 100000) : (10 : ℚ) ^ (g - 1) ≤ 2 ^ n := by
  by_cases natural : 0 ≤ n
  · refine zpow_le_zpow_of_mul 196 (by norm_num) (by norm_num) ?_
    obtain ⟨n, rfl⟩ := Int.eq_ofNat_of_zero_le natural
    calc (10 : ℚ) ^ (((196 : ℕ) : ℤ) * (g - 1))
        ≤ 10 ^ (((59 * n : ℕ) : ℤ)) := zpow_le_zpow_right₀ (by norm_num) (by push_cast; omega)
      _ = (10 ^ 59) ^ n := by rw [zpow_natCast, pow_mul]
      _ ≤ (2 ^ 196) ^ n := pow_le_pow_left₀ (by positivity) (by norm_num) n
      _ = 2 ^ (((196 : ℕ) : ℤ) * (n : ℤ)) := by rw [← pow_mul, ← zpow_natCast]; push_cast; rfl
  · refine zpow_le_zpow_of_mul 93 (by norm_num) (by norm_num) ?_
    obtain ⟨k, rfl⟩ : ∃ k : ℕ, n = -k := ⟨n.natAbs, by omega⟩
    calc (10 : ℚ) ^ (((93 : ℕ) : ℤ) * (g - 1))
        ≤ 10 ^ (-((28 * k : ℕ) : ℤ)) := zpow_le_zpow_right₀ (by norm_num) (by push_cast; omega)
      _ = ((10 ^ 28) ^ k)⁻¹ := by rw [zpow_neg, zpow_natCast, pow_mul]
      _ ≤ ((2 ^ 93) ^ k)⁻¹ := by
        refine inv_anti₀ (by positivity) (pow_le_pow_left₀ (by positivity) (by norm_num) k)
      _ = 2 ^ (((93 : ℕ) : ℤ) * -(k : ℤ)) := by
        rw [← pow_mul, mul_neg, zpow_neg, ← zpow_natCast]
        push_cast
        rfl

theorem ten_zpow_leadingPlace_le (positive : 0 < q) (placed : Placed q m) (bounded : q < limit) :
    (10 : ℚ) ^ leadingPlace q ≤ q := by
  obtain ⟨low, high⟩ := magnitude_bounds positive
  have least : (2 : ℚ) ^ (-1074 : ℤ) ≤ q := by
    have unit : (2 : ℚ) ^ (-1074 : ℤ) ≤ quantum q :=
      zpow_le_zpow_right₀ (by norm_num) (le_max_right _ _)
    have one : (1 : ℚ) ≤ m := by exact_mod_cast placed.positive
    have := placed.product
    nlinarith [quantum_pos q]
  have above := two_zpow_lt_iff.mp (least.trans_lt high)
  have below := two_zpow_lt_iff.mp (low.trans_lt bounded)
  simp only [leadingPlace]
  split_ifs with under beyond
  · exact (ten_zpow_le (by omega) (by omega) le_rfl).trans low
  · exact beyond
  · exact not_lt.mp under

/-- The shortest decimal of a positive double reads back as that double. -/
theorem nearest_shortest (tie : Tie) (positive : 0 < q) (double : nearest q = q)
    (bounded : q < limit) : nearest (shortest tie q).toRat = q := by
  obtain ⟨m, placed⟩ := exists_placed positive double
  refine nearest_of_roundsTo placed (roundsTo_searchGrids tie positive placed 17 _ ?_)
  have exponents : leadingPlace q + 1 - ((17 : ℕ) : ℤ) + 16 = leadingPlace q := by push_cast; ring
  have ten : (10 : ℚ) ^ (leadingPlace q + 1 - ((17 : ℕ) : ℤ)) * 10 ^ 16 = 10 ^ leadingPlace q := by
    rw [← zpow_natCast, ← zpow_add₀ (by norm_num)]
    exact congrArg _ exponents
  rw [ten]
  exact ten_zpow_leadingPlace_le positive placed bounded

end TypeFlow.Decimal
