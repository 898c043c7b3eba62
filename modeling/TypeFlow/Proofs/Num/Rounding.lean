import Mathlib.Data.Rat.Floor
import Mathlib.Algebra.Order.Field.Power
import Mathlib.Tactic.Linarith
import Mathlib.Tactic.NormNum
import Mathlib.Tactic.Positivity
import TypeFlow.Num.Basic

/-!
# Rounding of integers

Bounds of whole ranges move by one, and a step of one is only right where doubles are dense
enough. Every integer of size at most `2 ^ 53` is its own nearest double, so a step that stays
in that range is exact. A difference beyond that range is rounded to an even integer, so it is
never mistaken for a distance of one.
-/

namespace TypeFlow.Binary64

theorem roundHalfEven_intCast (n : ℤ) : roundHalfEven (n : ℚ) = n := by
  have below : (n : ℚ).floor = n := Rat.floor_intCast n
  simp [roundHalfEven, below]

theorem size_intCast (n : ℤ) : size (n : ℚ) = (n.natAbs : ℚ) := by
  unfold size
  by_cases negative : n < 0
  · have cast : (n : ℚ) < 0 := by exact_mod_cast negative
    rw [if_pos cast, ← Int.cast_neg, ← Int.cast_natCast, Int.ofNat_natAbs_of_nonpos (by omega)]
  · have cast : ¬ (n : ℚ) < 0 := by exact_mod_cast negative
    rw [if_neg cast, ← Int.cast_natCast, Int.natAbs_of_nonneg (by omega)]

theorem magnitude_natCast {n : Nat} (positive : n ≠ 0) : magnitude (n : ℚ) = Nat.log2 n := by
  have guess : (Nat.log2 (n : ℚ).num.natAbs : Int) - (Nat.log2 (n : ℚ).den : Int) = Nat.log2 n := by
    have unit : Nat.log2 1 = 0 := by decide
    simp [unit]
  have reached : ¬ (n : ℚ) < (2 : ℚ) ^ (Nat.log2 n : ℤ) := by
    rw [zpow_natCast, not_lt]
    exact_mod_cast Nat.log2_self_le positive
  simp only [magnitude, guess, if_neg reached]

/-- A multiple of the quantum is its own nearest multiple. -/
theorem nearest_of_multiple {q : ℚ} (k : ℤ) (multiple : q / quantum q = k) : nearest q = q := by
  unfold nearest
  split
  · next zero => exact zero.symm
  · have positive : (0 : ℚ) < quantum q := by unfold quantum; positivity
    rw [multiple, roundHalfEven_intCast, ← multiple]
    exact div_mul_cancel₀ q positive.ne'

theorem lastPlace_intCast {n : ℤ} (nonzero : n ≠ 0) :
    lastPlace (n : ℚ) = max ((Nat.log2 n.natAbs : ℤ) - 52) (-1074) := by
  rw [lastPlace, size_intCast, magnitude_natCast (Int.natAbs_ne_zero.mpr nonzero)]
  rfl

theorem nearest_intCast {n : ℤ} (bound : n.natAbs ≤ 2 ^ 53) : nearest (n : ℚ) = n := by
  by_cases zero : n = 0
  · subst zero
    exact_mod_cast nearest_zero
  have place := lastPlace_intCast zero
  have positive : n.natAbs ≠ 0 := Int.natAbs_ne_zero.mpr zero
  by_cases top : n.natAbs = 2 ^ 53
  · -- the one size that needs a coefficient of 54 digits is even
    have log : Nat.log2 n.natAbs = 53 := by rw [top, Nat.log2_two_pow]
    have one : lastPlace (n : ℚ) = 1 := by rw [place, log]; rfl
    obtain ⟨k, half⟩ : ∃ k, n = 2 * k := ⟨n / 2, by omega⟩
    apply nearest_of_multiple k
    rw [quantum, one, half]
    push_cast
    field_simp
  · have log : Nat.log2 n.natAbs ≤ 52 := by
      have below := (Nat.log2_lt positive (k := 53)).mpr (by omega)
      omega
    obtain ⟨k, power⟩ : ∃ k : ℕ, lastPlace (n : ℚ) = -(k : ℤ) :=
      ⟨(-lastPlace (n : ℚ)).toNat, by rw [place]; omega⟩
    apply nearest_of_multiple (n * 2 ^ k)
    rw [quantum, power, zpow_neg, zpow_natCast, div_inv_eq_mul]
    push_cast
    rfl

/-- Beyond the size `2 ^ 53` an integer goes to an even integer. -/
theorem nearest_intCast_even {n : ℤ} (bound : 2 ^ 53 ≤ n.natAbs) :
    ∃ k : ℤ, nearest (n : ℚ) = 2 * k := by
  have zero : n ≠ 0 := by omega
  have log : 53 ≤ Nat.log2 n.natAbs := (Nat.le_log2 (Int.natAbs_ne_zero.mpr zero)).mpr bound
  obtain ⟨k, power⟩ : ∃ k : ℕ, lastPlace (n : ℚ) = k + 1 :=
    ⟨(lastPlace (n : ℚ) - 1).toNat, by rw [lastPlace_intCast zero]; omega⟩
  refine ⟨roundHalfEven (n / quantum n) * 2 ^ k, ?_⟩
  rw [nearest, if_neg (by exact_mod_cast zero)]
  nth_rewrite 2 [quantum]
  rw [power, zpow_add_one₀ (by norm_num), zpow_natCast]
  push_cast
  ring

end TypeFlow.Binary64

namespace TypeFlow.Num

theorem ofRat_intCast {n : ℤ} (bound : n.natAbs ≤ 2 ^ 53) : ofRat (n : ℚ) = fin n := by
  have room : (2 : ℚ) ^ 53 < Binary64.limit := by
    rw [Binary64.limit, ← zpow_natCast]
    exact zpow_lt_zpow_right₀ (by norm_num) (by norm_num)
  have upper : (n : ℚ) ≤ 2 ^ 53 := by exact_mod_cast (by omega : n ≤ 2 ^ 53)
  have lower : -(2 : ℚ) ^ 53 ≤ n := by exact_mod_cast (by omega : -2 ^ 53 ≤ n)
  simp only [ofRat, Binary64.nearest_intCast bound]
  rw [if_neg (by linarith), if_neg (by linarith)]

theorem ofRat_intCast_eq_one {n : ℤ} : ofRat (n : ℚ) = 1 ↔ n = 1 := by
  constructor
  · intro rounded
    by_cases bound : n.natAbs ≤ 2 ^ 53
    · rw [ofRat_intCast bound] at rounded
      have same : (n : ℚ) = ((1 : ℕ) : ℚ) := Num.fin.inj rounded
      exact_mod_cast same
    · obtain ⟨k, even⟩ := Binary64.nearest_intCast_even (n := n) (by omega)
      simp only [ofRat, even] at rounded
      split at rounded
      · cases rounded
      · split at rounded
        · cases rounded
        · have same : 2 * (k : ℚ) = ((1 : ℕ) : ℚ) := Num.fin.inj rounded
          have odd : 2 * k = 1 := by exact_mod_cast same
          omega
  · rintro rfl
    exact ofRat_intCast (by decide)

end TypeFlow.Num
