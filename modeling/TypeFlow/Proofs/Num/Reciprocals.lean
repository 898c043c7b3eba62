import TypeFlow.Proofs.Num.Extended

/-!
# Rounded reciprocals

A reciprocal is off by the rounding of one operation, and two different doubles are further apart
than that. So the reciprocal of a double on one side of an integer is on the other side of the
exact reciprocal of the integer, and a product with the reciprocal of an integer stays between two
doubles that the exact quotient is strictly between.
-/

namespace TypeFlow

open scoped Num.Linear

namespace Num

open Binary64 (nearest roundoff roundoff_pos)

theorem one_div_fin {q : ℚ} (nonzero : q ≠ 0) : div 1 (fin q) = ofRat (1 / q) := by
  change (if q = 0 then nan else ofRat (((1 : ℕ) : ℚ) / q)) = _
  rw [if_neg nonzero, Nat.cast_one]

theorem one_div_neg (x : Num) : div 1 x.neg = (div 1 x).neg := by
  cases x with
  | fin q =>
    by_cases zero : q = 0
    · subst zero
      decide
    · rw [neg, one_div_fin zero, one_div_fin (neg_ne_zero.mpr zero), ← ofRat_neg,
        one_div_neg_eq_neg_one_div]
  | nan => rfl
  | _ => decide

variable {x y : Num}

theorem one_div_eq_nan_iff : div 1 x = nan ↔ x = nan ∨ x = 0 := by
  cases x with
  | fin q =>
    by_cases zero : q = 0
    · simp [zero, div, OfNat.ofNat]
    · simp [one_div_fin zero, zero_eq, zero]
  | nan => simp [div, OfNat.ofNat]
  | _ => exact iff_of_false (by decide) (by decide)

theorem one_div_ne_nan (number : x ≠ nan) (nonzero : x ≠ 0) : div 1 x ≠ nan := by
  rw [Ne, one_div_eq_nan_iff]
  exact fun none => none.elim number nonzero

/-- Reciprocals of positive numbers go down as these go up. -/
theorem one_div_le_of_pos (positive : 0 < x) (le : x ≤ y) (number : y ≠ nan) :
    div 1 y ≤ div 1 x := by
  have numberX : x ≠ nan := fun same => number (nan_le_iff.mp (same ▸ le))
  obtain rfl | ⟨p, posP, rfl⟩ := pos_cases numberX positive
  · obtain rfl := (posInf_le_iff.mp le).resolve_right number
    exact le_refl _
  · rw [one_div_fin posP.ne']
    obtain rfl | ⟨q, posQ, rfl⟩ := pos_cases number (positive.trans_le le)
    · exact isDouble_zero.le_ofRat (by push_cast; positivity)
    · rw [one_div_fin posQ.ne']
      exact ofRat_mono (one_div_le_one_div_of_le posP (fin_le_fin.mp le))

/-- So do those of negative numbers. -/
theorem one_div_le_of_neg (negative : y < 0) (le : x ≤ y) : div 1 y ≤ div 1 x := by
  have numberY : y ≠ nan := fun same => by simp [same] at negative
  have numberX : x ≠ nan := fun same => numberY (nan_le_iff.mp (same ▸ le))
  have mirrored := one_div_le_of_pos ((zero_lt_neg_iff numberY).mpr negative)
    ((neg_le_neg_iff numberY numberX).mpr le) (neg_eq_nan_iff.not.mpr numberX)
  rwa [one_div_neg, one_div_neg, neg_le_neg_iff (one_div_ne_nan numberX (le.trans_lt negative).ne)
      (one_div_ne_nan numberY negative.ne)] at mirrored

theorem one_eq : (1 : Num) = fin 1 := rfl

theorem isDouble_one : (1 : Num).IsDouble := isDouble_intCast (n := 1) (by decide)

theorem one_div_le_one (whole : x.isWhole = true) (positive : 0 < x) : div 1 x ≤ 1 := by
  have least : 1 ≤ x := by
    obtain rfl | rfl | ⟨n, rfl⟩ := isWhole_iff.mp whole
    · simp at positive
    · simp [one_eq]
    · have one : 1 ≤ n := by exact_mod_cast zero_lt_fin.mp positive
      rw [one_eq, fin_le_fin]
      exact_mod_cast one
  calc div 1 x ≤ div 1 (fin 1) := one_div_le_of_pos (by decide) least (ne_nan_of_isWhole whole)
    _ = ofRat 1 := by rw [one_div_fin one_ne_zero, one_div_one]
    _ = 1 := isDouble_one

theorem neg_one_le_one_div (whole : x.isWhole = true) (negative : x < 0) : fin (-1) ≤ div 1 x := by
  have number := ne_nan_of_isWhole whole
  have mirrored := one_div_le_one (isWhole_neg.trans whole) ((zero_lt_neg_iff number).mpr negative)
  rw [one_div_neg] at mirrored
  rw [← neg_le_neg_iff (one_div_ne_nan number negative.ne) (by simp)]
  simpa [neg, one_eq] using mirrored

/-- Numbers of size one at most are rounded to a finite one. -/
theorem ofRat_eq_nearest {q : ℚ} (small : |q| ≤ 1) : ofRat q = fin (nearest q) := by
  have one : nearest 1 = 1 := (isDouble_fin.mp (isDouble_intCast (n := 1) (by decide))).1
  have limit : (1 : ℚ) < Binary64.limit := by
    have := (isDouble_fin.mp (isDouble_intCast (n := 1) (by decide))).2
    simpa using this
  obtain ⟨low, high⟩ := abs_le.mp small
  have lower := Binary64.nearest_mono low
  have upper := Binary64.nearest_mono high
  rw [Binary64.nearest_neg, one] at lower
  rw [one] at upper
  rw [ofRat, if_neg (by linarith), if_neg (by linarith)]

section Integer

variable {j : ℤ} (positive : 0 < j) (bound : j.natAbs ≤ 2 ^ 53)
include positive bound

theorem one_div_int_bounds : (2 : ℚ) ^ (-53 : ℤ) ≤ 1 / (j : ℚ) ∧ 1 / (j : ℚ) ≤ 1 := by
  have least : (1 : ℚ) ≤ j := by exact_mod_cast positive
  have greatest : (j : ℚ) ≤ 2 ^ 53 := by
    have : j ≤ 2 ^ 53 := by omega
    exact_mod_cast this
  constructor
  · rw [zpow_neg, ← one_div]
    exact one_div_le_one_div_of_le (by linarith) (by exact_mod_cast greatest)
  · rw [div_le_one (by linarith)]
    exact least

/-- The exact reciprocal of an integer is above the rounded ones of greater doubles. -/
theorem one_div_le_exact {d : Num} (double : d.IsDouble) (number : d ≠ nan)
    (less : fin (j : ℚ) < d) : div 1 d ≤ fin (1 / (j : ℚ)) := by
  have posJ : (0 : ℚ) < j := by exact_mod_cast positive
  obtain ⟨least, -⟩ := one_div_int_bounds positive bound
  obtain rfl | ⟨q, posQ, rfl⟩ := pos_cases number ((zero_lt_fin.mpr posJ).trans less)
  · exact zero_le_fin.mpr (by positivity)
  · rw [fin_lt_fin] at less
    have least' : (1 : ℚ) ≤ j := by exact_mod_cast positive
    have small : |1 / q| ≤ 1 := by
      rw [abs_of_pos (by positivity), div_le_one posQ]
      linarith
    rw [one_div_fin posQ.ne', ofRat_eq_nearest small, fin_le_fin]
    obtain tiny | full := lt_or_ge (1 / q) ((2 : ℚ) ^ (-1022 : ℤ))
    · -- a reciprocal that loses digits is far below
      have unit : roundoff ≤ 1 := by norm_num [roundoff]
      obtain ⟨-, upper⟩ := (Binary64.full_of_le (le_refl ((2 : ℚ) ^ (-1022 : ℤ)))).nearest_bounds
      calc nearest (1 / q) ≤ nearest (2 ^ (-1022 : ℤ)) := Binary64.nearest_mono tiny.le
        _ ≤ 2 ^ (-1022 : ℤ) * (1 + roundoff) := upper
        _ ≤ 2 ^ (-1022 : ℤ) * 2 := by gcongr; linarith
        _ ≤ 2 ^ (-53 : ℤ) := by
          rw [← zpow_add_one₀ (by norm_num)]
          exact zpow_le_zpow_right₀ (by norm_num) (by norm_num)
        _ ≤ 1 / j := least
    · have gap := Binary64.lt_of_nearest_eq posJ less (isDouble_fin.mp (isDouble_intCast bound)).1
        (isDouble_fin.mp double).1
      calc nearest (1 / q) ≤ 1 / q * (1 + roundoff) :=
            (Binary64.full_of_le full).nearest_bounds.2
        _ ≤ 1 / j := by
          rw [div_mul_eq_mul_div, one_mul, div_le_div_iff₀ posQ posJ]
          linarith

/-- It is below the rounded ones of smaller doubles. -/
theorem exact_le_one_div {d : Num} (double : d.IsDouble) (above : 0 < d) (less : d < fin (j : ℚ)) :
    fin (1 / (j : ℚ)) ≤ div 1 d := by
  have posJ : (0 : ℚ) < j := by exact_mod_cast positive
  obtain ⟨least, -⟩ := one_div_int_bounds positive bound
  obtain rfl | ⟨q, posQ, rfl⟩ := pos_cases (fun same => by simp [same] at less) above
  · simp at less
  · rw [fin_lt_fin] at less
    have full : Binary64.Full (1 / q) := by
      refine Binary64.full_of_le ?_
      calc (2 : ℚ) ^ (-1022 : ℤ) ≤ 2 ^ (-53 : ℤ) :=
            zpow_le_zpow_right₀ (by norm_num) (by norm_num)
        _ ≤ 1 / j := least
        _ ≤ 1 / q := one_div_le_one_div_of_le posQ less.le
    have gap := Binary64.lt_of_nearest_eq posQ less (isDouble_fin.mp double).1
      (isDouble_fin.mp (isDouble_intCast bound)).1
    have unit := roundoff_pos
    have reached : 1 / (j : ℚ) ≤ nearest (1 / q) := by
      refine le_of_mul_le_mul_right ?_ (show 0 < 1 + roundoff by linarith)
      calc 1 / (j : ℚ) * (1 + roundoff) ≤ 1 / q := by
            rw [div_mul_eq_mul_div, one_mul, div_le_div_iff₀ posJ posQ]
            linarith
        _ ≤ nearest (1 / q) * (1 + roundoff) := full.nearest_bounds.1
    rw [one_div_fin posQ.ne', ofRat]
    have nonneg : 0 < 1 / (j : ℚ) := by positivity
    have limit : 0 < Binary64.limit := by
      unfold Binary64.limit
      positivity
    split_ifs
    · simp
    · linarith
    · exact fin_le_fin.mpr reached

end Integer

section Negative

variable {j : ℤ} (negative : j < 0) (bound : j.natAbs ≤ 2 ^ 53)
include negative bound

/-- Both hold for negative integers and doubles too. -/
theorem one_div_le_exact_of_neg {d : Num} (double : d.IsDouble) (below : d < 0)
    (less : fin (j : ℚ) < d) : div 1 d ≤ fin (1 / (j : ℚ)) := by
  have number : d ≠ nan := fun same => by simp [same] at below
  have less' : d.neg < fin ((-j : ℤ) : ℚ) := by
    simpa [neg] using (neg_lt_neg_iff number (by simp)).mpr less
  have mirrored := exact_le_one_div (j := -j) (by omega) (by rwa [Int.natAbs_neg])
    (isDouble_neg double) ((zero_lt_neg_iff number).mpr below) less'
  rw [one_div_neg, Int.cast_neg, one_div_neg_eq_neg_one_div] at mirrored
  exact (neg_le_neg_iff (by simp) (one_div_ne_nan number below.ne)).mp mirrored

theorem exact_le_one_div_of_neg {d : Num} (double : d.IsDouble) (less : d < fin (j : ℚ)) :
    fin (1 / (j : ℚ)) ≤ div 1 d := by
  have number : d ≠ nan := fun same => by simp [same] at less
  have below : d < 0 := less.trans (fin_lt_zero.mpr (by exact_mod_cast negative))
  have less' : fin ((-j : ℤ) : ℚ) < d.neg := by
    simpa [neg] using (neg_lt_neg_iff (by simp) number).mpr less
  have mirrored := one_div_le_exact (j := -j) (by omega) (by rwa [Int.natAbs_neg])
    (isDouble_neg double) (neg_eq_nan_iff.not.mpr number) less'
  rw [one_div_neg, Int.cast_neg, one_div_neg_eq_neg_one_div] at mirrored
  exact (neg_le_neg_iff (one_div_ne_nan number below.ne) (by simp)).mp mirrored

end Negative

/-- A factor that rounding may change a number by. -/
structure Ratio (ρ : ℚ) : Prop where
  pos : 0 < ρ
  le : ρ ≤ 1 + roundoff
  ge : 1 ≤ ρ * (1 + roundoff)

theorem exists_ratio_of_pos {j : ℤ} (positive : 0 < j) (bound : j.natAbs ≤ 2 ^ 53) :
    ∃ r ρ : ℚ, Ratio ρ ∧ div 1 (fin j) = fin r ∧ r * ρ = 1 / j := by
  obtain ⟨least, greatest⟩ := one_div_int_bounds positive bound
  have posJ : (0 : ℚ) < j := by exact_mod_cast positive
  have posQ : 0 < 1 / (j : ℚ) := by positivity
  have full : Binary64.Full (1 / (j : ℚ)) := Binary64.full_of_le
    (le_trans (zpow_le_zpow_right₀ (by norm_num) (by norm_num)) least)
  obtain ⟨lower, upper⟩ := full.nearest_bounds
  have unit := roundoff_pos
  have posR : 0 < nearest (1 / (j : ℚ)) := by
    by_contra nonpos
    nlinarith
  refine ⟨nearest (1 / (j : ℚ)), 1 / j / nearest (1 / j), ⟨div_pos posQ posR, ?_, ?_⟩, ?_, ?_⟩
  · rw [div_le_iff₀ posR]
    linarith
  · rw [div_mul_eq_mul_div, le_div_iff₀ posR]
    linarith
  · rw [one_div_fin posJ.ne', ofRat_eq_nearest (by rwa [abs_of_pos posQ])]
  · rw [mul_div_cancel₀ _ posR.ne']

/-- The reciprocal of an integer is off by such a factor. -/
theorem exists_ratio {j : ℤ} (nonzero : j ≠ 0) (bound : j.natAbs ≤ 2 ^ 53) :
    ∃ r ρ : ℚ, Ratio ρ ∧ div 1 (fin j) = fin r ∧ r * ρ = 1 / j := by
  rcases lt_or_gt_of_ne nonzero with negative | positive
  · obtain ⟨r, ρ, ratio, rounded, product⟩ := exists_ratio_of_pos (j := -j) (by omega)
      (by rwa [Int.natAbs_neg])
    have mirrored := one_div_neg (fin ((-j : ℤ) : ℚ))
    push_cast at mirrored rounded product
    refine ⟨-r, ρ, ratio, ?_, ?_⟩
    · simpa [neg, rounded] using mirrored
    · rw [one_div_neg_eq_neg_one_div] at product
      linarith
  · exact exists_ratio_of_pos positive bound

section Ratio

variable {ρ : ℚ} (ratio : Ratio ρ) {x : ℚ} (doubleX : (fin x).IsDouble)
include ratio doubleX

/-- It does not take a double beyond a greater one. -/
theorem Ratio.mul_le {y : ℚ} (doubleY : (fin y).IsDouble) (less : x < y) : x * ρ ≤ y := by
  obtain ⟨pos, le, ge⟩ := ratio
  have fixedX := (isDouble_fin.mp doubleX).1
  have fixedY := (isDouble_fin.mp doubleY).1
  rcases lt_or_ge 0 x with posX | nonpos
  · have gap := Binary64.lt_of_nearest_eq posX less fixedX fixedY
    nlinarith
  · rcases le_or_gt 0 y with nonneg | negative
    · nlinarith
    · have gap := Binary64.lt_of_nearest_eq (neg_pos.mpr negative) (neg_lt_neg less)
        (by rw [Binary64.nearest_neg, fixedY]) (by rw [Binary64.nearest_neg, fixedX])
      nlinarith [roundoff_pos]

theorem Ratio.fin_mul_le {d : Num} (double : d.IsDouble) (less : fin x < d) :
    fin (x * ρ) ≤ d := by
  cases d with
  | negInf => simp at less
  | fin y => exact fin_le_fin.mpr (ratio.mul_le doubleX double (fin_lt_fin.mp less))
  | posInf => simp
  | nan => simp

/-- Nor does it take a double below a smaller one. -/
theorem Ratio.le_fin_mul {d : Num} (double : d.IsDouble) (less : d < fin x) :
    d ≤ fin (x * ρ) := by
  cases d with
  | negInf => simp
  | fin y =>
    have mirrored := ratio.mul_le doubleX.neg double.neg (neg_lt_neg (fin_lt_fin.mp less))
    rw [fin_le_fin]
    linarith
  | _ => simp at less

end Ratio

end Num

end TypeFlow
