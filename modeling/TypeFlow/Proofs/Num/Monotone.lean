import TypeFlow.Proofs.Num.Doubles
import TypeFlow.Proofs.Num.Order

/-!
# Rounding keeps the order

Rounding to a double is monotone and odd, so what lies between two doubles stays between them when
it is rounded. Away from the smallest doubles it moves a rational by at most one part in `2 ^ 53`,
and two doubles are further apart than that: an error of rounding never passes a double by.
-/

namespace TypeFlow.Binary64

theorem roundHalfEven_bounds (q : ℚ) :
    q.floor ≤ roundHalfEven q ∧ roundHalfEven q ≤ q.floor + 1 := by
  simp only [roundHalfEven]
  split
  · omega
  · split
    · omega
    · split <;> omega

variable {p q : ℚ}

theorem roundHalfEven_mono (le : p ≤ q) : roundHalfEven p ≤ roundHalfEven q := by
  have below : p.floor ≤ q.floor := Rat.floor_monotone le
  obtain same | less := below.eq_or_lt
  · simp only [roundHalfEven, same]
    have rest : p - q.floor ≤ q - q.floor := by linarith
    split_ifs <;> first | omega | linarith
  · have upper := (roundHalfEven_bounds p).2
    have lower := (roundHalfEven_bounds q).1
    omega

theorem abs_roundHalfEven_sub_le (q : ℚ) : |(roundHalfEven q : ℚ) - q| ≤ 1 / 2 := by
  have low : (q.floor : ℚ) ≤ q := Rat.floor_le q
  have high : q < ((q.floor + 1 : ℤ) : ℚ) := Rat.lt_floor_add_one q
  push_cast at high
  rw [abs_le]
  simp only [roundHalfEven]
  split_ifs <;> push_cast <;> constructor <;> linarith

theorem roundHalfEven_neg (q : ℚ) : roundHalfEven (-q) = -roundHalfEven q := by
  have low : (q.floor : ℚ) ≤ q := Rat.floor_le q
  have high : q < ((q.floor + 1 : ℤ) : ℚ) := Rat.lt_floor_add_one q
  push_cast at high
  obtain whole | fraction := low.eq_or_lt
  · rw [← whole, ← Int.cast_neg, roundHalfEven_intCast, roundHalfEven_intCast]
  · have below : (-q).floor = -q.floor - 1 := by
      have upper : (-q).floor < -q.floor := Rat.floor_lt_iff.mpr (by push_cast; linarith)
      have lower : -q.floor - 1 ≤ (-q).floor := Rat.le_floor_iff.mpr (by push_cast; linarith)
      omega
    simp only [roundHalfEven, below]
    push_cast
    split_ifs <;> first | omega | linarith

theorem quantum_pos (q : ℚ) : 0 < quantum q := by
  unfold quantum
  positivity

theorem lastPlace_neg (q : ℚ) : lastPlace (-q) = lastPlace q := by
  rw [lastPlace, lastPlace, size_eq_abs, size_eq_abs, abs_neg]

theorem nearest_neg (q : ℚ) : nearest (-q) = -nearest q := by
  by_cases zero : q = 0
  · rw [zero, neg_zero, nearest_zero, neg_zero]
  · rw [nearest, nearest, if_neg zero, if_neg (neg_ne_zero.mpr zero), quantum, quantum,
      lastPlace_neg, neg_div, roundHalfEven_neg]
    push_cast
    ring

theorem nearest_nonneg (nonneg : 0 ≤ q) : 0 ≤ nearest q := by
  unfold nearest
  split
  · exact le_refl 0
  · have unit := quantum_pos q
    have rounded : roundHalfEven ((0 : ℤ) : ℚ) ≤ roundHalfEven (q / quantum q) :=
      roundHalfEven_mono (by push_cast; positivity)
    rw [roundHalfEven_intCast] at rounded
    have cast : (0 : ℚ) ≤ roundHalfEven (q / quantum q) := by exact_mod_cast rounded
    positivity

theorem lastPlace_mono (nonzero : p ≠ 0) (le : |p| ≤ |q|) : lastPlace p ≤ lastPlace q := by
  have other : q ≠ 0 := abs_pos.mp ((abs_pos.mpr nonzero).trans_le le)
  exact lastPlace_le nonzero (le.trans_lt (lt_of_lastPlace other)) (le_max_right _ _)

/-- A positive rational with all 53 digits, so that its last digit is not at the end of the
range. -/
def Full (q : ℚ) : Prop := (2 : ℚ) ^ (lastPlace q + 52) ≤ q

theorem full_of_lt_lastPlace (positive : 0 < q) (above : leastExponent < lastPlace q) : Full q := by
  have reached := (magnitude_bounds positive).1
  have place : lastPlace q = magnitude q - 52 := by
    rw [lastPlace, size_eq_abs, abs_of_pos positive, precision] at above ⊢
    omega
  rw [Full, place, sub_add_cancel]
  exact reached

/-- All rationals but the smallest have all digits. -/
theorem full_of_le (large : (2 : ℚ) ^ (-1022 : ℤ) ≤ q) : Full q := by
  have positive : 0 < q := lt_of_lt_of_le (by positivity) large
  obtain ⟨reached, below⟩ := magnitude_bounds positive
  have exponent := two_zpow_lt_iff.mp (large.trans_lt below)
  have place : lastPlace q = magnitude q - 52 := by
    rw [lastPlace, size_eq_abs, abs_of_pos positive, precision, leastExponent]
    omega
  rw [Full, place, sub_add_cancel]
  exact reached

/-- Rounding keeps the first digit. -/
theorem Full.le_nearest (full : Full q) : (2 : ℚ) ^ (lastPlace q + 52) ≤ nearest q := by
  have unit := quantum_pos q
  have positive : 0 < q := lt_of_lt_of_le (by positivity) full
  rw [Full, zpow_add₀ (by norm_num)] at full
  rw [zpow_add₀ (by norm_num), nearest, if_neg positive.ne']
  change quantum q * 2 ^ (52 : ℤ) ≤ q at full
  change quantum q * 2 ^ (52 : ℤ) ≤ _
  have rounded : roundHalfEven ((2 ^ 52 : ℤ) : ℚ) ≤ roundHalfEven (q / quantum q) := by
    apply roundHalfEven_mono
    rw [le_div_iff₀ unit, mul_comm]
    exact_mod_cast full
  rw [roundHalfEven_intCast] at rounded
  have cast : (2 : ℚ) ^ (52 : ℤ) ≤ roundHalfEven (q / quantum q) := by exact_mod_cast rounded
  rw [mul_comm]
  exact mul_le_mul_of_nonneg_right cast unit.le

theorem nearest_le_of_pos (positive : 0 < p) (le : p ≤ q) : nearest p ≤ nearest q := by
  have positive' := positive.trans_le le
  have unit := quantum_pos q
  have sizes : |p| ≤ |q| := by rwa [abs_of_pos positive, abs_of_pos positive']
  obtain same | less := (lastPlace_mono positive.ne' sizes).eq_or_lt
  · have quanta : quantum p = quantum q := by rw [quantum, quantum, same]
    rw [nearest, nearest, if_neg positive.ne', if_neg positive'.ne', quanta]
    refine mul_le_mul_of_nonneg_right ?_ unit.le
    exact_mod_cast roundHalfEven_mono (div_le_div_of_nonneg_right le unit.le)
  · -- a power of two lies between them, and neither is rounded beyond it
    have full := full_of_lt_lastPlace positive' ((le_max_right _ _).trans_lt less)
    obtain ⟨m, bound, product⟩ := exists_coefficient positive.ne'
    have coefficient : (m : ℚ) ≤ 2 ^ (53 : ℤ) := by exact_mod_cast (abs_le.mp bound).2
    calc nearest p = m * 2 ^ lastPlace p := product
      _ ≤ 2 ^ (53 : ℤ) * 2 ^ lastPlace p := by gcongr
      _ = (2 : ℚ) ^ (lastPlace p + 53) := by rw [← zpow_add₀ (by norm_num), add_comm]
      _ ≤ (2 : ℚ) ^ (lastPlace q + 52) := zpow_le_zpow_right₀ (by norm_num) (by omega)
      _ ≤ nearest q := full.le_nearest

theorem nearest_mono (le : p ≤ q) : nearest p ≤ nearest q := by
  obtain positive | nonpos := lt_or_ge 0 p
  · exact nearest_le_of_pos positive le
  · obtain nonneg | negative := le_or_gt 0 q
    · have left : 0 ≤ nearest (-p) := nearest_nonneg (by linarith)
      have right := nearest_nonneg nonneg
      rw [nearest_neg] at left
      linarith
    · have mirrored : nearest (-q) ≤ nearest (-p) := nearest_le_of_pos (by linarith) (by linarith)
      rw [nearest_neg, nearest_neg] at mirrored
      linarith

theorem abs_nearest_sub_le (q : ℚ) : |nearest q - q| ≤ quantum q / 2 := by
  have unit := quantum_pos q
  unfold nearest
  split
  · next zero =>
    rw [zero] at unit ⊢
    rw [sub_zero, abs_zero]
    linarith
  · have scaled : (roundHalfEven (q / quantum q) : ℚ) * quantum q - q =
        ((roundHalfEven (q / quantum q) : ℚ) - q / quantum q) * quantum q := by
      field_simp
    rw [scaled, abs_mul, abs_of_pos unit]
    have error := mul_le_mul_of_nonneg_right (abs_roundHalfEven_sub_le (q / quantum q)) unit.le
    linarith

/-- The part of itself that a rational can lose or gain when it is rounded. -/
def roundoff : ℚ := (2 : ℚ) ^ (-53 : ℤ)

theorem roundoff_pos : 0 < roundoff := by
  unfold roundoff
  positivity

theorem quantum_eq (q : ℚ) : quantum q = roundoff * 2 ^ (lastPlace q + 53) := by
  rw [roundoff, ← zpow_add₀ (by norm_num), quantum]
  ring_nf

/-- Rounding loses and gains at most the roundoff. -/
theorem Full.nearest_bounds (full : Full q) :
    q ≤ nearest q * (1 + roundoff) ∧ nearest q ≤ q * (1 + roundoff) := by
  have half : quantum q / 2 = roundoff * 2 ^ (lastPlace q + 52) := by
    rw [quantum_eq, show lastPlace q + 53 = lastPlace q + 52 + 1 by ring,
      zpow_add_one₀ (by norm_num)]
    ring
  obtain ⟨below, above⟩ := abs_le.mp (half ▸ abs_nearest_sub_le q)
  have exact' := mul_le_mul_of_nonneg_left full roundoff_pos.le
  have rounded := mul_le_mul_of_nonneg_left full.le_nearest roundoff_pos.le
  constructor <;> linarith

/-- Two doubles are further apart than the roundoff. -/
theorem lt_of_nearest_eq (positive : 0 < p) (less : p < q) (double : nearest p = p)
    (double' : nearest q = q) : p * (1 + roundoff) < q := by
  have positive' := positive.trans less
  have unit := quantum_pos p
  obtain ⟨m, -, product⟩ := exists_coefficient positive.ne'
  obtain ⟨m', -, product'⟩ := exists_coefficient positive'.ne'
  rw [double] at product
  rw [double'] at product'
  have sizes : |p| ≤ |q| := by rw [abs_of_pos positive, abs_of_pos positive']; exact less.le
  -- both are multiples of the quantum of the smaller one
  obtain ⟨d, shift⟩ : ∃ d : ℕ, lastPlace q = d + lastPlace p :=
    ⟨(lastPlace q - lastPlace p).toNat, by have := lastPlace_mono positive.ne' sizes; omega⟩
  have multiple : q = ((m' * 2 ^ d : ℤ) : ℚ) * quantum p := by
    rw [product', shift, zpow_add₀ (by norm_num), quantum, zpow_natCast]
    push_cast
    ring
  change p = m * quantum p at product
  have steps : m + 1 ≤ m' * 2 ^ d := by
    have cast : (m : ℚ) < ((m' * 2 ^ d : ℤ) : ℚ) := by
      refine lt_of_mul_lt_mul_right ?_ unit.le
      rw [← product, ← multiple]
      exact less
    exact_mod_cast cast
  have next : p + quantum p ≤ q := by
    calc p + quantum p = ((m + 1 : ℤ) : ℚ) * quantum p := by
          nth_rewrite 1 [product]
          push_cast
          ring
      _ ≤ ((m' * 2 ^ d : ℤ) : ℚ) * quantum p :=
          mul_le_mul_of_nonneg_right (by exact_mod_cast steps) unit.le
      _ = q := multiple.symm
  have digits : p < 2 ^ (lastPlace p + 53) := by
    have below := lt_of_lastPlace positive.ne'
    rwa [abs_of_pos positive] at below
  have small := mul_lt_mul_of_pos_left digits roundoff_pos
  rw [← quantum_eq] at small
  linarith

end TypeFlow.Binary64

namespace TypeFlow.Num

open scoped Linear

@[simp] theorem ofRat_ne_nan (q : ℚ) : ofRat q ≠ nan := by
  unfold ofRat
  simp only
  split_ifs <;> simp

theorem ofRat_mono {p q : ℚ} (le : p ≤ q) : ofRat p ≤ ofRat q := by
  have rounded := Binary64.nearest_mono le
  simp only [ofRat]
  split_ifs <;> simp <;> linarith

theorem ofRat_neg (q : ℚ) : ofRat (-q) = (ofRat q).neg := by
  have positive : 0 < Binary64.limit := by
    unfold Binary64.limit
    positivity
  simp only [ofRat, Binary64.nearest_neg]
  split_ifs <;> first | rfl | (exfalso; linarith)

theorem IsDouble.le_ofRat {d q : ℚ} (double : (fin d).IsDouble) (le : d ≤ q) :
    fin d ≤ ofRat q := by
  have rounded := ofRat_mono le
  rwa [show ofRat d = fin d from double] at rounded

theorem IsDouble.ofRat_le {d q : ℚ} (double : (fin d).IsDouble) (le : q ≤ d) :
    ofRat q ≤ fin d := by
  have rounded := ofRat_mono le
  rwa [show ofRat d = fin d from double] at rounded

theorem isDouble_intCast {n : ℤ} (bound : n.natAbs ≤ 2 ^ 53) : (fin (n : ℚ)).IsDouble :=
  ofRat_intCast bound

theorem isDouble_of_isWhole {x : Num} (whole : x.isWhole = true) (small : x.Small) :
    x.IsDouble := by
  obtain rfl | rfl | ⟨n, rfl⟩ := isWhole_iff.mp whole
  · trivial
  · trivial
  · obtain ⟨lower, upper⟩ := small
    refine isDouble_intCast ?_
    have low : -2 ^ 53 < n := by exact_mod_cast lower
    have high : n < 2 ^ 53 := by exact_mod_cast upper
    omega

theorem exists_int_of_isDouble {q : ℚ} (double : (fin q).IsDouble) (large : (2 : ℚ) ^ 53 ≤ |q|) :
    ∃ n : ℤ, q = n := by
  have nonzero : q ≠ 0 := abs_pos.mp (lt_of_lt_of_le (by positivity) large)
  have below := large.trans_lt (Binary64.lt_of_lastPlace nonzero)
  rw [← zpow_natCast, Binary64.two_zpow_lt_iff] at below
  obtain ⟨k, place⟩ : ∃ k : ℕ, Binary64.lastPlace q = k :=
    ⟨(Binary64.lastPlace q).toNat, by push_cast at below; omega⟩
  obtain ⟨m, -, product⟩ := Binary64.exists_coefficient nonzero
  refine ⟨m * 2 ^ k, ?_⟩
  rw [← (isDouble_fin.mp double).1, product, place, zpow_natCast]
  push_cast
  rfl

theorem isDouble_floor {x : Num} (double : x.IsDouble) : x.floor.IsDouble := by
  cases x with
  | fin q =>
    obtain small | large := le_or_gt |q| (2 ^ 53)
    · obtain ⟨lower, upper⟩ := abs_le.mp small
      have low : -2 ^ 53 ≤ q.floor := Rat.le_floor_iff.mpr (by push_cast; exact lower)
      have high : q.floor ≤ 2 ^ 53 := by exact_mod_cast (Rat.floor_le q).trans upper
      exact isDouble_intCast (by omega)
    · obtain ⟨n, rfl⟩ := exists_int_of_isDouble double large.le
      rwa [floor, ofInt, Rat.floor_intCast]
  | _ => trivial

theorem isDouble_ceil {x : Num} (double : x.IsDouble) : x.ceil.IsDouble := by
  cases x with
  | fin q =>
    obtain small | large := le_or_gt |q| (2 ^ 53)
    · obtain ⟨lower, upper⟩ := abs_le.mp small
      have low : -2 ^ 53 ≤ q.ceil := by exact_mod_cast lower.trans Rat.le_ceil
      have high : q.ceil ≤ 2 ^ 53 := Rat.ceil_le_iff.mpr (by push_cast; exact upper)
      exact isDouble_intCast (by omega)
    · obtain ⟨n, rfl⟩ := exists_int_of_isDouble double large.le
      rwa [ceil, ofInt, Rat.ceil_intCast]
  | _ => trivial

theorem isDouble_add (x y : Num) : (x.add y).IsDouble := by
  unfold add
  split <;> first | exact isDouble_ofRat _ | trivial

end TypeFlow.Num
