import TypeFlow.Proofs.Num.Rounding

/-!
# Doubles

A rational with a coefficient of at most 53 binary digits and an exponent that is not too small
is its own nearest double. What rounding gives is always such a rational, although the coefficient
can grow by a digit when it is rounded up: so rounding a second time changes nothing.
-/

namespace TypeFlow.Binary64

theorem log2_bounds {n : ℕ} (nonzero : n ≠ 0) :
    (2 : ℚ) ^ (Nat.log2 n : ℤ) ≤ n ∧ (n : ℚ) < (2 : ℚ) ^ ((Nat.log2 n : ℤ) + 1) := by
  have above : n < 2 ^ (Nat.log2 n + 1) := Nat.lt_log2_self
  constructor
  · rw [zpow_natCast]
    exact_mod_cast Nat.log2_self_le nonzero
  · exact_mod_cast above

variable {q : ℚ} {k m n : ℤ}

theorem magnitude_bounds (positive : 0 < q) :
    (2 : ℚ) ^ magnitude q ≤ q ∧ q < (2 : ℚ) ^ (magnitude q + 1) := by
  have num : 0 < q.num := Rat.num_pos.mpr positive
  have den : (0 : ℚ) < q.den := by exact_mod_cast q.den_pos
  have product : q * q.den = q.num.natAbs := by
    rw [Rat.mul_den_eq_num, Nat.cast_natAbs, abs_of_pos num]
  obtain ⟨numLow, numHigh⟩ := log2_bounds (n := q.num.natAbs) (by omega)
  obtain ⟨denLow, denHigh⟩ := log2_bounds q.den_nz
  unfold magnitude
  generalize (Nat.log2 q.num.natAbs : ℤ) = i at *
  generalize (Nat.log2 q.den : ℤ) = j at *
  -- the difference of the logarithms is right or one too large
  have low : (2 : ℚ) ^ (i - j - 1) ≤ q := by
    refine le_of_mul_le_mul_right ?_ den
    calc (2 : ℚ) ^ (i - j - 1) * q.den
        ≤ (2 : ℚ) ^ (i - j - 1) * 2 ^ (j + 1) := by gcongr
      _ = (2 : ℚ) ^ i := by
          rw [← zpow_add₀ (by norm_num)]
          ring_nf
      _ ≤ q * q.den := by rwa [product]
  have high : q < (2 : ℚ) ^ (i - j + 1) := by
    refine lt_of_mul_lt_mul_right ?_ den.le
    calc q * q.den < (2 : ℚ) ^ (i + 1) := by rwa [product]
      _ = (2 : ℚ) ^ (i - j + 1) * 2 ^ j := by
          rw [← zpow_add₀ (by norm_num)]
          ring_nf
      _ ≤ (2 : ℚ) ^ (i - j + 1) * q.den := by gcongr
  simp only
  split
  · next above => exact ⟨low, by simpa using above⟩
  · next reached => exact ⟨not_lt.mp reached, high⟩

theorem size_eq_abs (q : ℚ) : size q = |q| := by
  unfold size
  split
  · next negative => rw [abs_of_neg negative]
  · next nonnegative => rw [abs_of_nonneg (not_lt.mp nonnegative)]

theorem two_zpow_lt_iff {i j : ℤ} : (2 : ℚ) ^ i < (2 : ℚ) ^ j ↔ i < j :=
  zpow_lt_zpow_iff_right₀ (by norm_num)

/-- A rational below a power of two has its last digit 53 places below that power, or at the end
of the range. -/
theorem lastPlace_le (nonzero : q ≠ 0) (below : |q| < (2 : ℚ) ^ (k + 53))
    (low : leastExponent ≤ k) : lastPlace q ≤ k := by
  have reached := (magnitude_bounds (abs_pos.mpr nonzero)).1
  have small := two_zpow_lt_iff.mp (reached.trans_lt below)
  rw [lastPlace, size_eq_abs, precision]
  omega

/-- A rational is below the 53rd power of two over its last digit. -/
theorem lt_of_lastPlace (nonzero : q ≠ 0) : |q| < (2 : ℚ) ^ (lastPlace q + 53) := by
  refine (magnitude_bounds (abs_pos.mpr nonzero)).2.trans_le ?_
  rw [lastPlace, size_eq_abs, precision]
  exact zpow_le_zpow_right₀ (by norm_num) (by omega)

/-- A multiple of a power of two that the last digit reaches is a double. -/
theorem nearest_of_lastPlace_le (product : q = m * (2 : ℚ) ^ k)
    (place : lastPlace q ≤ k) : nearest q = q := by
  obtain ⟨d, shift⟩ : ∃ d : ℕ, k = d + lastPlace q := ⟨(k - lastPlace q).toNat, by omega⟩
  apply nearest_of_multiple (m * 2 ^ d)
  have unit : (2 : ℚ) ^ lastPlace q ≠ 0 := by positivity
  rw [quantum, div_eq_iff unit]
  calc q = m * (2 : ℚ) ^ k := product
    _ = m * ((2 : ℚ) ^ (d : ℤ) * 2 ^ lastPlace q) := by rw [← zpow_add₀ (by norm_num), ← shift]
    _ = ((m * 2 ^ d : ℤ) : ℚ) * 2 ^ lastPlace q := by
        rw [zpow_natCast]
        push_cast
        ring

/-- A coefficient of at most 53 digits and an exponent in range make a double. -/
theorem nearest_of_coefficient (product : q = m * (2 : ℚ) ^ k) (bound : |m| ≤ 2 ^ 53)
    (low : leastExponent ≤ k) : nearest q = q := by
  by_cases zero : q = 0
  · rw [zero, nearest_zero]
  have size : |q| = |(m : ℚ)| * 2 ^ k := by
    rw [product, abs_mul, abs_of_pos (by positivity : (0 : ℚ) < 2 ^ k)]
  have unit : (0 : ℚ) < 2 ^ k := by positivity
  by_cases top : |m| = 2 ^ 53
  · -- the one coefficient with a digit more is even
    obtain ⟨half, even⟩ : ∃ half, m = half * 2 := by
      rcases (abs_eq (by norm_num)).mp top with m_eq | m_eq <;> exact ⟨m / 2, by omega⟩
    refine nearest_of_lastPlace_le (m := half) (k := k + 1) ?_ (lastPlace_le zero ?_ (by omega))
    · rw [product, even, zpow_add_one₀ (by norm_num)]
      push_cast
      ring
    · have cast : |(m : ℚ)| = 2 ^ (53 : ℤ) := by exact_mod_cast top
      rw [size, cast, ← zpow_add₀ (by norm_num), two_zpow_lt_iff]
      omega
  · refine nearest_of_lastPlace_le product (lastPlace_le zero ?_ low)
    have cast : |(m : ℚ)| < 2 ^ (53 : ℤ) := by exact_mod_cast lt_of_le_of_ne bound top
    rw [size, add_comm, zpow_add₀ (by norm_num)]
    exact mul_lt_mul_of_pos_right cast unit

/-- The nearest integer is no further from zero than the integers around. -/
theorem abs_roundHalfEven_le (bound : |q| ≤ n) : |roundHalfEven q| ≤ n := by
  obtain ⟨lower, upper⟩ := abs_le.mp bound
  have floorLower : -n ≤ q.floor := Rat.le_floor_iff.mpr (by push_cast; exact lower)
  have floorUpper : q.floor ≤ n := by
    have below : (q.floor : ℚ) ≤ q := Rat.floor_le q
    exact_mod_cast below.trans upper
  have next : 1 / 2 ≤ q - q.floor → q.floor + 1 ≤ n := by
    intro rest
    have below : (q.floor : ℚ) < n := by linarith
    exact_mod_cast below
  unfold roundHalfEven
  rw [abs_le]
  simp only
  split
  · omega
  · next rest =>
    have := next (not_lt.mp rest)
    split
    · omega
    · split <;> omega

/-- What rounding gives has a coefficient of at most 53 digits, or the one that follows them. -/
theorem exists_coefficient (nonzero : q ≠ 0) :
    ∃ m : ℤ, |m| ≤ 2 ^ 53 ∧ nearest q = m * (2 : ℚ) ^ lastPlace q := by
  have unit : (0 : ℚ) < quantum q := by unfold quantum; positivity
  have bound : |q / quantum q| ≤ ((2 ^ 53 : ℤ) : ℚ) := by
    rw [abs_div, abs_of_pos unit, div_le_iff₀ unit, quantum]
    refine (lt_of_lastPlace nonzero).le.trans_eq ?_
    rw [add_comm, zpow_add₀ (by norm_num)]
    norm_cast
  exact ⟨_, abs_roundHalfEven_le bound, by rw [nearest, if_neg nonzero, quantum]⟩

theorem nearest_nearest (q : ℚ) : nearest (nearest q) = nearest q := by
  by_cases zero : q = 0
  · rw [zero, nearest_zero, nearest_zero]
  obtain ⟨m, bound, product⟩ := exists_coefficient zero
  exact nearest_of_coefficient product bound (le_max_right _ _)

theorem abs_nearest_intCast_lt (low : -2 ^ 63 ≤ n) (high : n < 2 ^ 64) :
    |nearest (n : ℚ)| < limit := by
  have room : (2 : ℚ) ^ (64 : ℤ) < limit := by
    rw [limit, two_zpow_lt_iff]
    norm_num
  by_cases zero : (n : ℚ) = 0
  · rw [zero, nearest_zero, abs_zero]
    exact (by positivity : (0 : ℚ) < 2 ^ (64 : ℤ)).trans room
  obtain ⟨m, bound, product⟩ := exists_coefficient zero
  have below : |(n : ℚ)| < (2 : ℚ) ^ ((11 : ℤ) + 53) := by
    have size : |n| < 2 ^ 64 := abs_lt.mpr ⟨by omega, high⟩
    exact_mod_cast size
  have place : (2 : ℚ) ^ lastPlace (n : ℚ) ≤ 2 ^ (11 : ℤ) :=
    zpow_le_zpow_right₀ (by norm_num) (lastPlace_le zero below (by decide))
  have coefficient : |(m : ℚ)| ≤ 2 ^ (53 : ℤ) := by exact_mod_cast bound
  calc |nearest (n : ℚ)| = |(m : ℚ)| * 2 ^ lastPlace (n : ℚ) := by
        rw [product, abs_mul, abs_of_pos (by positivity : (0 : ℚ) < 2 ^ lastPlace (n : ℚ))]
    _ ≤ 2 ^ (53 : ℤ) * 2 ^ (11 : ℤ) := by gcongr
    _ = (2 : ℚ) ^ (64 : ℤ) := by rw [← zpow_add₀ (by norm_num)]; norm_num
    _ < limit := room

end TypeFlow.Binary64

namespace TypeFlow.Num

/-- A number that a double can hold. -/
def IsDouble : Num → Prop
  | fin q => ofRat q = fin q
  | _ => True

instance (x : Num) : Decidable x.IsDouble := by
  rcases x <;> dsimp only [IsDouble] <;> infer_instance

theorem isDouble_ofRat (q : ℚ) : (ofRat q).IsDouble := by
  by_cases high : Binary64.limit ≤ Binary64.nearest q
  · rw [ofRat, if_pos high]
    trivial
  by_cases low : Binary64.nearest q ≤ -Binary64.limit
  · rw [ofRat, if_neg high, if_pos low]
    trivial
  · have rounded : ofRat q = fin (Binary64.nearest q) := by rw [ofRat, if_neg high, if_neg low]
    rw [rounded, IsDouble, ofRat, Binary64.nearest_nearest, if_neg high, if_neg low]

theorem isDouble_fin {q : ℚ} :
    (fin q).IsDouble ↔ Binary64.nearest q = q ∧ |q| < Binary64.limit := by
  rw [IsDouble, ofRat, abs_lt]
  split
  · next high => exact iff_of_false (by simp) fun both => absurd (both.1 ▸ high) both.2.2.not_ge
  · next high =>
    split
    · next low => exact iff_of_false (by simp) fun both => absurd (both.1 ▸ low) both.2.1.not_ge
    · next low =>
      rw [Num.fin.injEq]
      refine ⟨fun same => ?_, And.left⟩
      rw [same] at high low
      exact ⟨same, not_le.mp low, not_le.mp high⟩

theorem IsDouble.neg {q : ℚ} (double : (fin q).IsDouble) : (fin (-q)).IsDouble := by
  obtain ⟨same, bound⟩ := isDouble_fin.mp double
  refine isDouble_fin.mpr ⟨?_, by rwa [abs_neg]⟩
  by_cases zero : q = 0
  · rw [zero, neg_zero, Binary64.nearest_zero]
  obtain ⟨m, small, product⟩ := Binary64.exists_coefficient zero
  have negated : -q = (-m : ℤ) * (2 : ℚ) ^ Binary64.lastPlace q := by
    rw [Int.cast_neg, neg_mul, ← product, same]
  exact Binary64.nearest_of_coefficient negated (by rwa [abs_neg]) (le_max_right _ _)

theorem isDouble_zero : (0 : Num).IsDouble := by
  have positive : 0 < Binary64.limit := by
    unfold Binary64.limit
    positivity
  exact isDouble_fin.mpr ⟨Binary64.nearest_zero, abs_zero.trans_lt positive⟩

theorem isDouble_infinite (sign : ℤ) : (infinite sign).IsDouble := by
  unfold infinite
  split
  · trivial
  · split <;> trivial

theorem isDouble_mul (x y : Num) : (x.mul y).IsDouble := by
  unfold mul
  split
  · exact isDouble_ofRat _
  · trivial
  · trivial
  · exact isDouble_infinite _

theorem isDouble_div (x y : Num) : (x.div y).IsDouble := by
  unfold div
  split
  · split
    · trivial
    · exact isDouble_ofRat _
  · trivial
  · trivial
  · exact isDouble_zero
  · exact isDouble_infinite _
  · trivial

theorem isFinite_ofRat_intCast {n : ℤ} (low : -2 ^ 63 ≤ n) (high : n < 2 ^ 64) :
    (ofRat (n : ℚ)).isFinite = true := by
  obtain ⟨above, below⟩ := abs_lt.mp (Binary64.abs_nearest_intCast_lt low high)
  rw [ofRat, if_neg (not_le.mpr below), if_neg (not_le.mpr above)]
  rfl

end TypeFlow.Num
