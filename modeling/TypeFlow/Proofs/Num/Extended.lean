import TypeFlow.Proofs.Num.Monotone

/-!
# Order and arithmetic of numbers

How sums, products and negatives go with the order, infinities and rounding included. Sums are
monotone where they are numbers. Products are monotone on positive numbers, and negation carries
that over to the other signs.
-/

namespace TypeFlow.Num

open scoped Linear

theorem zero_eq : (0 : Num) = fin 0 := rfl

@[simp] theorem zero_lt_fin {q : ℚ} : (0 : Num) < fin q ↔ 0 < q := by rw [zero_eq, fin_lt_fin]

@[simp] theorem fin_lt_zero {q : ℚ} : fin q < (0 : Num) ↔ q < 0 := by rw [zero_eq, fin_lt_fin]

@[simp] theorem zero_le_fin {q : ℚ} : (0 : Num) ≤ fin q ↔ 0 ≤ q := by rw [zero_eq, fin_le_fin]

theorem zero_lt_posInf : (0 : Num) < posInf := by decide

variable {x y a b : Num}

theorem pos_cases (number : x ≠ nan) (positive : 0 < x) :
    x = posInf ∨ ∃ q : ℚ, 0 < q ∧ x = fin q := by
  cases x with
  | negInf => exact absurd positive (not_lt_negInf 0)
  | fin q => exact .inr ⟨q, zero_lt_fin.mp positive, rfl⟩
  | posInf => exact .inl rfl
  | nan => exact absurd rfl number

@[simp] theorem neg_neg (x : Num) : x.neg.neg = x := by
  cases x <;> simp [neg]

@[simp] theorem neg_eq_nan_iff : x.neg = nan ↔ x = nan := by
  cases x <;> simp [neg]

theorem neg_le_neg_iff (numberX : x ≠ nan) (numberY : y ≠ nan) : x.neg ≤ y.neg ↔ y ≤ x := by
  cases x <;> cases y <;> simp_all [neg]

theorem neg_lt_neg_iff (numberX : x ≠ nan) (numberY : y ≠ nan) : x.neg < y.neg ↔ y < x := by
  rw [← not_le, neg_le_neg_iff numberY numberX, not_le]

theorem zero_lt_neg_iff (number : x ≠ nan) : 0 < x.neg ↔ x < 0 := by
  have zero : (0 : Num) = (0 : Num).neg := by decide
  rw [zero, neg_lt_neg_iff (by decide) number, ← zero]

theorem isWhole_neg : x.neg.isWhole = x.isWhole := by
  cases x <;> simp [neg, isWhole]

theorem isDouble_neg (double : x.IsDouble) : x.neg.IsDouble := by
  cases x with
  | fin q => exact double.neg
  | _ => trivial

theorem small_neg (small : x.Small) : x.neg.Small := by
  cases x with
  | fin q => exact ⟨neg_lt_neg small.2, neg_lt.mp small.1⟩
  | _ => trivial

theorem add_comm (x y : Num) : x.add y = y.add x := by
  cases x <;> cases y <;> simp [add, Rat.add_comm]

theorem add_eq_nan_iff : x.add y = nan ↔
    x = nan ∨ y = nan ∨ x = negInf ∧ y = posInf ∨ x = posInf ∧ y = negInf := by
  cases x <;> cases y <;> simp [add]

theorem neg_add (x y : Num) : x.neg.add y.neg = (x.add y).neg := by
  cases x with
  | fin q =>
    cases y with
    | fin r =>
      change ofRat (-q + -r) = (ofRat (q + r)).neg
      rw [← ofRat_neg]
      ring_nf
    | _ => rfl
  | _ => cases y <;> rfl

theorem add_posInf (number : x.add posInf ≠ nan) : x.add posInf = posInf := by
  cases x <;> simp_all [add]

theorem add_le_add (leA : a ≤ x) (leB : b ≤ y) (number : a.add b ≠ nan)
    (number' : x.add y ≠ nan) : a.add b ≤ x.add y := by
  cases x with
  | nan => exact absurd (add_eq_nan_iff.mpr (.inl rfl)) number'
  | fin q =>
    cases y with
    | nan => exact absurd (add_eq_nan_iff.mpr (.inr (.inl rfl))) number'
    | fin r =>
      cases a <;> cases b <;> simp_all [add]
      exact ofRat_mono (by linarith)
    | _ => cases a <;> cases b <;> simp_all [add]
  | _ => cases y <;> cases a <;> cases b <;> simp_all [add]

theorem mul_comm (x y : Num) : x.mul y = y.mul x := by
  cases x <;> cases y <;> simp [mul, Rat.mul_comm, Int.mul_comm]

theorem sign_neg (x : Num) : x.neg.sign = -x.sign := by
  cases x with
  | fin q =>
    simp only [neg, sign]
    split_ifs <;> first | rfl | (exfalso; linarith)
  | _ => rfl

theorem infinite_neg (s : ℤ) : infinite (-s) = (infinite s).neg := by
  unfold infinite
  split_ifs <;> first | rfl | omega

theorem neg_mul (x y : Num) : x.neg.mul y = (x.mul y).neg := by
  have infinities (a b : ℤ) : infinite (-a * b) = (infinite (a * b)).neg := by
    rw [← infinite_neg, Int.neg_mul]
  cases x with
  | nan => rfl
  | negInf =>
    cases y with
    | nan => rfl
    | _ => exact infinities (-1) _
  | posInf =>
    cases y with
    | nan => rfl
    | _ => exact infinities 1 _
  | fin q =>
    have turned := sign_neg (fin q)
    cases y with
    | nan => rfl
    | fin r =>
      change ofRat (-q * r) = (ofRat (q * r)).neg
      rw [← ofRat_neg]
      ring_nf
    | _ => exact (congrArg (fun s => infinite (s * _)) turned).trans (infinities _ _)

theorem infinite_eq_nan_iff {s : ℤ} : infinite s = nan ↔ s = 0 := by
  unfold infinite
  split_ifs <;> simp <;> omega

theorem sign_eq_zero_iff : x.sign = 0 ↔ x = 0 ∨ x = nan := by
  cases x with
  | fin q =>
    simp only [sign, zero_eq, fin.injEq, reduceCtorEq, or_false]
    split_ifs with negative positive
    · exact iff_of_false (by decide) negative.ne
    · exact iff_of_false (by decide) positive.ne'
    · exact iff_of_true rfl (le_antisymm (not_lt.mp positive) (not_lt.mp negative))
  | _ => simp [sign, zero_eq]

theorem mul_eq_nan_iff : x.mul y = nan ↔ x = nan ∨ y = nan ∨
    x = 0 ∧ y.isInfinite = true ∨ x.isInfinite = true ∧ y = 0 := by
  cases x <;> cases y <;>
    simp [mul, infinite_eq_nan_iff, sign_eq_zero_iff, isInfinite]

theorem isWhole_mul (wholeX : x.isWhole = true) (wholeY : y.isWhole = true)
    (number : x.mul y ≠ nan) : (x.mul y).isWhole = true := by
  have infinities (s : ℤ) (proper : infinite s ≠ nan) : (infinite s).isWhole = true := by
    unfold infinite at proper ⊢
    split_ifs at proper ⊢ <;> first | rfl | exact absurd rfl proper
  obtain rfl | rfl | ⟨n, rfl⟩ := isWhole_iff.mp wholeX <;>
    obtain rfl | rfl | ⟨m, rfl⟩ := isWhole_iff.mp wholeY <;> try exact infinities _ number
  change (ofRat ((n : ℚ) * m)).isWhole = true
  rw [← Int.cast_mul]
  exact isWhole_ofRat_intCast _

theorem mul_zero (number : y.mul 0 ≠ nan) : y.mul 0 = 0 := by
  cases y with
  | fin q =>
    change ofRat (q * 0) = 0
    rw [Rat.mul_zero]
    exact isDouble_zero
  | _ => exact absurd rfl number

theorem mul_one (double : x.IsDouble) : x.mul 1 = x := by
  cases x with
  | fin q =>
    change ofRat (q * ((1 : ℕ) : ℚ)) = fin q
    rw [Nat.cast_one, Rat.mul_one]
    exact double
  | nan => rfl
  | _ => decide

theorem sign_of_pos (number : x ≠ nan) (positive : 0 < x) : x.sign = 1 := by
  obtain rfl | ⟨q, above, rfl⟩ := pos_cases number positive
  · rfl
  · simp [sign, above, above.le.not_gt]

theorem posInf_mul (number : y ≠ nan) (positive : 0 < y) : posInf.mul y = posInf := by
  have sign := sign_of_pos number positive
  cases y with
  | nan => exact absurd rfl number
  | _ => exact congrArg (fun s => infinite (1 * s)) sign

theorem mul_ne_nan_of_pos (numberX : x ≠ nan) (numberY : y ≠ nan) (posX : 0 < x)
    (posY : 0 < y) : x.mul y ≠ nan := by
  rw [Ne, mul_eq_nan_iff]
  rintro (same | same | ⟨same, -⟩ | ⟨-, same⟩)
  · exact numberX same
  · exact numberY same
  · exact posX.ne' same
  · exact posY.ne' same

theorem mul_le_mul_of_pos (posA : 0 < a) (posB : 0 < b) (leA : a ≤ x) (leB : b ≤ y)
    (numberX : x ≠ nan) (numberY : y ≠ nan) : a.mul b ≤ x.mul y := by
  have numberA : a ≠ nan := fun same => numberX (nan_le_iff.mp (same ▸ leA))
  have numberB : b ≠ nan := fun same => numberY (nan_le_iff.mp (same ▸ leB))
  have bounded := le_posInf_iff.mpr (mul_ne_nan_of_pos numberA numberB posA posB)
  obtain rfl | ⟨q, -, rfl⟩ := pos_cases numberX (posA.trans_le leA)
  · rwa [posInf_mul numberY (posB.trans_le leB)]
  · obtain rfl | ⟨r, -, rfl⟩ := pos_cases numberY (posB.trans_le leB)
    · rwa [mul_comm (fin q), posInf_mul numberX (posA.trans_le leA)]
    · obtain rfl | ⟨p, posP, rfl⟩ := pos_cases numberA posA
      · simp at leA
      · obtain rfl | ⟨s, posS, rfl⟩ := pos_cases numberB posB
        · simp at leB
        · rw [fin_le_fin] at leA leB
          exact ofRat_mono (mul_le_mul leA leB posS.le (posP.le.trans leA))

/-- Products of positive numbers are not negative, also when they are rounded to zero. -/
theorem zero_le_mul (posX : 0 < x) (posY : 0 < y) : 0 ≤ x.mul y := by
  by_cases number : x.mul y = nan
  · rw [number]
    exact le_nan 0
  · rw [mul_eq_nan_iff] at number
    push Not at number
    obtain rfl | ⟨q, positive, rfl⟩ := pos_cases number.1 posX
    · rw [posInf_mul number.2.1 posY]
      exact zero_lt_posInf.le
    · obtain rfl | ⟨r, positive', rfl⟩ := pos_cases number.2.1 posY
      · rw [mul_comm, posInf_mul number.1 posX]
        exact zero_lt_posInf.le
      · exact isDouble_zero.le_ofRat (by push_cast; positivity)

end TypeFlow.Num
