import Mathlib.Order.Lattice
import Mathlib.Tactic.Order
import TypeFlow.Proofs.Num.Rounding

/-!
# The order of numbers

The comparison of numbers is a linear order, so order theory applies to bounds of ranges where
the scope `Num.Linear` is open. Whole numbers are the two infinities and the integers. Rounding a
bound inwards does not change which whole numbers it admits, and a bound that is not at the edge of
the exact doubles (`StepsUp`, `StepsDown`) moves by exactly one.
-/

namespace TypeFlow.Num

@[simp] theorem fin_le_fin {a b : ℚ} : fin a ≤ fin b ↔ a ≤ b := by
  change decide (a ≤ b) = true ↔ a ≤ b
  exact decide_eq_true_iff

@[simp] theorem negInf_le (x : Num) : negInf ≤ x := by
  cases x <;> rfl

@[simp] theorem le_nan (x : Num) : x ≤ nan := by
  cases x <;> rfl

@[simp] theorem le_negInf_iff {x : Num} : x ≤ negInf ↔ x = negInf := by
  cases x <;> simp [LE.le, le]

@[simp] theorem nan_le_iff {x : Num} : nan ≤ x ↔ x = nan := by
  cases x <;> simp [LE.le, le]

@[simp] theorem le_posInf_iff {x : Num} : x ≤ posInf ↔ x ≠ nan := by
  cases x <;> simp [LE.le, le]

@[simp] theorem posInf_le_iff {x : Num} : posInf ≤ x ↔ x = posInf ∨ x = nan := by
  cases x <;> simp [LE.le, le]

theorem lt_iff_not_le {a b : Num} : a < b ↔ ¬ b ≤ a := by
  change b.le a = false ↔ ¬ b.le a = true
  simp

namespace Linear

/-- Numbers are linearly ordered by the order that the algebra runs. -/
scoped instance order : LinearOrder Num where
  le_refl a := by cases a <;> simp
  le_trans a b c := by
    cases a <;> cases b <;> cases c <;> simp
    exact le_trans
  lt_iff_le_not_ge a b := by
    rw [lt_iff_not_le]
    cases a <;> cases b <;> simp
    exact le_of_lt
  le_antisymm a b := by
    cases a <;> cases b <;> simp
    exact le_antisymm
  le_total a b := by
    cases a <;> cases b <;> simp
    exact le_total _ _
  toDecidableLE := inferInstance
  toDecidableLT := inferInstance
  toDecidableEq := inferInstance
  toMin := inferInstance
  toMax := inferInstance
  min_def _ _ := rfl
  max_def _ _ := rfl

end Linear

open scoped Linear

@[simp] theorem fin_lt_fin {a b : ℚ} : fin a < fin b ↔ a < b := by
  rw [← not_le, fin_le_fin, not_le]

variable {x a b v : Num}

@[simp] theorem negInf_lt_iff : negInf < x ↔ x ≠ negInf := by
  rw [← not_le, le_negInf_iff]

@[simp] theorem not_nan_lt (x : Num) : ¬ nan < x := by
  rw [not_lt]
  exact le_nan x

@[simp] theorem not_lt_negInf (x : Num) : ¬ x < negInf := by
  rw [not_lt]
  exact negInf_le x

@[simp] theorem posInf_lt_iff : posInf < x ↔ x = nan := by
  rw [← not_le, le_posInf_iff, not_not]

theorem isNan_eq_true_iff : x.isNan = true ↔ x = nan := by
  cases x <;> simp [isNan]

theorem compare_eq_lt_iff : a.compare b = .lt ↔ a < b := by
  rw [← not_le]
  change _ ↔ ¬ b.le a = true
  unfold compare
  have total : a.le b = true ∨ b.le a = true := le_total a b
  cases forward : a.le b <;> cases back : b.le a <;> simp_all

theorem compare_eq_eq_iff : a.compare b = .eq ↔ a = b := by
  have same : a = b ↔ a.le b = true ∧ b.le a = true := le_antisymm_iff
  rw [same, compare]
  cases a.le b <;> cases b.le a <;> simp

theorem compare_swap (a b : Num) : b.compare a = (a.compare b).swap := by
  have total : a.le b = true ∨ b.le a = true := le_total a b
  unfold compare
  cases forward : a.le b <;> cases back : b.le a <;> simp_all

theorem isWhole_fin_iff {q : ℚ} : (fin q).isWhole = true ↔ ∃ n : ℤ, q = n := by
  simp only [isWhole, decide_eq_true_eq]
  constructor
  · intro whole
    exact ⟨q.num, ((Rat.den_eq_one_iff q).mp whole).symm⟩
  · rintro ⟨n, rfl⟩
    rfl

theorem isWhole_iff : x.isWhole = true ↔ x = negInf ∨ x = posInf ∨ ∃ n : ℤ, x = fin n := by
  cases x with
  | fin q => simpa using isWhole_fin_iff
  | _ => simp [isWhole]

@[simp] theorem isWhole_intCast (n : ℤ) : (fin (n : ℚ)).isWhole = true :=
  isWhole_iff.mpr (.inr (.inr ⟨n, rfl⟩))

theorem isWhole_ofRat_intCast (n : ℤ) : (ofRat (n : ℚ)).isWhole = true := by
  obtain ⟨k, whole⟩ : ∃ k : ℤ, Binary64.nearest (n : ℚ) = k := by
    by_cases bound : n.natAbs ≤ 2 ^ 53
    · exact ⟨n, Binary64.nearest_intCast bound⟩
    · obtain ⟨k, even⟩ := Binary64.nearest_intCast_even (n := n) (by omega)
      exact ⟨2 * k, by push_cast; exact even⟩
  simp only [ofRat, whole]
  split_ifs
  · rfl
  · rfl
  · exact isWhole_intCast k

theorem ne_nan_of_isWhole (whole : x.isWhole = true) : x ≠ nan := by
  rintro rfl
  cases whole

theorem isWhole_add {x y : Num} (wholeX : x.isWhole = true) (wholeY : y.isWhole = true)
    (number : x.add y ≠ nan) : (x.add y).isWhole = true := by
  obtain rfl | rfl | ⟨n, rfl⟩ := isWhole_iff.mp wholeX <;>
    obtain rfl | rfl | ⟨m, rfl⟩ := isWhole_iff.mp wholeY <;> try first
    | rfl
    | exact absurd rfl number
  change (ofRat ((n : ℚ) + m)).isWhole = true
  rw [← Int.cast_add]
  exact isWhole_ofRat_intCast _

theorem ceil_le_iff (whole : v.isWhole = true) : x.ceil ≤ v ↔ x ≤ v := by
  obtain rfl | rfl | ⟨n, rfl⟩ := isWhole_iff.mp whole
  · cases x <;> simp [ceil, ofInt]
  · cases x <;> simp [ceil, ofInt]
  · cases x <;> simp [ceil, ofInt, Rat.ceil_le_iff]

theorem le_floor_iff (whole : v.isWhole = true) : v ≤ x.floor ↔ v ≤ x := by
  obtain rfl | rfl | ⟨n, rfl⟩ := isWhole_iff.mp whole
  · cases x <;> simp [floor, ofInt]
  · cases x <;> simp [floor, ofInt]
  · cases x <;> simp [floor, ofInt, Rat.le_floor_iff]

theorem isWhole_ceil (number : x ≠ nan) : x.ceil.isWhole = true := by
  cases x with
  | fin q => exact isWhole_intCast _
  | nan => exact absurd rfl number
  | _ => rfl

theorem isWhole_floor (number : x ≠ nan) : x.floor.isWhole = true := by
  cases x with
  | fin q => exact isWhole_intCast _
  | nan => exact absurd rfl number
  | _ => rfl

/-- A number that is not finite, or of size below `2 ^ 53`. -/
def Small : Num → Prop
  | fin q => -2 ^ 53 < q ∧ q < 2 ^ 53
  | _ => True

/-- A number from which a step of one upwards is exact. -/
def StepsUp : Num → Prop
  | fin q => -2 ^ 53 ≤ q ∧ q < 2 ^ 53
  | _ => True

/-- A number from which a step of one downwards is exact. -/
def StepsDown : Num → Prop
  | fin q => -2 ^ 53 < q ∧ q ≤ 2 ^ 53
  | _ => True

instance (x : Num) : Decidable x.Small := by
  rcases x <;> dsimp only [Small] <;> infer_instance

/-- Small numbers are those from which both steps are exact. -/
theorem small_iff : x.Small ↔ x.StepsUp ∧ x.StepsDown := by
  cases x with
  | fin q =>
    constructor
    · rintro ⟨lower, upper⟩
      exact ⟨⟨lower.le, upper⟩, lower, upper.le⟩
    · rintro ⟨up, down⟩
      exact ⟨down.1, up.2⟩
  | _ => simp [Small, StepsUp, StepsDown]

theorem add_one_intCast {n : ℤ} (step : (fin n).StepsUp) :
    (fin n).add 1 = fin ((n + 1 : ℤ) : ℚ) := by
  obtain ⟨lower, upper⟩ := step
  have low : -2 ^ 53 ≤ n := by exact_mod_cast lower
  have high : n < 2 ^ 53 := by exact_mod_cast upper
  rw [← ofRat_intCast (n := n + 1) (by omega)]
  change ofRat ((n : ℚ) + ((1 : ℕ) : ℚ)) = ofRat _
  push_cast
  rfl

theorem sub_one_intCast {n : ℤ} (step : (fin n).StepsDown) :
    (fin n).sub 1 = fin ((n - 1 : ℤ) : ℚ) := by
  obtain ⟨lower, upper⟩ := step
  have low : -2 ^ 53 < n := by exact_mod_cast lower
  have high : n ≤ 2 ^ 53 := by exact_mod_cast upper
  rw [← ofRat_intCast (n := n - 1) (by omega)]
  change ofRat ((n : ℚ) + -((1 : ℕ) : ℚ)) = ofRat _
  push_cast
  rw [sub_eq_add_neg]

theorem sub_intCast_eq_one_iff {n m : ℤ} : (fin n).sub (fin m) = 1 ↔ n = m + 1 := by
  change ofRat ((n : ℚ) + -(m : ℚ)) = 1 ↔ _
  rw [show (n : ℚ) + -(m : ℚ) = ((n - m : ℤ) : ℚ) by push_cast; ring, ofRat_intCast_eq_one]
  omega

theorem sub_one_le (whole : x.isWhole = true) (step : x.StepsDown) : x.sub 1 ≤ x := by
  obtain rfl | rfl | ⟨n, rfl⟩ := isWhole_iff.mp whole
  · exact negInf_le _
  · exact le_refl _
  · rw [sub_one_intCast step, fin_le_fin, Int.cast_le]
    omega

theorem le_add_one (whole : x.isWhole = true) (step : x.StepsUp) : x ≤ x.add 1 := by
  obtain rfl | rfl | ⟨n, rfl⟩ := isWhole_iff.mp whole
  · exact negInf_le _
  · exact le_refl _
  · rw [add_one_intCast step, fin_le_fin, Int.cast_le]
    omega

theorem add_one_le_of_lt (whole : x.isWhole = true) (other : v.isWhole = true) (step : x.StepsUp)
    (less : x < v) : x.add 1 ≤ v := by
  obtain rfl | rfl | ⟨n, rfl⟩ := isWhole_iff.mp whole
  · exact negInf_le v
  · rw [posInf_lt_iff] at less
    exact absurd less (ne_nan_of_isWhole other)
  · rw [add_one_intCast step]
    obtain rfl | rfl | ⟨m, rfl⟩ := isWhole_iff.mp other
    · exact absurd less (not_lt_negInf _)
    · simp
    · simp only [fin_lt_fin, Int.cast_lt, fin_le_fin, Int.cast_le] at less ⊢
      omega

theorem le_sub_one_of_lt (whole : x.isWhole = true) (other : v.isWhole = true) (step : x.StepsDown)
    (less : v < x) : v ≤ x.sub 1 := by
  obtain rfl | rfl | ⟨n, rfl⟩ := isWhole_iff.mp whole
  · exact absurd less (not_lt_negInf v)
  · change v ≤ posInf
    exact le_posInf_iff.mpr (ne_nan_of_isWhole other)
  · rw [sub_one_intCast step]
    obtain rfl | rfl | ⟨m, rfl⟩ := isWhole_iff.mp other
    · exact negInf_le _
    · simp at less
    · simp only [fin_lt_fin, Int.cast_lt, fin_le_fin, Int.cast_le] at less ⊢
      omega

end TypeFlow.Num
