import TypeFlow.Proofs.Algebra.Difference
import TypeFlow.Proofs.Arithmetic.Ranges

/-!
# Sums, differences and products

Addition, subtraction and multiplication of types lose no result. A sum of two ranges lies between
the sums of their bounds. A product lies between the products of the bounds and zero, where zero
can arise: this is shown for positive numbers and carried to the other signs by negation. Negation
loses nothing and adds nothing.
-/

namespace TypeFlow

open List
open scoped Num.Linear

namespace Arithmetic

open NumberTy (literal ints reals all)
open Numbers (Covers)

namespace Bounds

/-- A number lies between two bounds. -/
structure Within (r : Bounds) (x : Num) : Prop where
  low : r.min ≤ x
  high : x ≤ r.max
  number : r.max ≠ .nan

theorem hasZero_eq_true_iff {r : Bounds} : r.hasZero = true ↔ r.min ≤ 0 ∧ 0 ≤ r.max := by
  simp [hasZero]

/-- The bounds of the negatives. -/
def neg (r : Bounds) : Bounds := ⟨r.max.neg, r.min.neg, r.whole⟩

section Within

variable {r : Bounds} {x : Num} (within : r.Within x)
include within

theorem Within.ne_nan : x ≠ .nan := NumberTy.ne_nan_of_le within.number within.high

theorem Within.min_ne_nan : r.min ≠ .nan := NumberTy.ne_nan_of_le within.ne_nan within.low

theorem Within.neg : r.neg.Within x.neg where
  low := (Num.neg_le_neg_iff within.number within.ne_nan).mpr within.high
  high := (Num.neg_le_neg_iff within.ne_nan within.min_ne_nan).mpr within.low
  number := Num.neg_eq_nan_iff.not.mpr within.min_ne_nan

theorem Within.min_eq_negInf (least : x = .negInf) : r.min = .negInf :=
  Num.le_negInf_iff.mp (least ▸ within.low)

theorem Within.max_eq_posInf (greatest : x = .posInf) : r.max = .posInf :=
  (Num.posInf_le_iff.mp (greatest ▸ within.high)).resolve_right within.number

theorem Within.isUnbounded (infinite : x.isInfinite = true) : r.isUnbounded = true := by
  rw [Bounds.isUnbounded, Bool.or_eq_true]
  cases x with
  | negInf => exact .inl (by rw [within.min_eq_negInf rfl]; rfl)
  | posInf => exact .inr (by rw [within.max_eq_posInf rfl]; rfl)
  | _ => cases infinite

theorem Within.hasZero (zero : x = 0) : r.hasZero = true :=
  hasZero_eq_true_iff.mpr ⟨zero ▸ within.low, zero ▸ within.high⟩

/-- Bounds that are a single infinity have it as their only number. -/
theorem Within.eq_of_not_hasFinite (single : r.hasFinite = false) :
    x = r.max ∧ x.isInfinite = true := by
  simp only [Bounds.hasFinite, Bool.not_eq_false', Bool.and_eq_true, decide_eq_true_eq] at single
  obtain ⟨same, infinite⟩ := single
  have least := within.low
  rw [same] at least infinite
  have only := le_antisymm within.high least
  exact ⟨only, only ▸ infinite⟩

end Within

theorem within_neg_iff {r : Bounds} {x : Num} : r.neg.Within x ↔ r.Within x.neg := by
  constructor
  · intro within
    simpa [neg] using within.neg
  · intro within
    simpa using within.neg

theorem hasZero_neg {r : Bounds} (numberMin : r.min ≠ .nan) (numberMax : r.max ≠ .nan) :
    r.neg.hasZero = r.hasZero := by
  have zero : (0 : Num) = (0 : Num).neg := by decide
  rw [hasZero, hasZero, neg, Bool.and_comm]
  congr 1 <;> rw [decide_eq_decide]
  · rw [zero, Num.neg_le_neg_iff (by decide) numberMin, ← zero]
  · rw [zero, Num.neg_le_neg_iff numberMax (by decide), ← zero]

theorem hasFinite_neg (r : Bounds) : r.neg.hasFinite = r.hasFinite := by
  obtain ⟨lo, hi, whole⟩ := r
  cases lo <;> cases hi <;> simp [hasFinite, neg, Num.neg, Num.isInfinite]

end Bounds

theorem within_boundsOf {n : NumberTy} {x : Num} (valid : n.Valid) (has : n.has x = true)
    (number : x ≠ .nan) : (boundsOf n).Within x := by
  obtain ⟨low, high⟩ := Numbers.min_le_and_le_max number has
  exact ⟨low, high, (bounds_ne_nan valid (ne_literal_nan has number)).2⟩

/-- The negatives of candidates bracket the negative. -/
theorem Brackets.of_neg {candidates negatives : List Num} {v : Num}
    (brackets : Brackets negatives v.neg) (number : v ≠ .nan)
    (each : ∀ c ∈ negatives, c.neg ∈ candidates) : Brackets candidates v := by
  obtain ⟨⟨c, memC, numberC, low⟩, ⟨d, memD, numberD, high⟩⟩ := brackets
  have negC := Num.neg_eq_nan_iff.not.mpr numberC
  have negD := Num.neg_eq_nan_iff.not.mpr numberD
  refine ⟨⟨d.neg, each d memD, negD, ?_⟩, ⟨c.neg, each c memC, negC, ?_⟩⟩
  · rwa [← Num.neg_le_neg_iff number negD, Num.neg_neg]
  · rwa [← Num.neg_le_neg_iff negC number, Num.neg_neg]

/-- An operation on two sets that works number by number on few pairs and from the bounds on many:
the results lie between the candidates, and some results are no number. -/
def combined (f : Num → Num → Num) (candidates : Bounds → Bounds → List Num)
    (undefined : Bounds → Bounds → Bool) (n m : NumberTy) : List NumberTy :=
  (pointwise₂ f n m).getD <|
    match bounds? n, bounds? m with
    | some r, some s =>
      withNan (hull (candidates r s) (r.whole && s.whole))
        (n.has .nan || m.has .nan || undefined r s)
    | _, _ => noNumber

theorem combined_of_many {f : Num → Num → Num} {candidates : Bounds → Bounds → List Num}
    {undefined : Bounds → Bounds → Bool} {n m : NumberTy} (many : ¬ Few n m)
    (properN : n ≠ literal .nan) (properM : m ≠ literal .nan) :
    combined f candidates undefined n m =
      withNan (hull (candidates (boundsOf n) (boundsOf m)) (n.isWhole && m.isWhole))
        (n.has .nan || m.has .nan || undefined (boundsOf n) (boundsOf m)) := by
  rw [combined, pointwise₂_of_many many, bounds?_of_ne properN, bounds?_of_ne properM]
  rfl

/-- The candidates of an operation bracket its results, which are doubles and whole on whole
numbers, and it is known where a result is no number. -/
structure Bracketed (f : Num → Num → Num) (candidates : Bounds → Bounds → List Num)
    (undefined : Bounds → Bounds → Bool) : Prop where
  double : ∀ x y, (f x y).IsDouble
  candidate : ∀ r s, ∀ c ∈ candidates r s, c.IsDouble
  nan : ∀ x y, x = .nan ∨ y = .nan → f x y = .nan
  undefined : ∀ r s x y, r.Within x → s.Within y → f x y = .nan → undefined r s = true
  brackets : ∀ r s x y, r.Within x → s.Within y → f x y ≠ .nan → Brackets (candidates r s) (f x y)
  whole : ∀ x y, x.isWhole = true → y.isWhole = true → f x y ≠ .nan → (f x y).isWhole = true

section Combined

variable {f : Num → Num → Num} {candidates : Bounds → Bounds → List Num}
  {undefined : Bounds → Bounds → Bool} (bracketed : Bracketed f candidates undefined)
  {n m : NumberTy}
include bracketed

theorem held_combined (validN : n.Valid) (validM : m.Valid) :
    ∀ p ∈ combined f candidates undefined n m, p.Held := by
  refine held_of_pointwise₂ validN validM (fun _ x y _ _ => bracketed.double x y) fun _ => ?_
  split
  · exact held_of_mem_withNan (bracketed.candidate _ _)
  · exact held_noNumber

/-- From the bounds, the operation covers its results for numbers within them. -/
theorem covers_withNan_of_within {x y : Num} (withinX : (boundsOf n).Within x)
    (withinY : (boundsOf m).Within y)
    (whole : (n.isWhole && m.isWhole) = true → f x y ≠ .nan → (f x y).isWhole = true) :
    Covers (withNan (hull (candidates (boundsOf n) (boundsOf m)) (n.isWhole && m.isWhole))
      (n.has .nan || m.has .nan || undefined (boundsOf n) (boundsOf m))) (f x y) := by
  refine covers_withNan (bracketed.candidate _ _) (bracketed.double x y) (fun none => ?_)
    (bracketed.brackets _ _ x y withinX withinY) fun number fits => whole fits number
  simp [bracketed.undefined _ _ x y withinX withinY none]

theorem covers_combined (validN : n.Valid) (validM : m.Valid) {x y : Num} (hasX : n.has x = true)
    (hasY : m.has y = true) : Covers (combined f candidates undefined n m) (f x y) := by
  refine covers_pointwise₂ validN validM (fun _ x y _ _ => bracketed.double x y) hasX hasY
    fun _ => ?_
  by_cases numbers : x ≠ .nan ∧ y ≠ .nan
  · rw [bounds?_of_ne (ne_literal_nan hasX numbers.1),
      bounds?_of_ne (ne_literal_nan hasY numbers.2)]
    refine covers_withNan_of_within bracketed (within_boundsOf validN hasX numbers.1)
      (within_boundsOf validM hasY numbers.2) fun whole number => ?_
    rw [Bool.and_eq_true] at whole
    exact bracketed.whole x y (Numbers.isWhole_of_has whole.1 hasX)
      (Numbers.isWhole_of_has whole.2 hasY) number
  · have either : x = .nan ∨ y = .nan := by tauto
    rw [bracketed.nan x y either]
    split
    · refine covers_withNan (bracketed.candidate _ _) trivial (fun _ => ?_) (by simp) (by simp)
      rcases either with rfl | rfl
      · simp [hasX]
      · simp [hasY]
    · exact ⟨literal .nan, mem_singleton_self _, NumberTy.has_literal.mpr rfl⟩

end Combined

/-- The sums of the bounds. -/
def sums (r s : Bounds) : List Num :=
  [r.min.add s.min, r.min.add s.max, r.max.add s.min, r.max.add s.max]

theorem neg_mem_sums {r s : Bounds} : ∀ c ∈ sums r.neg s.neg, c.neg ∈ sums r s := by
  simp [sums, Bounds.neg, Num.neg_add]

section Sums

variable {r s : Bounds} {x y : Num} (withinX : r.Within x) (withinY : s.Within y)
  (number : x.add y ≠ .nan)
include withinX withinY number

/-- If an operand is positive infinity, so are the sum and the sum of the upper bounds. -/
theorem exists_sum_le_of_posInf (infinite : y = .posInf) :
    ∃ c ∈ sums r s, c ≠ .nan ∧ c ≤ x.add y := by
  subst infinite
  have total := Num.add_posInf number
  have corner : r.max.add .posInf = .posInf := by
    refine Num.add_posInf fun none => ?_
    rcases Num.add_eq_nan_iff.mp none with max | max | ⟨max, -⟩ | ⟨-, max⟩
    · exact withinX.number max
    · cases max
    · have least := withinX.high
      rw [max, Num.le_negInf_iff] at least
      rw [least] at total
      cases total
    · cases max
  refine ⟨r.max.add s.max, by simp [sums], ?_⟩
  rw [withinY.max_eq_posInf rfl, corner, total]
  simp

theorem exists_sum_le : ∃ c ∈ sums r s, c ≠ .nan ∧ c ≤ x.add y := by
  by_cases infiniteY : y = .posInf
  · exact exists_sum_le_of_posInf withinX withinY number infiniteY
  by_cases infiniteX : x = .posInf
  · rw [Num.add_comm] at number ⊢
    obtain ⟨c, mem, below⟩ := exists_sum_le_of_posInf withinY withinX number infiniteX
    refine ⟨c, ?_, below⟩
    simp only [sums, mem_cons, not_mem_nil, or_false] at mem ⊢
    rw [Num.add_comm r.min, Num.add_comm r.min, Num.add_comm r.max, Num.add_comm r.max]
    tauto
  · have corner : r.min.add s.min ≠ .nan := by
      intro none
      rcases Num.add_eq_nan_iff.mp none with min | min | ⟨-, min⟩ | ⟨min, -⟩
      · exact withinX.min_ne_nan min
      · exact withinY.min_ne_nan min
      · have large := withinY.low
        rw [min, Num.posInf_le_iff] at large
        exact large.elim infiniteY withinY.ne_nan
      · have large := withinX.low
        rw [min, Num.posInf_le_iff] at large
        exact large.elim infiniteX withinX.ne_nan
    exact ⟨_, by simp [sums], corner, Num.add_le_add withinX.low withinY.low corner number⟩

theorem brackets_sums : Brackets (sums r s) (x.add y) := by
  refine ⟨exists_sum_le withinX withinY number, ?_⟩
  have number' : x.neg.add y.neg ≠ .nan := by rwa [Num.neg_add, Ne, Num.neg_eq_nan_iff]
  obtain ⟨c, mem, numberC, below⟩ := exists_sum_le withinX.neg withinY.neg number'
  have negC := Num.neg_eq_nan_iff.not.mpr numberC
  refine ⟨c.neg, neg_mem_sums c mem, negC, ?_⟩
  rwa [← Num.neg_le_neg_iff negC number, Num.neg_neg, ← Num.neg_add]

end Sums

/-- Whether the sum of opposite infinities can arise. -/
def opposite (r s : Bounds) : Bool :=
  (decide (r.min = .negInf) && decide (s.max = .posInf))
    || (decide (r.max = .posInf) && decide (s.min = .negInf))

theorem addNumber_eq : addNumber = combined Num.add sums opposite := rfl

theorem bracketed_add : Bracketed Num.add sums opposite where
  double := Num.isDouble_add
  candidate r s := by simp [sums, Num.isDouble_add]
  nan x y none := Num.add_eq_nan_iff.mpr (none.imp_right .inl)
  undefined r s x y withinX withinY none := by
    rcases Num.add_eq_nan_iff.mp none with none | none | ⟨least, greatest⟩ | ⟨greatest, least⟩
    · exact absurd none withinX.ne_nan
    · exact absurd none withinY.ne_nan
    · simp [opposite, withinX.min_eq_negInf least, withinY.max_eq_posInf greatest]
    · simp [opposite, withinX.max_eq_posInf greatest, withinY.min_eq_negInf least]
  brackets r s x y := brackets_sums
  whole x y := Num.isWhole_add

/-- The products of the bounds, and zero where it can arise. -/
def products (r s : Bounds) : List Num :=
  [r.min.mul s.min, r.min.mul s.max, r.max.mul s.min, r.max.mul s.max] ++
    if (r.hasZero && s.hasFinite) || (s.hasZero && r.hasFinite) then [0] else []

theorem mem_products_comm {r s : Bounds} {c : Num} : c ∈ products r s ↔ c ∈ products s r := by
  rw [products, products, Bool.or_comm, Num.mul_comm r.min, Num.mul_comm r.min, Num.mul_comm r.max,
    Num.mul_comm r.max]
  simp only [mem_append, mem_cons, not_mem_nil, or_false]
  tauto

theorem Brackets.swap {r s : Bounds} {x y : Num} (brackets : Brackets (products r s) (x.mul y)) :
    Brackets (products s r) (y.mul x) := by
  rw [Num.mul_comm]
  exact brackets.mono fun c => mem_products_comm.mp

/-- Negated bounds have negated products. -/
theorem neg_mem_products {r s : Bounds} (numberMin : r.min ≠ .nan) (numberMax : r.max ≠ .nan) :
    ∀ c ∈ products r.neg s, c.neg ∈ products r s := by
  intro c mem
  rw [products, Bounds.hasZero_neg numberMin numberMax, Bounds.hasFinite_neg] at mem
  rw [products]
  have zero : (0 : Num).neg = 0 := by decide
  simp only [Bounds.neg, Num.neg_mul, mem_append, mem_cons, not_mem_nil, or_false] at mem ⊢
  rcases mem with (rfl | rfl | rfl | rfl) | mem
  · simp
  · simp
  · simp
  · simp
  · split at mem
    · next arises =>
      rw [mem_singleton.mp mem, zero, if_pos arises]
      exact .inr (mem_singleton_self _)
    · cases mem

section Products

variable {r s : Bounds} {x y : Num} (withinX : r.Within x) (withinY : s.Within y)
include withinX withinY

/-- If the bounds of a positive factor go down to zero, a candidate is below the product. -/
theorem exists_product_le_of_nonpos (posX : 0 < x) (posY : 0 < y) (down : r.min ≤ 0) :
    ∃ c ∈ products r s, c ≠ .nan ∧ c ≤ x.mul y := by
  have zero := Bounds.hasZero_eq_true_iff.mpr ⟨down, posX.le.trans withinX.high⟩
  cases finite : s.hasFinite with
  | true =>
    refine ⟨0, by simp [products, zero, finite], by decide, Num.zero_le_mul posX posY⟩
  | false =>
    -- the other factor is a single infinity, and so is the product
    obtain ⟨same, infinite⟩ := withinY.eq_of_not_hasFinite finite
    obtain rfl : y = .posInf := by
      cases y with
      | negInf => cases posY
      | posInf => rfl
      | _ => cases infinite
    refine ⟨r.max.mul s.max, by simp [products], ?_⟩
    rw [← same, Num.mul_comm, Num.posInf_mul withinX.number (posX.trans_le withinX.high),
      Num.mul_comm, Num.posInf_mul withinX.ne_nan posX]
    simp

/-- The candidates bracket products of positive numbers. -/
theorem brackets_products_of_pos (posX : 0 < x) (posY : 0 < y) :
    Brackets (products r s) (x.mul y) := by
  constructor
  case above =>
    have posR := posX.trans_le withinX.high
    have posS := posY.trans_le withinY.high
    refine ⟨r.max.mul s.max, by simp [products], Num.mul_ne_nan_of_pos withinX.number withinY.number
      posR posS, ?_⟩
    exact Num.mul_le_mul_of_pos posX posY withinX.high withinY.high withinX.number withinY.number
  case below =>
    rcases le_or_gt r.min 0 with down | posR
    · exact exists_product_le_of_nonpos withinX withinY posX posY down
    rcases le_or_gt s.min 0 with down | posS
    · obtain ⟨c, mem, below⟩ := exists_product_le_of_nonpos withinY withinX posY posX down
      exact ⟨c, mem_products_comm.mp mem, Num.mul_comm y x ▸ below⟩
    · refine ⟨r.min.mul s.min, by simp [products], Num.mul_ne_nan_of_pos withinX.min_ne_nan
        withinY.min_ne_nan posR posS, ?_⟩
      exact Num.mul_le_mul_of_pos posR posS withinX.low withinY.low withinX.ne_nan withinY.ne_nan

/-- They do so for a positive factor and any other. -/
theorem brackets_products_of_ne (number : x.mul y ≠ .nan) (posY : 0 < y) (proper : x ≠ 0) :
    Brackets (products r s) (x.mul y) := by
  rcases lt_or_gt_of_ne proper with negative | posX
  · have posX := (Num.zero_lt_neg_iff withinX.ne_nan).mpr negative
    have brackets := brackets_products_of_pos withinX.neg withinY posX posY
    rw [Num.neg_mul] at brackets
    exact brackets.of_neg number (neg_mem_products withinX.min_ne_nan withinX.number)
  · exact brackets_products_of_pos withinX withinY posX posY

/-- Zero is a candidate when it is a product. -/
theorem brackets_products_zero (number : x.mul y ≠ .nan) (zero : x = 0) :
    Brackets (products r s) (x.mul y) := by
  have finite : s.hasFinite = true := by
    by_contra single
    rw [Bool.not_eq_true] at single
    exact number (Num.mul_eq_nan_iff.mpr
      (.inr (.inr (.inl ⟨zero, (withinY.eq_of_not_hasFinite single).2⟩))))
  have mem : (0 : Num) ∈ products r s := by simp [products, withinX.hasZero zero, finite]
  rw [zero, Num.mul_comm] at number ⊢
  rw [Num.mul_zero number]
  exact ⟨⟨0, mem, by decide, le_refl _⟩, ⟨0, mem, by decide, le_refl _⟩⟩

theorem brackets_products (number : x.mul y ≠ .nan) : Brackets (products r s) (x.mul y) := by
  have numberYX : y.mul x ≠ .nan := Num.mul_comm x y ▸ number
  by_cases zeroX : x = 0
  · exact brackets_products_zero withinX withinY number zeroX
  by_cases zeroY : y = 0
  · exact (brackets_products_zero withinY withinX numberYX zeroY).swap
  rcases lt_or_gt_of_ne zeroY with negative | positive
  · have posY := (Num.zero_lt_neg_iff withinY.ne_nan).mpr negative
    have number' : x.mul y.neg ≠ .nan := by
      rwa [Num.mul_comm, Num.neg_mul, Ne, Num.neg_eq_nan_iff]
    have brackets := (brackets_products_of_ne withinX withinY.neg number' posY zeroX).swap
    rw [Num.neg_mul] at brackets
    exact (brackets.of_neg numberYX
      (neg_mem_products withinY.min_ne_nan withinY.number)).swap
  · exact brackets_products_of_ne withinX withinY number positive zeroX

end Products

/-- Whether the product of zero and an infinity can arise. -/
def zeroTimesInfinity (r s : Bounds) : Bool :=
  (r.hasZero && s.isUnbounded) || (s.hasZero && r.isUnbounded)

theorem mulNumber_eq : mulNumber = combined Num.mul products zeroTimesInfinity := rfl

theorem bracketed_mul : Bracketed Num.mul products zeroTimesInfinity where
  double := Num.isDouble_mul
  candidate r s c mem := by
    rw [products, mem_append] at mem
    rcases mem with mem | mem
    · simp only [mem_cons, not_mem_nil, or_false] at mem
      rcases mem with rfl | rfl | rfl | rfl <;> exact Num.isDouble_mul _ _
    · split at mem
      · rw [mem_singleton.mp mem]
        exact Num.isDouble_zero
      · cases mem
  nan x y none := Num.mul_eq_nan_iff.mpr (none.imp_right .inl)
  undefined r s x y withinX withinY none := by
    rcases Num.mul_eq_nan_iff.mp none with none | none | ⟨zero, infinite⟩ | ⟨infinite, zero⟩
    · exact absurd none withinX.ne_nan
    · exact absurd none withinY.ne_nan
    · simp [zeroTimesInfinity, withinX.hasZero zero, withinY.isUnbounded infinite]
    · simp [zeroTimesInfinity, withinY.hasZero zero, withinX.isUnbounded infinite]
  brackets r s x y := brackets_products
  whole x y := Num.isWhole_mul

/-- The range of two bounds has the numbers within them, of a whole range the whole ones. -/
theorem exists_has_hull_pair {r : Bounds} (numberMin : r.min ≠ .nan) (numberMax : r.max ≠ .nan)
    (order : r.min ≤ r.max) {v : Num} : (∃ c ∈ hull [r.min, r.max] r.whole, c.has v = true) ↔
      r.Within v ∧ (r.whole = true → v.isWhole = true) := by
  have within : r.Within v ↔ r.min ≤ v ∧ v ≤ r.max :=
    ⟨fun within => ⟨within.low, within.high⟩, fun bounds => ⟨bounds.1, bounds.2, numberMax⟩⟩
  rw [hull_pair numberMin numberMax, min_eq_left order, max_eq_right order, within]
  cases whole : r.whole with
  | true => simpa [and_comm] using NumberTy.has_intRange? numberMin numberMax v
  | false => simpa using NumberTy.has_range? numberMin numberMax v

theorem tame_of_hull {candidates : List Num} {whole : Bool} {c : NumberTy}
    (small : ∀ v ∈ candidates, v.Small) (range : hull candidates whole = some c) : c.Tame := by
  rcases hull_cases candidates whole with ⟨none, -⟩ | ⟨lo, memLo, hi, memHi, -, -, -, eq⟩
  · rw [none] at range
    cases range
  · rw [eq] at range
    cases whole with
    | true =>
      exact NumberTy.tame_of_intRange? (Num.small_iff.mp (small lo memLo)).2
        (Num.small_iff.mp (small hi memHi)).1 range
    | false => exact NumberTy.tame_of_range? (small lo memLo) (small hi memHi) range

/-- A set has the numbers within its bounds, of whole ones the whole ones, and perhaps `nan`. -/
theorem has_iff {n : NumberTy} (valid : n.Valid) (proper : n ≠ literal .nan) {x : Num} :
    n.has x = true ↔ x = .nan ∧ n.has .nan = true ∨
      (boundsOf n).Within x ∧ (n.isWhole = true → x.isWhole = true) := by
  constructor
  · intro has
    by_cases none : x = .nan
    · exact .inl ⟨none, none ▸ has⟩
    · exact .inr ⟨within_boundsOf valid has none, fun whole => Numbers.isWhole_of_has whole has⟩
  · rintro (⟨rfl, has⟩ | ⟨⟨low, high, -⟩, whole⟩)
    · exact has
    · cases n with
      | literal v => exact NumberTy.has_literal.mpr (le_antisymm high low)
      | ints lo hi => exact NumberTy.has_ints.mpr ⟨whole rfl, low, high⟩
      | reals lo hi => exact NumberTy.has_reals.mpr ⟨low, high⟩
      | all => rfl

section Negatives

variable {n : NumberTy} (valid : n.Valid) (small : n.Small)
include valid small

/-- The negatives of a set, `nan` alone apart, are a range of small bounds and perhaps `nan`. -/
theorem tame_parts : ∀ p ∈ (hull [n.max.neg, n.min.neg] n.isWhole).toList ++
    (if n.has .nan then noNumber else []), p.Tame := by
  have bounds : n.min.Small ∧ n.max.Small := by
    cases n with
    | literal v => exact ⟨small, small⟩
    | all => exact ⟨trivial, trivial⟩
    | _ => exact small
  intro p mem
  rw [mem_append, Option.mem_toList] at mem
  rcases mem with mem | mem
  · refine tame_of_hull (fun v candidate => ?_) mem
    simp only [mem_cons, not_mem_nil, or_false] at candidate
    rcases candidate with rfl | rfl
    · exact Num.small_neg bounds.2
    · exact Num.small_neg bounds.1
  · split at mem
    · rw [mem_singleton.mp mem]
      trivial
    · cases mem

theorem tame_of_mem_negNumber : ∀ p ∈ negNumber n, p.Tame := by
  intro p mem
  by_cases proper : n = literal .nan
  · rw [negNumber, proper] at mem
    rw [mem_singleton.mp mem]
    trivial
  · rw [negNumber, bounds?_of_ne proper] at mem
    exact Numbers.tame_of_mem_unionMembers (tame_parts valid small) (Sorted.mem_ofList.mp mem)

/-- A number is a negative of a set exactly when its negative is in the set. -/
theorem covers_negNumber {v : Num} : Covers (negNumber n) v ↔ n.has v.neg = true := by
  by_cases proper : n = literal .nan
  · simp [Covers, negNumber, proper, bounds?, Num.isNan, noNumber]
  · obtain ⟨numberMin, numberMax⟩ := bounds_ne_nan valid proper
    have order : n.min ≤ n.max := (has_iff valid proper).mp (NumberTy.has_min valid) |>.elim
      (fun none => absurd none.1 numberMin) fun within => within.1.high
    have range : (∃ p ∈ hull [n.max.neg, n.min.neg] n.isWhole, p.has v = true) ↔
        (boundsOf n).Within v.neg ∧ (n.isWhole = true → v.neg.isWhole = true) := by
      rw [← Bounds.within_neg_iff, Num.isWhole_neg]
      exact exists_has_hull_pair (r := (boundsOf n).neg) (Num.neg_eq_nan_iff.not.mpr numberMax)
        (Num.neg_eq_nan_iff.not.mpr numberMin)
        ((Num.neg_le_neg_iff numberMax numberMin).mpr order)
    rw [negNumber, bounds?_of_ne proper, has_iff valid proper, ← range, Num.neg_eq_nan_iff]
    simp only [Covers, withNan, Numbers.union, Sorted.mem_ofList]
    refine (Numbers.has_unionMembers (tame_parts valid small) v).trans ?_
    simp only [mem_append, Option.mem_toList, or_and_right, exists_or]
    rw [or_comm]
    refine or_congr_left ?_
    split <;> simp_all [noNumber]

end Negatives

theorem number_mem_combined {f : Num → Num → Num} {candidates : Bounds → Bounds → List Num}
    {undefined : Bounds → Bounds → Bool} (bracketed : Bracketed f candidates undefined) {a b : Ty}
    (validA : ∀ n ∈ operands a, n.Valid) (validB : ∀ m ∈ operands b, m.Valid) {x y : Num}
    (memX : ∃ n ∈ operands a, n.has x = true) (memY : ∃ m ∈ operands b, m.has y = true) :
    Value.number (f x y) ∈ lift₂ (combined f candidates undefined) a b := by
  obtain ⟨n, memN, hasX⟩ := memX
  obtain ⟨m, memM, hasY⟩ := memY
  exact mem_lift₂ (fun n memN m memM => held_combined bracketed (validA n memN) (validB m memM))
    memN memM (bracketed.double x y)
    (covers_combined bracketed (validA n memN) (validB m memM) hasX hasY)

/-- A well-formed type whose numbers are written with small ones. -/
structure Operand (t : Ty) : Prop where
  wellFormed : t.WellFormed
  small : ∀ n ∈ operands t, n.Small

theorem mem_operands_negate {a : Ty} {p : NumberTy} : p ∈ operands a.negate ↔
    p ∈ Numbers.unionMembers ((operands a).flatMap negNumber) := by
  rw [Ty.negate, lift₁, mem_operands_ofNumbers, Numbers.union, Sorted.mem_ofList]

section Operand

variable {a : Ty} (operand : Operand a)
include operand

theorem Operand.valid : ∀ n ∈ operands a, n.Valid := valid_of_mem_operands operand.wellFormed

theorem tame_negatives : ∀ p ∈ (operands a).flatMap negNumber, p.Tame := by
  intro p mem
  obtain ⟨n, memN, mem⟩ := mem_flatMap.mp mem
  exact tame_of_mem_negNumber (operand.valid n memN) (operand.small n memN) p mem

theorem valid_negate : ∀ n ∈ operands a.negate, n.Valid := fun _ mem =>
  (Numbers.tame_of_mem_unionMembers (tame_negatives operand) (mem_operands_negate.mp mem)).valid

/-- The negatives of a type are the numbers whose negatives it has. -/
theorem exists_has_negate_iff {v : Num} :
    (∃ n ∈ operands a.negate, n.has v = true) ↔ ∃ n ∈ operands a, n.has v.neg = true := by
  have each : ∀ n ∈ operands a, (Covers (negNumber n) v ↔ n.has v.neg = true) := fun n mem =>
    covers_negNumber (operand.valid n mem) (operand.small n mem)
  simp only [mem_operands_negate]
  rw [Numbers.has_unionMembers (tame_negatives operand)]
  constructor
  · rintro ⟨p, mem, has⟩
    obtain ⟨n, memN, mem⟩ := mem_flatMap.mp mem
    exact ⟨n, memN, (each n memN).mp ⟨p, mem, has⟩⟩
  · rintro ⟨n, memN, has⟩
    obtain ⟨p, mem, has⟩ := (each n memN).mpr has
    exact ⟨p, mem_flatMap.mpr ⟨n, memN, mem⟩, has⟩

theorem number_mem_negate_iff {v : Num} :
    Value.number v ∈ a.negate ↔ Value.number v.neg ∈ a := by
  rw [number_mem_iff operand.wellFormed, ← exists_has_negate_iff operand]
  simp only [mem_operands_negate]
  rw [Numbers.has_unionMembers (tame_negatives operand), Ty.negate, lift₁,
    Algebra.mem_ofNumbers (tame_negatives operand)]
  simp only [Ty.mem_number_iff]

end Operand

section Results

variable {a b : Ty} (operandA : Operand a) (operandB : Operand b)
include operandA operandB

theorem add_covers {x y : Num} (memX : Value.number x ∈ a) (memY : Value.number y ∈ b) :
    Value.number (x.add y) ∈ a.add b := by
  rw [Ty.add, addNumber_eq]
  exact number_mem_combined bracketed_add operandA.valid operandB.valid
    ((number_mem_iff operandA.wellFormed).mp memX) ((number_mem_iff operandB.wellFormed).mp memY)

theorem sub_covers {x y : Num} (memX : Value.number x ∈ a) (memY : Value.number y ∈ b) :
    Value.number (x.sub y) ∈ a.subtract b := by
  rw [Ty.subtract, Ty.add, addNumber_eq]
  refine number_mem_combined bracketed_add operandA.valid (valid_negate operandB)
    ((number_mem_iff operandA.wellFormed).mp memX) ((exists_has_negate_iff operandB).mpr ?_)
  rw [Num.neg_neg]
  exact (number_mem_iff operandB.wellFormed).mp memY

theorem mul_covers {x y : Num} (memX : Value.number x ∈ a) (memY : Value.number y ∈ b) :
    Value.number (x.mul y) ∈ a.multiply b := by
  rw [Ty.multiply, mulNumber_eq]
  exact number_mem_combined bracketed_mul operandA.valid operandB.valid
    ((number_mem_iff operandA.wellFormed).mp memX) ((number_mem_iff operandB.wellFormed).mp memY)

/-- Sums, differences and products of the numbers of two types are of the type computed for them:
for all numbers, infinities and `nan`, where `inf - inf`, `0 * inf` and any operation on `nan` give
`nan`. Those of two integers are the exact ones if these are at most `2 ^ 53` in magnitude. The
negatives are exactly those of the numbers of the type. -/
theorem arithmetic_covers :
    (∀ x y : Num, Value.number x ∈ a → Value.number y ∈ b →
      Value.number (x.add y) ∈ a.add b ∧ Value.number (x.sub y) ∈ a.subtract b ∧
        Value.number (x.mul y) ∈ a.multiply b) ∧
    (∀ i j : ℤ, Value.number (.ofInt i) ∈ a → Value.number (.ofInt j) ∈ b →
      ((i + j).natAbs ≤ 2 ^ 53 → Value.number (.ofInt (i + j)) ∈ a.add b) ∧
        ((i - j).natAbs ≤ 2 ^ 53 → Value.number (.ofInt (i - j)) ∈ a.subtract b) ∧
        ((i * j).natAbs ≤ 2 ^ 53 → Value.number (.ofInt (i * j)) ∈ a.multiply b)) ∧
    ∀ v : Num, Value.number v ∈ a.negate ↔ Value.number v.neg ∈ a := by
  refine ⟨fun x y memX memY => ⟨add_covers operandA operandB memX memY,
    sub_covers operandA operandB memX memY, mul_covers operandA operandB memX memY⟩,
    fun i j memI memJ => ⟨fun small => ?_, fun small => ?_, fun small => ?_⟩,
    fun v => number_mem_negate_iff operandA⟩
  · have exact : (Num.ofInt i).add (.ofInt j) = .ofInt (i + j) := by
      rw [Num.ofInt, Num.ofInt, Num.ofInt, ← Num.ofRat_intCast small, Int.cast_add]
      rfl
    exact exact ▸ add_covers operandA operandB memI memJ
  · have exact : (Num.ofInt i).sub (.ofInt j) = .ofInt (i - j) := by
      rw [Num.ofInt, Num.ofInt, Num.ofInt, ← Num.ofRat_intCast small, Int.cast_sub, sub_eq_add_neg]
      rfl
    exact exact ▸ sub_covers operandA operandB memI memJ
  · have exact : (Num.ofInt i).mul (.ofInt j) = .ofInt (i * j) := by
      rw [Num.ofInt, Num.ofInt, Num.ofInt, ← Num.ofRat_intCast small, Int.cast_mul]
      rfl
    exact exact ▸ mul_covers operandA operandB memI memJ

end Results

/-- Zero times infinity is a product of an infinity beside a range and of a range with zero. -/
theorem arithmetic_covers_infinite :
    let a := Ty.union [.number (.literal .posInf), .number (.ints (.fin (-3)) (.fin 100))]
    let b := Ty.number (.ints .negInf (.fin 7))
    (Operand a ∧ Operand b) ∧ Value.number .nan ∈ a.multiply b ∧
      Value.number (.ofInt 93) ∈ a.subtract b ∧ Value.number .negInf ∈ a.negate := by
  intro a b
  have operandA : Operand a := ⟨by decide, by decide⟩
  have operandB : Operand b := ⟨by decide, by decide⟩
  obtain ⟨results, integers, negatives⟩ := arithmetic_covers operandA operandB
  have product := (results .posInf 0 (by decide) (by decide)).2.2
  have difference := (integers 100 7 (by decide) (by decide)).2.1 (by decide)
  exact ⟨⟨operandA, operandB⟩, product, difference, (negatives .negInf).mpr (by decide)⟩

end Arithmetic

end TypeFlow
