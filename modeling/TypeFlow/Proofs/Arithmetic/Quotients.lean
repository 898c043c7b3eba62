import TypeFlow.Proofs.Arithmetic.Sums
import TypeFlow.Proofs.Num.Reciprocals

/-!
# Quotients

Few pairs are divided number by number; otherwise the dividends are multiplied with reciprocals,
which are rounded. So an exact quotient is lost where the product with the rounded reciprocal is a
different number and nothing around it fills the gap. It is not lost inside a large range, since the
rounding of one reciprocal does not reach the next double.
-/

namespace TypeFlow

open List
open scoped Num.Linear

namespace Arithmetic

open NumberTy (literal ints reals all real range?)
open Numbers (Covers)

/-- A set of more than ten numbers. -/
def Large (n : NumberTy) : Prop := ∀ c ∈ n.count, maxPointwise < c
deriving Decidable

/-- What a set counts is a double, and at least one. -/
theorem count_spec {n : NumberTy} (valid : n.Valid) {c : Num} (counted : n.count = some c) :
    c.IsDouble ∧ 1 ≤ c := by
  cases n with
  | literal v =>
    obtain rfl := Option.some.inj counted
    exact ⟨Num.isDouble_one, le_refl _⟩
  | ints lo hi =>
    cases lo with
    | fin a =>
      cases hi with
      | fin b =>
        obtain rfl := Option.some.inj counted
        have order := Num.fin_lt_fin.mp valid.2.2
        have nonneg : 0 ≤ (Num.fin b).sub (.fin a) := Num.isDouble_zero.le_ofRat (by
          push_cast
          linarith)
        refine ⟨Num.isDouble_add _ _, ?_⟩
        cases steps : (Num.fin b).sub (.fin a) with
        | negInf => simp [steps, Num.zero_eq] at nonneg
        | fin q =>
          rw [steps, Num.zero_le_fin] at nonneg
          exact Num.isDouble_one.le_ofRat (by push_cast; linarith)
        | posInf => decide
        | nan => decide
      | _ => cases counted
    | _ => cases counted
  | _ => cases counted

theorem not_few_of_large {n p : NumberTy} (validN : n.Valid) (validP : p.Valid)
    (large : Large n) : ¬ Few n p := by
  rintro ⟨c, countN, d, countP, few⟩
  have many := large c countN
  obtain ⟨double, least⟩ := count_spec validN countN
  have numbers : ¬ c.mul d = .nan := fun none => by simp [none, maxPointwise] at few
  rw [Num.mul_eq_nan_iff] at numbers
  push Not at numbers
  have positive : 0 < c := lt_of_lt_of_le (by decide) least
  have grows := Num.mul_le_mul_of_pos positive (show (0 : Num) < 1 by decide) (le_refl c)
    (count_spec validP countP).2 numbers.1 numbers.2.1
  rw [Num.mul_one double] at grows
  exact absurd (grows.trans few) (not_le.mpr many)

/-- Reciprocals of a small set are computed, others are not. -/
theorem pointwise₁_cases (f : Num → Num) (n : NumberTy) :
    (¬ Large n ∧ ∃ xs, n.members = some xs ∧
      pointwise₁ f n = some (Numbers.union (xs.map fun x => literal (f x)))) ∨
      (Large n ∧ pointwise₁ f n = none) := by
  unfold pointwise₁
  cases counted : n.count with
  | none => exact .inr ⟨by simp [Large, counted], rfl⟩
  | some c =>
    by_cases many : maxPointwise < c
    · exact .inr ⟨by simpa [Large, counted] using many, by simp [many]⟩
    · obtain ⟨xs, listed⟩ := exists_members counted
      exact .inl ⟨fun large => many (large c counted), xs, listed, by simp [many, listed]⟩

/-- A number is where the reciprocals of a range are that has the given number, on its side of
zero. -/
structure Bounds.Inverts (r : Bounds) (y w : Num) : Prop where
  number : w ≠ .nan
  pos : 0 < y → Num.div 1 r.max ≤ w ∧ (0 < r.min → w ≤ Num.div 1 r.min) ∧ (r.whole = true → w ≤ 1)
  neg : y < 0 → w ≤ Num.div 1 r.min ∧ (r.max < 0 → Num.div 1 r.max ≤ w) ∧
    (r.whole = true → .fin (-1) ≤ w)

/-- The rounded reciprocal is. -/
theorem inverts_one_div {r : Bounds} {y : Num} (within : r.Within y) (nonzero : y ≠ 0)
    (whole : r.whole = true → y.isWhole = true) : r.Inverts y (Num.div 1 y) where
  number := Num.one_div_ne_nan within.ne_nan nonzero
  pos positive :=
    ⟨Num.one_div_le_of_pos positive within.high within.number,
      fun above => Num.one_div_le_of_pos above within.low within.ne_nan,
      fun integral => Num.one_div_le_one (whole integral) positive⟩
  neg negative :=
    ⟨Num.one_div_le_of_neg negative within.low,
      fun below => Num.one_div_le_of_neg below within.high,
      fun integral => Num.neg_one_le_one_div (whole integral) negative⟩

/-- The exact reciprocal of an integer strictly inside the range is. -/
theorem inverts_exact {r : Bounds} (doubleMin : r.min.IsDouble) (doubleMax : r.max.IsDouble)
    (number : r.max ≠ .nan) {j : ℤ} (bound : j.natAbs ≤ 2 ^ 53)
    (low : r.min < .fin (j : ℚ)) (high : .fin (j : ℚ) < r.max) :
    r.Inverts (.fin (j : ℚ)) (.fin (1 / (j : ℚ))) where
  number := by simp
  pos positive := by
    have posJ : 0 < j := by exact_mod_cast Num.zero_lt_fin.mp positive
    refine ⟨Num.one_div_le_exact posJ bound doubleMax number high,
      fun above => Num.exact_le_one_div posJ bound doubleMin above low, fun _ => ?_⟩
    rw [Num.one_eq, Num.fin_le_fin]
    exact (Num.one_div_int_bounds posJ bound).2
  neg negative := by
    have negJ : j < 0 := by exact_mod_cast Num.fin_lt_zero.mp negative
    refine ⟨Num.exact_le_one_div_of_neg negJ bound doubleMin low,
      fun below => Num.one_div_le_exact_of_neg negJ bound doubleMax below high, fun _ => ?_⟩
    have mirrored := (Num.one_div_int_bounds (j := -j) (by omega) (by rwa [Int.natAbs_neg])).2
    rw [Int.cast_neg, one_div_neg_eq_neg_one_div] at mirrored
    rw [Num.fin_le_fin]
    linarith

/-- A union loses nothing of the range between two numbers. -/
theorem covers_union_of_range {items : List NumberTy} (held : ∀ n ∈ items, n.Held) {lo hi w : Num}
    (mem : ∀ c, range? lo hi = some c → c ∈ items) (numberLo : lo ≠ .nan) (numberHi : hi ≠ .nan)
    (low : lo ≤ w) (high : w ≤ hi) : Covers (Numbers.union items) w := by
  obtain ⟨c, range, has⟩ := (NumberTy.has_range? numberLo numberHi w).mpr ⟨low, high⟩
  have real : Numbers.isInts c = false := by
    rw [Option.mem_def, range?] at range
    split_ifs at range <;> cases range <;> rfl
  exact Numbers.covers_union_of_not_ints held (mem c range) real has

section Around

variable (r : Bounds)

/-- The reciprocals of the negative numbers in a range around zero. -/
def reciprocalBelow : Option NumberTy :=
  if r.min < 0 then range? (if r.whole then .fin (-1) else .negInf) (Num.div 1 r.min) else none

/-- The reciprocals of the positive numbers in a range around zero. -/
def reciprocalAbove : Option NumberTy :=
  if 0 < r.max then range? (Num.div 1 r.max) (if r.whole then 1 else .posInf) else none

theorem reciprocalAround_eq : reciprocalAround r =
    Numbers.union (noNumber ++ (reciprocalBelow r).toList ++ (reciprocalAbove r).toList) := rfl

theorem held_sides : ∀ p ∈ noNumber ++ (reciprocalBelow r).toList ++ (reciprocalAbove r).toList,
    p.Held := by
  intro p mem
  simp only [mem_append, Option.mem_toList, reciprocalBelow, reciprocalAbove] at mem
  rcases mem with (mem | mem) | mem
  · exact held_noNumber p mem
  · split_ifs at mem
    · exact NumberTy.held_of_range? (by decide +kernel) (Num.isDouble_div _ _) mem
    · exact NumberTy.held_of_range? (a := .negInf) trivial (Num.isDouble_div _ _) mem
  · split_ifs at mem
    · exact NumberTy.held_of_range? (Num.isDouble_div _ _) Num.isDouble_one mem
    · exact NumberTy.held_of_range? (b := .posInf) (Num.isDouble_div _ _) trivial mem

variable {r}

/-- A number where the reciprocals are is on its side. -/
theorem covers_reciprocalAround {y w : Num} (within : r.Within y) (nonzero : y ≠ 0)
    (inverts : r.Inverts y w) : Covers (reciprocalAround r) w := by
  rw [reciprocalAround_eq]
  rcases lt_or_gt_of_ne nonzero with negative | positive
  · obtain ⟨high, -, low⟩ := inverts.neg negative
    have below := within.low.trans_lt negative
    have start : (if r.whole then .fin (-1) else .negInf : Num) ≠ .nan ∧
        (if r.whole then .fin (-1) else .negInf : Num) ≤ w := by
      split
      · next whole => exact ⟨by simp, low whole⟩
      · exact ⟨by simp, Num.negInf_le w⟩
    refine covers_union_of_range (held_sides r) (fun c range => ?_) start.1
      (Num.one_div_ne_nan within.min_ne_nan below.ne) start.2 high
    simp [reciprocalBelow, below, range]
  · obtain ⟨low, -, high⟩ := inverts.pos positive
    have above := positive.trans_le within.high
    have finish : (if r.whole then 1 else .posInf : Num) ≠ .nan ∧
        w ≤ (if r.whole then 1 else .posInf : Num) := by
      split
      · next whole => exact ⟨by decide, high whole⟩
      · exact ⟨by simp, Num.le_posInf_iff.mpr inverts.number⟩
    refine covers_union_of_range (held_sides r) (fun c range => ?_)
      (Num.one_div_ne_nan within.number above.ne') finish.1 low finish.2
    simp [reciprocalAbove, above, range]

end Around

section RecNumber

variable {m : NumberTy} (valid : m.Valid)
include valid

theorem min_ne_max (large : Large m) : m.min ≠ m.max := by
  cases m with
  | literal v => exact absurd (large 1 rfl) (by decide)
  | ints lo hi => exact valid.2.2.ne
  | reals lo hi => exact valid.2.ne
  | all => decide

theorem recNumber_eq (large : Large m) : recNumber m =
    if (boundsOf m).hasZero then reciprocalAround (boundsOf m)
    else withNan (hull [Num.div 1 m.min, Num.div 1 m.max] false) (m.has .nan) := by
  have proper : m ≠ literal .nan := by
    rintro rfl
    exact min_ne_max valid large rfl
  rcases pointwise₁_cases (Num.div 1) m with ⟨few, -⟩ | ⟨-, none⟩
  · exact absurd large few
  · rw [recNumber, none, bounds?_of_ne proper, Option.getD_none]
    exact if_neg (min_ne_max valid large)

theorem held_recNumber : ∀ p ∈ recNumber m, p.Held := by
  intro p mem
  rcases pointwise₁_cases (Num.div 1) m with ⟨-, xs, listed, eq⟩ | ⟨large, -⟩
  · rw [recNumber, eq, Option.getD_some] at mem
    refine Numbers.held_of_mem_union (fun n found => ?_) mem
    obtain ⟨x, -, rfl⟩ := mem_map.mp found
    exact NumberTy.held_literal.mpr (Num.isDouble_div 1 x)
  · rw [recNumber_eq valid large] at mem
    split at mem
    · exact Numbers.held_of_mem_union (held_sides _) mem
    · exact held_of_mem_withNan (by simp [Num.isDouble_div]) p mem

/-- The reciprocals of a large set have every number that is where they are. -/
theorem covers_recNumber_of_inverts (large : Large m) {y w : Num} (within : (boundsOf m).Within y)
    (nonzero : y ≠ 0) (inverts : (boundsOf m).Inverts y w) : Covers (recNumber m) w := by
  rw [recNumber_eq valid large]
  split
  · exact covers_reciprocalAround within nonzero inverts
  · next apart =>
    obtain ⟨nonzeroMin, nonzeroMax, low, high⟩ : m.min ≠ 0 ∧ m.max ≠ 0 ∧
        Num.div 1 m.max ≤ w ∧ w ≤ Num.div 1 m.min := by
      rcases lt_or_gt_of_ne nonzero with negative | positive
      · have below : m.max < 0 := not_le.mp fun reached =>
          apart (Bounds.hasZero_eq_true_iff.mpr ⟨within.low.trans negative.le, reached⟩)
        obtain ⟨high, low, -⟩ := inverts.neg negative
        exact ⟨(within.low.trans_lt negative).ne, below.ne, low below, high⟩
      · have above : 0 < m.min := not_le.mp fun reached =>
          apart (Bounds.hasZero_eq_true_iff.mpr ⟨reached, positive.le.trans within.high⟩)
        obtain ⟨low, high, -⟩ := inverts.pos positive
        exact ⟨above.ne', (positive.trans_le within.high).ne', low, high above⟩
    have numberMin : Num.div 1 m.min ≠ .nan := Num.one_div_ne_nan within.min_ne_nan nonzeroMin
    have numberMax : Num.div 1 m.max ≠ .nan := Num.one_div_ne_nan within.number nonzeroMax
    refine covers_union_of_range (held_parts (by simp [Num.isDouble_div])) (fun c range => ?_)
      numberMax numberMin low high
    rw [hull_pair numberMin numberMax, min_eq_right (low.trans high), max_eq_left (low.trans high)]
    exact mem_append_left _ (Option.mem_toList.mpr range)

theorem covers_recNumber {y : Num} (has : m.has y = true) : Covers (recNumber m) (Num.div 1 y) := by
  rcases pointwise₁_cases (Num.div 1) m with ⟨-, xs, listed, eq⟩ | ⟨large, -⟩
  · rw [recNumber, eq, Option.getD_some]
    refine Numbers.covers_union (fun n found => ?_) (Num.isDouble_div 1 y)
      ⟨literal (Num.div 1 y), ?_, NumberTy.has_literal.mpr rfl⟩
    · obtain ⟨x, -, rfl⟩ := mem_map.mp found
      exact NumberTy.held_literal.mpr (Num.isDouble_div 1 x)
    · exact mem_map.mpr ⟨y, (mem_members_iff valid listed y).mpr has, rfl⟩
  · by_cases proper : y ≠ .nan ∧ y ≠ 0
    · have within := within_boundsOf valid has proper.1
      exact covers_recNumber_of_inverts valid large within proper.2
        (inverts_one_div within proper.2 fun whole => Numbers.isWhole_of_has whole has)
    · -- there is no reciprocal, and the range is one around zero
      have none : Num.div 1 y = .nan := Num.one_div_eq_nan_iff.mpr (by tauto)
      have zero : (boundsOf m).hasZero = true := by
        by_cases nan : y = .nan
        · subst nan
          rcases (NumberTy.has_nan_iff valid).mp has with rfl | rfl
          · rfl
          · exact absurd rfl (min_ne_max valid large)
        · exact (within_boundsOf valid has nan).hasZero (by tauto)
      rw [recNumber_eq valid large, if_pos zero, reciprocalAround_eq, none]
      refine Numbers.covers_union (held_sides _) trivial ⟨literal .nan, ?_, by decide⟩
      simp [noNumber]

end RecNumber

section DivNumber

variable {n m : NumberTy} (validN : n.Valid) (validM : m.Valid)
include validN validM

theorem held_products : ∀ p ∈ (recNumber m).flatMap (mulNumber n), p.Held := by
  intro p mem
  obtain ⟨q, memQ, mem⟩ := mem_flatMap.mp mem
  exact held_combined bracketed_mul validN (held_recNumber validM q memQ).valid p mem

theorem held_divNumber : ∀ p ∈ divNumber n m, p.Held :=
  held_of_pointwise₂ validN validM (fun _ x y _ _ => Num.isDouble_div x y)
    fun _ _ mem => Numbers.held_of_mem_union (held_products validN validM) mem

/-- Many pairs are divided by multiplying with reciprocals. -/
theorem covers_divNumber_of_product (many : ¬ Few n m) {p : NumberTy} (mem : p ∈ recNumber m)
    {v : Num} (double : v.IsDouble) (covers : Covers (mulNumber n p) v) :
    Covers (divNumber n m) v := by
  rw [divNumber, pointwise₂_of_many many, Option.getD_none]
  exact Numbers.covers_union (held_products validN validM) double
    (covers.mono fun q found => mem_flatMap.mpr ⟨p, mem, found⟩)

/-- What is covered for two numbers: their quotient, or the product with the reciprocal. -/
theorem covers_divNumber {x y : Num} (hasX : n.has x = true) (hasY : m.has y = true) :
    Covers (divNumber n m) (if Few n m then x.div y else x.mul (Num.div 1 y)) := by
  split
  · next few =>
    exact covers_pointwise₂ validN validM (fun _ x y _ _ => Num.isDouble_div x y) hasX hasY
      fun many => absurd few many
  · next many =>
    obtain ⟨p, mem, has⟩ := covers_recNumber validM hasY
    exact covers_divNumber_of_product validN validM many mem (Num.isDouble_mul _ _)
      (covers_combined bracketed_mul validN (held_recNumber validM p mem).valid hasX has)

end DivNumber

section Exact

variable {n m : NumberTy} {i j : ℤ} (boundI : i.natAbs ≤ 2 ^ 53) (boundJ : j.natAbs ≤ 2 ^ 53)
  (nonzero : j ≠ 0) (divides : j ∣ i)

include boundI nonzero divides in
theorem ofRat_quotient : Num.ofRat ((i : ℚ) / j) = .ofInt (i / j) := by
  rw [← Int.cast_div divides (by exact_mod_cast nonzero)]
  exact Num.ofRat_intCast ((Int.natAbs_ediv_le_natAbs i j).trans boundI)

include boundI nonzero divides in
theorem isDouble_quotient : (Num.ofInt (i / j)).IsDouble :=
  ofRat_quotient boundI nonzero divides ▸ Num.isDouble_ofRat _

include boundI boundJ nonzero divides

/-- Inside a large range of dividends, the exact quotient is a product with the rounded reciprocal
of the divisor: not of the dividend but of a number so close to it that it is in the range too. -/
theorem covers_of_inside_dividend (heldN : n.Held) (validM : m.Valid) (large : Large n)
    (low : n.min < .fin (i : ℚ)) (high : .fin (i : ℚ) < n.max) (hasJ : m.has (.fin (j : ℚ)) = true)
    (hasI : n.has (.fin (i : ℚ)) = true) : Covers (divNumber n m) (.ofInt (i / j)) := by
  obtain ⟨r, ρ, ratio, rounded, product⟩ := Num.exists_ratio nonzero boundJ
  obtain ⟨p, mem, hasR⟩ := covers_recNumber validM hasJ
  rw [rounded] at hasR
  have validP := (held_recNumber validM p mem).valid
  have quotient : (Num.fin (i * ρ)).mul (.fin r) = .ofInt (i / j) := by
    rw [← ofRat_quotient boundI nonzero divides]
    change Num.ofRat (i * ρ * r) = _
    rw [mul_assoc, mul_comm ρ, product, mul_one_div]
  have doubleI := Num.isDouble_intCast boundI
  have within : (boundsOf n).Within (.fin (i * ρ)) :=
    ⟨ratio.le_fin_mul doubleI heldN.min low, ratio.fin_mul_le doubleI heldN.max high,
      (bounds_ne_nan heldN.valid (ne_literal_nan hasI (by simp))).2⟩
  refine covers_divNumber_of_product heldN.valid validM (not_few_of_large heldN.valid validM large)
    mem (isDouble_quotient boundI nonzero divides) ?_
  rw [mulNumber_eq, combined_of_many (not_few_of_large heldN.valid validP large)
    (ne_literal_nan hasI (by simp)) (ne_literal_nan hasR (by simp)), ← quotient]
  refine covers_withNan_of_within bracketed_mul within (within_boundsOf validP hasR (by simp)) ?_
  rw [quotient]
  exact fun _ _ => Num.isWhole_intCast _

/-- Inside a large range of divisors, the reciprocals hold the exact one. -/
theorem covers_of_inside_divisor (validN : n.Valid) (heldM : m.Held) (large : Large m)
    (many : ¬ Few n m) (low : m.min < .fin (j : ℚ)) (high : .fin (j : ℚ) < m.max)
    (hasI : n.has (.fin (i : ℚ)) = true) (hasJ : m.has (.fin (j : ℚ)) = true) :
    Covers (divNumber n m) (.ofInt (i / j)) := by
  have within := within_boundsOf heldM.valid hasJ (by simp)
  have proper : Num.fin (j : ℚ) ≠ 0 := by
    rw [Num.zero_eq, Ne, Num.fin.injEq]
    exact_mod_cast nonzero
  obtain ⟨p, mem, hasP⟩ := covers_recNumber_of_inverts heldM.valid large within proper
    (inverts_exact heldM.min heldM.max within.number boundJ low high)
  have quotient : (Num.fin (i : ℚ)).mul (.fin (1 / (j : ℚ))) = .ofInt (i / j) := by
    rw [← ofRat_quotient boundI nonzero divides]
    change Num.ofRat (i * (1 / j)) = _
    rw [mul_one_div]
  refine covers_divNumber_of_product validN heldM.valid many mem
    (isDouble_quotient boundI nonzero divides) ?_
  rw [← quotient]
  exact covers_combined bracketed_mul validN (held_recNumber heldM.valid p mem).valid hasI hasP

end Exact

section Results

variable {a b : Ty} (operandA : Representable a) (operandB : Representable b)
include operandA operandB

theorem mem_divide {n m : NumberTy} (memN : n ∈ operands a) (memM : m ∈ operands b) {v : Num}
    (double : v.IsDouble) (covers : Covers (divNumber n m) v) : Value.number v ∈ a.divide b :=
  mem_lift₂ (fun n memN m memM => held_divNumber (operandA.held n memN).valid
    (operandB.held m memM).valid) memN memM double covers

/-- Where two types have an integer and a divisor of it, the exact quotient is of the type computed
if the pairs of the members that they are in are few, if one of the two is strictly inside a member
of more than ten numbers, or if the product with the rounded reciprocal is exact. In general that
quotient or that product is. Division by zero gives `nan`. -/
theorem quotients_cover :
    (∀ n ∈ operands a, ∀ m ∈ operands b, ∀ i j : ℤ, i.natAbs ≤ 2 ^ 53 → j.natAbs ≤ 2 ^ 53 →
      n.has (.ofInt i) = true → m.has (.ofInt j) = true → j ≠ 0 → j ∣ i →
      Few n m ∨ (Large n ∧ n.min < .ofInt i ∧ .ofInt i < n.max) ∨
        (Large m ∧ m.min < .ofInt j ∧ .ofInt j < m.max) ∨
        (Num.ofInt i).mul (Num.div 1 (.ofInt j)) = .ofInt (i / j) →
      Value.number (.ofInt (i / j)) ∈ a.divide b) ∧
    (∀ n ∈ operands a, ∀ m ∈ operands b, ∀ x y : Num, n.has x = true → m.has y = true →
      Value.number (if Few n m then x.div y else x.mul (Num.div 1 y)) ∈ a.divide b) ∧
    ((∃ x : Num, Value.number x ∈ a) → Value.number 0 ∈ b → Value.number .nan ∈ a.divide b) := by
  have general : ∀ n ∈ operands a, ∀ m ∈ operands b, ∀ x y : Num, n.has x = true →
      m.has y = true →
      Value.number (if Few n m then x.div y else x.mul (Num.div 1 y)) ∈ a.divide b := by
    intro n memN m memM x y hasX hasY
    refine mem_divide operandA operandB memN memM ?_ (covers_divNumber
      (operandA.held n memN).valid (operandB.held m memM).valid hasX hasY)
    split
    · exact Num.isDouble_div x y
    · exact Num.isDouble_mul _ _
  refine ⟨?_, general, ?_⟩
  · intro n memN m memM i j boundI boundJ hasI hasJ nonzero divides cases
    have heldN := operandA.held n memN
    have heldM := operandB.held m memM
    have double := isDouble_quotient boundI nonzero divides
    by_cases few : Few n m
    · have quotient : (Num.ofInt i).div (.ofInt j) = .ofInt (i / j) := by
        rw [← ofRat_quotient boundI nonzero divides]
        exact if_neg (by exact_mod_cast nonzero)
      have mem := general n memN m memM _ _ hasI hasJ
      rwa [if_pos few, quotient] at mem
    · rcases cases with given | ⟨large, low, high⟩ | ⟨large, low, high⟩ | exact
      · exact absurd given few
      · exact mem_divide operandA operandB memN memM double (covers_of_inside_dividend boundI boundJ
          nonzero divides heldN heldM.valid large low high hasJ hasI)
      · exact mem_divide operandA operandB memN memM double (covers_of_inside_divisor boundI boundJ
          nonzero divides heldN.valid heldM large few low high hasI hasJ)
      · have mem := general n memN m memM _ _ hasI hasJ
        rwa [if_neg few, exact] at mem
  · rintro ⟨x, memX⟩ memZero
    obtain ⟨n, memN, hasX⟩ := (number_mem_iff operandA.wellFormed).mp memX
    obtain ⟨m, memM, hasZero⟩ := (number_mem_iff operandB.wellFormed).mp memZero
    have mem := general n memN m memM x 0 hasX hasZero
    have quotient : x.div 0 = .nan := by cases x <;> rfl
    have product : x.mul (Num.div 1 0) = .nan := by cases x <;> rfl
    rwa [quotient, product, ite_self] at mem

end Results

/-- The reciprocal of 49 is rounded down, but 98 is inside a large range. -/
theorem quotients_cover_inside :
    let a := Ty.number (ints (.fin 0) (.fin 100))
    let b := Ty.number (ints (.fin (-3)) (.fin 49))
    (Representable a ∧ Representable b) ∧ (Num.ofInt 98).mul (Num.div 1 (.ofInt 49)) ≠ .ofInt 2 ∧
      Value.number (.ofInt 2) ∈ a.divide b ∧ Value.number .nan ∈ a.divide b := by
  intro a b
  have operandA : Representable a := ⟨by decide, by decide +kernel⟩
  have operandB : Representable b := ⟨by decide, by decide +kernel⟩
  obtain ⟨exact, -, nan⟩ := quotients_cover operandA operandB
  have large : Large (ints (.fin 0) (.fin 100)) := by decide +kernel
  have quotient := exact _ mem_cons_self _ mem_cons_self 98 49 (by decide) (by decide)
    (by decide) (by decide) (by decide) (by decide) (.inr (.inl ⟨large, by decide, by decide⟩))
  exact ⟨⟨operandA, operandB⟩, by decide +kernel, quotient, nan ⟨0, by decide⟩ (by decide)⟩

/-- The end of a range is lost where the reciprocal is rounded down, and so is a quotient in small
sets. -/
theorem quotients_lost :
    let a := Ty.number (literal (.fin 49))
    let b := Ty.number (ints (.fin 49) (.fin 59))
    let c := Ty.number (ints (.fin 146) (.fin 149))
    let d := Ty.number (ints (.fin 48) (.fin 50))
    (∀ t ∈ [a, b, c, d], t.WellFormed ∧ ∀ n ∈ operands t, n.Held ∧ n.SmallInts) ∧
      (Value.number (.ofInt 49) ∈ a ∧ Value.number (.ofInt 49) ∈ b ∧
        ¬ Value.number (.ofInt (49 / 49)) ∈ a.divide b) ∧
      Value.number (.ofInt 147) ∈ c ∧ Value.number (.ofInt 49) ∈ d ∧
        ¬ Value.number (.ofInt (147 / 49)) ∈ c.divide d := by
  decide +kernel

end Arithmetic

end TypeFlow
