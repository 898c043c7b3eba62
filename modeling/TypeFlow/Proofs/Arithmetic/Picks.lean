import TypeFlow.Proofs.Arithmetic.Ranges

/-!
# The smaller and the greater of two numbers

The picks of two sets go from the pick of the lower bounds to that of the upper ones. Where one
operand is `nan` the other one is picked. The bounds of the set of all numbers allow for that, but
the set of `nan` alone has no bounds: unless the pairs are few, it leaves nothing but `nan`.
-/

namespace TypeFlow

open scoped Num.Linear

namespace Arithmetic

open NumberTy (literal ints all)
open Numbers (Covers)

/-- One of two numbers is picked, the one that is a number if there is only one, and greater
numbers have a greater pick. -/
structure Picks (pick : Num → Num → Num) : Prop where
  nan_left : ∀ y, pick .nan y = y
  nan_right : ∀ x, pick x .nan = x
  choice : ∀ x y, pick x y = x ∨ pick x y = y
  mono : ∀ {a b x y}, a ≤ x → b ≤ y → x ≠ .nan → y ≠ .nan → pick a b ≤ pick x y

theorem lesser_eq {x y : Num} (numberX : x ≠ .nan) (numberY : y ≠ .nan) :
    x.lesser y = min x y := by
  rw [Num.lesser, if_neg (Num.isNan_eq_true_iff.not.mpr numberX),
    if_neg (Num.isNan_eq_true_iff.not.mpr numberY)]

theorem greater_eq {x y : Num} (numberX : x ≠ .nan) (numberY : y ≠ .nan) :
    x.greater y = max x y := by
  rw [Num.greater, if_neg (Num.isNan_eq_true_iff.not.mpr numberX),
    if_neg (Num.isNan_eq_true_iff.not.mpr numberY)]

theorem picks_lesser : Picks Num.lesser where
  nan_left y := rfl
  nan_right x := by cases x <;> rfl
  choice x y := by
    unfold Num.lesser
    split_ifs
    · exact .inr rfl
    · exact .inl rfl
    · exact min_choice x y
  mono low high numberX numberY := by
    rw [lesser_eq numberX numberY, lesser_eq (NumberTy.ne_nan_of_le numberX low)
      (NumberTy.ne_nan_of_le numberY high)]
    exact min_le_min low high

theorem picks_greater : Picks Num.greater where
  nan_left y := rfl
  nan_right x := by cases x <;> rfl
  choice x y := by
    unfold Num.greater
    split_ifs
    · exact .inr rfl
    · exact .inl rfl
    · exact max_choice x y
  mono low high numberX numberY := by
    rw [greater_eq numberX numberY, greater_eq (NumberTy.ne_nan_of_le numberX low)
      (NumberTy.ne_nan_of_le numberY high)]
    exact max_le_max low high

theorem pickNumber_eq {pick : Num → Num → Num} {n m : NumberTy} (properN : n ≠ literal .nan)
    (properM : m ≠ literal .nan) : pickNumber pick n m = (pointwise₂ pick n m).getD
      (withNan (hull [pick n.min m.min, pick n.max m.max] (n.isWhole && m.isWhole))
        (n.has .nan || m.has .nan)) := by
  rw [pickNumber, bounds?_of_ne properN, bounds?_of_ne properM]
  rfl

/-- The set of `nan` alone leaves nothing else where the pairs are many. -/
theorem pickNumber_nan {pick : Num → Num → Num} {n m : NumberTy}
    (improper : n = literal .nan ∨ m = literal .nan) :
    pickNumber pick n m = (pointwise₂ pick n m).getD noNumber := by
  rcases improper with rfl | rfl
  · rfl
  · have reachable : (n.has .nan || (literal .nan).has .nan) = true := by simp
    rw [pickNumber, reachable]
    cases bounds? n <;> rfl

section PickNumber

variable {pick : Num → Num → Num} (picks : Picks pick)
include picks

theorem Picks.isDouble {x y : Num} (doubleX : x.IsDouble) (doubleY : y.IsDouble) :
    (pick x y).IsDouble := by
  rcases picks.choice x y with same | same
  · rwa [same]
  · rwa [same]

theorem Picks.ne_nan {x y : Num} (numberX : x ≠ .nan) (numberY : y ≠ .nan) : pick x y ≠ .nan := by
  rcases picks.choice x y with same | same
  · rwa [same]
  · rwa [same]

variable {n m : NumberTy}

/-- The picks of the bounds bracket the picks of the numbers. Where one operand is `nan`, its set
has all numbers, and what is picked from an infinity and a bound of the other set is far enough. -/
theorem brackets_picks (validN : n.Valid) (validM : m.Valid) (properN : n ≠ literal .nan)
    (properM : m ≠ literal .nan) {x y : Num} (hasX : n.has x = true) (hasY : m.has y = true)
    (number : pick x y ≠ .nan) : Brackets [pick n.min m.min, pick n.max m.max] (pick x y) := by
  obtain ⟨numberMin, numberMax⟩ := bounds_ne_nan validN properN
  obtain ⟨numberMin', numberMax'⟩ := bounds_ne_nan validM properM
  suffices bounds : pick n.min m.min ≤ pick x y ∧ pick x y ≤ pick n.max m.max from
    ⟨⟨_, by simp, picks.ne_nan numberMin numberMin', bounds.1⟩,
      ⟨_, by simp, picks.ne_nan numberMax numberMax', bounds.2⟩⟩
  by_cases nanX : x = .nan
  · subst nanX
    rw [picks.nan_left] at number ⊢
    obtain rfl := ((NumberTy.has_nan_iff validN).mp hasX).resolve_right properN
    obtain ⟨low, high⟩ := Numbers.min_le_and_le_max number hasY
    refine ⟨(picks.choice _ _).elim (fun same => ?_) fun same => same ▸ low,
      (picks.choice _ _).elim (fun same => ?_) fun same => same ▸ high⟩
    · rw [same]
      exact Num.negInf_le y
    · rw [same]
      exact Num.le_posInf_iff.mpr number
  by_cases nanY : y = .nan
  · subst nanY
    rw [picks.nan_right] at number ⊢
    obtain rfl := ((NumberTy.has_nan_iff validM).mp hasY).resolve_right properM
    obtain ⟨low, high⟩ := Numbers.min_le_and_le_max number hasX
    refine ⟨(picks.choice _ _).elim (fun same => same ▸ low) fun same => ?_,
      (picks.choice _ _).elim (fun same => same ▸ high) fun same => ?_⟩
    · rw [same]
      exact Num.negInf_le x
    · rw [same]
      exact Num.le_posInf_iff.mpr number
  · obtain ⟨low, high⟩ := Numbers.min_le_and_le_max nanX hasX
    obtain ⟨low', high'⟩ := Numbers.min_le_and_le_max nanY hasY
    exact ⟨picks.mono low low' nanX nanY, picks.mono high high' numberMax numberMax'⟩

variable (heldN : n.Held) (heldM : m.Held) (smallN : n.SmallInts) (smallM : m.SmallInts)
include heldN heldM smallN smallM

theorem isDouble_pick_of_few (few : Few n m) (x y : Num) (hasX : n.has x = true)
    (hasY : m.has y = true) : (pick x y).IsDouble := by
  obtain ⟨c, countN, d, countM, -⟩ := few
  exact picks.isDouble (isDouble_of_count heldN smallN countN hasX)
    (isDouble_of_count heldM smallM countM hasY)

omit smallN smallM in
theorem isDouble_pick_bounds :
    ∀ c ∈ [pick n.min m.min, pick n.max m.max], c.IsDouble := by
  simpa using And.intro (picks.isDouble heldN.min heldM.min) (picks.isDouble heldN.max heldM.max)

theorem held_pickNumber : ∀ p ∈ pickNumber pick n m, p.Held := by
  have few := isDouble_pick_of_few picks heldN heldM smallN smallM
  by_cases improper : n = literal .nan ∨ m = literal .nan
  · rw [pickNumber_nan improper]
    exact held_of_pointwise₂ heldN.valid heldM.valid few fun _ => held_noNumber
  · push Not at improper
    rw [pickNumber_eq improper.1 improper.2]
    exact held_of_pointwise₂ heldN.valid heldM.valid few
      fun _ => held_of_mem_withNan (isDouble_pick_bounds picks heldN heldM)

/-- The picks of two sets cover the picks of their numbers, unless one is the set of `nan` alone
and the pairs are many. -/
theorem covers_pickNumber (proper : Few n m ∨ n ≠ literal .nan ∧ m ≠ literal .nan) {x y : Num}
    (hasX : n.has x = true) (hasY : m.has y = true) (doubleX : x.IsDouble)
    (doubleY : y.IsDouble) : Covers (pickNumber pick n m) (pick x y) := by
  have few := isDouble_pick_of_few picks heldN heldM smallN smallM
  by_cases improper : n = literal .nan ∨ m = literal .nan
  · rw [pickNumber_nan improper]
    refine covers_pointwise₂ heldN.valid heldM.valid few hasX hasY fun many => ?_
    exact absurd (proper.resolve_left many) (by tauto)
  · push Not at improper
    rw [pickNumber_eq improper.1 improper.2]
    refine covers_pointwise₂ heldN.valid heldM.valid few hasX hasY fun _ => ?_
    have brackets := brackets_picks picks heldN.valid heldM.valid improper.1 improper.2 hasX hasY
    refine covers_withNan (isDouble_pick_bounds picks heldN heldM) (picks.isDouble doubleX doubleY)
      (fun none => ?_) brackets fun _ whole => ?_
    · rw [Bool.or_eq_true]
      by_cases nanX : x = .nan
      · exact .inl (nanX ▸ hasX)
      · by_cases nanY : y = .nan
        · exact .inr (nanY ▸ hasY)
        · exact absurd none (picks.ne_nan nanX nanY)
    · rw [Bool.and_eq_true] at whole
      rcases picks.choice x y with same | same
      · rw [same]
        exact Numbers.isWhole_of_has whole.1 hasX
      · rw [same]
        exact Numbers.isWhole_of_has whole.2 hasY

end PickNumber

section Results

variable {a b : Ty} (operandA : Representable a) (operandB : Representable b)
  (smallA : ∀ n ∈ operands a, n.SmallInts) (smallB : ∀ m ∈ operands b, m.SmallInts)
include operandA operandB smallA smallB

theorem pick_mem {pick : Num → Num → Num} (picks : Picks pick) {n m : NumberTy}
    (memN : n ∈ operands a) (memM : m ∈ operands b)
    (proper : Few n m ∨ n ≠ literal .nan ∧ m ≠ literal .nan) {x y : Num} (hasX : n.has x = true)
    (hasY : m.has y = true) (doubleX : x.IsDouble) (doubleY : y.IsDouble) :
    Value.number (pick x y) ∈ lift₂ (pickNumber pick) a b :=
  mem_lift₂
    (fun n memN m memM => held_pickNumber picks (operandA.held n memN) (operandB.held m memM)
      (smallA n memN) (smallB m memM))
    memN memM (picks.isDouble doubleX doubleY)
    (covers_pickNumber picks (operandA.held n memN) (operandB.held m memM)
      (smallA n memN) (smallB m memM) proper hasX hasY doubleX doubleY)

/-- The smaller and the greater of two numbers of two types are of the types computed for them.
So is the other operand where one is `nan`, unless that `nan` is a member of its own and the other
operand is in a member of more than ten numbers: such a pair gives `nan` only. -/
theorem picks_cover {x y : Num} (doubleX : x.IsDouble) (doubleY : y.IsDouble) :
    (Value.number x ∈ a → Value.number y ∈ b → x ≠ .nan → y ≠ .nan →
      Value.number (x.lesser y) ∈ a.minimum b ∧ Value.number (x.greater y) ∈ a.maximum b) ∧
    (∀ n ∈ operands a, ∀ m ∈ operands b, n.has x = true → m.has y = true →
      Few n m ∨ n ≠ literal .nan ∧ m ≠ literal .nan →
      Value.number (x.lesser y) ∈ a.minimum b ∧ Value.number (x.greater y) ∈ a.maximum b) ∧
    ∀ n ∈ operands a, ∀ m ∈ operands b, ¬ Few n m → n = literal .nan ∨ m = literal .nan →
      pickNumber Num.lesser n m = [literal .nan] ∧ pickNumber Num.greater n m = [literal .nan] := by
  have covers : ∀ n ∈ operands a, ∀ m ∈ operands b, n.has x = true → m.has y = true →
      Few n m ∨ n ≠ literal .nan ∧ m ≠ literal .nan →
      Value.number (x.lesser y) ∈ a.minimum b ∧ Value.number (x.greater y) ∈ a.maximum b :=
    fun n memN m memM hasX hasY proper =>
      ⟨pick_mem operandA operandB smallA smallB picks_lesser memN memM proper hasX hasY doubleX
        doubleY, pick_mem operandA operandB smallA smallB picks_greater memN memM proper hasX hasY
        doubleX doubleY⟩
  refine ⟨fun memX memY numberX numberY => ?_, covers, fun n _ m _ many improper => ?_⟩
  · obtain ⟨n, memN, hasX⟩ := (number_mem_iff operandA.wellFormed).mp memX
    obtain ⟨m, memM, hasY⟩ := (number_mem_iff operandB.wellFormed).mp memY
    exact covers n memN m memM hasX hasY
      (.inr ⟨ne_literal_nan hasX numberX, ne_literal_nan hasY numberY⟩)
  · rw [pickNumber_nan improper, pickNumber_nan improper, pointwise₂_of_many many,
      pointwise₂_of_many many]
    exact ⟨rfl, rfl⟩

end Results

/-- A `nan` that meets a small set gives way to its numbers, also beside a range. -/
theorem picks_cover_nan :
    let a := Ty.union [.number (.literal .nan), .number (.reals (.fin 7) .posInf)]
    let b := Ty.number (.ints (.fin 2) (.fin 5))
    (Representable a ∧ Representable b ∧ (∀ n ∈ operands a, n.SmallInts) ∧
      (∀ m ∈ operands b, m.SmallInts) ∧ (Num.fin 4).IsDouble) ∧
      Value.number (.fin 4) ∈ a.minimum b ∧ Value.number (.fin 4) ∈ a.maximum b := by
  intro a b
  have operandA : Representable a := ⟨by decide, by decide +kernel⟩
  have operandB : Representable b := ⟨by decide, by decide +kernel⟩
  have smallA : ∀ n ∈ operands a, n.SmallInts := by decide
  have smallB : ∀ m ∈ operands b, m.SmallInts := by decide
  have double : (Num.fin 4).IsDouble := by decide +kernel
  have few : Few (literal .nan) (ints (.fin 2) (.fin 5)) := by decide +kernel
  have covers := (picks_cover operandA operandB smallA smallB (show Num.nan.IsDouble by trivial)
    double).2.1 (literal .nan) (by decide) (ints (.fin 2) (.fin 5)) (by decide) (by decide)
    (by decide) (.inl few)
  exact ⟨⟨operandA, operandB, smallA, smallB, double⟩, covers⟩

/-- A `nan` that meets a large set hides the numbers that would be picked. -/
theorem picks_hide_numbers :
    let a := Ty.number (literal .nan)
    let b := Ty.number (ints (.fin 0) (.fin 100))
    (Representable a ∧ Representable b) ∧ (∀ m ∈ operands b, m.SmallInts) ∧
      Value.number .nan ∈ a ∧ Value.number (.fin 50) ∈ b ∧
      Num.lesser .nan (.fin 50) = .fin 50 ∧ ¬ Value.number (.fin 50) ∈ a.minimum b ∧
      Num.greater .nan (.fin 50) = .fin 50 ∧ ¬ Value.number (.fin 50) ∈ a.maximum b := by
  intro a b
  have operandA : Representable a := ⟨by decide, by decide +kernel⟩
  have operandB : Representable b := ⟨by decide, by decide +kernel⟩
  exact ⟨⟨operandA, operandB⟩, by decide +kernel⟩

end Arithmetic

end TypeFlow
