import TypeFlow.Algebra.Basic

/-!
# Arithmetic on types

Each operation answers with a type that holds the results for all numbers of
its operands. It works on every combination of members and takes the union.
Small finite sets are computed number by number; larger ones from their bounds,
so that the answer may hold more than can arise. Results that are no number
(`0 * inf`, `inf - inf`, `x / 0`) add `nan`. The type of every value counts as
all numbers, and members that are not numbers are left out.
-/

namespace TypeFlow
namespace Arithmetic

open NumberTy (literal ints reals all real range? intRange?)

/-- A closed range, perhaps of whole numbers only. -/
structure Bounds where
  min : Num
  max : Num
  /-- Whether only whole numbers are meant. -/
  whole : Bool

namespace Bounds

/-- Whether zero is between the bounds. -/
def hasZero (r : Bounds) : Bool := decide (r.min ≤ 0) && decide (0 ≤ r.max)

/-- Whether a bound is infinite. -/
def isUnbounded (r : Bounds) : Bool := r.min.isInfinite || r.max.isInfinite

/-- Whether there is more than a single infinity. -/
def hasFinite (r : Bounds) : Bool := !(decide (r.min = r.max) && r.min.isInfinite)

end Bounds

/-- The range of a number type, `nan` left out. -/
def bounds? : NumberTy → Option Bounds
  | literal v => if v.isNan then none else some ⟨v, v, v.isWhole⟩
  | ints min max => some ⟨min, max, true⟩
  | reals min max => some ⟨min, max, false⟩
  | all => some ⟨.negInf, .posInf, false⟩

/-- The number types that a type offers to arithmetic. -/
def operands : Ty → List NumberTy
  | .any => [all]
  | t => t.members.filterMap Ty.number?

/-- The type of `nan` alone. -/
def noNumber : List NumberTy := [literal .nan]

/-- The least range that holds the candidates that are numbers. -/
def hull (candidates : List Num) (whole : Bool) : Option NumberTy :=
  match candidates.filter fun v => !v.isNan with
  | [] => none
  | first :: rest =>
    let lo := rest.foldl min first
    let hi := rest.foldl max first
    if whole then intRange? lo hi else range? lo hi

/-- A range together with `nan` where that can arise. -/
def withNan (n : Option NumberTy) (reachable : Bool) : List NumberTy :=
  Numbers.union (n.toList ++ if reachable then noNumber else [])

/-- At most this many combinations are computed number by number. -/
def maxPointwise : Num := 10

/-- The results for all numbers of a small set. -/
def pointwise₁ (f : Num → Num) (a : NumberTy) : Option (List NumberTy) := do
  let count ← a.count
  if maxPointwise < count then none
  else
    let xs ← a.members
    return Numbers.union (xs.map fun x => literal (f x))

/-- The results for all pairs of numbers of two small sets. -/
def pointwise₂ (f : Num → Num → Num) (a b : NumberTy) : Option (List NumberTy) := do
  let count := (← a.count).mul (← b.count)
  if maxPointwise < count then none
  else
    let xs ← a.members
    let ys ← b.members
    return Numbers.union (xs.flatMap fun x => ys.map fun y => literal (f x y))

/-- Sums. -/
def addNumber (a b : NumberTy) : List NumberTy :=
  (pointwise₂ Num.add a b).getD <|
    match bounds? a, bounds? b with
    | some r, some s =>
      let opposite := (decide (r.min = .negInf) && decide (s.max = .posInf))
        || (decide (r.max = .posInf) && decide (s.min = .negInf))
      let candidates := [r.min.add s.min, r.min.add s.max, r.max.add s.min, r.max.add s.max]
      withNan (hull candidates (r.whole && s.whole)) (a.has .nan || b.has .nan || opposite)
    | _, _ => noNumber

/-- Negatives. -/
def negNumber (a : NumberTy) : List NumberTy :=
  match bounds? a with
  | some r => withNan (hull [r.max.neg, r.min.neg] r.whole) (a.has .nan)
  | none => noNumber

/-- Products. The products of the bounds can all be `nan` although zero is a
product too, so zero is a candidate of its own. -/
def mulNumber (a b : NumberTy) : List NumberTy :=
  (pointwise₂ Num.mul a b).getD <|
    match bounds? a, bounds? b with
    | some r, some s =>
      let zeroTimesInfinity := (r.hasZero && s.isUnbounded) || (s.hasZero && r.isUnbounded)
      let zero := if (r.hasZero && s.hasFinite) || (s.hasZero && r.hasFinite) then [0] else []
      let candidates := [r.min.mul s.min, r.min.mul s.max, r.max.mul s.min, r.max.mul s.max] ++ zero
      withNan (hull candidates (r.whole && s.whole))
        (a.has .nan || b.has .nan || zeroTimesInfinity)
    | _, _ => noNumber

/-- Reciprocals of the numbers in a range around zero: none for zero itself, and
a range of its own for each side. -/
def reciprocalAround (r : Bounds) : List NumberTy :=
  let below := if r.min < 0 then
    range? (if r.whole then .fin (-1) else .negInf) (Num.div 1 r.min) else none
  let above := if 0 < r.max then
    range? (Num.div 1 r.max) (if r.whole then 1 else .posInf) else none
  Numbers.union (noNumber ++ below.toList ++ above.toList)

/-- Reciprocals. -/
def recNumber (a : NumberTy) : List NumberTy :=
  (pointwise₁ (Num.div 1) a).getD <|
    match bounds? a with
    | some r =>
      if r.min = r.max then [literal (Num.div 1 r.min)]
      else if r.hasZero then reciprocalAround r
      else withNan (hull [Num.div 1 r.min, Num.div 1 r.max] false) (a.has .nan)
    | none => noNumber

/-- Quotients. -/
def divNumber (a b : NumberTy) : List NumberTy :=
  (pointwise₂ Num.div a b).getD (Numbers.union ((recNumber b).flatMap (mulNumber a)))

/-- The picks of one of two numbers, the smaller or the greater. -/
def pickNumber (pick : Num → Num → Num) (a b : NumberTy) : List NumberTy :=
  (pointwise₂ pick a b).getD <|
    let range := match bounds? a, bounds? b with
      | some r, some s => hull [pick r.min s.min, pick r.max s.max] (r.whole && s.whole)
      | _, _ => none
    withNan range (a.has .nan || b.has .nan)

/-- Nearest whole numbers, halves going away from zero. -/
def roundNumber : NumberTy → List NumberTy
  | literal v => [literal v.round]
  | ints min max => [ints min max]
  | reals min max => (intRange? min.round max.round).toList
  | all => withNan (intRange? .negInf .posInf) true

/-- Applies an operation to every member. -/
def lift₁ (f : NumberTy → List NumberTy) (a : Ty) : Ty :=
  Ty.ofNumbers ((operands a).flatMap f)

/-- Applies an operation to every pair of members. -/
def lift₂ (f : NumberTy → NumberTy → List NumberTy) (a b : Ty) : Ty :=
  Ty.ofNumbers ((operands a).flatMap fun x => (operands b).flatMap (f x))

end Arithmetic

namespace Ty

/-- The sums of two types. -/
def add : Ty → Ty → Ty := Arithmetic.lift₂ Arithmetic.addNumber

/-- The negatives of a type. -/
def negate : Ty → Ty := Arithmetic.lift₁ Arithmetic.negNumber

/-- The differences of the numbers of two types. -/
def subtract (a b : Ty) : Ty := a.add b.negate

/-- The products of two types. -/
def multiply : Ty → Ty → Ty := Arithmetic.lift₂ Arithmetic.mulNumber

/-- The reciprocals of a type. -/
def reciprocal : Ty → Ty := Arithmetic.lift₁ Arithmetic.recNumber

/-- The quotients of two types. -/
def divide : Ty → Ty → Ty := Arithmetic.lift₂ Arithmetic.divNumber

/-- The smaller numbers of two types. -/
def minimum : Ty → Ty → Ty := Arithmetic.lift₂ (Arithmetic.pickNumber Num.lesser)

/-- The greater numbers of two types. -/
def maximum : Ty → Ty → Ty := Arithmetic.lift₂ (Arithmetic.pickNumber Num.greater)

/-- The numbers of a type rounded to whole ones. -/
def round : Ty → Ty := Arithmetic.lift₁ Arithmetic.roundNumber

end Ty
end TypeFlow
