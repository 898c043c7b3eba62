import TypeFlow.Num.Decimal

/-!
# Number types

A number type is a set of numbers: a single number, the whole numbers of a
closed range, all numbers of a closed range, or every number. Ranges keep their
lower bound below their upper one and never hold `nan`. `has` is the meaning of
a number type; the other functions here build number types, compare them, and
list the finite ones.
-/

namespace TypeFlow

/-- A set of numbers. The constructors are in canonical order. -/
inductive NumberTy where
  | literal (value : Num)
  /-- The whole numbers from `min` to `max`, an infinite bound included. -/
  | ints (min max : Num)
  /-- The numbers from `min` to `max`, both included. -/
  | reals (min max : Num)
  | all
  deriving DecidableEq

/-- The two kinds of range. -/
inductive RangeKind where
  | ints
  | reals
  deriving DecidableEq

/-- Bounds that make no range, as they were written. -/
structure InvalidBounds where
  /-- The kind of range that was asked for. -/
  kind : RangeKind
  min : Written
  max : Written
  deriving DecidableEq

/-- What is said about bounds that make no range. -/
def InvalidBounds.message (e : InvalidBounds) : String :=
  let kind := match e.kind with
    | .ints => "int interval"
    | .reals => "interval"
  "invalid " ++ kind ++ " bounds " ++ e.min.text ++ ".." ++ e.max.text

namespace NumberTy

/-- Whether a number is in the set. -/
def has : NumberTy → Num → Bool
  | literal x, v => decide (v = x)
  | ints min max, v => v.isWhole && decide (min ≤ v) && decide (v ≤ max)
  | reals min max, v => decide (min ≤ v) && decide (v ≤ max)
  | all, _ => true

/-- Every number but `nan`. -/
def real : NumberTy := reals .negInf .posInf

/-- The range of numbers between two written bounds. -/
def interval (min max : Written) : Except InvalidBounds NumberTy :=
  if min.value.isNan || max.value.isNan || decide (max.value ≤ min.value) then
    .error ⟨.reals, min, max⟩
  else .ok (reals min.value max.value)

/-- The range of whole numbers between two written bounds, which are whole. -/
def intInterval (min max : Written) : Except InvalidBounds NumberTy :=
  if min.value.isNan || max.value.isNan || decide (max.value ≤ min.value)
      || !min.value.isWhole || !max.value.isWhole then
    .error ⟨.ints, min, max⟩
  else .ok (ints min.value max.value)

/-- All numbers between two bounds; a single number when they are equal. -/
def range? (min max : Num) : Option NumberTy :=
  if min.isNan || max.isNan || decide (max < min) then none
  else if min = max then some (literal min)
  else some (reals min max)

/-- The whole numbers between two bounds, which are moved inwards to whole ones. -/
def intRange? (min max : Num) : Option NumberTy :=
  if min.isNan || max.isNan then none
  else
    let lo := min.ceil
    let hi := max.floor
    if hi < lo then none
    else if lo = hi then some (literal lo)
    else some (ints lo hi)

/-- Least member, or the least number there is. -/
def min : NumberTy → Num
  | literal v => v
  | ints lo _ => lo
  | reals lo _ => lo
  | all => .negInf

/-- Greatest member, or the greatest number there is apart from `nan`. -/
def max : NumberTy → Num
  | literal v => v
  | ints _ hi => hi
  | reals _ hi => hi
  | all => .posInf

/-- Whether this is the set of `nan` alone. -/
def isNan : NumberTy → Bool
  | literal v => v.isNan
  | _ => false

/-- Whether only whole numbers are meant. -/
def isWhole : NumberTy → Bool
  | literal v => v.isWhole
  | ints _ _ => true
  | _ => false

/-- How many members a finite set has. -/
def count : NumberTy → Option Num
  | literal _ => some 1
  | ints min max => if min.isFinite && max.isFinite then some ((max.sub min).add 1) else none
  | _ => none

/-- The members of a finite set in increasing order. Counting up from the lower bound lists them if
the bounds are below `2 ^ 53`; beyond, steps of one are lost and counting does not end
(`NumberTy.countsUp_iff_members`). -/
def members : NumberTy → Option (List Num)
  | literal v => some [v]
  | ints (.fin lo) (.fin hi) =>
    some ((List.range ((hi - lo).floor.toNat + 1)).map fun (i : Nat) => .fin (lo + i))
  | _ => none

/-- Canonical order: by constructor, then by bounds. -/
def compare : NumberTy → NumberTy → Ordering
  | literal a, literal b => a.compare b
  | literal _, _ => .lt
  | _, literal _ => .gt
  | ints a b, ints c d => (a.compare c).then (b.compare d)
  | ints _ _, _ => .lt
  | _, ints _ _ => .gt
  | reals a b, reals c d => (a.compare c).then (b.compare d)
  | reals _ _, all => .lt
  | all, reals _ _ => .gt
  | all, all => .eq

/-- Its text in type ids. -/
def text : NumberTy → String
  | literal v => v.text
  | ints min max => "int(" ++ min.text ++ ".." ++ max.text ++ ")"
  | reals min max => min.text ++ ".." ++ max.text
  | all => "number"

end NumberTy
end TypeFlow
