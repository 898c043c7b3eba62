import TypeFlow.Ty.Number
import TypeFlow.Sorted
import TypeFlow.Algebra.Merge

/-!
# The algebra of number types

Union merges neighbours and overlapping ranges and takes whole numbers out of
ranges that already hold them. Intersection and subset are exact. Difference is
exact for whole numbers and otherwise keeps what a closed range cannot leave
out: the end point of a cut, or the hole in the middle of a range.
-/

namespace TypeFlow.Numbers

open NumberTy (literal ints reals all real range? intRange?)

/-- The union of a number and a range, if it is a single set again. -/
def joinLiteral (x : Num) (range : NumberTy) : Option NumberTy :=
  if x.isNan then (if range = real then some all else none)
  else if range.has x then some range
  else
    match range with
    | ints min max =>
      if x.isFinite && x.isWhole then
        if x = min.sub 1 then some (ints x max)
        else if x = max.add 1 then some (ints min x)
        else none
      else none
    | _ => none

/-- The union of two number types, if it is a single set again. -/
def join (a b : NumberTy) : Option NumberTy :=
  if a = b then some a
  else
    match a, b with
    | all, _ => some all
    | _, all => some all
    | literal x, literal y =>
      let lo := x.lesser y
      let hi := x.greater y
      if lo.isFinite && hi.isFinite && lo.isWhole && hi.isWhole && decide (hi.sub lo = 1) then
        some (ints lo hi)
      else none
    | literal x, range => joinLiteral x range
    | range, literal x => joinLiteral x range
    | ints lo hi, ints lo' hi' =>
      if lo ≤ hi'.add 1 ∧ lo' ≤ hi.add 1 then some (ints (Min.min lo lo') (Max.max hi hi'))
      else none
    | ints lo hi, reals lo' hi' =>
      if (reals lo' hi').has lo && (reals lo' hi').has hi then some (reals lo' hi') else none
    | reals lo' hi', ints lo hi =>
      if (reals lo' hi').has lo && (reals lo' hi').has hi then some (reals lo' hi') else none
    | reals lo hi, reals lo' hi' =>
      if lo ≤ hi' ∧ lo' ≤ hi then some (reals (Min.min lo lo') (Max.max hi hi')) else none

/-- The numbers in both sets. -/
def intersect : NumberTy → NumberTy → Option NumberTy
  | all, b => some b
  | a, all => some a
  | literal x, b => if b.has x then some (literal x) else none
  | a, literal x => if a.has x then some (literal x) else none
  | ints lo hi, ints lo' hi' => intRange? (Max.max lo lo') (Min.min hi hi')
  | ints lo hi, reals lo' hi' => intRange? (Max.max lo lo') (Min.min hi hi')
  | reals lo' hi', ints lo hi => intRange? (Max.max lo lo') (Min.min hi hi')
  | reals lo hi, reals lo' hi' => range? (Max.max lo lo') (Min.min hi hi')

/-- Whether every number of the first set is in the second. -/
def subset : NumberTy → NumberTy → Bool
  | _, all => true
  | all, _ => false
  | literal x, b => b.has x
  | ints lo hi, ints lo' hi' => decide (lo' ≤ lo) && decide (hi ≤ hi')
  | ints lo hi, reals lo' hi' => decide (lo' ≤ lo) && decide (hi ≤ hi')
  | reals lo hi, reals lo' hi' => decide (lo' ≤ lo) && decide (hi ≤ hi')
  | _, _ => false

/-- The whole numbers from `min` to `max` that are not between `lo` and `hi`. -/
def intsOutside (min max lo hi : Num) : List NumberTy :=
  let left :=
    if lo = .negInf then none
    else intRange? min (if lo.isWhole then lo.sub 1 else lo.floor)
  let right :=
    if hi = .posInf then none
    else intRange? (if hi.isWhole then hi.add 1 else hi.ceil) max
  left.toList ++ right.toList

/-- Difference of sets that overlap, the first not being the set of all numbers. -/
def cut (a b : NumberTy) : List NumberTy :=
  match a, b with
  | ints lo hi, b => intsOutside lo hi b.min b.max
  | reals lo hi, reals lo' hi' =>
    if lo' ≤ lo then (range? hi' hi).toList
    else if hi ≤ hi' then (range? lo lo').toList
    else [a]
  | a, _ => [a]

/-- Difference of sets, the first not being the set of all numbers. -/
def withoutProper (a b : NumberTy) : List NumberTy :=
  if subset a b then []
  else if (intersect a b).isNone then [a]
  else cut a b

/-- The numbers of the first set that are not in the second, as a list of sets. -/
def without (a b : NumberTy) : List NumberTy :=
  match a with
  | all =>
    if subset a b then []
    else if (intersect a b).isNone then [a]
    else withoutProper real b ++ (if b.isNan then [] else [literal .nan])
  | a => withoutProper a b

/-- Whether this is a closed range of all numbers between its bounds. -/
def isReals : NumberTy → Bool
  | reals _ _ => true
  | _ => false

/-- Whether this is a range of whole numbers. -/
def isInts : NumberTy → Bool
  | ints _ _ => true
  | _ => false

/-- A range of whole numbers without those that other ranges hold already. -/
def trim (ranges : List NumberTy) (n : NumberTy) : List NumberTy :=
  if isInts n then ranges.foldl (fun pieces range => pieces.flatMap (without · range)) [n] else [n]

/-- The members of the union of number types, in no particular order. -/
def unionMembers (items : List NumberTy) : List NumberTy :=
  if items.contains all then [all]
  else
    let merged := mergeAll join (Sorted.ofList NumberTy.compare items)
    merged.flatMap (trim (merged.filter isReals))

/-- The members of the union of number types in canonical order. -/
def union (items : List NumberTy) : List NumberTy :=
  Sorted.ofList NumberTy.compare (unionMembers items)

end TypeFlow.Numbers
