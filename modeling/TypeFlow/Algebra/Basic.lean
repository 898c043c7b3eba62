import TypeFlow.Algebra.Numbers
import TypeFlow.Algebra.Strings
import TypeFlow.Algebra.Structs

/-!
# The algebra of types

Union, intersection, difference and subset of types. The operations on structs
need those on field types, whose nesting is smaller by one, so the algebra is
built level by level: level `n + 1` handles structs with the operations of
level `n` and does not recurse itself. An operation on given types runs at a
level above their nesting.
-/

namespace TypeFlow

namespace Ty

/-- The type of the numbers in any of the sets. -/
def ofNumbers (items : List NumberTy) : Ty :=
  ofMembers ((Numbers.unionMembers items).map number)

end Ty

namespace Algebra

/-- The values of any of the types. -/
def unionOver (lower : Algebra) (items : List Ty) : Checked Ty := do
  let members := items.flatMap Ty.members
  if members.any Ty.isAny then return .any
  let numbers := Numbers.unionMembers (members.filterMap Ty.number?)
  let strings := Strings.unionMembers (members.filterMap Ty.string?)
  let structs ← Structs.unionMembers lower (members.filterMap Ty.record?)
  return Ty.ofMembers
    (numbers.map .number ++ strings.map .string ++ structs.map Record.toTy)

/-- The values of two types that are not unions. -/
def intersectPair (lower : Algebra) : Ty → Ty → Checked Ty
  | .any, b => return b
  | a, .any => return a
  | .number x, .number y => return (Numbers.intersect x y).elim .never .number
  | .string x, .string y => return (Strings.intersect x y).elim .never .string
  | .struct n fs, .struct m gs => Structs.intersect lower ⟨n, fs⟩ ⟨m, gs⟩
  | _, _ => return .never

/-- Intersects the types that are not unions with `sofar` and collects the items
of the unions; nothing when the result is empty. -/
def gather (lower : Algebra) (sofar : Ty) : List Ty → Checked (Option (Ty × List (List Ty)))
  | [] => return some (sofar, [])
  | .any :: rest => gather lower sofar rest
  | .never :: _ => return none
  | .union items :: rest => do
    return (← gather lower sofar rest).map fun (t, unions) => (t, items :: unions)
  | t :: rest => do
    let both ← intersectPair lower sofar t
    if both.isNever then return none else gather lower both rest

/-- One member of each union in all combinations, intersected from left to right. -/
def distribute (lower : Algebra) : List (List Ty) → List Ty → Checked (List Ty)
  | [], partials => return partials
  | items :: unions, partials => do
    let next ← (partials.flatMap fun p => items.map fun m => (p, m)).mapM fun (p, m) =>
      intersectPair lower p m
    distribute lower unions (next.filter fun t => !t.isNever)

/-- The values of all the types. -/
def intersectOver (lower : Algebra) (items : List Ty) : Checked Ty := do
  match ← gather lower .any items with
  | none => return .never
  | some (t, []) => return t
  | some (t, unions) => unionOver lower (← distribute lower unions [t])

/-- Difference of two types that are numbers, strings or structs. -/
def withoutValue (lower : Algebra) : Ty → Ty → Checked Ty
  | .number x, .number y => return Ty.ofNumbers (Numbers.without x y)
  | .string x, .string y => return (Strings.without x y).elim .never .string
  | .struct n fs, .struct m gs => Structs.without lower ⟨n, fs⟩ ⟨m, gs⟩
  | a, _ => return a

/-- Difference when the second type is not a union. -/
def withoutMember (lower : Algebra) : Ty → Ty → Checked Ty
  | .never, _ => return .never
  | _, .any => return .never
  | a, .never => return a
  | .any, _ => return .any
  | .union items, b => do unionOver lower (← items.mapM fun m => withoutValue lower m b)
  | a, b => withoutValue lower a b

/-- Takes out one type after the other, until nothing is left. -/
def withoutEach (lower : Algebra) (a : Ty) : List Ty → Checked Ty
  | [] => return a
  | b :: rest => do
    let left ← withoutMember lower a b
    if left.isNever then return left else withoutEach lower left rest

/-- The values of the first type that are not of the second. -/
def withoutOver (lower : Algebra) (a b : Ty) : Checked Ty :=
  match a, b with
  | .never, _ => return .never
  | .any, .union _ => return .any
  | a, .union items => withoutEach lower a items
  | a, b => withoutMember lower a b

/-- Subset of two types that are numbers, strings or structs. -/
def subsetValue (lower : Algebra) : Ty → Ty → Checked Bool
  | .number x, .number y => return Numbers.subset x y
  | .string x, .string y => return Strings.subset x y
  | .struct n fs, .struct m gs => Structs.subset lower ⟨n, fs⟩ ⟨m, gs⟩
  | _, _ => return false

/-- Subset when the first type is not a union. A number type may be covered by
several members of the second together. -/
def subsetMember (lower : Algebra) : Ty → Ty → Checked Bool
  | .number x, .union items => do return (← withoutOver lower (.number x) (.union items)).isNever
  | a, .union items => items.anyM fun m => subsetValue lower a m
  | a, b => subsetValue lower a b

/-- Whether all values of the first type are of the second. -/
def subsetOver (lower : Algebra) : Ty → Ty → Checked Bool
  | .never, _ => return true
  | _, .any => return true
  | .any, _ => return false
  | _, .never => return false
  | .union items, b => items.allM fun m => subsetMember lower m b
  | a, b => subsetMember lower a b

/-- The algebra one level above another. -/
def above (lower : Algebra) : Algebra where
  union := unionOver lower
  intersect := intersectOver lower
  without := withoutOver lower
  subset := subsetOver lower

/-- The lowest level, which no type needs. -/
def ground : Algebra where
  union _ := return .never
  intersect _ := return .never
  without _ _ := return .never
  subset _ _ := return true

/-- The algebra for types whose structs are nested less than `n` deep. -/
def level : Nat → Algebra
  | 0 => ground
  | n + 1 => above (level n)

end Algebra

namespace Ty

/-- The values of any of the types, in canonical form. -/
def unionOf (items : List Ty) : Checked Ty :=
  (Algebra.level (nestingItems items + 1)).union items

/-- The values of all the types, in canonical form. -/
def intersectionOf (items : List Ty) : Checked Ty :=
  (Algebra.level (nestingItems items + 1)).intersect items

/-- The values of `a` that are not of `b`, where that can be said; otherwise a
few more values of `a`. -/
def without (a b : Ty) : Checked Ty :=
  (Algebra.level (max a.nesting b.nesting + 1)).without a b

/-- Whether all values of `a` are of `b`. -/
def subset (a b : Ty) : Checked Bool :=
  (Algebra.level (max a.nesting b.nesting + 1)).subset a b

/-- Whether no value is of both types. -/
def disjoint (a b : Ty) : Checked Bool := do
  return (← intersectionOf [a, b]).isNever

end Ty
end TypeFlow
