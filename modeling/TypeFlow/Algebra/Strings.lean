import TypeFlow.Ty.Order

/-!
# The algebra of string types

The type of every text absorbs literal texts. Nothing smaller than that type is
left when one text is taken out of it, so difference keeps it whole.
-/

namespace TypeFlow.Strings

open StringTy

/-- The members of the union of string types. -/
def unionMembers (items : List StringTy) : List StringTy :=
  if items.contains all then [all] else Sorted.ofList StringTy.compare items

/-- The texts in both sets. -/
def intersect : StringTy → StringTy → Option StringTy
  | all, b => some b
  | a, all => some a
  | literal x, literal y => if x = y then some (literal x) else none

/-- Whether every text of the first set is in the second. -/
def subset : StringTy → StringTy → Bool
  | _, all => true
  | all, literal _ => false
  | literal x, literal y => decide (x = y)

/-- The first set without the second, as far as that can be said. -/
def without (a b : StringTy) : Option StringTy :=
  if subset a b then none else some a

end TypeFlow.Strings
