import TypeFlow.Ty.Basic
import TypeFlow.Sorted

/-!
# Canonical order of types

Types are ordered by kind (`never`, numbers, strings, structs, unions, `any`),
then inside each kind: structs by number of fields, name, and fields from left
to right; unions item by item. Names and texts are compared character by
character. Canonical unions list their members in this order.
-/

namespace TypeFlow

/-- Literal texts come before the type of every text. -/
def StringTy.compare : StringTy → StringTy → Ordering
  | .literal a, .literal b => Ord.compare a b
  | .literal _, .all => .lt
  | .all, .literal _ => .gt
  | .all, .all => .eq

namespace Ty

/-- Position of a kind of type. -/
def rank : Ty → Nat
  | never => 0
  | number _ => 1
  | string _ => 2
  | struct _ _ => 3
  | union _ => 4
  | any => 5

mutual
/-- The canonical order. -/
def compare : Ty → Ty → Ordering
  | .number a, .number b => a.compare b
  | .string a, .string b => a.compare b
  | .struct n fs, .struct m gs =>
    (Ord.compare fs.length gs.length).then ((Ord.compare n m).then (compareFields fs gs))
  | .union xs, .union ys => compareItems xs ys
  | a, b => Ord.compare a.rank b.rank
/-- Fields from left to right, each by name and then by type. -/
def compareFields : List (String × Ty) → List (String × Ty) → Ordering
  | (n, a) :: fs, (m, b) :: gs =>
    (Ord.compare n m).then ((compare a b).then (compareFields fs gs))
  | _, _ => .eq
/-- Items from left to right; a list comes before its extensions. -/
def compareItems : List Ty → List Ty → Ordering
  | [], [] => .eq
  | [], _ :: _ => .lt
  | _ :: _, [] => .gt
  | a :: xs, b :: ys => (compare a b).then (compareItems xs ys)
end

/-- Types in canonical order, equal ones kept. -/
def sort (types : List Ty) : List Ty :=
  types.mergeSort fun a b => a.compare b != .gt

/-- The type of the given members: sorted, without repetition, and a union only
when at least two are left. -/
def ofMembers (items : List Ty) : Ty :=
  match Sorted.ofList compare items with
  | [] => never
  | [t] => t
  | sorted => union sorted

end Ty

/-- The canonical order of struct types. -/
def Record.compare (a b : Record) : Ordering := a.toTy.compare b.toTy

end TypeFlow
