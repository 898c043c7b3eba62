import TypeFlow.Ty.Id

/-!
# The algebra of struct types

Struct types of one name are compared field by field, so they must agree on the
names and order of their fields; two that do not are a `Clash`, which ends the
computation. The operations on field types are those of the level below, given
as an `Algebra`.

Union first splits structs into atoms, which have one member in each field,
then drops atoms inside others and merges those that differ in one field, until
nothing changes.
-/

namespace TypeFlow

/-- Two struct types of one name with different fields. -/
structure Clash where
  /-- The struct type whose operation found the other one. -/
  left : Record
  /-- The other struct type. -/
  right : Record

/-- What is said about a clash. -/
def Clash.message (c : Clash) : String :=
  "struct " ++ Text.ticked c.left.name ++ " appears with two different shapes: "
    ++ Text.ticked c.left.toTy.id ++ " and " ++ Text.ticked c.right.toTy.id

/-- Results of computations that a clash can end. -/
abbrev Checked (α : Type) := Except Clash α

/-- The operations of the algebra on types of limited nesting. -/
structure Algebra where
  /-- The values of any of the types. -/
  union : List Ty → Checked Ty
  /-- The values of all the types. -/
  intersect : List Ty → Checked Ty
  /-- The values of the first type that are not of the second, or a few more. -/
  without : Ty → Ty → Checked Ty
  /-- Whether all values of the first type are of the second. -/
  subset : Ty → Ty → Checked Bool

namespace Algebra

/-- Whether no value is of both types. -/
def disjoint (algebra : Algebra) (a b : Ty) : Checked Bool := do
  return (← algebra.intersect [a, b]).isNever

end Algebra

namespace Structs

/-- Demands the same field names in the same order. -/
def agree (a b : Record) : Checked Unit :=
  if a.sameShape b then .ok () else .error ⟨a, b⟩

/-- The field types of two struct types side by side. -/
def pairs (a b : Record) : List (Ty × Ty) :=
  (a.fields.zip b.fields).map fun (f, g) => (f.2, g.2)

/-- Whether all records of the first type are of the second. -/
def subset (lower : Algebra) (a b : Record) : Checked Bool := do
  if a.name = b.name then
    agree a b
    (pairs a b).allM fun (x, y) => lower.subset x y
  else return false

/-- The records of both types. -/
def intersect (lower : Algebra) (a b : Record) : Checked Ty := do
  if a.name = b.name then
    agree a b
    let types ← (pairs a b).mapM fun (x, y) => lower.intersect [x, y]
    return Record.build a.name ((a.fields.map (·.1)).zip types)
  else return .never

/-- The first fields that are not inside their counterpart, at most `limit` of them. -/
def escaping (lower : Algebra) :
    (limit index : Nat) → List (Ty × Ty) → Checked (List (Nat × Ty × Ty))
  | 0, _, _ => return []
  | _, _, [] => return []
  | limit + 1, index, (x, y) :: rest => do
    if ← lower.subset x y then escaping lower (limit + 1) (index + 1) rest
    else return (index, x, y) :: (← escaping lower limit (index + 1) rest)

/-- The records of the first type that are not of the second. Exact when at most
one field of the first type reaches outside the second; otherwise the first. -/
def without (lower : Algebra) (a b : Record) : Checked Ty := do
  if a.name = b.name then
    agree a b
    if ← (pairs a b).anyM fun (x, y) => lower.disjoint x y then return a.toTy
    match ← escaping lower 2 0 (pairs a b) with
    | [] => return .never
    | [(index, x, y)] => return a.withField index (← lower.without x y)
    | _ => return a.toTy
  else return a.toTy

/-- Struct types with more combinations of members than this are not split. -/
def maxAtoms : Nat := 256

/-- How many atoms a struct type has, in a machine word. -/
def atomCount (r : Record) : Nat :=
  (r.fields.map fun f => f.2.members.length).foldl (fun a b => a * b % UInt64.size) 1

/-- Splits the field at a position into its members. -/
def splitField (partials : List Record) (index : Nat) (members : List Ty) : List Record :=
  partials.flatMap fun r => members.filterMap fun m => (r.withField index m).record?

/-- The struct types with one member in each field that make up a struct type. -/
def atoms (r : Record) : List Record :=
  if maxAtoms < atomCount r then [r]
  else
    r.fields.zipIdx.foldl (fun partials (field, index) =>
      if field.2.members.length < 2 then partials
      else splitField partials index field.2.members) [r]

/-- Whether an item is inside another one; of two equal ones the later is. -/
def subsumed (lower : Algebra) (items : List (Record × Nat)) (a : Record) (i : Nat) :
    Checked Bool :=
  items.anyM fun (b, j) => do
    if i = j then return false
    else if ← subset lower a b then
      let back ← subset lower b a
      return !back || decide (j < i)
    else return false

/-- Drops the items that are inside others. -/
def dropSubsumed (lower : Algebra) (items : List Record) : Checked (List Record) := do
  let indexed := items.zipIdx
  let kept ← indexed.filterM fun (a, i) => do return !(← subsumed lower indexed a i)
  return kept.map (·.1)

/-- Struct types that agree outside one field: what they agree on, the first of
them, and their types of that field. -/
structure Group where
  /-- The struct types with the field left open. -/
  key : Ty
  /-- The first of the struct types. -/
  first : Record
  /-- Their types of the field, in order. -/
  types : List Ty

/-- Adds a struct type to its group, or starts one at the end. -/
def addToGroup (key : Ty) (r : Record) (t : Ty) : List Group → List Group
  | [] => [⟨key, r, [t]⟩]
  | g :: rest =>
    if g.key = key then { g with types := g.types ++ [t] } :: rest
    else g :: addToGroup key r t rest

/-- Merges struct types that agree on every field except the one at `index`. -/
def mergeOnField (lower : Algebra) (items : List Record) (index : Nat) : Checked (List Record) := do
  let short := items.filter fun r => decide (r.fields.length ≤ index)
  let groups := items.foldl (fun groups r =>
    match r.fields[index]? with
    | some field => addToGroup (r.withField index .any) r field.2 groups
    | none => groups) []
  let merged ← groups.mapM fun g => do return g.first.withField index (← lower.union g.types)
  return short ++ merged.filterMap (·.record?)

/-- The largest number of fields. -/
def width (items : List Record) : Nat :=
  items.foldl (fun w r => max w r.fields.length) 0

/-- Drops and merges until the number of items stays the same, at most `steps` times. -/
def settle (lower : Algebra) : (steps : Nat) → List Record → Checked (List Record)
  | 0, items => return items
  | steps + 1, items => do
    let kept ← dropSubsumed lower (Sorted.ofList Record.compare items)
    let merged ← (List.range (width kept)).foldlM (mergeOnField lower) kept
    if merged.length = kept.length then return kept else settle lower steps merged

/-- The members of the union of struct types. -/
def unionMembers (lower : Algebra) (items : List Record) : Checked (List Record) :=
  let split := items.flatMap atoms
  settle lower (split.length + 1) split

end Structs
end TypeFlow
