import TypeFlow.Algebra.Basic
import TypeFlow.Entries

/-!
# Explaining mismatches

Why no value of an assigned type fits a declared one. `Mismatch.simple` has a
sentence for the common cases: no value at all, a number of channels, a text for
a number, a number out of range. `Mismatch.trace` leads down to the first field
that does not fit.
-/

namespace TypeFlow

/-- The way to types that have no value in common. -/
inductive Trace where
  /-- These types. -/
  | general (assigned declared : Ty)
  | field (struct field : String) (inner : Trace)

namespace Mismatch

/-- A number of channels in words. -/
def describeCount (t : Ty) : String :=
  let literal? : Ty → Option String
    | .number (.literal v) => some v.text
    | _ => none
  match t.members.mapM literal?, t with
  | some (v :: values), _ => Text.joined " or " (v :: values)
  | _, .number (.ints min .posInf) => "at least " ++ min.text
  | _, t => t.id

/-- Whether every field but the channels can have a common value. -/
def othersFit : List (String × Ty) → List (String × Ty) → Checked Bool
  | (name, a) :: fields, (_, d) :: declared => do
    if name = "channels" then othersFit fields declared
    else if ← a.disjoint d then return false
    else othersFit fields declared
  | _, _ => return true

/-- What is said about structs of one name that only differ in their channels. -/
def channels (assigned declared : Ty) : Checked (Option String) := do
  match assigned, declared with
  | .struct name fields, .struct name' fields' =>
    if name ≠ name' then return none
    match valueAt? "channels" fields, valueAt? "channels" fields' with
    | some got, some expected =>
      if !(← got.disjoint expected) then return none
      if !(← othersFit fields fields') then return none
      return some ("The " ++ name ++ " has " ++ describeCount got ++ " channel(s) but "
        ++ describeCount expected ++ " channel(s) are required")
    | _, _ => return none
  | _, _ => return none

/-- The one kind of all members, if there is one. -/
def onlyKind? (t : Ty) : Option Kind :=
  match t.members.map Ty.kind? with
  | some kind :: rest => if rest.all fun k => k = some kind then some kind else none
  | _ => none

/-- A sentence for the common cases. -/
def simple (assigned declared : Ty) : Checked (Option String) := do
  if assigned.isNever then return some "No valid value reaches this input"
  if !(← assigned.disjoint declared) then return none
  match ← channels assigned declared with
  | some message => return some message
  | none =>
    match onlyKind? assigned, onlyKind? declared with
    | some .number, some .string => return some "Expected a string but got a number"
    | some .string, some .number => return some "Expected a number but got a string"
    | some .number, some .number =>
      let what := match assigned with
        | .number (.literal v) => "The value " ++ v.text
        | t => "The range " ++ t.id
      return some (what ++ " is outside the allowed range " ++ declared.id)
    | _, _ => return none

/-- The only struct of a name among the members of a type. -/
def onlyStruct? (name : String) (t : Ty) : Option Record :=
  match (t.members.filterMap Ty.record?).filter fun r => r.name = name with
  | [r] => some r
  | _ => none

mutual
/-- The way to the first types that have no value in common; nothing when the
given ones have. -/
def trace : Ty → Ty → Checked (Option Trace)
  | .never, declared => return some (.general .never declared)
  | .struct name fields, declared => do
    if ← (Ty.struct name fields).disjoint declared then
      let found ← match onlyStruct? name declared with
        | some r => traceFields name fields r.fields
        | none => pure none
      return some (found.getD (.general (.struct name fields) declared))
    else return none
  | assigned, declared => do
    if ← assigned.disjoint declared then return some (.general assigned declared) else return none
/-- The way through the first field that does not fit. -/
def traceFields (name : String) :
    List (String × Ty) → List (String × Ty) → Checked (Option Trace)
  | (field, a) :: fields, (_, d) :: declared => do
    if ← a.disjoint d then
      return some (.field name field ((← trace a d).getD (.general a d)))
    else traceFields name fields declared
  | _, _ => return none
end

/-- The kinds of values of a type in words: numbers, strings and names of structs. -/
def groups (t : Ty) : Option (List String) :=
  let group? : Ty → Option String
    | .number _ => some "number"
    | .string _ => some "string"
    | .struct name _ => some name
    | _ => none
  if t.isNever then none else (t.members.mapM group?).map (Sorted.ofList Ord.compare)

/-- What is said about two types that have no value in common. -/
def general (assigned declared : Ty) : String :=
  let whole := Text.ticked assigned.id ++ " is not assignable to " ++ Text.ticked declared.id
  match groups assigned, groups declared with
  | some a, some d =>
    if a.all fun name => !d.contains name then
      Text.joined " | " a ++ " is not assignable to " ++ Text.joined " | " d
    else whole
  | _, _ => whole

/-- The fields on the way, and what is said at its end. -/
def fieldPath : Trace → List String × String
  | .general assigned declared => ([], general assigned declared)
  | .field _ name inner =>
    let (names, message) := fieldPath inner
    (name :: names, message)

/-- What is said about a trace. -/
def traceText : Trace → String
  | .general assigned declared => general assigned declared
  | .field struct name inner =>
    let (names, message) := fieldPath (.field struct name inner)
    Text.joined "." (struct :: names) ++ ": " ++ message

/-- The best explanation there is. -/
def explain (assigned declared : Ty) : Checked (Option String) := do
  match ← simple assigned declared with
  | some message => return some message
  | none => return (← trace assigned declared).map traceText

end Mismatch
end TypeFlow
