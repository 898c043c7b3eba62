import TypeFlow.Run
import TypeFlow.Scope.Basic
import TypeFlow.Scope.Identifier

/-!
# Building scopes

A builder collects the definitions of a new frame inside an existing scope.
Names are identifiers, and no name is defined twice. A parameter can be set to
any part of its bound. An operation that fails leaves the builder as it was.
-/

namespace TypeFlow

/-- Why a definition is refused. -/
inductive DefinitionError where
  /-- The frame has this name already. -/
  | repeatedName (name scope : String)
  /-- The name is no identifier. -/
  | invalidName (name : String)
  /-- A struct has a field twice. -/
  | repeatedField (struct field : String)
  /-- A function has a parameter twice. -/
  | repeatedParameter (function parameter : String)
  deriving DecidableEq

/-- What is said about a refused definition. -/
def DefinitionError.message : DefinitionError → String
  | repeatedName name scope =>
    Text.ticked name ++ " is already defined in scope " ++ Text.ticked scope
  | invalidName name => Text.ticked name ++ " is not a valid identifier"
  | repeatedField struct field =>
    "struct " ++ Text.ticked struct ++ " declares field " ++ Text.ticked field ++ " more than once"
  | repeatedParameter function parameter =>
    "function " ++ Text.ticked function ++ " declares parameter " ++ Text.ticked parameter
      ++ " more than once"

/-- Why a parameter cannot be set. -/
inductive AssignmentError where
  | missing (name : String)
  | notParameter (name : String)
  /-- The value is no part of the bound. -/
  | outOfBounds (name : String) (value bound : Ty)
  deriving DecidableEq

/-- What is said about a parameter that cannot be set. -/
def AssignmentError.message : AssignmentError → String
  | missing name => "cannot assign " ++ Text.ticked name ++ ": no such definition"
  | notParameter name => "cannot assign " ++ Text.ticked name ++ ": it is not a parameter"
  | outOfBounds name value bound =>
    "cannot assign " ++ Text.ticked value.id ++ " to parameter " ++ Text.ticked name
      ++ ": not a subset of " ++ Text.ticked bound.id

/-- The first item that is there twice. -/
def firstRepeated : (seen : List String) → List String → Option String
  | _, [] => none
  | seen, name :: rest => if name ∈ seen then some name else firstRepeated (name :: seen) rest

/-- A frame in the making and the scope around it. -/
structure Builder where
  /-- Name of the new frame. -/
  name : String
  /-- The scope around it. -/
  outer : Scope
  /-- Definitions so far. -/
  entries : List (String × Definition)

namespace Builder

/-- A frame without definitions. -/
def new (name : String) (outer : Scope) : Builder := ⟨name, outer, []⟩

/-- The names inside a definition that have to differ, with the error if they do not. -/
def inner (name : String) : Definition → List String × (String → DefinitionError)
  | .struct fields => (fields.map (·.1), .repeatedField name)
  | .function parameters _ => (parameters.map (·.1), .repeatedParameter name)
  | .builtin parameters _ _ => (parameters.map (·.1), .repeatedParameter name)
  | _ => ([], .invalidName)

/-- Adds a definition. -/
def add (b : Builder) (name : String) (definition : Definition) :
    Except DefinitionError Builder :=
  if isIdentifier name = false then .error (.invalidName name)
  else if (valueAt? name b.entries).isSome then .error (.repeatedName name b.name)
  else
    let (names, error) := inner name definition
    match firstRepeated [] names with
    | some again => .error (error again)
    | none => .ok { b with entries := b.entries ++ [(name, definition)] }

/-- Sets a parameter. -/
def assign (b : Builder) (name : String) (value : Ty) : Run AssignmentError Builder :=
  match valueAt? name b.entries with
  | none => Run.fail (.missing name)
  | some (.parameter bound _) => do
    if ← Run.ofChecked (value.subset bound) then
      return { b with entries := setEntry name (.parameter bound (some value)) b.entries }
    else Run.fail (.outOfBounds name value bound)
  | some _ => Run.fail (.notParameter name)

/-- The scope with the new frame. -/
def build (b : Builder) : Scope := ⟨b.name, b.entries⟩ :: b.outer

end Builder
end TypeFlow
