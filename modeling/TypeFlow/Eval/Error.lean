import TypeFlow.Scope.Builder

/-!
# Errors of evaluation
-/

namespace TypeFlow

/-- Why an expression has no type. -/
inductive EvalError where
  /-- A name means nothing. -/
  | unknownName (error : UnknownName)
  | recursive (name : String)
  /-- A name means a function. -/
  | notType (name : String)
  /-- A name means no function. -/
  | notFunction (name : String)
  /-- A name takes no field assignments. -/
  | unexpectedFields (name : String)
  | unknownField (struct field : String)
  /-- A field is assigned twice. -/
  | repeatedAssignment (struct field : String)
  /-- A type is no part of the declared type of a field. -/
  | fieldNotSubset (struct field : String) (assigned declared : Ty)
  /-- A field of every value was asked for. -/
  | accessOnAny (field : String)
  /-- A field of values that are no records was asked for. -/
  | accessOnNonStruct (type : Ty) (field : String)
  /-- A function got too few or too many arguments. -/
  | argumentCount (function expected : String) (actual : Nat)
  /-- An argument is no part of the type of its parameter. -/
  | invalidArgument (function parameter : String) (assigned expected : Ty)
  /-- An expression needs a scope. -/
  | notStatic (expression : String)
  /-- A parameter of a function cannot be defined. -/
  | definition (error : DefinitionError)
  /-- A parameter of a function cannot be set. -/
  | assignment (error : AssignmentError)
  deriving DecidableEq

/-- What is said about an expression without a type. -/
def EvalError.message : EvalError → String
  | unknownName e => e.message
  | recursive name => Text.ticked name ++ " is defined in terms of itself"
  | notType name => Text.ticked name ++ " is not a type"
  | notFunction name => Text.ticked name ++ " is not a function"
  | unexpectedFields name => Text.ticked name ++ " does not accept fields"
  | unknownField struct field =>
    "struct " ++ Text.ticked struct ++ " has no field " ++ Text.ticked field
  | repeatedAssignment struct field =>
    "field " ++ Text.ticked field ++ " of " ++ Text.ticked struct ++ " is assigned more than once"
  | fieldNotSubset struct field assigned declared =>
    "field " ++ Text.ticked field ++ " of " ++ Text.ticked struct ++ ": "
      ++ Text.ticked assigned.id ++ " is not assignable to " ++ Text.ticked declared.id
  | accessOnAny field => "cannot access field " ++ Text.ticked field ++ " of `any`"
  | accessOnNonStruct type field =>
    "cannot access field " ++ Text.ticked field ++ " of non-struct type " ++ Text.ticked type.id
  | argumentCount function expected actual =>
    Text.ticked function ++ " expects " ++ expected ++ " argument(s) but got " ++ actual.repr
  | invalidArgument function parameter assigned expected =>
    "argument " ++ Text.ticked parameter ++ " of " ++ Text.ticked function ++ ": "
      ++ Text.ticked assigned.id ++ " is not assignable to " ++ Text.ticked expected.id
  | notStatic expression => Text.ticked expression ++ " cannot be evaluated without a scope"
  | definition e => e.message
  | assignment e => e.message

end TypeFlow
