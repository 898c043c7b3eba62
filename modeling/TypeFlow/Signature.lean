import TypeFlow.Eval.Basic
import TypeFlow.Schema.Basic
import TypeFlow.Scope.Prelude

/-!
# Signatures

A signature is a schema with the types of its inputs evaluated. Binding it to
types for some inputs gives an instance: inputs are narrowed to what was
supplied, and outputs are evaluated with the inputs as parameters. An input that
nothing fits and an output without a value are errors of the instance, not of
binding. An output that passes an input through has that input's type instead.
-/

namespace TypeFlow

/-- How a value entered for an input becomes a type. -/
inductive Adapter where
  | generic
  | number
  | text
  /-- One of several values, each with its type. -/
  | dropdown (options : List (Literal × Ty))

/-- Whether two entered values are the same; the sign of zero does not count, and `nan` differs even
from itself. -/
def Literal.same : Literal → Literal → Bool
  | number a, number b => decide (a.value = b.value) && !a.value.isNan
  | string a, string b => decide (a = b)
  | _, _ => false

/-- The type of a value, if it can be entered. -/
def Adapter.adapt : Adapter → Literal → Option Ty
  | generic, v => some v.type
  | number, .number w => some (.literal w.value)
  | text, .string s => some (.text s)
  | dropdown options, v => (options.find? fun o => o.1.same v).map (·.2)
  | _, _ => none

/-- A type that does not fit its input. -/
structure InputError where
  input : InputId
  /-- The type that was supplied. -/
  assigned : Ty
  /-- The type that was declared. -/
  declared : Ty
  deriving DecidableEq

/-- An output without a value. -/
structure OutputError where
  output : OutputId
  /-- Messages of the errors that it evaluated to. -/
  reason : Option String
  deriving DecidableEq

/-- A signature bound to types. -/
structure Instance where
  schemaId : SchemaId
  inputs : List (InputId × Ty)
  outputs : List (OutputId × Ty)
  /-- Inputs that nothing fits. -/
  inputErrors : List InputError
  /-- Outputs without a value. -/
  outputErrors : List OutputError

/-- Whether two lists of entries have the same value for every key. -/
def sameEntries {α β : Type} [DecidableEq α] [DecidableEq β] (a b : List (α × β)) : Bool :=
  a.length == b.length && a.all fun (key, value) => valueAt? key b = some value

namespace Instance

/-- Type of an input. -/
def input? (i : Instance) (id : InputId) : Option Ty := valueAt? id i.inputs

/-- Type of an output. -/
def output? (i : Instance) (id : OutputId) : Option Ty := valueAt? id i.outputs

/-- Whether an input or an output is in error. -/
def hasErrors (i : Instance) : Bool := !i.inputErrors.isEmpty || !i.outputErrors.isEmpty

/-- Whether two instances say the same; the order of inputs and outputs does not count. -/
def same (a b : Instance) : Bool :=
  decide (a.schemaId = b.schemaId) && sameEntries a.inputs b.inputs
    && sameEntries a.outputs b.outputs && decide (a.inputErrors = b.inputErrors)
    && decide (a.outputErrors = b.outputErrors)

end Instance

/-- Outputs with the inputs whose types they pass through. -/
abbrev Passthrough := List (OutputId × InputId)

/-- The evaluated inputs of a schema, and the scope for its outputs. -/
structure Interface where
  schema : NodeSchema
  /-- The scope of its expressions. -/
  scope : Scope
  /-- Types of inputs; null is one of the values of a nullable input. -/
  inputs : List (InputId × Ty)
  /-- How entered values become types. -/
  adapters : List (InputId × Adapter)

/-- A schema with its evaluated types. -/
structure Signature extends Interface where
  /-- The instance without any supplied types. -/
  default : Instance

/-- Inputs bound so far. -/
structure BoundInputs where
  /-- Their types. -/
  types : List (InputId × Ty)
  /-- Those that nothing fits. -/
  errors : List InputError
  /-- Those that a type was supplied for. -/
  supplied : List InputId

/-- Outputs evaluated so far. -/
structure BoundOutputs where
  /-- Their types. -/
  types : List (OutputId × Ty)
  /-- Those without a value. -/
  errors : List OutputError

/-- Name of the struct that stands for an error. -/
def errorName : String := "Error"

/-- Whether a type is a struct that stands for an error. -/
def isErrorType : Ty → Bool
  | .struct name _ => decide (name = errorName)
  | _ => false

/-- The message of an error, if it is known. -/
def errorMessage? : Ty → Option String
  | .struct _ fields =>
    match valueAt? "message" fields with
    | some (.string (.literal s)) => some s
    | _ => none
  | _ => none

/-- A type without its errors, and their messages. -/
def splitErrors (t : Ty) : Checked (Ty × Option String) :=
  if t.members.any isErrorType then do
    let messages := (t.members.filter isErrorType).filterMap errorMessage?
    let rest ← Ty.unionOf (t.members.filter fun m => !isErrorType m)
    return (rest, if messages.isEmpty then none else some (Text.joined "; " messages))
  else return (t, none)

namespace Interface

/-- Narrows one input to what is supplied for it. -/
def bindInput (provider : InputId → Option Ty) (bound : BoundInputs) (input : InputId × Ty) :
    Checked BoundInputs := do
  let (id, declared) := input
  match provider id with
  | none => return { bound with types := bound.types ++ [(id, declared)] }
  | some assigned =>
    let narrowed ← Ty.intersectionOf [assigned, declared]
    let errors := if narrowed.isNever then [⟨id, assigned, declared⟩] else []
    return ⟨bound.types ++ [(id, narrowed)], bound.errors ++ errors, bound.supplied ++ [id]⟩

/-- Evaluates one output. A narrower type that was reported for it counts, unless
nothing would be left. -/
def bindOutput (scope : Scope) (generics : Generics) (narrowing : List (OutputId × Ty))
    (bound : BoundOutputs) (output : OutputSchema) : Run EvalError BoundOutputs := do
  let raw ← scope.evaluate generics output.type
  let (value, reason) ← Run.ofChecked (splitErrors raw)
  let value ← match valueAt? output.id narrowing with
    | some reported => do
      let narrowed ← Run.ofChecked (Ty.intersectionOf [value, reported])
      pure (if narrowed.isNever then value else narrowed)
    | none => pure value
  let errors := if value.isNever then [⟨output.id, reason⟩] else []
  return ⟨setEntry output.id value bound.types, bound.errors ++ errors⟩

/-- Gives an output the type of the input that it passes through, if a type was
supplied for the input and fits it. -/
def passThrough (inputs : BoundInputs) (outputs : BoundOutputs) (pair : OutputId × InputId) :
    BoundOutputs :=
  let (output, input) := pair
  if input ∈ inputs.supplied then
    match valueAt? input inputs.types with
    | some t =>
      if t.isNever then outputs
      else ⟨setEntry output t outputs.types, outputs.errors.filter fun e => e.output ≠ output⟩
    | none => outputs
  else outputs

/-- Binds a signature to the supplied types; other inputs keep their declared types. -/
def bind (interface : Interface) (provider : InputId → Option Ty)
    (narrowing : List (OutputId × Ty)) (passthrough : Passthrough) : Run EvalError Instance := do
  let inputs ← Run.ofChecked <|
    interface.inputs.foldlM (bindInput provider) ⟨[], [], []⟩
  let generics := inputs.types.map fun (id, t) => (InputId.parameter id, t)
  let outputs ← interface.schema.outputs.foldlM
    (bindOutput interface.scope generics narrowing) ⟨[], []⟩
  let outputs := passthrough.foldl (passThrough inputs) outputs
  return ⟨interface.schema.id, inputs.types, outputs.types, inputs.errors, outputs.errors⟩

/-- The adapter of a kind of input. -/
def adapterOf (scope : Scope) : InputKind → Run EvalError Adapter
  | .generic => return .generic
  | .number => return .number
  | .text => return .text
  | .dropdown options => do
    let options ← options.mapM fun option => do
      let type ← match option.type with
        | some e => scope.evaluate [] e
        | none => pure option.value.type
      return (option.value, type)
    return .dropdown options

/-- Adds an evaluated input. -/
def addInput (scope : Scope) (sofar : List (InputId × Ty) × List (InputId × Adapter))
    (input : InputSchema) : Run EvalError (List (InputId × Ty) × List (InputId × Adapter)) := do
  let declared ← scope.evaluate [] input.type
  let type ← if input.nullable then Run.ofChecked (Ty.unionOf [declared, Prelude.null])
    else pure declared
  let adapter ← adapterOf scope input.kind
  return (setEntry input.id type sofar.1, setEntry input.id adapter sofar.2)

/-- Evaluates the inputs of a schema. -/
def ofSchema (schema : NodeSchema) (scope : Scope) : Run EvalError Interface := do
  let (inputs, adapters) ← schema.inputs.foldlM (addInput scope) ([], [])
  return ⟨schema, scope, inputs, adapters⟩

end Interface

namespace Signature

/-- Evaluates a schema. -/
def ofSchema (schema : NodeSchema) (scope : Scope) : Run EvalError Signature := do
  let interface ← Interface.ofSchema schema scope
  return { interface with default := ← interface.bind (fun _ => none) [] [] }

/-- Declared type of an input. -/
def input? (s : Signature) (id : InputId) : Option Ty := valueAt? id s.inputs

/-- Whether an input is null when it is unset. -/
def isNullable (s : Signature) (id : InputId) : Bool := (s.schema.input? id).any (·.nullable)

/-- The type of a value entered for an input. -/
def adapt (s : Signature) (id : InputId) (value : Literal) : Option Ty := do
  (← valueAt? id s.adapters).adapt value

/-- Whether some value of a type fits an input. -/
def canAssign (s : Signature) (id : InputId) (t : Ty) : Checked Bool :=
  match s.input? id with
  | some declared => do return !(← t.disjoint declared)
  | none => return false

/-- The first required input with a handle that can have a value of a type. -/
def fittingInput? (s : Signature) (t : Ty) : List InputSchema → Checked (Option InputId)
  | [] => return none
  | input :: rest => do
    let fits ← if input.hasHandle && !input.optional then
        match s.input? input.id with
        | some declared => do pure !(← declared.disjoint t)
        | none => pure false
      else pure false
    if fits then return some input.id else fittingInput? s t rest

/-- The input that an output passes through. -/
def passthroughInput? (s : Signature) (output : OutputSchema) : Checked (Option InputId) :=
  match output.passthrough with
  | some (.input id) => return (s.schema.input? id).map fun _ => id
  | some .none => return none
  | _ =>
    match s.default.output? output.id with
    | some t => s.fittingInput? t s.schema.inputs
    | none => return none

/-- What a signature passes through: only ordinary nodes with a single output and
no side effects do that. -/
def passthrough? (s : Signature) : Checked (Option Passthrough) :=
  match s.schema.outputs with
  | [output] =>
    if s.schema.sideEffects || decide (s.schema.kind ≠ .regular) then return none
    else do return (← s.passthroughInput? output).map fun input => [(output.id, input)]
  | _ => return none

end Signature
end TypeFlow
