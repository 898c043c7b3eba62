import TypeFlow.Graph.State
import TypeFlow.Mismatch

/-!
# Testing connections

Whether an edge could be added to a graph: both ends exist, some value of the
output fits the input, and no output of the target loses its last value.
-/

namespace TypeFlow

/-- The outcome of a test. -/
inductive Verdict where
  /-- All is well. -/
  | valid
  /-- Something is not, for a reason. -/
  | invalid (reason : String)
  deriving DecidableEq

namespace Verdict

/-- Whether all is well. -/
def isValid : Verdict → Bool
  | valid => true
  | invalid _ => false

/-- The reason why it is not. -/
def reason? : Verdict → Option String
  | valid => none
  | invalid reason => some reason

end Verdict

namespace State

/-- The first output that has a value now and would have none. -/
def lostOutput? (after : Instance) : List (OutputId × Ty) → Option OutputId
  | [] => none
  | (output, before) :: rest =>
    let empty := (after.output? output).all Ty.isNever
    if !before.isNever && empty then some output else lostOutput? after rest

/-- Whether an edge fits the instances at its ends. -/
def testTypes (edge : Edge) (type declared : Ty) (signature : Signature) (target : Instance) :
    Except Fatal Verdict := do
  let checked {α : Type} (result : Checked α) : Except Fatal α := result.mapError .clash
  if ← checked (signature.canAssign edge.targetHandle type) then
    let provider (input : InputId) : Option Ty :=
      if input = edge.targetHandle then some type else target.input? input
    match ← (signature.bind provider [] []).attempt with
    | .error e => return .invalid e.message
    | .ok after =>
      match lostOutput? after target.outputs with
      | none => return .valid
      | some output =>
        let label := ((signature.schema.output? output).map (·.label)).getD output.repr
        return .invalid ("Connecting would make the output " ++ label ++ " invalid")
  else
    let reason ← checked (Mismatch.explain type declared)
    return .invalid (reason.getD
      (Text.ticked type.id ++ " is not assignable to " ++ Text.ticked declared.id))

/-- Whether an edge could be added. -/
def testConnection (s : State) (signatures : List (SchemaId × Signature)) (edge : Edge) :
    Except Fatal Verdict :=
  match s.instance? edge.source, s.instance? edge.target with
  | none, _ => return .invalid ("Unknown node " ++ edge.source)
  | _, none => return .invalid ("Unknown node " ++ edge.target)
  | some source, some target =>
    match source.output? edge.sourceHandle with
    | none =>
      return .invalid ("Node " ++ edge.source ++ " has no output " ++ edge.sourceHandle.repr)
    | some type =>
      match valueAt? target.schemaId signatures with
      | none => return .invalid ("Unknown node schema " ++ target.schemaId)
      | some signature =>
        match signature.input? edge.targetHandle with
        | none =>
          return .invalid ("Node " ++ edge.target ++ " has no input " ++ edge.targetHandle.repr)
        | some declared => testTypes edge type declared signature target

end State
end TypeFlow
