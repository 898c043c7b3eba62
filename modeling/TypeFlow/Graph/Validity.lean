import TypeFlow.Graph.Connection
import TypeFlow.Graph.Layout

/-!
# Validity of nodes

A node is valid when it could be evaluated, every input that needs a value has
an edge or a value, every visible input fits its declared type, and every output
has a value. The first of these that fails is the reason given.
-/

namespace TypeFlow.State

/-- Labels of the inputs that need a value and have none. -/
def missingInputs (view : NodeView) (layout : Layout) : List String :=
  (view.signature.schema.inputs.filter fun i => layout.needs i && !view.isSupplied i.id).map
    (·.label)

/-- What is said about an input that does not fit. -/
def inputReason (view : NodeView) (e : InputError) : Checked String := do
  let label := ((view.signature.schema.input? e.input).map (·.label)).getD e.input.repr
  let detail := (← Mismatch.explain e.assigned e.declared).elim "" (" " ++ ·)
  match view.graph.sourceOf view.node.id e.input with
  | some edge =>
    return "Input " ++ label ++ " was connected with an incompatible value from node "
      ++ edge.source ++ "." ++ detail
  | none => return "Input " ++ label ++ " has an invalid value." ++ detail

/-- What is said about an output without a value. -/
def outputReason (view : NodeView) (e : OutputError) : String :=
  let label := ((view.signature.schema.output? e.output).map (·.label)).getD e.output.repr
  match e.reason with
  | some reason => "Output " ++ label ++ ": " ++ reason
  | none => "The output " ++ label ++ " has no valid value"

/-- Whether a node with an instance is valid. -/
def checkView (view : NodeView) : Except Fatal Verdict := do
  let layout ← Layout.ofNode view
  match missingInputs view layout with
  | label :: labels =>
    return .invalid ("Missing required input data: " ++ Text.joined ", " (label :: labels))
  | [] =>
    match view.inst.inputErrors.find? fun e => !layout.hidden.contains e.input with
    | some e => return .invalid (← (inputReason view e).mapError .clash)
    | none =>
      match view.inst.outputErrors with
      | e :: _ => return .invalid (outputReason view e)
      | [] => return .valid

/-- Whether a node is valid. -/
def checkNode (s : State) (node : Node) (signature : Signature) : Except Fatal Verdict :=
  match s.error? node.id with
  | some e => return .invalid ("Failed to evaluate the node: " ++ e.message)
  | none =>
    match s.instance? node.id with
    | none => return .invalid "The node has not been evaluated"
    | some inst => checkView ⟨node, signature, inst, s.graph⟩

end TypeFlow.State
