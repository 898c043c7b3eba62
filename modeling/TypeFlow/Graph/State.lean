import TypeFlow.Catalog.Basic
import TypeFlow.Graph.Basic

/-!
# Types of a graph

A state has an instance for every node whose schema is known. An input takes the
type of the output at the other end of its edge, else that of the value entered
for it, else null if it is nullable. A node that cannot be evaluated has its
default instance and an error; so has a node that depends on itself.

Nodes are resolved on demand. A node is marked while it is being resolved and
never entered again, so as many levels as there are nodes are enough.

Instances have an identity, which tells a later state whether anything changed:
an instance that says the same as the one of the state before is that instance.
-/

namespace TypeFlow

/-- Why a node cannot be evaluated. -/
inductive NodeError where
  /-- An expression has no type. -/
  | evaluation (error : EvalError)
  | cycle (node : NodeId)
  /-- The schema is not in the catalog. -/
  | unknownSchema (schema : SchemaId)

/-- What is said about a node that cannot be evaluated. -/
def NodeError.message : NodeError → String
  | evaluation e => e.message
  | cycle node => "node " ++ Text.ticked node ++ " depends on itself"
  | unknownSchema schema =>
    "node schema " ++ Text.ticked schema ++ " is not part of the catalog"

/-- Where an instance was made. -/
inductive Identity where
  /-- The default instance of a signature. -/
  | default (schema : SchemaId)
  /-- Made for a node in a revision of the state. -/
  | made (revision : Nat) (node : NodeId)
  deriving DecidableEq

/-- An instance with its identity. -/
structure Resolved where
  inst : Instance
  /-- Where it was made. -/
  identity : Identity

/-- Output types reported for nodes. -/
abbrev Narrowing := List (NodeId × List (OutputId × Ty))

/-- Instances of the nodes of a graph. -/
structure State where
  revision : Nat
  /-- Instances of nodes. -/
  nodes : List (NodeId × Resolved)
  /-- Nodes that could not be evaluated. -/
  errors : List (NodeId × NodeError)
  graph : Snapshot

/-- What a state is made of. -/
structure Setting where
  graph : Snapshot
  /-- Output types reported for nodes. -/
  narrowing : Narrowing
  /-- Signatures of schemas. -/
  signatures : List (SchemaId × Signature)
  /-- What schemas pass through. -/
  passthrough : List (SchemaId × Passthrough)
  /-- The state before. -/
  previous : Option State

namespace Setting

/-- Number of the new revision. -/
def revision (s : Setting) : Nat := s.previous.elim 0 (·.revision + 1)

/-- The node of a name; the last one counts. -/
def node? (s : Setting) (id : NodeId) : Option Node :=
  s.graph.nodes.reverse.find? fun n => n.id = id

/-- The instance of a node in the state before. -/
def before? (s : Setting) (id : NodeId) : Option Resolved := do
  valueAt? id (← s.previous).nodes

end Setting

/-- How far a node has been resolved. -/
inductive Slot where
  /-- It is being resolved. -/
  | inProgress
  /-- It has an instance. -/
  | resolved (node : Resolved)

/-- Nodes and errors so far. -/
structure Progress where
  slots : List (NodeId × Slot)
  errors : List (NodeId × NodeError)

/-- A computation on the progress so far. -/
abbrev ResolveM (α : Type) := StateT Progress (Except Fatal) α

namespace Resolve

/-- Notes an error of a node. -/
def noteError (id : NodeId) (e : NodeError) : ResolveM Unit :=
  modify fun p => { p with errors := setEntry id e p.errors }

/-- Notes how far a node is. -/
def noteSlot (id : NodeId) (slot : Slot) : ResolveM Unit :=
  modify fun p => { p with slots := setEntry id slot p.slots }

/-- The type for an input, given how to resolve other nodes. -/
def inputType (setting : Setting) (resolve : NodeId → ResolveM (Option Resolved)) (node : Node)
    (signature : Signature) (input : InputId) : ResolveM (Option Ty) := do
  match setting.graph.sourceOf node.id input with
  | some edge =>
    return (← resolve edge.source).bind fun source => source.inst.output? edge.sourceHandle
  | none =>
    match node.value? input with
    | some value => return some ((signature.adapt input value).getD .never)
    | none => return if signature.isNullable input then some Prelude.null else none

/-- The types for inputs that have one. -/
def suppliedTypes (setting : Setting) (resolve : NodeId → ResolveM (Option Resolved)) (node : Node)
    (signature : Signature) : List InputId → ResolveM (List (InputId × Ty))
  | [] => return []
  | input :: rest => do
    let type ← inputType setting resolve node signature input
    let others ← suppliedTypes setting resolve node signature rest
    return (type.map fun t => (input, t)).toList ++ others

/-- The instance that says the same in the state before, or a new one. -/
def reuse (setting : Setting) (id : NodeId) (fresh : Instance) : Resolved :=
  let made : Resolved := ⟨fresh, .made setting.revision id⟩
  match setting.before? id with
  | some old => if old.inst.same fresh then old else made
  | none => made

/-- The default instance of a signature. -/
def fallback (node : Node) (signature : Signature) : Resolved :=
  ⟨signature.default, .default node.schemaId⟩

/-- The instance of a node with the given types for its inputs. -/
def instantiate (setting : Setting) (node : Node) (signature : Signature)
    (supplied : List (InputId × Ty)) : ResolveM Resolved := do
  let narrowing := (valueAt? node.id setting.narrowing).getD []
  let passthrough := (valueAt? node.schemaId setting.passthrough).getD []
  let bound := signature.bind (fun input => valueAt? input supplied) narrowing passthrough
  match ← (bound.attempt : Except Fatal _) with
  | .ok fresh => return reuse setting node.id fresh
  | .error e =>
    noteError node.id (.evaluation e)
    return fallback node signature

/-- Resolves a node that has not been reached before. -/
def enterNode (setting : Setting) (resolve : NodeId → ResolveM (Option Resolved)) (node : Node)
    (signature : Signature) : ResolveM Resolved := do
  noteSlot node.id .inProgress
  let supplied ← suppliedTypes setting resolve node signature (signature.inputs.map (·.1))
  let result ← if (valueAt? node.id (← get).errors).isSome then pure (fallback node signature)
    else instantiate setting node signature supplied
  noteSlot node.id (.resolved result)
  return result

/-- Resolves a node with a given number of levels. -/
def node (setting : Setting) : (levels : Nat) → NodeId → ResolveM (Option Resolved)
  | 0, _ => return none
  | levels + 1, id => do
    match valueAt? id (← get).slots with
    | some (.resolved done) => return some done
    | some .inProgress =>
      noteError id (.cycle id)
      return none
    | none =>
      match setting.node? id with
      | none => return none
      | some n =>
        match valueAt? n.schemaId setting.signatures with
        | none =>
          noteError id (.unknownSchema n.schemaId)
          return none
        | some signature => return some (← enterNode setting (node setting levels) n signature)

/-- Resolves all nodes. -/
def all (setting : Setting) : ResolveM Unit :=
  setting.graph.nodes.forM fun n => do
    let _ ← node setting (setting.graph.nodes.length + 1) n.id

/-- The instances of nodes in the order of the graph, each node once. -/
def collect (slots : List (NodeId × Slot)) :
    List (NodeId × Resolved) → List Node → List (NodeId × Resolved)
  | done, [] => done
  | done, n :: rest =>
    match valueAt? n.id slots with
    | some (.resolved r) => collect slots (setEntry n.id r done) rest
    | _ => collect slots done rest

end Resolve

namespace State

/-- The state of a graph. -/
def create (setting : Setting) : Except Fatal State := do
  let ((), progress) ← (Resolve.all setting).run ⟨[], []⟩
  return ⟨setting.revision, Resolve.collect progress.slots [] setting.graph.nodes,
    progress.errors, setting.graph⟩

/-- The instance of a node with its identity. -/
def resolved? (s : State) (id : NodeId) : Option Resolved := valueAt? id s.nodes

/-- The instance of a node. -/
def instance? (s : State) (id : NodeId) : Option Instance := (s.resolved? id).map (·.inst)

/-- Why a node could not be evaluated. -/
def error? (s : State) (id : NodeId) : Option NodeError := valueAt? id s.errors

end State
end TypeFlow
