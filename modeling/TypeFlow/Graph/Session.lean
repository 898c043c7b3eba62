import TypeFlow.Graph.Validity

/-!
# Sessions

A session follows a graph through its changes. Every change makes a new state
from the one before.
-/

namespace TypeFlow

/-- A graph under change. -/
structure Session where
  /-- Definitions and signatures. -/
  catalog : Catalog
  /-- What schemas pass through here. -/
  passthrough : List (SchemaId × Passthrough)
  graph : Snapshot
  /-- Output types reported for nodes. -/
  narrowing : Narrowing
  state : Option State

/-- A change of the graph. -/
inductive Change where
  /-- Another graph. -/
  | load (graph : Snapshot)
  /-- A further node. -/
  | addNode (node : Node)
  /-- No more nodes of this name. -/
  | dropNode (id : NodeId)
  /-- A value for an input, or none. -/
  | setValue (id : NodeId) (input : InputId) (value : Option Literal)
  | addEdge (edge : Edge)
  /-- No more edges into this input. -/
  | dropEdge (target : NodeId) (input : InputId)
  /-- Output types reported for a node. -/
  | narrow (id : NodeId) (outputs : List (OutputId × Ty))

/-- The node with a value set or removed. -/
def Node.setValue (node : Node) (input : InputId) : Option Literal → Node
  | some value => { node with data := setEntry input value node.data }
  | none => { node with data := node.data.filter fun e => e.1 ≠ input }

/-- Changes the first item that a test accepts. -/
def modifyFirst {α : Type} (accepts : α → Bool) (f : α → α) : List α → List α
  | [] => []
  | a :: rest => if accepts a then f a :: rest else a :: modifyFirst accepts f rest

namespace Session

/-- A session with an empty graph. -/
def new (catalog : Catalog) (passthrough : Bool) : Session :=
  ⟨catalog, if passthrough then catalog.passthrough else [], .empty, [], none⟩

/-- The graph and the reported types after a change. -/
def apply (s : Session) : Change → Session
  | .load graph => { s with graph }
  | .addNode node => { s with graph := { s.graph with nodes := s.graph.nodes ++ [node] } }
  | .dropNode id =>
    { s with graph := { s.graph with nodes := s.graph.nodes.filter fun n => n.id ≠ id } }
  | .setValue id input value =>
    let nodes := modifyFirst (fun n => n.id = id) (·.setValue input value) s.graph.nodes
    { s with graph := { s.graph with nodes } }
  | .addEdge edge => { s with graph := { s.graph with edges := s.graph.edges ++ [edge] } }
  | .dropEdge target input =>
    let edges := s.graph.edges.filter fun e => !(e.target = target && e.targetHandle = input)
    { s with graph := { s.graph with edges } }
  | .narrow id outputs => { s with narrowing := setEntry id outputs s.narrowing }

/-- The setting of the next state. -/
def setting (s : Session) : Setting :=
  ⟨s.graph, s.narrowing, s.catalog.signatures, s.passthrough, s.state⟩

/-- Makes a change and the state after it. -/
def change (s : Session) (c : Change) : Except Fatal (Session × State) := do
  let s := s.apply c
  let state ← State.create s.setting
  return ({ s with state := some state }, state)

/-- Whether a node is valid in a state; nothing when its schema is unknown. -/
def check (s : Session) (state : State) (node : Node) : Except Fatal (Option Verdict) :=
  match s.catalog.signature? node.schemaId with
  | none => return none
  | some signature => do return some (← state.checkNode node signature)

end Session
end TypeFlow
