import TypeFlow.Schema.Basic
import TypeFlow.Entries

/-!
# Graphs

A snapshot of a graph: nodes with the values entered into them, and edges from
outputs to inputs. Of several edges into one input the last one counts.
-/

namespace TypeFlow

/-- Name of a node. -/
abbrev NodeId := String

/-- A node. -/
structure Node where
  id : NodeId
  schemaId : SchemaId
  /-- Values entered for its inputs. -/
  data : List (InputId × Literal)

/-- An edge from an output to an input. -/
structure Edge where
  source : NodeId
  sourceHandle : OutputId
  target : NodeId
  targetHandle : InputId
  deriving DecidableEq

/-- Nodes and edges. -/
structure Snapshot where
  nodes : List Node
  edges : List Edge

/-- The value entered for an input. -/
def Node.value? (node : Node) (input : InputId) : Option Literal := valueAt? input node.data

namespace Snapshot

/-- The graph without nodes. -/
def empty : Snapshot := ⟨[], []⟩

/-- The edge into an input. -/
def sourceOf (graph : Snapshot) (node : NodeId) (input : InputId) : Option Edge :=
  graph.edges.reverse.find? fun e => e.target = node && e.targetHandle = input

/-- Whether an edge leads into an input. -/
def isConnected (graph : Snapshot) (node : NodeId) (input : InputId) : Bool :=
  (graph.sourceOf node input).isSome

end Snapshot
end TypeFlow
