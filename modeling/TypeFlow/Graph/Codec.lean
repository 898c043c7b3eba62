import TypeFlow.Graph.Basic
import TypeFlow.Schema.Codec

/-!
# Graphs as JSON
-/

namespace TypeFlow

namespace Node

/-- The encoding of a node. -/
def encode (n : Node) : Json :=
  .object [("id", .string n.id), ("schemaId", .string n.schemaId),
    ("data", .object (n.data.map fun (input, value) => (input.repr, value.encode)))]

/-- Decodes a node. -/
def decoder : Decoder Node :=
  Fields.decoder "struct Node" <|
    Node.mk <$> .required "id" .string <*> .required "schemaId" .string
      <*> .withDefault "data" [] (.numbered Literal.decoder)

end Node

namespace Edge

/-- The encoding of an edge. -/
def encode (e : Edge) : Json :=
  .object [("source", .string e.source), ("sourceHandle", encodeId e.sourceHandle),
    ("target", .string e.target), ("targetHandle", encodeId e.targetHandle)]

/-- Decodes an edge. -/
def decoder : Decoder Edge :=
  Fields.decoder "struct Edge" <|
    Edge.mk <$> .required "source" .string <*> .required "sourceHandle" .id
      <*> .required "target" .string <*> .required "targetHandle" .id

end Edge

namespace Snapshot

/-- The encoding of a graph. -/
def encode (g : Snapshot) : Json :=
  .object [("nodes", .array (g.nodes.map Node.encode)), ("edges", .array (g.edges.map Edge.encode))]

/-- Decodes a graph. -/
def decoder : Decoder Snapshot :=
  Fields.decoder "struct GraphSnapshot" <|
    Snapshot.mk <$> .withDefault "nodes" [] (.list Node.decoder)
      <*> .withDefault "edges" [] (.list Edge.decoder)

end Snapshot
end TypeFlow
