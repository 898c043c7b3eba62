import TypeFlow.Graph.Codec
import TypeFlow.Proofs.Schema.Lossless

/-!
# Graphs as JSON, without loss

A graph is valid when the numbers of inputs and outputs in it have 32 bits, no node has two values
for one input and the numbers among the values are finite doubles. All that is decoded is valid,
and a valid graph is decoded from its own encoding, with the values of each node in their order.
-/

namespace TypeFlow

open Decoder (gives_true lossless_string)

namespace Node

/-- Values are valid and there is one for each input. -/
def Valid (n : Node) : Prop :=
  (∀ entry ∈ n.data, entry.1 < 2 ^ 32 ∧ entry.2.Valid) ∧ (n.data.map (·.1)).Nodup

/-- Nodes are written without loss. -/
theorem lossless : decoder.Lossless encode Valid := by
  refine Fields.Written.lossless (.seq (.seq (.map
    (.required id lossless_string (by simp) fun _ _ => trivial) ?_)
    (.required schemaId lossless_string (by simp) fun _ _ => trivial))
    (.withDefault data Literal.lossless.numbered (by simp) (by simp) fun _ valid => valid))
    (fun _ => by simp) fun _ => rfl
  exact fun _ _ _ _ data valid => valid

end Node

namespace Edge

/-- The numbers of the output and the input have 32 bits. -/
def Valid (e : Edge) : Prop := e.sourceHandle < 2 ^ 32 ∧ e.targetHandle < 2 ^ 32

/-- Edges are written without loss. -/
theorem lossless : decoder.Lossless encode Valid := by
  refine Fields.Written.lossless (.seq (.seq (.seq (.map
    (.required source lossless_string (by simp) fun _ _ => trivial) ?_)
    (.required sourceHandle lossless_id (by simp) fun _ valid => valid.1))
    (.required target lossless_string (by simp) fun _ _ => trivial))
    (.required targetHandle lossless_id (by simp) fun _ valid => valid.2))
    (fun _ => by simp) fun _ => rfl
  exact fun _ _ source smallSource _ _ target smallTarget => ⟨smallSource, smallTarget⟩

end Edge

namespace Snapshot

/-- Nodes and edges are valid. -/
def Valid (g : Snapshot) : Prop := (∀ n ∈ g.nodes, n.Valid) ∧ ∀ e ∈ g.edges, e.Valid

/-- Graphs are written without loss. -/
theorem lossless : decoder.Lossless encode Valid := by
  have absent {α : Type} {P : α → Prop} := List.forall_mem_nil P
  refine Fields.Written.lossless (.seq (.map
    (.withDefault nodes Node.lossless.list absent (by simp) fun _ valid => valid.1) ?_)
    (.withDefault edges Edge.lossless.list absent (by simp) fun _ valid => valid.2))
    (fun _ => by simp) fun _ => rfl
  exact fun nodes validNodes edges validEdges => ⟨validNodes, validEdges⟩

end Snapshot

/-- Schemas and graphs are written as JSON without loss. What is decoded, from a value in memory
or from a text, is decoded again from its own encoding, and the schemas and graphs that are decoded
are the valid ones and no others. -/
theorem formats_lossless :
    (∀ s, NodeSchema.decoder.Accepts s →
      s.encode.Storable ∧ NodeSchema.decoder.ofTree s.encode = .ok s) ∧
    (∀ g, Snapshot.decoder.Accepts g →
      g.encode.Storable ∧ Snapshot.decoder.ofTree g.encode = .ok g) ∧
    (∀ s, NodeSchema.decoder.Accepts s ↔ s.Valid) ∧
    ∀ g, Snapshot.decoder.Accepts g ↔ g.Valid := by
  have schemas := NodeSchema.lossless
  have graphs := Snapshot.lossless
  exact ⟨fun s accepted => schemas.roundTrip (schemas.accepts_iff.mp accepted),
    fun g accepted => graphs.roundTrip (graphs.accepts_iff.mp accepted),
    fun s => schemas.accepts_iff, fun g => graphs.accepts_iff⟩

namespace Snapshot.Sample

/-- A schema with most fields left out: a choice of two values, an output that passes a type through
and a group with a condition around an input and another group. -/
def written : Json :=
  .object [("schemaId", .string "pick"), ("name", .string "Pick"),
    ("inputs", .array [.object [("id", .int 1), ("label", .string "x"),
      ("type", .object [("type", .string "any")]),
      ("kind", .object [("type", .string "dropdown"), ("options", .array [
        .object [("value", .string "a"), ("label", .null)],
        .object [("value", .float (.num (.fin (1 / 2)))),
          ("type", .object [("type", .string "number")])]])])]]),
    ("outputs", .array [.array [.int 2, .string "y", .object [("type", .string "any")], .bool false,
      .object [("auto", .null)]]]),
    ("groups", .array [.object [("items", .array [.int 1, .object [("kind", .string "ordinary")]]),
      ("kind", .string "conditional"),
      ("condition", .object [("condition", .object [("type", .string "enum"), ("input", .int 1),
        ("values", .array [.string "a"])]), ("type", .string "not")])]])]

/-- The schema that is decoded from it. -/
def schema : NodeSchema :=
  { id := "pick", name := "Pick"
    inputs := [{ id := 1, label := "x", type := .any, optional := false, hasHandle := true
                 nullable := false, fusedOutput := none
                 kind := .dropdown [⟨.string "a", none, none⟩,
                   ⟨.number (.num (.fin (1 / 2))), none, some (.number .all)⟩] }]
    outputs := [⟨2, "y", .any, false, some .auto⟩]
    sideEffects := false, kind := .regular
    groups := [⟨.conditional (.not (.oneOf 1 [.string "a"])),
      [.input 1, .group .ordinary []]⟩] }

/-- A node with values for two inputs. -/
def writtenGraph : Json :=
  .object [("nodes", .array [.object [("id", .string "n"), ("schemaId", .string "pick"),
    ("data", .object [("10", .string "a"), ("9", .float (.num (.fin (1 / 2))))])]])]

/-- The graph that is decoded from it. -/
def graph : Snapshot :=
  ⟨[⟨"n", "pick", [(10, .string "a"), (9, .number (.num (.fin (1 / 2))))]⟩], []⟩

end Snapshot.Sample

open Snapshot.Sample

/-- A schema and a graph with defaults left out. -/
theorem formats_lossless_pick :
    written.Storable ∧ NodeSchema.decoder.ofTree written = .ok schema ∧
    NodeSchema.decoder.ofTree schema.encode = .ok schema ∧
    writtenGraph.Storable ∧ Snapshot.decoder.ofTree writtenGraph = .ok graph ∧
    Snapshot.decoder.ofTree graph.encode = .ok graph := by
  have storable : written.Storable := by decide +kernel
  have storableGraph : writtenGraph.Storable := by decide +kernel
  have decoded : NodeSchema.decoder.ofTree written = .ok schema := rfl
  have decodedGraph : Snapshot.decoder.ofTree writtenGraph = .ok graph := rfl
  exact ⟨storable, decoded, (formats_lossless.1 _ (.inl ⟨_, storable, decoded⟩)).2, storableGraph,
    decodedGraph, (formats_lossless.2.1 _ (.inl ⟨_, storableGraph, decodedGraph⟩)).2⟩

end TypeFlow
