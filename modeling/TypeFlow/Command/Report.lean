import TypeFlow.Catalog.Basic
import TypeFlow.Graph.Validity
import TypeFlow.Json.Text

/-!
# Reports about graphs

For every node of a graph: whether it is valid, why not, and the types of its
inputs and outputs. A report is written as lines of text or as JSON.
-/

namespace TypeFlow

/-- What is reported about a node. -/
structure NodeReport where
  node : Node
  /-- Whether it is valid. -/
  verdict : Verdict
  inst : Option Instance

/-- The mark of what is valid and what is not. -/
def Verdict.mark (v : Verdict) : String := if v.isValid then "✔" else "✘"

namespace NodeReport

/-- A line with its end, below the line of a node. -/
def detail (text : String) : String := "    " ++ text ++ "\n"

/-- The lines of inputs or outputs. -/
def typeLines (title : String) (types : List (Nat × Ty)) : String :=
  String.join (types.map fun (id, t) => detail (title ++ " " ++ id.repr ++ ": " ++ t.id))

/-- The lines about a node. -/
def text (r : NodeReport) : String :=
  r.verdict.mark ++ " " ++ r.node.id ++ " (" ++ r.node.schemaId ++ ")\n"
    ++ r.verdict.reason?.elim "" detail
    ++ r.inst.elim "" fun inst =>
      typeLines "in " inst.inputs ++ typeLines "out" inst.outputs

/-- Types by the numbers of inputs or outputs. -/
def encodeTypes (types : List (Nat × Ty)) : Json :=
  .object (types.map fun (id, t) => (id.repr, .string t.id))

/-- The report as JSON. -/
def encode (r : NodeReport) : Json :=
  .object [("node", .string r.node.id), ("schemaId", .string r.node.schemaId),
    ("isValid", .bool r.verdict.isValid), ("reason", r.verdict.reason?.elim .null .string),
    ("inputs", r.inst.elim .null fun inst => encodeTypes inst.inputs),
    ("outputs", r.inst.elim .null fun inst => encodeTypes inst.outputs)]

/-- The report about a node in a state. -/
def ofNode (catalog : Catalog) (state : State) (node : Node) : Except Fatal NodeReport := do
  let verdict ← match catalog.signature? node.schemaId with
    | some signature => state.checkNode node signature
    | none => pure (.invalid ("Unknown node schema " ++ node.schemaId))
  return ⟨node, verdict, state.instance? node.id⟩

end NodeReport
end TypeFlow
