import TypeFlow.Graph.State

/-!
# Layout of a node

Groups decide which inputs of a node are hidden and which optional ones are
required. An input is hidden when it stands in or below a conditional group
whose condition fails, and required when it stands directly in a visible
required group whose condition holds.
-/

namespace TypeFlow

/-- A node with all that conditions can ask about it. -/
structure NodeView where
  node : Node
  signature : Signature
  inst : Instance
  graph : Snapshot

/-- Inputs with a special standing. -/
structure Layout where
  /-- Those not shown. -/
  hidden : List InputId
  /-- Those required although they are optional. -/
  required : List InputId

namespace NodeView

/-- Whether an input has an edge or a value. -/
def isSupplied (v : NodeView) (input : InputId) : Bool :=
  v.graph.isConnected v.node.id input || (v.node.value? input).isSome

/-- Whether the type of an input fits an expression. An expression without a type
fits nothing. -/
def typeHolds (v : NodeView) (input : InputId) (condition : Expr) (ifNotConnected : Bool) :
    Except Fatal Bool := do
  if !v.isSupplied input then return ifNotConnected
  else
    match v.inst.input? input with
    | none => return false
    | some actual =>
      match ← (v.signature.scope.evaluate [] condition).attempt with
      | .error _ => return false
      | .ok expected => (actual.subset expected).mapError .clash

mutual
/-- Whether a condition holds. -/
def holds (v : NodeView) : Condition → Except Fatal Bool
  | .and items => allHold v items
  | .or items => someHolds v items
  | .not condition => do return !(← holds v condition)
  | .oneOf input values => return (v.node.value? input).any fun entered => values.any entered.same
  | .hasType input condition ifNotConnected => typeHolds v input condition ifNotConnected
/-- Whether all conditions hold. -/
def allHold (v : NodeView) : List Condition → Except Fatal Bool
  | [] => return true
  | c :: rest => do if ← holds v c then allHold v rest else return false
/-- Whether some condition holds. -/
def someHolds (v : NodeView) : List Condition → Except Fatal Bool
  | [] => return false
  | c :: rest => do if ← holds v c then return true else someHolds v rest
end

end NodeView

namespace Layout

/-- What a group does: whether its items are visible, and whether they are required. -/
def standing (v : NodeView) (visible : Bool) : GroupKind → Except Fatal (Bool × Bool)
  | .ordinary => return (visible, false)
  | .conditional condition =>
    if visible then do return (← v.holds condition, false) else return (false, false)
  | .required condition =>
    if visible then do return (true, ← v.holds condition) else return (false, false)

/-- Two layouts together. -/
def join (a b : Layout) : Layout := ⟨a.hidden ++ b.hidden, a.required ++ b.required⟩

mutual
/-- The layout of one item. -/
def ofItem (v : NodeView) (visible required : Bool) : LayoutItem → Except Fatal Layout
  | .input id => return ⟨if visible then [] else [id], if required then [id] else []⟩
  | .group kind items => do
    let (visible, required) ← standing v visible kind
    ofItems v visible required items
/-- The layout of items. -/
def ofItems (v : NodeView) (visible required : Bool) : List LayoutItem → Except Fatal Layout
  | [] => return ⟨[], []⟩
  | item :: rest => do
    let first ← ofItem v visible required item
    return first.join (← ofItems v visible required rest)
end

/-- The layout of a node. -/
def ofNode (v : NodeView) : Except Fatal Layout :=
  ofItems v true false (v.signature.schema.groups.map fun g => .group g.kind g.items)

/-- Whether an input needs a value. -/
def needs (l : Layout) (input : InputSchema) : Bool :=
  !l.hidden.contains input.id && (!input.optional || l.required.contains input.id)

end Layout
end TypeFlow
