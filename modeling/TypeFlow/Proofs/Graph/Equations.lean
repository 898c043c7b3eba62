import Mathlib.Data.List.Nodup
import Mathlib.Logic.Relation
import TypeFlow.Graph.State

/-!
# The equations of a graph

The types of a graph are determined by one equation for each node: the instance of the node is
its signature bound to what its inputs take from the instances of other nodes, or the default
instance where binding fails. A table of instances and errors is a solution when all equations
hold. Which instances an equation reads is told by the edges that count.
-/

namespace TypeFlow

open List

/-- Loops with the same steps. -/
theorem foldlM_congr {m : Type → Type} [Monad m] {α β : Type} {f g : β → α → m β} {items : List α}
    (same : ∀ b, ∀ a ∈ items, f b a = g b a) (start : β) :
    items.foldlM f start = items.foldlM g start := by
  induction items generalizing start with
  | nil => rfl
  | cons a rest ih =>
    have tail (b : β) : rest.foldlM f b = rest.foldlM g b :=
      ih (fun b a' mem => same b a' (mem_cons_of_mem a mem)) b
    simp only [foldlM_cons, same start a mem_cons_self, tail]

/-- Binding reads what is supplied for declared inputs, and nothing else. -/
theorem Interface.bind_congr {interface : Interface} {provider provider' : InputId → Option Ty}
    (same : ∀ input ∈ interface.inputs.map (·.1), provider input = provider' input)
    (narrowing : List (OutputId × Ty)) (passthrough : Passthrough) :
    interface.bind provider narrowing passthrough =
      interface.bind provider' narrowing passthrough := by
  have inputs : interface.inputs.foldlM (bindInput provider) ⟨[], [], []⟩ =
      interface.inputs.foldlM (bindInput provider') ⟨[], [], []⟩ := by
    apply foldlM_congr
    intro bound input mem
    simp only [bindInput, same input.1 (mem_map_of_mem mem)]
  simp only [bind, inputs]

/-- The keys that have a value, with it. -/
def entriesOf {α β : Type} (value? : α → Option β) (keys : List α) : List (α × β) :=
  keys.flatMap fun key => ((value? key).map fun value => (key, value)).toList

/-- Looking up a key after one that may have a value. -/
theorem valueAt?_toList_append {α β : Type} [DecidableEq α] (first : α) (value : Option β)
    (entries : List (α × β)) (key : α) :
    valueAt? key ((value.map fun value => (first, value)).toList ++ entries) =
      if key = first then value.or (valueAt? key entries) else valueAt? key entries := by
  cases value with
  | none => simp
  | some value =>
    by_cases same : key = first
    · subst same
      simp [valueAt?]
    · simp [valueAt?, same, Ne.symm same]

/-- Looking up a key among those with a value. -/
theorem valueAt?_entriesOf {α β : Type} [DecidableEq α] (value? : α → Option β) (keys : List α)
    (key : α) :
    valueAt? key (entriesOf value? keys) = if key ∈ keys then value? key else none := by
  induction keys with
  | nil => rfl
  | cons first rest ih =>
    have split : entriesOf value? (first :: rest) =
        ((value? first).map fun value => (first, value)).toList ++ entriesOf value? rest := rfl
    rw [split, valueAt?_toList_append, ih]
    by_cases same : key = first
    · subst same
      -- The key may occur again later, where it has the same value.
      by_cases again : key ∈ rest <;> simp [again]
    · simp [same]

namespace Setting

variable (s : Setting)

/-- A node of the graph with the signature of its schema. -/
def Known (node : Node) (signature : Signature) : Prop :=
  node ∈ s.graph.nodes ∧ valueAt? node.schemaId s.signatures = some signature

/-- A node of the graph whose schema has no signature. -/
def Unknown (node : Node) : Prop :=
  node ∈ s.graph.nodes ∧ valueAt? node.schemaId s.signatures = none

/-- The edge that counts for an input: the last one into it. -/
def edgeInto? (id : NodeId) (input : InputId) : Option Edge :=
  (s.graph.edges.filter fun e => e.target = id ∧ e.targetHandle = input).getLast?

/-- What an input takes, given the instances of nodes: the type of the output at the other end
of its edge, else that of the value entered for it, else null where that is allowed. -/
def supply (table : NodeId → Option Resolved) (node : Node) (signature : Signature)
    (input : InputId) : Option Ty :=
  match s.edgeInto? node.id input with
  | some edge => (table edge.source).bind fun source => source.inst.output? edge.sourceHandle
  | none =>
    match node.value? input with
    | some value => some ((signature.adapt input value).getD .never)
    | none => if signature.isNullable input then some Prelude.null else none

/-- What an input took while the instances of nodes were found: what it takes in the end, or
nothing as the source of its edge was not there yet. -/
def Took (table : NodeId → Option Resolved) (node : Node) (signature : Signature)
    (input : InputId) (type : Option Ty) : Prop :=
  type = s.supply table node signature input ∨
    type = none ∧ ∃ edge, s.edgeInto? node.id input = some edge

/-- The signature of a node bound to given types. -/
def boundTo (provider : InputId → Option Ty) (node : Node) (signature : Signature) :
    Run EvalError Instance :=
  signature.bind provider ((valueAt? node.id s.narrowing).getD [])
    ((valueAt? node.schemaId s.passthrough).getD [])

/-- The signature of a node bound to what its inputs take. -/
def bound (table : NodeId → Option Resolved) (node : Node) (signature : Signature) :
    Run EvalError Instance :=
  s.boundTo (s.supply table node signature) node signature

/-- What a node has once its signature is bound: an instance and maybe an error. -/
inductive Outcome (node : Node) (signature : Signature) :
    Run EvalError Instance → Resolved → Option NodeError → Prop
  /-- The new instance, or the one of the state before that says the same. -/
  | bound (fresh : Instance) :
    Outcome node signature (.ok fresh) (Resolve.reuse s node.id fresh) none
  /-- The default instance. -/
  | failed (e : EvalError) :
    Outcome node signature (.error (.error e)) (Resolve.fallback node signature)
      (some (.evaluation e))

/-- The equation of a node. -/
def Equation (table : NodeId → Option Resolved) (errors : NodeId → Option NodeError) (node : Node)
    (signature : Signature) : Prop :=
  ∃ r, table node.id = some r ∧
    s.Outcome node signature (s.bound table node signature) r (errors node.id)

/-- All equations hold. A node of an unknown schema has an error and no instance, and nothing is
there for what is no node. -/
structure Solution (table : NodeId → Option Resolved) (errors : NodeId → Option NodeError) :
    Prop where
  known : ∀ node signature, s.Known node signature → s.Equation table errors node signature
  unknown : ∀ node, s.Unknown node →
    table node.id = none ∧ errors node.id = some (.unknownSchema node.schemaId)
  absent : ∀ id, (∀ node ∈ s.graph.nodes, node.id ≠ id) → table id = none ∧ errors id = none

/-- The equation of the target reads the instance of the source. -/
def Feeds (source target : NodeId) : Prop :=
  ∃ node signature, s.Known node signature ∧ node.id = target ∧
    ∃ input ∈ signature.inputs.map (·.1), ∃ edge, s.edgeInto? node.id input = some edge ∧
      edge.source = source

/-- The equations hold of all that a node depends on. -/
def SolvedAbove (table : NodeId → Option Resolved) (errors : NodeId → Option NodeError)
    (id : NodeId) : Prop :=
  ∀ node signature, s.Known node signature → Relation.TransGen s.Feeds node.id id →
    s.Equation table errors node signature

/-- No node depends on itself. -/
def Acyclic : Prop := ∀ id, ¬ Relation.TransGen s.Feeds id id

/-- Each node has a name of its own. -/
def Distinct : Prop := (s.graph.nodes.map (·.id)).Nodup

variable {s}

/-- The last edge into an input counts. -/
theorem sourceOf_eq (id : NodeId) (input : InputId) :
    s.graph.sourceOf id input = s.edgeInto? id input := by
  unfold Snapshot.sourceOf edgeInto?
  rw [← head?_filter, filter_reverse, head?_reverse]
  simp only [Bool.decide_and]

/-- The edge that counts is an edge of the graph. -/
theorem mem_of_edgeInto? {id : NodeId} {input : InputId} {edge : Edge}
    (found : s.edgeInto? id input = some edge) : edge ∈ s.graph.edges ∧ edge.target = id := by
  have mem := mem_of_getLast? found
  rw [mem_filter, decide_eq_true_eq] at mem
  exact ⟨mem.1, mem.2.1⟩

/-- With more instances an input takes the same, or what it missed. -/
theorem Took.mono {table table' : NodeId → Option Resolved}
    (grows : ∀ id r, table id = some r → table' id = some r) {node : Node} {signature : Signature}
    {input : InputId} {type : Option Ty} (took : s.Took table node signature input type) :
    s.Took table' node signature input type := by
  rcases took with rfl | missed
  · cases found : s.edgeInto? node.id input with
    | none =>
      left
      simp only [supply, found]
    | some edge =>
      cases has : table edge.source with
      | none =>
        right
        exact ⟨by simp only [supply, found, has, Option.bind_none], edge, found⟩
      | some r =>
        left
        simp only [supply, found, has, grows _ _ has]
  · exact .inr missed

section

variable (rank : NodeId → Nat)
  (grows : ∀ edge ∈ s.graph.edges, rank edge.source < rank edge.target)
include grows

/-- Numbers that grow along the edges grow from what feeds a node to the node. -/
theorem rank_lt_of_feeds {source target : NodeId} (feeds : s.Feeds source target) :
    rank source < rank target := by
  obtain ⟨node, signature, -, rfl, input, -, edge, found, rfl⟩ := feeds
  obtain ⟨mem, target⟩ := mem_of_edgeInto? found
  rw [← target]
  exact grows edge mem

/-- Ranks grow along paths. -/
theorem rank_lt_of_transGen {source target : NodeId}
    (path : Relation.TransGen s.Feeds source target) : rank source < rank target := by
  induction path with
  | single feeds => exact rank_lt_of_feeds rank grows feeds
  | tail _ feeds ih => exact Nat.lt_trans ih (rank_lt_of_feeds rank grows feeds)

/-- Numbers that grow along the edges leave no way back. -/
theorem acyclic_of_rank : s.Acyclic := by
  intro id cycle
  exact Nat.lt_irrefl _ (rank_lt_of_transGen rank grows cycle)

/-- Numbers that grow along the edges leave no endless way up. -/
theorem acc_of_rank (id : NodeId) : Acc s.Feeds id :=
  Subrelation.accessible (rank_lt_of_feeds rank grows)
    (InvImage.accessible rank (Nat.lt_wfRel.wf.apply _))

end

variable {node : Node} {signature : Signature}

/-- A result has one outcome. -/
theorem Outcome.unique {result : Run EvalError Instance} {r r' : Resolved} {e e' : Option NodeError}
    (one : s.Outcome node signature result r e)
    (other : s.Outcome node signature result r' e') : r = r' ∧ e = e' := by
  cases one <;> cases other <;> exact ⟨rfl, rfl⟩

/-- An equation reads only the instances that feed the node. -/
theorem bound_congr {table table' : NodeId → Option Resolved} (known : s.Known node signature)
    (same : ∀ source, s.Feeds source node.id → table source = table' source) :
    s.bound table node signature = s.bound table' node signature := by
  apply Interface.bind_congr
  intro input mem
  unfold supply
  cases found : s.edgeInto? node.id input with
  | none => rfl
  | some edge =>
    have agree := same edge.source ⟨node, signature, known, rfl, input, mem, edge, found, rfl⟩
    simp only [agree]

/-- A node that is found has the id. -/
theorem mem_of_node? {id : NodeId} (found : s.node? id = some node) :
    node ∈ s.graph.nodes ∧ node.id = id := by
  have mem := mem_of_find?_eq_some found
  have same := find?_some found
  exact ⟨mem_reverse.mp mem, of_decide_eq_true same⟩

/-- Where no node is found, none has the id. -/
theorem absent_of_node? {id : NodeId} (missing : s.node? id = none) :
    ∀ node ∈ s.graph.nodes, node.id ≠ id := by
  intro node mem same
  have differs := find?_eq_none.mp missing node (mem_reverse.mpr mem)
  exact differs (decide_eq_true same)

/-- Nodes with one id are one node. -/
theorem Distinct.eq (distinct : s.Distinct) {a b : Node} (memA : a ∈ s.graph.nodes)
    (memB : b ∈ s.graph.nodes) (same : a.id = b.id) : a = b :=
  inj_on_of_nodup_map distinct memA memB same

/-- A node has one signature. -/
theorem Known.signature_eq {signature signature' : Signature} (known : s.Known node signature)
    (known' : s.Known node signature') : signature = signature' :=
  Option.some.inj (known.2.symm.trans known'.2)

/-- Known and unknown nodes differ. -/
theorem Distinct.apart (distinct : s.Distinct) {other : Node} (known : s.Known node signature)
    (unknown : s.Unknown other) : node.id ≠ other.id := by
  intro same
  obtain rfl := distinct.eq known.1 unknown.1 same
  cases known.2.symm.trans unknown.2

/-- The same setting with other nodes. -/
def withNodes (s : Setting) (nodes : List Node) : Setting :=
  { s with graph := { s.graph with nodes := nodes } }

section

variable {nodes : List Node}

/-- The order of nodes changes no signature. -/
theorem known_withNodes_iff (perm : nodes.Perm s.graph.nodes) {node : Node}
    {signature : Signature} : (s.withNodes nodes).Known node signature ↔ s.Known node signature :=
  and_congr_left fun _ => perm.mem_iff

/-- The order of nodes makes none known. -/
theorem unknown_withNodes_iff (perm : nodes.Perm s.graph.nodes) {node : Node} :
    (s.withNodes nodes).Unknown node ↔ s.Unknown node :=
  and_congr_left fun _ => perm.mem_iff

/-- Ids stay distinct in another order. -/
theorem Distinct.withNodes (distinct : s.Distinct) (perm : nodes.Perm s.graph.nodes) :
    (s.withNodes nodes).Distinct :=
  (perm.map _).nodup_iff.mpr distinct

/-- No cycle comes from another order. -/
theorem Acyclic.withNodes (acyclic : s.Acyclic) (perm : nodes.Perm s.graph.nodes) :
    (s.withNodes nodes).Acyclic := by
  have feeds : ∀ source target, (s.withNodes nodes).Feeds source target →
      s.Feeds source target := by
    rintro source target ⟨node, signature, known, rest⟩
    exact ⟨node, signature, (known_withNodes_iff perm).mp known, rest⟩
  intro id cycle
  exact acyclic id (Relation.TransGen.mono feeds _ _ cycle)

/-- A solution is one for every order. -/
theorem Solution.withNodes {table : NodeId → Option Resolved} {errors : NodeId → Option NodeError}
    (solution : s.Solution table errors) (perm : nodes.Perm s.graph.nodes) :
    (s.withNodes nodes).Solution table errors := by
  constructor
  case known =>
    intro node signature known
    obtain ⟨r, has, outcome⟩ := solution.known _ _ ((known_withNodes_iff perm).mp known)
    have bound : (s.withNodes nodes).bound table node signature =
        s.bound table node signature := rfl
    refine ⟨r, has, ?_⟩
    rw [bound]
    generalize s.bound table node signature = result at outcome
    generalize errors node.id = error at outcome
    cases outcome with
    | bound fresh => exact .bound fresh
    | failed e => exact .failed e
  case unknown =>
    intro node unknown
    exact solution.unknown node ((unknown_withNodes_iff perm).mp unknown)
  case absent =>
    intro id absent
    exact solution.absent id fun node mem => absent node (perm.mem_iff.mpr mem)

end

end Setting

end TypeFlow
