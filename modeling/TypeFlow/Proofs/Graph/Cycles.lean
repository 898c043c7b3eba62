import Mathlib.Data.List.Chain
import TypeFlow.Proofs.Graph.Resolution

/-!
# Cycles in a graph

A marked node that is met again depends on itself. Conversely a cycle on which nothing was noted
would be a clear way from a node back to itself, and there is none. More levels than there are
nodes make no difference to the search.
-/

namespace TypeFlow

open List

namespace Setting

variable (s : Setting)

/-- Nodes each of which feeds the next one, the last one the first. -/
def Cycle : List NodeId → Prop
  | [] => False
  | first :: rest => List.IsChain s.Feeds (first :: (rest ++ [first]))

variable {s}

/-- A chain from its first node back to it is a way from the node to itself. -/
theorem transGen_of_chain {r : NodeId → NodeId → Prop} {first : NodeId} {rest : List NodeId}
    (chain : List.IsChain r (first :: (rest ++ [first]))) : Relation.TransGen r first first := by
  have ways : List.IsChain (Relation.TransGen r) (first :: (rest ++ [first])) :=
    chain.imp fun _ _ step => .single step
  exact ways.rel_cons (mem_append_right rest (mem_singleton_self first))

/-- A node that depends on itself is on a cycle. -/
theorem exists_cycle_of_loop {id : NodeId} (loop : Relation.TransGen s.Feeds id id) :
    ∃ nodes, s.Cycle nodes ∧ id ∈ nodes := by
  obtain ⟨last, path, feeds⟩ := Relation.TransGen.tail'_iff.mp loop
  obtain ⟨nodes, chain, ends⟩ := exists_isChain_cons_of_relationReflTransGen path
  refine ⟨id :: nodes, ?_, mem_cons_self⟩
  have closed : List.IsChain s.Feeds ((id :: nodes) ++ [id]) := by
    refine chain.append (.singleton id) fun x isLast y isFirst => ?_
    rw [getLast?_eq_some_getLast (cons_ne_nil id nodes), ends] at isLast
    rw [head?_cons] at isFirst
    rw [← Option.mem_some.mp isLast, ← Option.mem_some.mp isFirst]
    exact feeds
  exact closed

end Setting

namespace Resolve

variable {p : Progress} {s : Setting} {stack : List NodeId}

/-- Two computations with the same first step agree if what follows it agrees. -/
theorem Ensures.bind_congr {α β : Type} {x y : ResolveM α} {f g : α → ResolveM β}
    {mid : α → Progress → Prop} {halt : Fatal → Prop} (first : Ensures x p mid halt)
    (same : x p = y p) (next : ∀ a p', mid a p' → f a p' = g a p') :
    (x >>= f) p = (y >>= g) p := by
  have left : (x >>= f) p = (x p >>= fun result => f result.1 result.2) := rfl
  have right : (y >>= g) p = (y p >>= fun result => g result.1 result.2) := rfl
  rw [left, right, ← same]
  unfold Ensures at first
  cases ran : x p with
  | error e => rfl
  | ok result =>
    rw [ran] at first
    exact next result.1 result.2 first

/-- The same first step. -/
theorem bind_congr_left {α β : Type} {x y : ResolveM α} (same : x p = y p) (f : α → ResolveM β) :
    (x >>= f) p = (y >>= f) p := by
  have left : (x >>= f) p = (x p >>= fun result => f result.1 result.2) := rfl
  rw [left, same]
  rfl

/-- Looking at the same progress. -/
theorem get_bind_congr {β : Type} {f g : Progress → ResolveM β} (same : f p p = g p p) :
    (get >>= f) p = (get >>= g) p := same

/-- The same slot noted first. -/
theorem noteSlot_bind_congr {β : Type} {f g : Unit → ResolveM β} {id : NodeId} {slot : Slot}
    (same : f () (p.withSlot id slot) = g () (p.withSlot id slot)) :
    (noteSlot id slot >>= f) p = (noteSlot id slot >>= g) p := same

section

variable {resolve resolve' : NodeId → ResolveM (Option Resolved)} {node : Node}
  {signature : Signature}

/-- Two ways to resolve the sources of a node give the same types if they agree. -/
theorem suppliedTypes_congr (known : s.Known node signature) {inputs : List InputId}
    (declared : inputs ⊆ signature.inputs.map (·.1))
    (sources : ∀ source, s.Feeds source node.id → Visits s stack resolve source)
    (agree : ∀ source, s.Feeds source node.id → ∀ p, Traced s stack p →
      resolve source p = resolve' source p) (traced : Traced s stack p) :
    suppliedTypes s resolve node signature inputs p =
      suppliedTypes s resolve' node signature inputs p := by
  induction inputs generalizing p with
  | nil => rfl
  | cons input rest ih =>
    have feeds (edge : Edge) (found : s.edgeInto? node.id input = some edge) :
        s.Feeds edge.source node.id :=
      ⟨node, signature, known, rfl, input, declared mem_cons_self, edge, found, rfl⟩
    have same : inputType s resolve node signature input p =
        inputType s resolve' node signature input p := by
      unfold inputType
      rw [Setting.sourceOf_eq]
      cases found : s.edgeInto? node.id input with
      | none => rfl
      | some edge =>
        exact Ensures.bind_congr (sources edge.source (feeds edge found) p traced)
          (agree edge.source (feeds edge found) p traced) fun _ _ _ => rfl
    apply Ensures.bind_congr
      (inputType_fetches traced fun edge found => sources edge.source (feeds edge found)) same
    rintro type p' ⟨first, -⟩
    exact bind_congr_left (ih (subset_of_cons_subset declared) first.traced) _

/-- Entering a node depends on its sources only. -/
theorem enterNode_congr (known : s.Known node signature)
    (sources : ∀ source, s.Feeds source node.id → Visits s (node.id :: stack) resolve source)
    (agree : ∀ source, s.Feeds source node.id → ∀ p, Traced s (node.id :: stack) p →
      resolve source p = resolve' source p)
    (traced : Traced s stack p) (free : valueAt? node.id p.slots = none) :
    enterNode s resolve node signature p = enterNode s resolve' node signature p := by
  have types := suppliedTypes_congr known (List.Subset.refl _) sources agree (traced.mark free).1
  unfold enterNode
  apply noteSlot_bind_congr
  exact bind_congr_left types _

end

/-- More levels than there are nodes make no difference. -/
theorem node_congr (distinct : s.Distinct) {levels levels' : Nat} {id : NodeId}
    (path : Path s stack id) (enough : s.graph.nodes.length < levels + stack.length)
    (enough' : s.graph.nodes.length < levels' + stack.length) (traced : Traced s stack p) :
    node s levels id p = node s levels' id p := by
  induction levels generalizing stack id levels' p with
  | zero =>
    have bound := path.length_le
    omega
  | succ levels ih =>
    cases levels' with
    | zero =>
      have bound := path.length_le
      omega
    | succ levels' =>
      unfold node
      apply get_bind_congr
      cases found : valueAt? id p.slots with
      | some slot => cases slot <;> rfl
      | none =>
        cases looked : s.node? id with
        | none => rfl
        | some n =>
          obtain ⟨mem, rfl⟩ := Setting.mem_of_node? looked
          cases schema : valueAt? n.schemaId s.signatures with
          | none =>
            simp only [schema]
          | some signature =>
            have outside := traced.outside_of_free found
            have deeper (source : NodeId) (feeds : s.Feeds source n.id) :=
              path.extend outside (mem_map_of_mem mem) feeds
            simp only [schema]
            refine bind_congr_left (enterNode_congr ⟨mem, schema⟩ ?_ ?_ traced found) _
            · intro source feeds
              apply node_visits distinct (deeper source feeds)
              rw [length_cons]
              omega
            · intro source feeds p' traced'
              apply ih (deeper source feeds) _ _ traced'
              · rw [length_cons]
                omega
              · rw [length_cons]
                omega

/-- Enough levels are as good as more. -/
theorem forM_congr (distinct : s.Distinct) {levels levels' : Nat}
    (enough : s.graph.nodes.length < levels) (enough' : s.graph.nodes.length < levels')
    (nodes : List Node) (traced : Traced s [] p) :
    (nodes.forM fun n => do let _ ← node s levels n.id) p =
      (nodes.forM fun n => do let _ ← node s levels' n.id) p := by
  induction nodes generalizing p with
  | nil => rfl
  | cons first rest ih =>
    have path : Path s [] first.id := .start s first.id
    have head : (do let _ ← node s levels first.id : ResolveM Unit) p =
        (do let _ ← node s levels' first.id : ResolveM Unit) p :=
      bind_congr_left (node_congr distinct path enough enough' traced) _
    have visits : Ensures (do let _ ← node s levels first.id) p
        (fun _ p' => Traced s [] p') (Stopped s) := by
      apply Ensures.bind (node_visits distinct path enough p traced)
      intro result p' visit
      exact visit.traced
    rw [List.forM, List.forM]
    exact Ensures.bind_congr visits head fun _ p' traced' => ih traced'

end Resolve

namespace Traced

variable {s : Setting} {p : Progress} {node : Node} {signature : Signature}

/-- On every cycle some node is noted. -/
theorem cycle_noted (traced : Traced s [] p) (distinct : s.Distinct)
    (visited : ∀ node ∈ s.graph.nodes, Visited s p node.id) {nodes : List NodeId}
    (cycle : s.Cycle nodes) : ∃ id ∈ nodes, p.error? id = some (.cycle id) := by
  cases nodes with
  | nil => exact cycle.elim
  | cons first rest =>
    by_contra none
    push Not at none
    -- Otherwise all steps of the cycle are clear.
    have clear : List.IsChain (Clear s p) (first :: (rest ++ [first])) := by
      refine cycle.imp_of_mem_imp fun source target mem _ feeds => ⟨feeds, none source ?_⟩
      rw [mem_cons, mem_append, mem_singleton] at mem
      rw [mem_cons]
      tauto
    have loop := Setting.transGen_of_chain clear
    obtain ⟨node, signature, known, rfl⟩ := known_of_loop (Setting.transGen_of_chain cycle)
    obtain ⟨r, -, found⟩ := traced.exists_instance distinct known (visited node known.1)
    exact not_transGen_self_of_acc found.clear loop

/-- A node that is noted is on a cycle and has its default instance. -/
theorem noted_cycle (traced : Traced s [] p) {id other : NodeId}
    (noted : p.error? id = some (.cycle other)) :
    other = id ∧ (∃ nodes, s.Cycle nodes ∧ id ∈ nodes) ∧
      ∃ node signature, s.Known node signature ∧ node.id = id ∧
        p.table id = some (Resolve.fallback node signature) := by
  obtain ⟨same, loop, held⟩ := (traced.noted _ _ noted).loop
  subst same
  refine ⟨rfl, Setting.exists_cycle_of_loop loop, ?_⟩
  rcases held with marked | ⟨r, has⟩
  · exact absurd ((traced.marks other).mp marked) not_mem_nil
  · obtain ⟨node, signature, rfl, found⟩ := traced.found other r has
    refine ⟨node, signature, found.known, rfl, ?_⟩
    rw [has, found.fallback noted]

end Traced

namespace State

/-- There is a state for every graph, unless evaluating a node ends for good, and the search needs
no more levels than one above the number of nodes. Nodes have an instance exactly if their schema
is known. Every cycle has a node that is reported to depend on itself, and a node that is reported
so is on a cycle and has its default instance. -/
theorem create_reports_cycles {s : Setting} (distinct : s.Distinct) :
    (∀ levels, s.graph.nodes.length < levels →
      (s.graph.nodes.forM fun n => do let _ ← Resolve.node s levels n.id : ResolveM Unit).run
        ⟨[], []⟩ = (Resolve.all s).run ⟨[], []⟩) ∧
    ((∃ f, State.create s = .error f ∧ s.Halts f) ∨
      ∃ state, State.create s = .ok state ∧
        (∀ node signature, s.Known node signature → ∃ r, state.resolved? node.id = some r) ∧
        (∀ node, s.Unknown node → state.resolved? node.id = none ∧
          state.error? node.id = some (.unknownSchema node.schemaId)) ∧
        (∀ nodes, s.Cycle nodes → ∃ id ∈ nodes, state.error? id = some (.cycle id)) ∧
        ∀ id other, state.error? id = some (.cycle other) →
          other = id ∧ (∃ nodes, s.Cycle nodes ∧ id ∈ nodes) ∧
            ∃ node signature, s.Known node signature ∧ node.id = id ∧
              state.resolved? id = some (Resolve.fallback node signature)) := by
  constructor
  · intro levels enough
    exact Resolve.forM_congr distinct enough (Nat.lt_succ_self _) s.graph.nodes (.start s)
  · rcases Resolve.create_traced distinct with
      halted | ⟨state, p, created, table, errors, traced, visited⟩
    · obtain ⟨f, failed, stopped⟩ := halted
      exact .inl ⟨f, failed, stopped.halts⟩
    · refine .inr ⟨state, created, ?_⟩
      rw [table, errors]
      refine ⟨?_, ?_, ?_, ?_⟩
      · intro node signature known
        obtain ⟨r, has, -⟩ := traced.exists_instance distinct known (visited node known.1)
        exact ⟨r, has⟩
      · intro node unknown
        exact traced.unknown_noted distinct unknown (visited node unknown.1)
      · exact fun nodes cycle => traced.cycle_noted distinct visited cycle
      · exact fun id other noted => traced.noted_cycle noted

namespace Sample

/-- Takes two texts and gives either. -/
def join : Signature where
  schema := ⟨"join", "Join", [⟨0, "first", .string .all, .text, false, true, false, none⟩,
      ⟨1, "second", .string .all, .text, false, true, false, none⟩],
    [⟨0, "out", .union [.named "Input0" [], .named "Input1" []], true, some .none⟩], false,
    .regular, []⟩
  scope := []
  inputs := [(0, anyText), (1, anyText)]
  adapters := [(0, .text), (1, .text)]
  default := ⟨"join", [(0, anyText), (1, anyText)], [(0, anyText)], [], []⟩

/-- Two nodes that feed each other, one that feeds itself and is fed by them, a node of an unknown
schema, and an edge from nowhere that does not count. -/
def rings : Setting where
  graph := ⟨[⟨"end", "join", []⟩, ⟨"a", "echo", []⟩, ⟨"b", "echo", []⟩, ⟨"lost", "none", []⟩],
    [⟨"nowhere", 0, "a", 0⟩, ⟨"b", 0, "a", 0⟩, ⟨"a", 0, "b", 0⟩, ⟨"a", 0, "end", 0⟩,
      ⟨"end", 0, "end", 1⟩]⟩
  narrowing := []
  signatures := [("echo", echo), ("join", join)]
  passthrough := []
  previous := none

/-- The ids of the rings are distinct. -/
theorem distinct_rings : rings.Distinct := by
  unfold Setting.Distinct
  decide

/-- How the nodes of the rings feed each other. -/
theorem feeds_rings : rings.Feeds "b" "a" ∧ rings.Feeds "a" "b" ∧ rings.Feeds "end" "end" :=
  ⟨⟨⟨"a", "echo", []⟩, echo, ⟨by simp [rings], rfl⟩, rfl, 0, by simp [echo], _, rfl, rfl⟩,
    ⟨⟨"b", "echo", []⟩, echo, ⟨by simp [rings], rfl⟩, rfl, 0, by simp [echo], _, rfl, rfl⟩,
    ⟨⟨"end", "join", []⟩, join, ⟨by simp [rings], rfl⟩, rfl, 1, by simp [join], _, rfl, rfl⟩⟩

/-- The two rings. -/
theorem cycle_rings : rings.Cycle ["a", "b"] ∧ rings.Cycle ["end"] := by
  obtain ⟨back, forth, own⟩ := feeds_rings
  exact ⟨.cons_cons forth (.cons_cons back (.singleton "a")), .cons_cons own (.singleton "end")⟩

end Sample

open Sample

/-- Two rings and a lost node. -/
theorem create_reports_cycles_rings : rings.Distinct ∧ rings.Cycle ["a", "b"] ∧
    rings.Cycle ["end"] ∧ ∃ state, State.create rings = .ok state ∧
      state.error? "end" = some (.cycle "end") ∧
      state.error? "lost" = some (.unknownSchema "none") ∧
      ∃ id ∈ ["a", "b"], state.error? id = some (.cycle id) := by
  refine ⟨distinct_rings, cycle_rings.1, cycle_rings.2, ?_⟩
  have ends : (State.create rings).isOk = true := by decide +kernel
  rcases (create_reports_cycles distinct_rings).2 with
    ⟨f, halted, -⟩ | ⟨state, created, -, unknown, cycles, -⟩
  · rw [halted] at ends
    cases ends
  · refine ⟨state, created, ?_, ?_, cycles _ cycle_rings.1⟩
    · obtain ⟨id, mem, noted⟩ := cycles _ cycle_rings.2
      rw [mem_singleton.mp mem] at noted
      exact noted
    · exact (unknown ⟨"lost", "none", []⟩ ⟨by simp [rings], rfl⟩).2

end State

end TypeFlow
