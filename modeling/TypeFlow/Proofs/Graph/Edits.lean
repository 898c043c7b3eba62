import TypeFlow.Proofs.Graph.Reuse

/-!
# Local edits

An edit of one node leaves the equations of all other nodes as they are. A node that does not depend
on the edited one has the same equations above it in both graphs, and since it depends on no cycle
they determine its instance and its error.
-/

namespace TypeFlow

namespace Setting

/-- The settings differ at most in one node, in what was reported for it and in the edges into
it. Nodes may be listed in another order. -/
structure EditedAt (n : NodeId) (s s' : Setting) : Prop where
  nodes : ∀ node : Node, node.id ≠ n → (node ∈ s'.graph.nodes ↔ node ∈ s.graph.nodes)
  edges : s'.graph.edges.filter (·.target ≠ n) = s.graph.edges.filter (·.target ≠ n)
  narrowing : ∀ id, id ≠ n → valueAt? id s'.narrowing = valueAt? id s.narrowing
  signatures : s'.signatures = s.signatures
  passthrough : s'.passthrough = s.passthrough

variable {n : NodeId} {s s' : Setting}

namespace EditedAt

variable (edited : EditedAt n s s') {node : Node}
include edited

/-- Edits can be taken back. -/
theorem symm : EditedAt n s' s where
  nodes node differ := (edited.nodes node differ).symm
  edges := edited.edges.symm
  narrowing id differ := (edited.narrowing id differ).symm
  signatures := edited.signatures.symm
  passthrough := edited.passthrough.symm

/-- Other nodes keep their signature. -/
theorem known_iff {signature : Signature} (differ : node.id ≠ n) :
    s'.Known node signature ↔ s.Known node signature := by
  unfold Known
  rw [edited.nodes node differ, edited.signatures]

/-- Other nodes stay unknown. -/
theorem unknown_iff (differ : node.id ≠ n) : s'.Unknown node ↔ s.Unknown node := by
  unfold Unknown
  rw [edited.nodes node differ, edited.signatures]

/-- Other nodes keep the edges into them. -/
theorem edgeInto?_eq {id : NodeId} (differ : id ≠ n) (input : InputId) :
    s'.edgeInto? id input = s.edgeInto? id input := by
  have among : ∀ edges : List Edge,
      edges.filter (fun e => e.target = id ∧ e.targetHandle = input) =
        (edges.filter (·.target ≠ n)).filter
          (fun e => e.target = id ∧ e.targetHandle = input) := by
    intro edges
    rw [List.filter_filter]
    apply List.filter_congr
    intro edge _
    by_cases here : edge.target = id
    · simp [here, differ]
    · simp [here]
  unfold edgeInto?
  rw [among, edited.edges, ← among]

/-- Other nodes are fed by the same ones. -/
theorem feeds_iff {source target : NodeId} (differ : target ≠ n) :
    s'.Feeds source target ↔ s.Feeds source target := by
  unfold Feeds
  apply exists_congr
  intro node
  apply exists_congr
  intro signature
  constructor
  · rintro ⟨known, rfl, feeds⟩
    refine ⟨(edited.known_iff differ).mp known, rfl, ?_⟩
    simpa only [edited.edgeInto?_eq differ] using feeds
  · rintro ⟨known, rfl, feeds⟩
    refine ⟨(edited.known_iff differ).mpr known, rfl, ?_⟩
    simpa only [edited.edgeInto?_eq differ] using feeds

/-- A node that depends neither on a cycle nor on the edited node depends on no cycle
afterwards. -/
theorem acc {id : NodeId} (acc : Acc s.Feeds id)
    (apart : ¬ Relation.ReflTransGen s.Feeds n id) : Acc s'.Feeds id := by
  induction acc with
  | intro id above ih =>
    have differ : id ≠ n := fun same => apart (same ▸ .refl)
    refine ⟨id, fun source feeds => ?_⟩
    have feeds := (edited.feeds_iff differ).mp feeds
    exact ih source feeds fun path => apart (path.tail feeds)

/-- Other nodes are bound as before to the same instances. -/
theorem bound_eq (differ : node.id ≠ n) (table : NodeId → Option Resolved)
    (signature : Signature) : s'.bound table node signature = s.bound table node signature := by
  have supply : s'.supply table node signature = s.supply table node signature := by
    funext input
    unfold Setting.supply
    rw [edited.edgeInto?_eq differ]
  unfold Setting.bound Setting.boundTo
  rw [supply, edited.narrowing node.id differ, edited.passthrough]

end EditedAt

/-- What a node has depends on the state before, and on nothing else of the setting. -/
theorem Outcome.of_previous {node : Node} {signature : Signature}
    {result : Run EvalError Instance} {r : Resolved} {e : Option NodeError}
    (before : s'.previous = s.previous) (outcome : s'.Outcome node signature result r e) :
    s.Outcome node signature result r e := by
  have reuse : Resolve.reuse s' = Resolve.reuse s := by
    funext id fresh
    unfold Resolve.reuse revision before?
    rw [before]
  cases outcome with
  | bound fresh =>
    rw [reuse]
    exact .bound fresh
  | failed e => exact .failed e

end Setting

namespace Searched

variable {n : NodeId} {s s' : Setting} {p p' : Progress}

/-- A node that does not depend on the edit keeps what it has. -/
theorem kept (searched : Searched s p) (searched' : Searched s' p') (distinct : s.Distinct)
    (distinct' : s'.Distinct) (edited : s.EditedAt n s') (before : s'.previous = s.previous)
    {id : NodeId} (acc : Acc s.Feeds id) (apart : ¬ Relation.ReflTransGen s.Feeds n id) :
    p'.table id = p.table id ∧ p'.error? id = p.error? id := by
  have acc' := edited.acc acc apart
  induction acc with
  | intro id above ih =>
    have differ : id ≠ n := fun same => apart (same ▸ .refl)
    by_cases here : ∃ node ∈ s.graph.nodes, node.id = id
    · obtain ⟨node, mem, rfl⟩ := here
      cases schema : valueAt? node.schemaId s.signatures with
      | none =>
        have unknown : s.Unknown node := ⟨mem, schema⟩
        have unknown' := (edited.unknown_iff differ).mpr unknown
        obtain ⟨none, noted⟩ :=
          searched.traced.unknown_noted distinct unknown (searched.visited node unknown.1)
        obtain ⟨none', noted'⟩ :=
          searched'.traced.unknown_noted distinct' unknown' (searched'.visited node unknown'.1)
        exact ⟨none'.trans none.symm, noted'.trans noted.symm⟩
      | some signature =>
        have known : s.Known node signature := ⟨mem, schema⟩
        have known' := (edited.known_iff differ).mpr known
        obtain ⟨r, has, outcome⟩ := searched.equation distinct known ⟨_, above⟩
        obtain ⟨r', has', outcome'⟩ := searched'.equation distinct' known' acc'
        have sources : ∀ source, s'.Feeds source node.id → p'.table source = p.table source := by
          intro source feeds'
          have feeds := (edited.feeds_iff differ).mp feeds'
          exact (ih source feeds (fun path => apart (path.tail feeds)) (acc'.inv feeds')).1
        rw [Setting.bound_congr known' sources, edited.bound_eq differ] at outcome'
        obtain ⟨sameInstance, sameError⟩ := (outcome'.of_previous before).unique outcome
        exact ⟨by rw [has, has', sameInstance], sameError⟩
    · have absent : ∀ node ∈ s.graph.nodes, node.id ≠ id :=
        fun node mem same => here ⟨node, mem, same⟩
      have absent' : ∀ node ∈ s'.graph.nodes, node.id ≠ id := by
        intro node mem same
        subst same
        exact absent node ((edited.nodes node differ).mp mem) rfl
      obtain ⟨none, noError⟩ := searched.traced.absent absent
      obtain ⟨none', noError'⟩ := searched'.traced.absent absent'
      exact ⟨none'.trans none.symm, noError'.trans noError.symm⟩

end Searched

namespace State

/-- A local edit has only downstream effects: a node that is not the edited one and that does not
depend on it keeps its error and its instance, whatever the states before are. Where they are the
same, it keeps the identity of its instance as well. -/
theorem create_local_edit {n : NodeId} {s s' : Setting} (edited : s.EditedAt n s')
    (distinct : s.Distinct) (distinct' : s'.Distinct) (acyclic : s.Acyclic) (keyed : s.Keyed)
    (keyed' : s'.Keyed) {state state' : State} (created : create s = .ok state)
    (created' : create s' = .ok state') {id : NodeId}
    (apart : ¬ Relation.ReflTransGen s.Feeds n id) :
    Option.Rel Instance.Alike (state.instance? id) (state'.instance? id) ∧
      state.error? id = state'.error? id ∧
      (s.previous = s'.previous → state.resolved? id = state'.resolved? id) := by
  -- The edited graph is searched with the state before of the first one in between.
  have between : s.EditedAt n (s'.since s.previous) := ⟨edited.nodes, edited.edges,
    edited.narrowing, edited.signatures, edited.passthrough⟩
  rcases create_since (s := s'.since s.previous) keyed s'.previous keyed' with
    ⟨f, -, failed⟩ | ⟨middle, last, createdMiddle, createdLast, alike⟩
  · have both := created'.symm.trans failed
    cases both
  obtain rfl : state' = last := Except.ok.inj (created'.symm.trans createdLast)
  obtain ⟨p, table, errors, searched⟩ := Searched.of_create distinct created
  obtain ⟨p', table', errors', searched'⟩ := Searched.of_create (s := s'.since s.previous)
    distinct' createdMiddle
  obtain ⟨sameTable, sameError⟩ := searched.kept searched' distinct distinct' between rfl
    (Resolve.acc_of_acyclic acyclic id) apart
  have resolved : state.resolved? id = middle.resolved? id := by
    rw [table, table', sameTable]
  refine ⟨?_, ?_, ?_⟩
  · unfold State.instance?
    rw [resolved]
    exact alike.instance? id
  · have error : middle.error? id = state'.error? id := congrArg (valueAt? id) alike.errors
    rw [← error, errors, errors', sameError]
  · intro same
    have unchanged : s'.since s.previous = s' := by
      rw [same]
      rfl
    rw [unchanged] at createdMiddle
    obtain rfl : state' = middle := Except.ok.inj (created'.symm.trans createdMiddle)
    exact resolved

namespace Sample

/-- A text that goes two ways and meets itself again. -/
def fork : Setting where
  graph := ⟨[⟨"end", "join", []⟩, ⟨"left", "echo", []⟩, ⟨"right", "echo", []⟩,
      ⟨"start", "echo", [(0, .string "hi")]⟩],
    [⟨"start", 0, "left", 0⟩, ⟨"start", 0, "right", 0⟩, ⟨"left", 0, "end", 0⟩,
      ⟨"right", 0, "end", 1⟩]⟩
  narrowing := []
  signatures := [("echo", echo), ("join", join)]
  passthrough := [("echo", [(0, 0)])]
  previous := none

/-- The node on the left has another schema, another edge, a value and a reported type, and there
is a state before. -/
def forkEdited : Setting where
  graph := ⟨[⟨"start", "echo", [(0, .string "hi")]⟩, ⟨"left", "join", [(0, .string "ho")]⟩,
      ⟨"right", "echo", []⟩, ⟨"end", "join", []⟩],
    [⟨"start", 0, "right", 0⟩, ⟨"left", 0, "end", 0⟩, ⟨"right", 0, "end", 1⟩,
      ⟨"right", 0, "left", 1⟩]⟩
  narrowing := [("left", [(0, .text "ho")])]
  signatures := fork.signatures
  passthrough := fork.passthrough
  previous := revised.previous

/-- The fork edited at its left. -/
theorem edited_fork : fork.EditedAt "left" forkEdited where
  nodes node differ := by
    have apart : ∀ schema entries, node ≠ ⟨"left", schema, entries⟩ := by
      rintro schema entries rfl
      exact differ rfl
    simp only [fork, forkEdited, List.mem_cons, apart, List.not_mem_nil, false_or, or_false]
    tauto
  edges := by decide
  narrowing id differ := by simp [fork, forkEdited, valueAt?, differ.symm]
  signatures := rfl
  passthrough := rfl

/-- The ids of the fork are distinct. -/
theorem distinct_fork : fork.Distinct ∧ forkEdited.Distinct := by
  unfold Setting.Distinct
  decide

/-- The node on the right comes before the one on the left. -/
def place (id : NodeId) : Nat :=
  if id = "start" then 0 else if id = "right" then 1 else if id = "left" then 2 else 3

/-- The fork has no cycles. -/
theorem acyclic_fork : fork.Acyclic := Setting.acyclic_of_rank place (by decide)

/-- Its right does not depend on its left. -/
theorem apart_fork : ¬ Relation.ReflTransGen fork.Feeds "left" "right" := by
  intro path
  rcases Relation.reflTransGen_iff_eq_or_transGen.mp path with same | path
  · exact absurd same (by decide)
  · exact absurd (Setting.rank_lt_of_transGen place (by decide) path) (by decide)

end Sample

open Sample

/-- A fork edited on one side. -/
theorem create_local_edit_fork : fork.EditedAt "left" forkEdited ∧ fork.Acyclic ∧
    ¬ Relation.ReflTransGen fork.Feeds "left" "right" ∧
    ∃ state state', create fork = .ok state ∧ create forkEdited = .ok state' ∧
      (state.instance? "right").map (·.outputs) = some [(0, .text "hi")] ∧
      (state.instance? "end").map (·.outputs) = some [(0, .text "hi")] ∧
      (state'.instance? "end").map (·.outputs) = some [(0, .union [.text "hi", .text "ho"])] ∧
      Option.Rel Instance.Alike (state.instance? "right") (state'.instance? "right") ∧
      state.error? "right" = state'.error? "right" := by
  have before : outputsOf (create fork) "right" = some [(0, .text "hi")] ∧
      outputsOf (create fork) "end" = some [(0, .text "hi")] := by decide +kernel
  have after : outputsOf (create forkEdited) "end" =
      some [(0, .union [.text "hi", .text "ho"])] := by decide +kernel
  cases created : create fork with
  | error f =>
    rw [created] at before
    cases before.1
  | ok state =>
    cases created' : create forkEdited with
    | error f =>
      rw [created'] at after
      cases after
    | ok state' =>
      rw [created] at before
      rw [created'] at after
      have keyed : fork.Keyed := fun _ none => by cases none
      obtain ⟨instances, errors, -⟩ := create_local_edit edited_fork distinct_fork.1
        distinct_fork.2 acyclic_fork keyed keyed_revised created created' apart_fork
      exact ⟨edited_fork, acyclic_fork, apart_fork, state, state', rfl, rfl, before.1, before.2,
        after, instances, errors⟩

end State

end TypeFlow
