import Mathlib.Data.List.Perm.Subperm
import TypeFlow.Proofs.Entries
import TypeFlow.Proofs.Graph.Tracing

/-!
# Resolving the nodes of a graph

The marked nodes lead from the node that is resolved now to the one that was asked for, each feeding
the next. So a marked node that is met again depends on itself, and no path is longer than the graph
has nodes. In a graph without cycles all nodes are settled. The search then solves the equations or
halts where binding does, and since all solutions agree with it, the order of the nodes does not
count.
-/

namespace TypeFlow

open List

/-- Evaluating a node with some types for its inputs ends for good. -/
def Setting.Halts (s : Setting) (f : Fatal) : Prop :=
  ∃ node signature provider, s.Known node signature ∧
    s.boundTo provider node signature = .error (.fatal f)

namespace Resolve

variable {α β : Type} {p : Progress} {s : Setting} {stack : List NodeId}

/-- A computation gives a result and a progress as told, or ends for good as told. -/
def Ensures (x : ResolveM α) (p : Progress) (post : α → Progress → Prop) (halt : Fatal → Prop) :
    Prop :=
  match x p with
  | .ok (a, p') => post a p'
  | .error f => halt f

/-- One step after the other. -/
theorem Ensures.bind {x : ResolveM α} {f : α → ResolveM β} {mid : α → Progress → Prop}
    {post : β → Progress → Prop} {halt : Fatal → Prop} (first : Ensures x p mid halt)
    (next : ∀ a p', mid a p' → Ensures (f a) p' post halt) : Ensures (x >>= f) p post halt := by
  have step : (x >>= f) p = (x p >>= fun result => f result.1 result.2) := rfl
  unfold Ensures at first ⊢
  rw [step]
  cases ran : x p with
  | error e =>
    rw [ran] at first
    exact first
  | ok result =>
    rw [ran] at first
    exact next result.1 result.2 first

/-- Less may be said of the end. -/
theorem Ensures.mono {x : ResolveM α} {post post' : α → Progress → Prop}
    {halt halt' : Fatal → Prop} (ensures : Ensures x p post halt)
    (result : ∀ a p', post a p' → post' a p') (fatal : ∀ f, halt f → halt' f) :
    Ensures x p post' halt' := by
  unfold Ensures at ensures ⊢
  cases ran : x p with
  | error e =>
    rw [ran] at ensures
    exact fatal e ensures
  | ok found =>
    rw [ran] at ensures
    exact result found.1 found.2 ensures

section

variable {post : β → Progress → Prop} {halt : Fatal → Prop}

/-- Looking at the progress. -/
theorem Ensures.get_bind {f : Progress → ResolveM β} (next : Ensures (f p) p post halt) :
    Ensures (get >>= f) p post halt := next

/-- Noting a slot first. -/
theorem Ensures.noteSlot_bind {f : Unit → ResolveM β} {id : NodeId} {slot : Slot}
    (next : Ensures (f ()) (p.withSlot id slot) post halt) :
    Ensures (noteSlot id slot >>= f) p post halt := next

/-- Noting an error first. -/
theorem Ensures.noteError_bind {f : Unit → ResolveM β} {id : NodeId} {e : NodeError}
    (next : Ensures (f ()) (p.withError id e) post halt) :
    Ensures (noteError id e >>= f) p post halt := next

end

/-- The marked nodes, from the one that asks for a node to the first: all of them depend on it. -/
structure Path (s : Setting) (stack : List NodeId) (id : NodeId) : Prop where
  nodup : stack.Nodup
  nodes : stack ⊆ s.graph.nodes.map (·.id)
  leads : ∀ other ∈ stack, Relation.TransGen s.Feeds id other

namespace Path

variable {id : NodeId}

/-- The path of a node that is asked for. -/
theorem start (s : Setting) (id : NodeId) : Path s [] id :=
  ⟨.nil, nil_subset _, fun other mem => by cases mem⟩

/-- A path is no longer than the graph has nodes. -/
theorem length_le (path : Path s stack id) : stack.length ≤ s.graph.nodes.length := by
  have bound := (path.nodup.subperm path.nodes).length_le
  rwa [length_map] at bound

/-- A path goes on to a source. -/
theorem extend (path : Path s stack id) (outside : id ∉ stack)
    (mem : id ∈ s.graph.nodes.map (·.id)) {source : NodeId} (feeds : s.Feeds source id) :
    Path s (id :: stack) source := by
  constructor
  case nodup => exact nodup_cons.mpr ⟨outside, path.nodup⟩
  case nodes => exact cons_subset.mpr ⟨mem, path.nodes⟩
  case leads =>
    intro other mem
    rcases mem_cons.mp mem with rfl | mem
    · exact .single feeds
    · exact .head feeds (path.leads other mem)

/-- Where no path goes on, nothing is endless. -/
theorem acc (path : Path s stack id) (acyclic : s.Acyclic) {room : Nat}
    (enough : s.graph.nodes.length < room + stack.length) : Acc s.Feeds id := by
  -- Each step up adds a node to the path, and a path has no more nodes than the graph.
  induction room generalizing stack id with
  | zero =>
    have bound := path.length_le
    omega
  | succ room ih =>
    refine ⟨id, fun source feeds => ?_⟩
    have mem : id ∈ s.graph.nodes.map (·.id) := by
      obtain ⟨node, signature, known, rfl, -⟩ := feeds
      exact mem_map_of_mem known.1
    have outside : id ∉ stack := fun mem => acyclic id (path.leads id mem)
    apply ih (path.extend outside mem feeds)
    rw [length_cons]
    omega

end Path

/-- Without cycles no node has endless sources. -/
theorem acc_of_acyclic (acyclic : s.Acyclic) (id : NodeId) : Acc s.Feeds id :=
  (Path.start s id).acc acyclic (Nat.lt_succ_self _)

/-- Binding a node whose sources are visited ends for good. -/
inductive Stopped (s : Setting) (f : Fatal) : Prop
  | bound {stack : List NodeId} {p : Progress} {node : Node} {signature : Signature}
    {provider : InputId → Option Ty} (traced : Traced s stack p) (known : s.Known node signature)
    (visited : ∀ source, s.Feeds source node.id → Visited s p source)
    (grounded : Acc s.Feeds node.id →
      s.boundTo provider node signature = s.bound p.table node signature)
    (fatal : s.boundTo provider node signature = .error (.fatal f)) : Stopped s f

/-- The search halts where binding does. -/
theorem Stopped.halts {f : Fatal} (stopped : Stopped s f) : s.Halts f := by
  obtain ⟨-, known, -, -, fatal⟩ := stopped
  exact ⟨_, _, _, known, fatal⟩

/-- What a visit of a node does. -/
structure Visit (s : Setting) (stack : List NodeId) (p : Progress) (id : NodeId)
    (result : Option Resolved) (p' : Progress) : Prop where
  traced : Traced s stack p'
  advances : Advances p p'
  visited : Visited s p' id
  result : result = p'.table id

/-- A way to resolve other nodes visits a node. -/
def Visits (s : Setting) (stack : List NodeId) (resolve : NodeId → ResolveM (Option Resolved))
    (id : NodeId) : Prop :=
  ∀ p, Traced s stack p → Ensures (resolve id) p (Visit s stack p id) (Stopped s)

section

variable {resolve : NodeId → ResolveM (Option Resolved)} {node : Node} {signature : Signature}

/-- The sources of some inputs are visited. -/
structure Fetched (s : Setting) (stack : List NodeId) (p : Progress) (node : Node)
    (inputs : List InputId) (p' : Progress) : Prop where
  traced : Traced s stack p'
  advances : Advances p p'
  visited : ∀ input ∈ inputs, ∀ edge, s.edgeInto? node.id input = some edge →
    Visited s p' edge.source

/-- An input takes what it is supplied with. -/
theorem inputType_fetches (traced : Traced s stack p) {input : InputId}
    (sources : ∀ edge, s.edgeInto? node.id input = some edge →
      Visits s stack resolve edge.source) :
    Ensures (inputType s resolve node signature input) p
      (fun type p' => Fetched s stack p node [input] p' ∧
        type = s.supply p'.table node signature input) (Stopped s) := by
  unfold inputType Setting.supply
  rw [Setting.sourceOf_eq]
  cases found : s.edgeInto? node.id input with
  | some edge =>
    apply Ensures.bind (sources edge found p traced)
    intro source p' visit
    refine ⟨⟨visit.traced, visit.advances, ?_⟩, ?_⟩
    · intro other mem edge' found'
      rw [mem_singleton.mp mem, found] at found'
      rw [← Option.some.inj found']
      exact visit.visited
    · rw [visit.result]
  | none =>
    have fetched : Fetched s stack p node [input] p := by
      refine ⟨traced, .refl p, fun other mem edge found' => ?_⟩
      rw [mem_singleton.mp mem, found] at found'
      cases found'
    cases node.value? input with
    | some value => exact ⟨fetched, rfl⟩
    | none => exact ⟨fetched, rfl⟩

/-- What feeds a node feeds one of its declared inputs. -/
theorem Fetched.fed {p' : Progress}
    (fetched : Fetched s stack p node (signature.inputs.map (·.1)) p') (distinct : s.Distinct)
    (known : s.Known node signature) : ∀ source, s.Feeds source node.id → Visited s p' source := by
  rintro source ⟨other, signature', known', same, input, mem, edge, found, rfl⟩
  have eq := distinct.eq known'.1 known.1 same
  subst eq
  rw [known'.signature_eq known] at mem
  exact fetched.visited input mem edge found

/-- Without cycles what an input takes was settled when its source was visited. -/
theorem Fetched.supply_eq {p' p'' : Progress} {input : InputId}
    (fetched : Fetched s stack p node [input] p') (later : Traced s stack p'')
    (grows : Grows p' p'') (distinct : s.Distinct)
    (sources : ∀ edge, s.edgeInto? node.id input = some edge → Acc s.Feeds edge.source) :
    s.supply p''.table node signature input = s.supply p'.table node signature input := by
  unfold Setting.supply
  cases found : s.edgeInto? node.id input with
  | none => rfl
  | some edge =>
    have visited := fetched.visited input (mem_singleton_self input) edge found
    have settled := fetched.traced.settled_of_visited (sources edge found) visited
    simp only [fetched.traced.table_eq distinct later grows settled]

/-- An input that is listed again may take later what it missed at first. -/
theorem took_or {table : NodeId → Option Resolved} {input : InputId} {first later : Option Ty}
    {again : Prop} (here : s.Took table node signature input first)
    (took : again → s.Took table node signature input later) (none : ¬ again → later = none) :
    s.Took table node signature input (first.or later) := by
  cases first with
  | some t => exact here
  | none =>
    rw [Option.none_or]
    by_cases listed : again
    · exact took listed
    · rw [none listed]
      exact here

/-- The inputs take what they are supplied with. -/
theorem suppliedTypes_fetches (distinct : s.Distinct) (known : s.Known node signature)
    {inputs : List InputId} (declared : inputs ⊆ signature.inputs.map (·.1))
    (sources : ∀ source, s.Feeds source node.id → Visits s stack resolve source)
    (traced : Traced s stack p) :
    Ensures (suppliedTypes s resolve node signature inputs) p
      (fun types p' => Fetched s stack p node inputs p' ∧
        (∀ input, input ∉ inputs → valueAt? input types = none) ∧
        (∀ input ∈ inputs, s.Took p'.table node signature input (valueAt? input types)) ∧
        (Acc s.Feeds node.id →
          types = entriesOf (s.supply p'.table node signature) inputs)) (Stopped s) := by
  induction inputs generalizing p with
  | nil =>
    exact ⟨⟨traced, .refl p, fun input mem => nomatch mem⟩, fun _ _ => rfl,
      (fun input mem => nomatch mem), fun _ => rfl⟩
  | cons input rest ih =>
    have feeds (edge : Edge) (found : s.edgeInto? node.id input = some edge) :
        s.Feeds edge.source node.id :=
      ⟨node, signature, known, rfl, input, declared mem_cons_self, edge, found, rfl⟩
    apply Ensures.bind
      (inputType_fetches traced fun edge found => sources edge.source (feeds edge found))
    rintro type p' ⟨first, rfl⟩
    apply Ensures.bind (ih (subset_of_cons_subset declared) first.traced)
    rintro others p'' ⟨later, none, took, types⟩
    refine ⟨⟨later.traced, first.advances.trans later.advances, ?_⟩, ?_, ?_, fun acc => ?_⟩
    · intro other mem edge found
      rcases mem_cons.mp mem with rfl | mem
      · have visited := first.visited other (mem_singleton_self other) edge found
        exact visited.mono later.advances.toGrows
      · exact later.visited other mem edge found
    · intro other absent
      rw [mem_cons, not_or] at absent
      rw [valueAt?_toList_append, if_neg absent.1, none other absent.2]
    · intro other mem
      rw [valueAt?_toList_append]
      split
      · next same =>
        subst same
        have here : s.Took p''.table node signature other
            (s.supply p'.table node signature other) :=
          Setting.Took.mono later.advances.table (.inl rfl)
        exact took_or here (took other) (none other)
      · next differ => exact took other ((mem_cons.mp mem).resolve_left differ)
    · have same : s.supply p''.table node signature input =
          s.supply p'.table node signature input :=
        first.supply_eq later.traced later.advances.toGrows distinct fun edge found =>
          acc.inv (feeds edge found)
      rw [types acc, ← same]
      rfl

/-- An instance is the outcome of binding. -/
theorem instantiate_outcome (signature : Signature) (types : List (InputId × Ty))
    (clear : p.error? node.id = none) :
    Ensures (instantiate s node signature types) p
      (fun r p' => p'.slots = p.slots ∧ ∃ e, p'.error? = Function.update p.error? node.id e ∧
        s.Outcome node signature (s.boundTo (fun input => valueAt? input types) node signature) r e)
      (fun f => s.boundTo (fun input => valueAt? input types) node signature =
        .error (.fatal f)) := by
  have bound : signature.bind (fun input => valueAt? input types)
      ((valueAt? node.id s.narrowing).getD []) ((valueAt? node.schemaId s.passthrough).getD []) =
      s.boundTo (fun input => valueAt? input types) node signature := rfl
  unfold instantiate
  simp only [bound]
  cases s.boundTo (fun input => valueAt? input types) node signature with
  | ok fresh =>
    refine ⟨rfl, none, ?_, .bound fresh⟩
    rw [← clear, Function.update_eq_self]
  | error halt =>
    cases halt with
    | error e => exact ⟨rfl, some (.evaluation e), Progress.error?_withError _, .failed e⟩
    | fatal f => exact rfl

/-- Entering a node settles it. -/
theorem enterNode_visits (distinct : s.Distinct) (known : s.Known node signature)
    (outside : node.id ∉ stack)
    (sources : ∀ source, s.Feeds source node.id → Visits s (node.id :: stack) resolve source)
    (traced : Traced s stack p) (free : valueAt? node.id p.slots = none) :
    Ensures (enterNode s resolve node signature) p
      (fun r p' => Traced s stack p' ∧ Advances p p' ∧ p'.table node.id = some r) (Stopped s) := by
  obtain ⟨marked, advancesMark⟩ := traced.mark free
  unfold enterNode
  apply Ensures.noteSlot_bind
  apply Ensures.bind
    (suppliedTypes_fetches distinct known (List.Subset.refl _) sources marked)
  rintro types p' ⟨fetched, -, took, grounded⟩
  have fed := fetched.fed distinct known
  have unresolved : p'.table node.id = none :=
    ((fetched.traced.marks node.id).mpr mem_cons_self).table_eq_none
  -- Whatever way the node is finished, the last step is the same.
  have last {r : Resolved} {e : Option NodeError} {p'' : Progress}
      (finish : Finish s p' node signature r e) (slots : p''.slots = p'.slots)
      (errors : p''.error? = Function.update p'.error? node.id e) :
      Ensures (do noteSlot node.id (.resolved r); return r) p''
        (fun r p' => Traced s stack p' ∧ Advances p p' ∧ p'.table node.id = some r)
        (Stopped s) := by
    apply Ensures.noteSlot_bind
    have slots' : (p''.withSlot node.id (.resolved r)).slots =
        (p'.withSlot node.id (.resolved r)).slots := by
      unfold Progress.withSlot
      rw [slots]
    obtain ⟨traced', advances⟩ :=
      fetched.traced.finish distinct known outside fed finish slots' errors
    refine ⟨traced', (advancesMark.trans fetched.advances).trans advances, ?_⟩
    rw [Progress.table_withSlot_resolved, Function.update_self]
  apply Ensures.get_bind
  have noted : (valueAt? node.id p'.errors).isSome = (p'.error? node.id).isSome := rfl
  rw [noted]
  rcases fetched.traced.error?_cases distinct known unresolved with clear | cycle
  · rw [clear, Option.isSome_none, if_neg Bool.false_ne_true]
    have grounded (acc : Acc s.Feeds node.id) :
        s.boundTo (fun input => valueAt? input types) node signature =
          s.bound p'.table node signature := by
      rw [grounded acc]
      apply Interface.bind_congr
      intro input mem
      rw [valueAt?_entriesOf, if_pos mem]
    apply Ensures.bind ((instantiate_outcome signature types clear).mono (fun r p'' done => done)
      fun f fatal => .bound fetched.traced known fed grounded fatal)
    rintro r p'' ⟨slots, e, errors, outcome⟩
    exact last (.bound clear outcome grounded rfl took) slots errors
  · rw [cycle, Option.isSome_some, if_pos rfl]
    refine last (.cycle cycle) rfl ?_
    rw [← cycle, Function.update_eq_self]

end

/-- Asking for a node settles it. -/
theorem node_visits (distinct : s.Distinct) {levels : Nat} {id : NodeId} (path : Path s stack id)
    (enough : s.graph.nodes.length < levels + stack.length) :
    Visits s stack (node s levels) id := by
  -- Each level adds a node to the path, and a path has no more nodes than the graph.
  induction levels generalizing stack id with
  | zero =>
    have bound := path.length_le
    omega
  | succ levels ih =>
    intro p traced
    unfold node
    apply Ensures.get_bind
    cases found : valueAt? id p.slots with
    | some slot =>
      cases slot with
      | resolved r =>
        have has : p.table id = some r := Progress.table_eq_some_iff.mpr found
        exact ⟨traced, .refl p, .settled (.resolved has), has.symm⟩
      | inProgress =>
        have mem : id ∈ stack := (traced.marks id).mp found
        obtain ⟨traced', advances⟩ := traced.noteCycle distinct mem (path.leads id mem)
        apply Ensures.noteError_bind
        refine ⟨traced', advances, .cycle ?_, ?_⟩
        · rw [Progress.error?_withError, Function.update_self]
        · rw [Progress.table_withError, Progress.Marked.table_eq_none found]
    | none =>
      cases looked : s.node? id with
      | none =>
        have absent := Setting.absent_of_node? looked
        exact ⟨traced, .refl p, .settled (.absent absent), (traced.table_absent absent).symm⟩
      | some n =>
        obtain ⟨mem, rfl⟩ := Setting.mem_of_node? looked
        cases schema : valueAt? n.schemaId s.signatures with
        | none =>
          obtain ⟨traced', advances⟩ := traced.noteUnknown distinct ⟨mem, schema⟩
          have noted : (p.withError n.id (.unknownSchema n.schemaId)).error? n.id =
              some (.unknownSchema n.schemaId) := by
            rw [Progress.error?_withError, Function.update_self]
          simp only [schema]
          apply Ensures.noteError_bind
          exact ⟨traced', advances, .settled (.unknown ⟨mem, schema⟩ noted),
            (traced'.table_unknown distinct ⟨mem, schema⟩).symm⟩
        | some signature =>
          have outside := traced.outside_of_free found
          have sources : ∀ source, s.Feeds source n.id →
              Visits s (n.id :: stack) (node s levels) source := by
            intro source feeds
            apply ih (path.extend outside (mem_map_of_mem mem) feeds)
            rw [length_cons]
            omega
          simp only [schema]
          apply Ensures.bind
            (enterNode_visits distinct ⟨mem, schema⟩ outside sources traced found)
          rintro r p' ⟨traced', advances, has⟩
          exact ⟨traced', advances, .settled (.resolved has), has.symm⟩

/-- Resolving nodes one after the other visits all of them. -/
theorem forM_visits (distinct : s.Distinct) {levels : Nat}
    (enough : s.graph.nodes.length < levels) (nodes : List Node) (traced : Traced s [] p) :
    Ensures (nodes.forM fun n => do let _ ← node s levels n.id) p
      (fun _ p' => Traced s [] p' ∧ Advances p p' ∧ ∀ n ∈ nodes, Visited s p' n.id)
      (Stopped s) := by
  induction nodes generalizing p with
  | nil => exact ⟨traced, .refl p, fun n mem => by cases mem⟩
  | cons first rest ih =>
    have head : Ensures (do let _ ← node s levels first.id) p
        (fun _ p' => Traced s [] p' ∧ Advances p p' ∧ Visited s p' first.id) (Stopped s) := by
      apply Ensures.bind (node_visits distinct (.start s first.id) enough p traced)
      intro result p' visit
      exact ⟨visit.traced, visit.advances, visit.visited⟩
    rw [List.forM]
    apply Ensures.bind head
    rintro _ p' ⟨traced', advances, visited⟩
    apply (ih traced').mono _ (fun f halts => halts)
    rintro _ p'' ⟨traced'', advances', others⟩
    refine ⟨traced'', advances.trans advances', ?_⟩
    intro n mem
    rcases mem_cons.mp mem with rfl | mem
    · exact visited.mono advances'.toGrows
    · exact others n mem

/-- Collecting takes the nodes one by one. -/
theorem collect_cons (p : Progress) (done : List (NodeId × Resolved)) (n : Node)
    (rest : List Node) : collect p.slots done (n :: rest) =
      collect p.slots ((p.table n.id).elim done fun r => setEntry n.id r done) rest := by
  unfold Progress.table
  rw [collect]
  cases valueAt? n.id p.slots with
  | none => rfl
  | some slot => cases slot <;> rfl

/-- What is collected is the table. -/
theorem valueAt?_collect (p : Progress) (nodes : List Node) (done : List (NodeId × Resolved))
    (id : NodeId) : valueAt? id (collect p.slots done nodes) =
      if id ∈ nodes.map (·.id) then (p.table id).or (valueAt? id done) else valueAt? id done := by
  induction nodes generalizing done with
  | nil => rfl
  | cons n rest ih =>
    rw [collect_cons, ih]
    by_cases same : id = n.id
    · subst same
      cases p.table n.id with
      | none => simp
      | some r => simp [valueAt?_setEntry_self]
    · cases p.table n.id with
      | none => simp [same]
      | some r => simp [same, valueAt?_setEntry_of_ne (Ne.symm same)]

/-- A state shows where the search ended, unless evaluating a node ended it for good. -/
theorem create_traced (distinct : s.Distinct) :
    (∃ f, State.create s = .error f ∧ Stopped s f) ∨
      ∃ state p, State.create s = .ok state ∧ state.resolved? = p.table ∧
        state.error? = p.error? ∧ Traced s [] p ∧ ∀ node ∈ s.graph.nodes, Visited s p node.id := by
  have search : Ensures (all s) ⟨[], []⟩ _ _ :=
    forM_visits distinct (Nat.lt_succ_self _) s.graph.nodes (.start s)
  have created : State.create s = (all s ⟨[], []⟩ >>= fun result => .ok ⟨s.revision,
      collect result.2.slots [] s.graph.nodes, result.2.errors, s.graph⟩) := rfl
  unfold Ensures at search
  rw [created]
  cases ran : all s ⟨[], []⟩ with
  | error f =>
    rw [ran] at search
    exact .inl ⟨f, rfl, search⟩
  | ok result =>
    rw [ran] at search
    obtain ⟨traced, -, visited⟩ := search
    refine .inr ⟨_, result.2, rfl, ?_, rfl, traced, visited⟩
    funext id
    show valueAt? id (collect result.2.slots [] s.graph.nodes) = result.2.table id
    rw [valueAt?_collect]
    by_cases mem : id ∈ s.graph.nodes.map (·.id)
    · rw [if_pos mem]
      exact Option.or_none
    · have absent : ∀ node ∈ s.graph.nodes, node.id ≠ id := by
        intro node here same
        exact mem (same ▸ mem_map_of_mem here)
      rw [if_neg mem, traced.table_absent absent]
      rfl

/-- Binding a node to what it depends on ends for good, so the equations have no solution. -/
def Broken (s : Setting) (f : Fatal) : Prop :=
  (∃ table errors node signature, s.Known node signature ∧ s.SolvedAbove table errors node.id ∧
    s.bound table node signature = .error (.fatal f)) ∧
  ∀ table errors, ¬ s.Solution table errors

/-- In a graph without cycles the equations of all that a node depends on are solved before it is
bound. -/
theorem Stopped.broken (distinct : s.Distinct) (acyclic : s.Acyclic) {f : Fatal}
    (stopped : Stopped s f) : Broken s f := by
  obtain @⟨stack, p, node, signature, provider, traced, known, visited, grounded, fatal⟩ := stopped
  have acc := acc_of_acyclic acyclic
  have fed (source : NodeId) (feeds : s.Feeds source node.id) : Settled s p source :=
    traced.settled_of_visited (acc source) (visited source feeds)
  have found {other : Node} {signature' : Signature} (known : s.Known other signature')
      (settled : Settled s p other.id) :
      ∃ r, p.table other.id = some r ∧ Found s p other signature' r := by
    obtain ⟨r, has⟩ := settled.exists_instance distinct known
    exact ⟨r, has, traced.found_of_table distinct known has⟩
  have settled {source : NodeId} (path : Relation.TransGen s.Feeds source node.id) :
      Settled s p source := by
    induction path using Relation.TransGen.head_induction_on with
    | single feeds => exact fed _ feeds
    | head feeds _ later =>
      obtain ⟨other, signature', known', rfl, -⟩ := id feeds
      obtain ⟨r, -, found⟩ := found known' later
      exact found.fed (acc _) _ feeds
  rw [grounded (acc _)] at fatal
  refine ⟨⟨p.table, p.error?, node, signature, known, fun other signature' known' path => ?_,
    fatal⟩, fun table errors solution => ?_⟩
  · obtain ⟨r, has, found⟩ := found known' (settled path)
    exact ⟨r, has, found.outcome (acc _)⟩
  · obtain ⟨r, -, outcome⟩ := solution.known node signature known
    rw [Setting.bound_congr known fun source feeds =>
      (traced.solution_eq distinct solution (acc source) (fed source feeds)).1, fatal] at outcome
    cases outcome

end Resolve

/-- The search through a graph has ended in these instances and errors. -/
structure Searched (s : Setting) (p : Progress) : Prop where
  traced : Traced s [] p
  visited : ∀ node ∈ s.graph.nodes, Visited s p node.id

namespace Searched

variable {s : Setting} {p : Progress}

/-- The equation of a node holds if the node depends on no cycle. -/
theorem equation (searched : Searched s p) (distinct : s.Distinct) {node : Node}
    {signature : Signature} (known : s.Known node signature) (acc : Acc s.Feeds node.id) :
    s.Equation p.table p.error? node signature := by
  obtain ⟨r, has, found⟩ :=
    searched.traced.exists_instance distinct known (searched.visited node known.1)
  exact ⟨r, has, found.outcome acc⟩

/-- A state shows what was found. -/
theorem of_create (distinct : s.Distinct) {state : State} (created : State.create s = .ok state) :
    ∃ p, state.resolved? = p.table ∧ state.error? = p.error? ∧ Searched s p := by
  rcases Resolve.create_traced distinct with ⟨f, failed, -⟩ | ⟨found, p, ok, table, errors, rest⟩
  · rw [created] at failed
    cases failed
  · obtain rfl : state = found := Except.ok.inj (created.symm.trans ok)
    exact ⟨p, table, errors, rest.1, rest.2⟩

/-- Without cycles the search solves the equations. -/
theorem solution (searched : Searched s p) (distinct : s.Distinct) (acyclic : s.Acyclic) :
    s.Solution p.table p.error? where
  known _ _ known :=
    searched.equation distinct known (Resolve.acc_of_acyclic acyclic _)
  unknown node unknown :=
    searched.traced.unknown_noted distinct unknown (searched.visited node unknown.1)
  absent _ absent := searched.traced.absent absent

/-- Without cycles every solution is the one that was found. -/
theorem solution_unique (searched : Searched s p) (distinct : s.Distinct) (acyclic : s.Acyclic)
    {table : NodeId → Option Resolved} {errors : NodeId → Option NodeError}
    (solution : s.Solution table errors) : table = p.table ∧ errors = p.error? := by
  have agrees (id : NodeId) : table id = p.table id ∧ errors id = p.error? id := by
    have acc := Resolve.acc_of_acyclic acyclic id
    refine searched.traced.solution_eq distinct solution acc ?_
    by_cases absent : ∀ node ∈ s.graph.nodes, node.id ≠ id
    · exact .absent absent
    · push Not at absent
      obtain ⟨node, mem, rfl⟩ := absent
      exact searched.traced.settled_of_visited acc (searched.visited node mem)
  exact ⟨funext fun id => (agrees id).1, funext fun id => (agrees id).2⟩

end Searched

namespace Resolve

variable {s : Setting}

/-- A state is the solution of the equations, or there is none. -/
theorem create_cases (distinct : s.Distinct) (acyclic : s.Acyclic) :
    (∃ state, State.create s = .ok state ∧ s.Solution state.resolved? state.error? ∧
      ∀ table errors, s.Solution table errors →
        table = state.resolved? ∧ errors = state.error?) ∨
    ∃ f, State.create s = .error f ∧ Broken s f := by
  rcases create_traced distinct with
    ⟨f, failed, stopped⟩ | ⟨state, p, created, table, errors, traced, visited⟩
  · exact .inr ⟨f, failed, stopped.broken distinct acyclic⟩
  · have searched : Searched s p := ⟨traced, visited⟩
    refine .inl ⟨state, created, ?_⟩
    rw [table, errors]
    exact ⟨searched.solution distinct acyclic,
      fun table errors solution => searched.solution_unique distinct acyclic solution⟩

/-- A node gets its new instance, or one of the state before that says the same. -/
theorem reuse_cases (id : NodeId) (fresh : Instance) :
    (reuse s id fresh).inst = fresh ∨
    ∃ state, s.previous = some state ∧ (id, reuse s id fresh) ∈ state.nodes ∧
      (reuse s id fresh).inst.same fresh = true := by
  unfold reuse
  cases found : s.before? id with
  | none => exact .inl rfl
  | some old =>
    by_cases same : old.inst.same fresh = true
    · simp only [if_pos same]
      obtain ⟨state, before, has⟩ := Option.bind_eq_some_iff.mp found
      exact .inr ⟨state, before, mem_of_valueAt? has, same⟩
    · left
      simp only [if_neg same]

end Resolve

namespace Setting

variable {s : Setting}

/-- Where binding gives an instance, the node of a solution has one that says the same. -/
theorem Solution.inst_of_bound {table : NodeId → Option Resolved}
    {errors : NodeId → Option NodeError} (solution : s.Solution table errors) {node : Node}
    {signature : Signature} {fresh : Instance} (known : s.Known node signature)
    (bound : s.bound table node signature = .ok fresh) :
    ∃ r, table node.id = some r ∧ (r.inst = fresh ∨ r.inst.same fresh = true) := by
  obtain ⟨r, has, outcome⟩ := solution.known node signature known
  rw [bound] at outcome
  obtain ⟨rfl, -⟩ := outcome.unique (.bound fresh)
  refine ⟨_, has, ?_⟩
  rcases Resolve.reuse_cases node.id fresh with eq | ⟨-, -, -, same⟩
  · exact .inl eq
  · exact .inr same

/-- Another order of the nodes has the same solutions, hence the same state. -/
theorem Solution.create_withNodes {state : State}
    (solution : s.Solution state.resolved? state.error?) (distinct : s.Distinct)
    (acyclic : s.Acyclic) {nodes : List Node} (perm : nodes.Perm s.graph.nodes) :
    ∃ state', State.create (s.withNodes nodes) = .ok state' ∧
      state'.resolved? = state.resolved? ∧ state'.error? = state.error? := by
  have reordered := solution.withNodes perm
  rcases Resolve.create_cases (distinct.withNodes perm) (acyclic.withNodes perm) with
    ⟨state', created, -, unique⟩ | ⟨f, -, broken⟩
  · obtain ⟨table, errors⟩ := unique _ _ reordered
    exact ⟨state', created, table.symm, errors.symm⟩
  · exact absurd reordered (broken.2 _ _)

end Setting

/-- A state solves the equations of its graph: each node has what its signature gives when it is
bound to the final instances of its sources. It does not depend on the order of the nodes, and
there is no state only where binding ends for good and no solution exists. -/
theorem State.create_solves {s : Setting} (distinct : s.Distinct) (acyclic : s.Acyclic) :
    (∀ state, State.create s = .ok state →
      s.Solution state.resolved? state.error? ∧
      (∀ node signature fresh, s.Known node signature →
        s.bound state.resolved? node signature = .ok fresh →
          ∃ inst, state.instance? node.id = some inst ∧
            (inst = fresh ∨ inst.same fresh = true)) ∧
      ∀ nodes : List Node, nodes.Perm s.graph.nodes →
        ∃ state', State.create (s.withNodes nodes) = .ok state' ∧
          state'.resolved? = state.resolved? ∧ state'.error? = state.error?) ∧
    ∀ f, State.create s = .error f → Resolve.Broken s f := by
  rcases Resolve.create_cases distinct acyclic with
    ⟨found, created, solution, -⟩ | ⟨f, created, broken⟩
  · refine ⟨fun state eq => ?_, fun f failed => ?_⟩
    · have same : found = state := Except.ok.inj (created.symm.trans eq)
      subst same
      refine ⟨solution, ?_, fun nodes perm => solution.create_withNodes distinct acyclic perm⟩
      intro node signature fresh known bound
      obtain ⟨r, has, alike⟩ := solution.inst_of_bound known bound
      refine ⟨r.inst, ?_, alike⟩
      unfold instance?
      rw [has]
      rfl
    · rw [created] at failed
      cases failed
  · refine ⟨fun state eq => ?_, fun f' failed => ?_⟩
    · rw [created] at eq
      cases eq
    · have same : f = f' := Except.error.inj (created.symm.trans failed)
      rw [← same]
      exact broken

namespace State

namespace Sample

def anyText : Ty := .string .all

/-- Takes a text and passes it through. -/
def echo : Signature where
  schema := ⟨"echo", "Echo", [⟨0, "in", .string .all, .text, false, true, false, none⟩],
    [⟨0, "out", .string .all, true, some (.input 0)⟩], false, .regular, []⟩
  scope := []
  inputs := [(0, anyText)]
  adapters := [(0, .text)]
  default := ⟨"echo", [(0, anyText)], [(0, anyText)], [], []⟩

/-- A node that comes before the one that feeds it. An earlier edge into it does not count; it is
from a node whose schema is unknown. -/
def relay : Setting where
  graph := ⟨[⟨"last", "echo", []⟩, ⟨"lost", "none", []⟩, ⟨"first", "echo", [(0, .string "hi")]⟩],
    [⟨"lost", 0, "last", 0⟩, ⟨"first", 0, "last", 0⟩]⟩
  narrowing := []
  signatures := [("echo", echo)]
  passthrough := [("echo", [(0, 0)])]
  previous := none

/-- The ids of the relay are distinct. -/
theorem distinct_relay : relay.Distinct := by
  unfold Setting.Distinct
  decide

/-- The relay has no cycles. -/
theorem acyclic_relay : relay.Acyclic :=
  Setting.acyclic_of_rank (fun id => if id = "last" then 1 else 0) (by decide)

/-- The outputs of a node, if there is a state. -/
def outputsOf (result : Except Fatal State) (id : NodeId) : Option (List (OutputId × Ty)) :=
  result.toOption.bind fun state => (state.instance? id).map (·.outputs)

end Sample

open Sample

/-- A relay in two orders. -/
theorem create_solves_relay : relay.Distinct ∧ relay.Acyclic ∧
    ∃ state, State.create relay = .ok state ∧
      (state.instance? "last").map (·.outputs) = some [(0, .string (.literal "hi"))] ∧
      relay.Solution state.resolved? state.error? ∧
      ∃ state', State.create (relay.withNodes relay.graph.nodes.reverse) = .ok state' ∧
        state'.resolved? = state.resolved? ∧ state'.error? = state.error? := by
  have solves := State.create_solves distinct_relay acyclic_relay
  have outputs : outputsOf (State.create relay) "last" =
      some [(0, .string (.literal "hi"))] := by decide +kernel
  refine ⟨distinct_relay, acyclic_relay, ?_⟩
  cases created : State.create relay with
  | error f =>
    rw [created] at outputs
    cases outputs
  | ok state =>
    rw [created] at outputs
    obtain ⟨solution, -, reordered⟩ := solves.1 state created
    exact ⟨state, rfl, outputs, solution, reordered _ (reverse_perm _)⟩

end State

end TypeFlow
