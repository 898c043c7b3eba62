import TypeFlow.Graph.Connection
import TypeFlow.Proofs.Graph.Edits

/-!
# Tests of connections

An edge into a free input changes only what its target depends on, so other nodes keep their
instances. The test binds the target to the types that its inputs have already. Where these do not
change when they are narrowed again, the rebuilt target evaluates to the same outputs.
-/

namespace TypeFlow

/-- The graph with a further edge. -/
def Snapshot.connect (graph : Snapshot) (edge : Edge) : Snapshot :=
  { graph with edges := graph.edges ++ [edge] }

namespace Setting

/-- The same setting with a further edge. -/
def connect (s : Setting) (edge : Edge) : Setting := { s with graph := s.graph.connect edge }

/-- An edge between nodes of known schemas, into a declared input that nothing is connected to,
closing no cycle. -/
structure Connectable (s : Setting) (edge : Edge) (target : Node) (signature : Signature) :
    Prop where
  distinct : s.Distinct
  source : ∃ node offering, s.Known node offering ∧ node.id = edge.source
  known : s.Known target signature
  finish : target.id = edge.target
  declares : edge.targetHandle ∈ signature.inputs.map (·.1)
  free : s.graph.isConnected edge.target edge.targetHandle = false
  apart : ¬ Relation.ReflTransGen s.Feeds edge.target edge.source

variable {s : Setting} {edge : Edge} {node : Node} {signature : Signature}

/-- The input is free. -/
theorem Connectable.edgeInto?_eq (connectable : s.Connectable edge node signature) :
    s.edgeInto? edge.target edge.targetHandle = none := by
  rw [← sourceOf_eq]
  exact Option.not_isSome_iff_eq_none.mp (Bool.eq_false_iff.mp connectable.free)

/-- The new edge is the one into its input. -/
theorem edgeInto?_connect (id : NodeId) (input : InputId) :
    (s.connect edge).edgeInto? id input =
      if edge.target = id ∧ edge.targetHandle = input then some edge
      else s.edgeInto? id input := by
  unfold edgeInto? connect Snapshot.connect
  rw [List.filter_append]
  by_cases here : edge.target = id ∧ edge.targetHandle = input
  · simp [here]
  · simp [here]

/-- An edge into a free input takes no other edge away. -/
theorem Feeds.connect (free : s.edgeInto? edge.target edge.targetHandle = none)
    {source target : NodeId} (feeds : s.Feeds source target) :
    (s.connect edge).Feeds source target := by
  obtain ⟨node, signature, known, same, input, mem, old, found, start⟩ := feeds
  refine ⟨node, signature, known, same, input, mem, old, ?_, start⟩
  rw [edgeInto?_connect, if_neg, found]
  rintro ⟨here, handle⟩
  rw [here, handle, found] at free
  cases free

/-- Without the edge nothing gets endless. -/
theorem acc_of_connect (free : s.edgeInto? edge.target edge.targetHandle = none) {id : NodeId}
    (acc : Acc (s.connect edge).Feeds id) : Acc s.Feeds id :=
  Subrelation.accessible (fun feeds => feeds.connect free) acc

/-- Inputs other than the one at the end of the edge take what they took. -/
theorem supply_connect {table : NodeId → Option Resolved} {input : InputId}
    (other : ¬ (edge.target = node.id ∧ edge.targetHandle = input)) :
    (s.connect edge).supply table node signature input = s.supply table node signature input := by
  unfold supply
  rw [edgeInto?_connect, if_neg other]

/-- Without a state before, a node without an error has the instance that it was bound to. -/
theorem Equation.eq_bound {table : NodeId → Option Resolved} {errors : NodeId → Option NodeError}
    (equation : s.Equation table errors node signature) (first : s.previous = none) :
    (∃ fresh, s.bound table node signature = .ok fresh ∧ errors node.id = none ∧
      (table node.id).map (·.inst) = some fresh) ∨
    ∃ e, s.bound table node signature = .error (.error e) ∧ errors node.id ≠ none := by
  obtain ⟨r, has, outcome⟩ := equation
  rw [has]
  generalize s.bound table node signature = result at outcome
  generalize errors node.id = error at outcome
  cases outcome with
  | bound fresh =>
    have made : Resolve.reuse s node.id fresh = ⟨fresh, .made s.revision node.id⟩ := by
      simp [Resolve.reuse, before?, first]
    exact .inl ⟨fresh, rfl, rfl, by rw [made]; rfl⟩
  | failed e => exact .inr ⟨e, rfl, by simp⟩

/-- Connecting edits the target. -/
theorem editedAt_connect : s.EditedAt edge.target (s.connect edge) where
  nodes _ _ := Iff.rfl
  edges := by simp [connect, Snapshot.connect]
  narrowing _ _ := rfl
  signatures := rfl
  passthrough := rfl

end Setting

namespace Searched

variable {s : Setting} {p p' : Progress} {edge : Edge}

/-- What feeds the target keeps its instance, unless the target depends on itself. -/
theorem table_source (searched : Searched s p) (searched' : Searched (s.connect edge) p')
    (distinct : s.Distinct) (acc : Acc (s.connect edge).Feeds edge.target) {source : NodeId}
    (feeds : (s.connect edge).Feeds source edge.target) : p'.table source = p.table source := by
  have apart : ¬ Relation.ReflTransGen (s.connect edge).Feeds edge.target source :=
    fun path => not_transGen_self_of_acc acc (.tail' path feeds)
  exact (searched'.kept searched distinct distinct Setting.editedAt_connect.symm rfl
    (acc.inv feeds) apart).1.symm

/-- The input at the end of the edge takes what the edge brings, others take what they took. -/
theorem supply_target (searched : Searched s p) (searched' : Searched (s.connect edge) p')
    (distinct : s.Distinct) (free : s.edgeInto? edge.target edge.targetHandle = none)
    (acc : Acc (s.connect edge).Feeds edge.target) {target : Node} {signature : Signature}
    (known : s.Known target signature) (here : target.id = edge.target) {input : InputId}
    (mem : input ∈ signature.inputs.map (·.1)) :
    (s.connect edge).supply p'.table target signature input =
      if input = edge.targetHandle then
        (p.table edge.source).bind fun source => source.inst.output? edge.sourceHandle
      else s.supply p.table target signature input := by
  by_cases handle : input = edge.targetHandle
  · have found : (s.connect edge).edgeInto? target.id input = some edge := by
      rw [Setting.edgeInto?_connect, if_pos ⟨here.symm, handle.symm⟩]
    have kept := searched.table_source searched' distinct acc
      ⟨target, signature, known, here, input, mem, edge, found, rfl⟩
    rw [if_pos handle, Setting.supply, found]
    simp only [kept]
  · rw [if_neg handle, Setting.supply_connect fun both => handle both.2.symm]
    unfold Setting.supply
    cases found : s.edgeInto? target.id input with
    | none => rfl
    | some old =>
      have feeds : s.Feeds old.source edge.target :=
        ⟨target, signature, known, here, input, mem, old, found, rfl⟩
      simp only [searched.table_source searched' distinct acc (feeds.connect free)]

end Searched

/-- Every output with values in the first instance has values in the second one. -/
def Instance.Keeps (before after : Instance) : Prop :=
  ∀ output t, (output, t) ∈ before.outputs → t.isNever = false →
    ∃ t', after.output? output = some t' ∧ t'.isNever = false

namespace State

/-- No output is lost if all keep a value. -/
theorem lostOutput?_eq_none_iff {after : Instance} {outputs : List (OutputId × Ty)} :
    lostOutput? after outputs = none ↔ ∀ output t, (output, t) ∈ outputs → t.isNever = false →
      ∃ t', after.output? output = some t' ∧ t'.isNever = false := by
  induction outputs with
  | nil => simp [lostOutput?]
  | cons entry rest ih =>
    obtain ⟨output, before⟩ := entry
    have kept : (!before.isNever && (after.output? output).all Ty.isNever) = false ↔
        (before.isNever = false → ∃ t', after.output? output = some t' ∧ t'.isNever = false) := by
      cases before.isNever <;> cases after.output? output <;> simp
    simp only [lostOutput?, List.mem_cons, Prod.mk.injEq]
    by_cases lost : (!before.isNever && (after.output? output).all Ty.isNever) = true
    · have gone := mt kept.mpr (by simp [lost])
      rw [if_pos lost]
      constructor
      · intro none
        cases none
      · exact fun every => absurd (every output before (.inl ⟨rfl, rfl⟩)) gone
    · have here := kept.mp (Bool.eq_false_iff.mpr lost)
      rw [if_neg lost, ih]
      constructor
      · rintro every o t (⟨rfl, rfl⟩ | mem)
        · exact here
        · exact every o t mem
      · exact fun every o t mem => every o t (.inr mem)

/-- What the test binds the target to. -/
def tested (edge : Edge) (type : Ty) (target : Instance) (input : InputId) : Option Ty :=
  if input = edge.targetHandle then some type else target.input? input

/-- The test passes if some value fits and binding takes no output's values away. -/
theorem testTypes_eq_valid_iff {edge : Edge} {type declared : Ty} {signature : Signature}
    {target : Instance} (has : signature.input? edge.targetHandle = some declared) :
    testTypes edge type declared signature target = .ok .valid ↔
      (∃ t, Ty.intersectionOf [type, declared] = .ok t ∧ t ≠ .never) ∧
        ∃ after, signature.bind (tested edge type target) [] [] = .ok after ∧
          target.Keeps after := by
  unfold testTypes
  rw [Signature.canAssign_eq has]
  cases Ty.intersectionOf [type, declared] with
  | error c => simp [Except.map, Except.mapError, bind, Except.bind]
  | ok t =>
    by_cases never : t = .never
    · subst never
      show (Except.mapError Fatal.clash (Mismatch.explain type declared) >>= _) = _ ↔ _
      cases Mismatch.explain type declared with
      | error c => simp [Except.mapError, bind, Except.bind]
      | ok reason => simp [Except.mapError, bind, Except.bind, pure, Except.pure]
    · have values : t.isNever = false := by
        cases t <;> first | rfl | exact absurd rfl never
      simp only [Except.ok.injEq, exists_eq_left', ne_eq, never, not_false_eq_true, true_and]
      simp only [Except.map, Except.mapError, values, bind, Except.bind, Bool.not_false, if_true]
      have provider : (fun input => if input = edge.targetHandle then some type
          else target.input? input) = tested edge type target := rfl
      rw [provider]
      rcases signature.bind (tested edge type target) [] [] with (e | f) | after
      · simp [Run.attempt, pure, Except.pure]
      · simp [Run.attempt]
      · simp only [Run.attempt, Except.ok.injEq, exists_eq_left', Instance.Keeps]
        rw [← lostOutput?_eq_none_iff]
        cases lostOutput? after target.outputs <;> simp [pure, Except.pure]

/-- The output that the edge comes from has a type. -/
def Offers (state : State) (edge : Edge) : Prop :=
  ∃ source type, state.instance? edge.source = some source ∧
    source.output? edge.sourceHandle = some type

/-- The target of the edge evaluates without an error, something fits the input at its end, and
every output that had values before has values. -/
def Accepts (state : State) (edge : Edge) (before : Instance) : Prop :=
  state.error? edge.target = none ∧ ∃ after, state.instance? edge.target = some after ∧
    (∀ e ∈ after.inputErrors, e.input ≠ edge.targetHandle) ∧ before.Keeps after

instance (state : State) (edge : Edge) : Decidable (state.Offers edge) :=
  decidable_of_iff
    (((state.instance? edge.source).bind fun i => i.output? edge.sourceHandle).isSome = true) (by
      simp [Offers, Option.isSome_iff_exists, Option.bind_eq_some_iff, exists_comm])

instance (state : State) (edge : Edge) (before : Instance) :
    Decidable (state.Accepts edge before) :=
  decidable_of_iff ((state.error? edge.target).isNone = true ∧
      (state.instance? edge.target).any (fun after =>
        after.inputErrors.all (fun e => e.input ≠ edge.targetHandle) &&
          (lostOutput? after before.outputs).isNone) = true) (by
    simp [Accepts, Instance.Keeps, Option.any_eq_true, lostOutput?_eq_none_iff])

end State

/-- What the state of a graph is made of, with nothing reported and no state before. -/
def Catalog.setting (catalog : Catalog) (graph : Snapshot) : Setting :=
  ⟨graph, [], catalog.signatures, catalog.passthrough, none⟩

namespace State

section

variable {s : Setting} {p p' : Progress} {edge : Edge} {target : Node} {signature : Signature}
  {before source : Instance} {type declared : Ty}

/-- The test narrows inputs as the rebuilt state does, if narrowing twice is narrowing once. -/
theorem narrowed_tested {provider provider' : InputId → Option Ty}
    {inputs : List (InputId × Ty)} {errors : List InputError}
    (nodup : (inputs.map (·.1)).Nodup)
    (binds : Interface.BindsInputs provider inputs before.inputs errors)
    (supplies : ∀ input ∈ inputs.map (·.1),
      provider' input = if input = edge.targetHandle then some type else provider input)
    (stable : ∀ input declared t, (input, declared) ∈ inputs → input ≠ edge.targetHandle →
      before.input? input = some t → Ty.intersectionOf [t, declared] = .ok t) :
    ∀ input ∈ inputs, Interface.narrowed provider' input =
      Interface.narrowed (tested edge type before) input := by
  rintro ⟨input, declared⟩ mem
  have supply := supplies input (List.mem_map_of_mem mem)
  unfold tested
  by_cases handle : input = edge.targetHandle
  · rw [if_pos handle] at supply
    simp only [Interface.narrowed, supply, if_pos handle]
  · rw [if_neg handle] at supply
    obtain ⟨t, has, narrows⟩ := binds.valueAt?_eq (valueAt?_of_mem nodup mem)
    have again := stable input declared t mem handle has
    have takes : before.input? input = some t := has
    have unchanged : Interface.narrowed provider' (input, declared) = .ok t := by
      rw [← narrows]
      simp only [Interface.narrowed, supply]
    rw [unchanged]
    simp only [Interface.narrowed, if_neg handle, takes, again]

/-- The test passes only if the target can be bound to what it will be supplied with; where the
target passes nothing through, it passes whenever that is so. -/
theorem testTypes_foretells {provider : InputId → Option Ty} (passthrough : Passthrough)
    (nodup : (signature.inputs.map (·.1)).Nodup)
    (has : signature.input? edge.targetHandle = some declared)
    (supplied : provider edge.targetHandle = some type)
    (alike : ∀ input ∈ signature.inputs, Interface.narrowed provider input =
      Interface.narrowed (tested edge type before) input) :
    (testTypes edge type declared signature before = .ok .valid →
      ∃ after, signature.bind provider [] passthrough = .ok after ∧
        (∀ e ∈ after.inputErrors, e.input ≠ edge.targetHandle) ∧ before.Keeps after) ∧
    (passthrough = [] → ∀ after, signature.bind provider [] passthrough = .ok after →
      (∀ e ∈ after.inputErrors, e.input ≠ edge.targetHandle) → before.Keeps after →
      testTypes edge type declared signature before = .ok .valid) := by
  rw [testTypes_eq_valid_iff has]
  rcases Interface.bind_without_passthrough alike [] passthrough with
    ⟨halt, rebuilt, plain⟩ | ⟨after, after', rebuilt, plain, outputs, none⟩
  · rw [rebuilt, plain]
    constructor
    · rintro ⟨-, after, ended, -⟩
      cases ended
    · intro _ after ended
      cases ended
  · have fits := (Interface.inputs_of_bind rebuilt).2.no_error_iff nodup has supplied
    rw [rebuilt, plain, ← fits]
    constructor
    · rintro ⟨noError, _, ended, keeps⟩
      obtain rfl := Except.ok.inj ended
      refine ⟨after, rfl, noError, fun output t mem values => ?_⟩
      rcases outputs output with same | passed
      · rw [same]
        exact keeps output t mem values
      · exact passed
    · rintro nothing _ ended noError keeps
      obtain rfl := Except.ok.inj ended
      refine ⟨noError, after', rfl, ?_⟩
      unfold Instance.Keeps Instance.output? at keeps ⊢
      rw [← none nothing]
      exact keeps

/-- The target accepts the edge if it can be bound so that nothing is lost. -/
theorem accepts_iff {state : State} (finish : target.id = edge.target)
    (equation : s.Equation state.resolved? state.error? target signature)
    (first : s.previous = none) :
    state.Accepts edge before ↔ ∃ after, s.bound state.resolved? target signature = .ok after ∧
      (∀ e ∈ after.inputErrors, e.input ≠ edge.targetHandle) ∧ before.Keeps after := by
  unfold Accepts instance?
  rw [← finish]
  rcases equation.eq_bound first with ⟨fresh, bound, none, has⟩ | ⟨e, failed, noted⟩
  · rw [bound, none, has]
    simp
  · rw [failed]
    simp [noted]

/-- The test looks at the types where the nodes and the input are known. -/
theorem testConnection_eq {state : State} {signatures : List (SchemaId × Signature)}
    (isSource : state.instance? edge.source = some source)
    (isTarget : state.instance? edge.target = some before)
    (found : valueAt? before.schemaId signatures = some signature)
    (has : signature.input? edge.targetHandle = some declared) :
    state.testConnection signatures edge =
      match source.output? edge.sourceHandle with
      | none =>
        .ok (.invalid ("Node " ++ edge.source ++ " has no output " ++ edge.sourceHandle.repr))
      | some type => testTypes edge type declared signature before := by
  simp only [testConnection, isSource, isTarget, found, has]
  rfl

end

/-- Testing an edge foretells what adding it does, if the target depends on no cycle and is not in
error, and the types of its other inputs stay the same when they are narrowed again. Then the test
passes only if the output is there and the rebuilt target accepts the edge. Conversely it passes
if both is so and the target passes nothing through. -/
theorem testConnection_foretells {files : List CatalogFile} {catalog : Catalog} {graph : Snapshot}
    {edge : Edge} {state : State} {target : Node} {signature : Signature} {before : Instance}
    (accepted : Catalog.ofFiles files = .ok catalog)
    (connectable : (catalog.setting graph).Connectable edge target signature)
    (created : State.create (catalog.setting graph) = .ok state)
    (was : state.instance? edge.target = some before)
    (grounded : Acc (catalog.setting (graph.connect edge)).Feeds edge.target)
    (evaluated : state.error? edge.target = none)
    (stable : ∀ input declared t, (input, declared) ∈ signature.inputs →
      input ≠ edge.targetHandle → before.input? input = some t →
      Ty.intersectionOf [t, declared] = .ok t) :
    (∃ f, State.create (catalog.setting (graph.connect edge)) = .error f ∧
      (catalog.setting (graph.connect edge)).Halts f) ∨
    ∃ state', State.create (catalog.setting (graph.connect edge)) = .ok state' ∧
      (state.testConnection catalog.signatures edge = .ok .valid →
        state.Offers edge ∧ state'.Accepts edge before) ∧
      (catalog.passthrough? target.schemaId = none → state.Offers edge →
        state'.Accepts edge before →
        state.testConnection catalog.signatures edge = .ok .valid) := by
  have unconnected := connectable.edgeInto?_eq
  obtain ⟨distinct, ⟨source, offering, knownSource, start⟩, known, finish, declares, -, -⟩ :=
    connectable
  obtain ⟨named, nodup⟩ := Catalog.signature_of_valueAt? accepted known.2
  obtain ⟨declared, has⟩ := exists_valueAt? declares
  rcases Resolve.create_traced distinct with
    ⟨f, halted, -⟩ | ⟨state₀, p, created₀, table, errors, traced, visited⟩
  · rw [created] at halted
    cases halted
  obtain rfl := Except.ok.inj (created.symm.trans created₀)
  rcases Resolve.create_traced (s := catalog.setting (graph.connect edge)) distinct with
    ⟨f, failed, stopped⟩ | ⟨state', p', created', table', errors', traced', visited'⟩
  · exact .inl ⟨f, failed, stopped.halts⟩
  refine .inr ⟨state', created', ?_⟩
  have searched : Searched (catalog.setting graph) p := ⟨traced, visited⟩
  have searched' : Searched ((catalog.setting graph).connect edge) p' := ⟨traced', visited'⟩
  -- The target was bound to what its inputs took, and will be to what they take then.
  have equation := searched.equation distinct known
    (finish ▸ Setting.acc_of_connect unconnected grounded)
  rw [← table, ← errors] at equation
  have equation' := searched'.equation distinct known (finish ▸ grounded)
  rw [← table', ← errors'] at equation'
  rw [accepts_iff finish equation' rfl]
  rcases equation.eq_bound rfl with ⟨fresh, bound, -, is⟩ | ⟨e, -, noted⟩
  case inr => exact absurd (finish ▸ evaluated) noted
  obtain rfl : fresh = before := by
    rw [finish] at is
    exact Option.some.inj (is.symm.trans was)
  obtain ⟨schema, binds⟩ := Interface.inputs_of_bind bound
  obtain ⟨r, isSource, -⟩ :=
    searched.traced.exists_instance distinct knownSource (searched.visited source knownSource.1)
  rw [← table, start] at isSource
  have offer : state.instance? edge.source = some r.inst := by
    rw [instance?, isSource]
    rfl
  have found : valueAt? fresh.schemaId catalog.signatures = some signature := by
    rw [schema, named]
    exact known.2
  rw [testConnection_eq offer was found has]
  cases output : r.inst.output? edge.sourceHandle with
  | none =>
    constructor
    · intro valid
      cases valid
    · rintro - ⟨source', type, isSource', output'⟩
      obtain rfl := Option.some.inj (offer.symm.trans isSource')
      rw [output] at output'
      cases output'
  | some type =>
    have supplies : ∀ input ∈ signature.inputs.map (·.1),
        ((catalog.setting graph).connect edge).supply state'.resolved? target signature input =
          if input = edge.targetHandle then some type
          else (catalog.setting graph).supply state.resolved? target signature input := by
      intro input mem
      have brought : ((state.resolved? edge.source).bind fun source =>
          source.inst.output? edge.sourceHandle) = some type := by
        rw [isSource]
        exact output
      rw [table', searched.supply_target searched' distinct unconnected grounded known finish mem,
        ← table, brought]
    have alike := narrowed_tested nodup binds supplies stable
    have supplied := supplies edge.targetHandle declares
    rw [if_pos rfl] at supplied
    obtain ⟨forth, back⟩ := testTypes_foretells
      ((catalog.passthrough? target.schemaId).getD []) nodup has supplied alike
    constructor
    · exact fun valid => ⟨⟨r.inst, type, offer, output⟩, forth valid⟩
    · rintro nothing - ⟨after, rebuilt, noError, keeps⟩
      exact back (by rw [nothing]; rfl) after rebuilt noError keeps

namespace Sample

/-- Says a text. -/
def say (id text : String) : NodeSchema :=
  ⟨id, id, [], [⟨0, "out0", .string (.literal text), true, none⟩], false, .regular, []⟩

/-- A text that must be there. -/
def key (id : InputId) : InputSchema :=
  ⟨id, "in", .string .all, .text, false, true, false, none⟩

/-- Gives its second text if the first one is an "a". -/
def gate (passthrough : PassthroughSource) : NodeSchema :=
  ⟨"gate", "gate", [key 0, key 1],
    [⟨0, "out0", .choose (.named "Input0" []) [⟨.string (.literal "a"), none, .named "Input1" []⟩],
      true, some passthrough⟩], false, .regular, []⟩

/-- Gives its first text, and cannot be evaluated if the second one is known and no "q". -/
def trap : NodeSchema :=
  ⟨"trap", "trap", [key 0, key 1],
    [⟨0, "out0", .choose (.string (.literal "q")) [⟨.named "Input1" [], none, .named "Input0" []⟩,
      ⟨.any, none, .access .any "x"⟩], true, some .none⟩], false, .regular, []⟩

/-- Schemas with a gate that passes its first text through or nothing. -/
def files (passthrough : PassthroughSource) : List CatalogFile :=
  [⟨[], [say "yes" "a", say "no" "b", gate passthrough, trap]⟩]

/-- The catalog of the schemas. -/
def doors (passthrough : PassthroughSource) : Catalog :=
  (Catalog.ofFiles (files passthrough)).toOption.getD ⟨[], [], []⟩

/-- Says an "a". -/
def yes : Node := ⟨"y", "yes", []⟩

/-- Says a "b". -/
def no : Node := ⟨"n", "no", []⟩

/-- A gate with a second text. -/
def door : Node := ⟨"g", "gate", [(1, .string "x")]⟩

/-- A trap with a second text for which it cannot be evaluated. -/
def pit : Node := ⟨"t", "trap", [(1, .string "z")]⟩

/-- The nodes without any edge. -/
def house : Snapshot := ⟨[yes, no, door, pit], []⟩

/-- An edge from the first output of a node to the first input of another one. -/
def link (source target : Node) : Edge := ⟨source.id, 0, target.id, 0⟩

/-- The state of a graph of these schemas. -/
def stateOf (passthrough : PassthroughSource) (graph : Snapshot) : State :=
  (State.create ((doors passthrough).setting graph)).toOption.getD ⟨0, [], [], .empty⟩

/-- The instance of a node of the house. -/
def roomOf (passthrough : PassthroughSource) (id : NodeId) : Instance :=
  ((stateOf passthrough house).instance? id).getD ⟨"", [], [], [], []⟩

/-- The signature of one of the schemas. -/
def signatureOf (passthrough : PassthroughSource) (id : SchemaId) : Signature :=
  (valueAt? id (doors passthrough).signatures).getD join

/-- In the house any node can be connected to the first input of another one. -/
theorem connectable_house (passthrough : PassthroughSource) (source target : Node)
    (memSource : source ∈ house.nodes) (memTarget : target ∈ house.nodes)
    (differ : source.id ≠ target.id)
    (known : ((valueAt? source.schemaId (doors passthrough).signatures).isSome &&
      (valueAt? target.schemaId (doors passthrough).signatures).isSome &&
      decide (0 ∈ (signatureOf passthrough target.schemaId).inputs.map (·.1))) = true) :
    ((doors passthrough).setting house).Connectable (link source target) target
      (signatureOf passthrough target.schemaId) := by
  simp only [Bool.and_eq_true, decide_eq_true_eq] at known
  obtain ⟨⟨knownSource, knownTarget⟩, declares⟩ := known
  have unfed : ∀ a b, ¬ ((doors passthrough).setting house).Feeds a b := by
    rintro a b ⟨node, signature, -, -, input, -, edge, found, -⟩
    cases found
  constructor
  case distinct =>
    show (house.nodes.map (·.id)).Nodup
    decide
  case source =>
    exact ⟨source, signatureOf passthrough source.schemaId,
      ⟨memSource, eq_some_of_isSome knownSource _⟩, rfl⟩
  case known => exact ⟨memTarget, eq_some_of_isSome knownTarget _⟩
  case finish => rfl
  case declares => exact declares
  case free => rfl
  case apart =>
    intro path
    rcases path.cases_tail with same | ⟨last, -, feeds⟩
    · exact differ same
    · exact unfed _ _ feeds

end Sample

open Sample

/-- A door in a house. -/
theorem testConnection_foretells_door :
    ((doors .none).setting house).Connectable (link yes door) door (signatureOf .none "gate") ∧
    (stateOf .none house).error? "g" = none ∧
    (stateOf .none house).testConnection (doors .none).signatures (link yes door) = .ok .valid ∧
    ∃ state', State.create ((doors .none).setting (house.connect (link yes door))) = .ok state' ∧
      (stateOf .none house).Offers (link yes door) ∧
      state'.Accepts (link yes door) (roomOf .none "g") := by
  have connectable := connectable_house .none yes door (by simp [house]) (by simp [house])
    (by decide) (by decide +kernel)
  have evaluated : (stateOf .none house).error? "g" = none :=
    Option.isNone_iff_eq_none.mp (by decide +kernel)
  have valid : (stateOf .none house).testConnection (doors .none).signatures (link yes door) =
      .ok .valid := eq_ok_of_toOption (by decide +kernel)
  have grounded : Acc ((doors .none).setting (house.connect (link yes door))).Feeds "g" :=
    Setting.acc_of_rank (fun id => if id = "g" then 1 else 0) (by decide) "g"
  have again : ((signatureOf .none "gate").inputs.all fun input =>
      ((roomOf .none "g").input? input.1).all fun t =>
        decide ((Ty.intersectionOf [t, input.2]).toOption = some t)) = true := by
    decide +kernel
  have stable : ∀ input declared t, (input, declared) ∈ (signatureOf .none "gate").inputs →
      input ≠ (link yes door).targetHandle → (roomOf .none "g").input? input = some t →
      Ty.intersectionOf [t, declared] = .ok t := by
    intro input declared t mem _ has
    have each := List.all_eq_true.mp again (input, declared) mem
    rw [has] at each
    exact eq_ok_of_toOption (of_decide_eq_true each)
  refine ⟨connectable, evaluated, valid, ?_⟩
  have accepted : Catalog.ofFiles (files .none) = .ok (doors .none) :=
    eq_ok_of_isOk (by decide +kernel) _
  rcases testConnection_foretells accepted connectable
      (eq_ok_of_isOk (by decide +kernel) _) (eq_some_of_isSome (by decide +kernel) _) grounded
      evaluated stable with ⟨f, halted, -⟩ | ⟨state', created, forth, -⟩
  · have ends : (State.create ((doors .none).setting (house.connect (link yes door)))).isOk =
        true := by decide +kernel
    rw [halted] at ends
    cases ends
  · exact ⟨state', created, forth valid⟩

/-- The test refuses an edge that the rebuilt target accepts because it passes its input through,
and passes one where the target still cannot be evaluated. -/
theorem testConnection_misjudges :
    (∃ files catalog graph edge target signature state state' before,
      Catalog.ofFiles files = .ok catalog ∧
      (catalog.setting graph).Connectable edge target signature ∧
      State.create (catalog.setting graph) = .ok state ∧
      State.create (catalog.setting (graph.connect edge)) = .ok state' ∧
      state.instance? edge.target = some before ∧ state'.Accepts edge before ∧
      state.testConnection catalog.signatures edge =
        .ok (.invalid "Connecting would make the output out0 invalid")) ∧
    ∃ files catalog graph edge target signature state state' before,
      Catalog.ofFiles files = .ok catalog ∧
      (catalog.setting graph).Connectable edge target signature ∧
      State.create (catalog.setting graph) = .ok state ∧
      State.create (catalog.setting (graph.connect edge)) = .ok state' ∧
      state.instance? edge.target = some before ∧ ¬ state'.Accepts edge before ∧
      state.testConnection catalog.signatures edge = .ok .valid := by
  constructor
  · have connectable := connectable_house (.input 0) no door (by simp [house]) (by simp [house])
      (by decide) (by decide +kernel)
    exact ⟨files (.input 0), doors (.input 0), house, link no door, door, _,
      stateOf (.input 0) house, stateOf (.input 0) (house.connect (link no door)),
      roomOf (.input 0) "g", eq_ok_of_isOk (by decide +kernel) _, connectable,
      eq_ok_of_isOk (by decide +kernel) _, eq_ok_of_isOk (by decide +kernel) _,
      eq_some_of_isSome (by decide +kernel) _, by decide +kernel,
      eq_ok_of_toOption (by decide +kernel)⟩
  · have connectable := connectable_house .none no pit (by simp [house]) (by simp [house])
      (by decide) (by decide +kernel)
    exact ⟨files .none, doors .none, house, link no pit, pit, _, stateOf .none house,
      stateOf .none (house.connect (link no pit)), roomOf .none "t",
      eq_ok_of_isOk (by decide +kernel) _, connectable, eq_ok_of_isOk (by decide +kernel) _,
      eq_ok_of_isOk (by decide +kernel) _, eq_some_of_isSome (by decide +kernel) _,
      by decide +kernel, eq_ok_of_toOption (by decide +kernel)⟩

end State

end TypeFlow
