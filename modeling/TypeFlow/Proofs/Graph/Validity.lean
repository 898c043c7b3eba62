import TypeFlow.Graph.Validity
import TypeFlow.Proofs.Graph.Edits
import TypeFlow.Proofs.Inputs

/-!
# Data of valid nodes

A valid node has what it needs. A value that the adapter refuses fits nothing and would be an error
of the input. An edge counts as such: if its source has no instance or no such output, nothing is
supplied and the input keeps its declared type. Otherwise the input has what is left of the type of
the output, unless the node depends on a cycle; then the output may not have been there yet.
-/

namespace TypeFlow

namespace Catalog

/-- A signature has the inputs of its schema. -/
theorem mem_inputs_of_valueAt? {files : List CatalogFile} {catalog : Catalog}
    (accepted : ofFiles files = .ok catalog) {id : SchemaId} {signature : Signature}
    (found : valueAt? id catalog.signatures = some signature) :
    ∀ input ∈ signature.schema.inputs, input.id ∈ signature.inputs.map (·.1) := by
  obtain ⟨schema, -, -, evaluated⟩ :=
    exists_left_of_forall₂ (ofFiles_eq_ok accepted).2 (mem_of_valueAt? found)
  have same : signature.schema = schema := (Signature.keys_of_ofSchema evaluated).1
  rw [same]
  exact (Signature.inputs_of_ofSchema evaluated).2

end Catalog

namespace State

/-- Nothing is missing if all that is needed is supplied. -/
theorem missingInputs_eq_nil_iff {view : NodeView} {layout : Layout} :
    missingInputs view layout = [] ↔ ∀ input ∈ view.signature.schema.inputs,
      layout.needs input = true → view.isSupplied input.id = true := by
  simp [missingInputs]

/-- A node with an instance is valid if and only if no input that needs a value is without one, only
hidden inputs are in error, and no output is. -/
theorem checkView_eq_valid_iff {view : NodeView} :
    checkView view = .ok .valid ↔ ∃ layout, Layout.ofNode view = .ok layout ∧
      (∀ input ∈ view.signature.schema.inputs, layout.needs input = true →
        view.isSupplied input.id = true) ∧
      (∀ e ∈ view.inst.inputErrors, layout.hidden.contains e.input = true) ∧
      view.inst.outputErrors = [] := by
  unfold checkView
  rw [bind_eq_ok_iff]
  refine exists_congr fun layout => and_congr_right fun _ => ?_
  rw [← missingInputs_eq_nil_iff]
  have noErrors : (∀ e ∈ view.inst.inputErrors, layout.hidden.contains e.input = true) ↔
      (view.inst.inputErrors.find? fun e => !layout.hidden.contains e.input) = none := by
    simp
  rw [noErrors]
  cases missingInputs view layout with
  | cons label labels => simp [pure, Except.pure]
  | nil =>
    cases view.inst.inputErrors.find? fun e => !layout.hidden.contains e.input with
    | some e =>
      -- A reason is given, unless giving it ends for good.
      dsimp only
      cases inputReason view e with
      | error clash => simp [Except.mapError]
      | ok reason => simp [Except.mapError]
    | none =>
      cases view.inst.outputErrors with
      | cons e rest => simp [pure, Except.pure]
      | nil => simp [pure, Except.pure]

/-- What makes a node valid. -/
theorem checkNode_eq_valid_iff {state : State} {node : Node} {signature : Signature} :
    state.checkNode node signature = .ok .valid ↔ state.error? node.id = none ∧
      ∃ inst, state.instance? node.id = some inst ∧
        checkView ⟨node, signature, inst, state.graph⟩ = .ok .valid := by
  unfold checkNode
  cases state.error? node.id with
  | some e => simp [pure, Except.pure]
  | none => cases state.instance? node.id <;> simp [pure, Except.pure]

end State

namespace Setting

variable {s : Setting} {node : Node} {signature : Signature}

/-- A node without an error has a new instance, or the one of the state before that says the
same. -/
theorem Outcome.exists_fresh {result : Run EvalError Instance} {r : Resolved}
    {e : Option NodeError} (outcome : s.Outcome node signature result r e) (clear : e = none) :
    ∃ fresh, result = .ok fresh ∧ r = Resolve.reuse s node.id fresh := by
  cases outcome with
  | bound fresh => exact ⟨fresh, rfl, rfl⟩
  | failed e => cases clear

end Setting

/-- A node without an error was bound to some of what its inputs take, and to all of it if it
depends on no cycle. -/
theorem Searched.exists_bound {s : Setting} {p : Progress} {node : Node} {signature : Signature}
    (searched : Searched s p) (distinct : s.Distinct) (known : s.Known node signature)
    (clear : p.error? node.id = none) :
    ∃ provider fresh, s.boundTo provider node signature = .ok fresh ∧
      p.table node.id = some (Resolve.reuse s node.id fresh) ∧
      ∀ input ∈ signature.inputs.map (·.1), s.Took p.table node signature input (provider input) ∧
        (Acc s.Feeds node.id → provider input = s.supply p.table node signature input) := by
  obtain ⟨r, has, found⟩ :=
    searched.traced.exists_instance distinct known (searched.visited node known.1)
  rw [has]
  by_cases acc : Acc s.Feeds node.id
  · obtain ⟨fresh, bound, rfl⟩ := (found.outcome acc).exists_fresh clear
    exact ⟨s.supply p.table node signature, fresh, bound, rfl,
      fun input _ => ⟨.inl rfl, fun _ => rfl⟩⟩
  · rcases found.made with noted | ⟨provider, took, outcome⟩
    · rw [clear] at noted
      cases noted
    · obtain ⟨fresh, bound, rfl⟩ := outcome.exists_fresh clear
      exact ⟨provider, fresh, bound, rfl,
        fun input mem => ⟨took input mem, fun grounded => absurd grounded acc⟩⟩

namespace State

variable {s : Setting} {state : State} {node : Node} {signature : Signature}

/-- The type of the output at the source of an edge. -/
def offered? (state : State) (edge : Edge) : Option Ty :=
  (state.instance? edge.source).bind (·.output? edge.sourceHandle)

/-- Where an input of a valid node has its type from. -/
inductive Provided (s : Setting) (state : State) (node : Node) (signature : Signature)
    (input : InputId) (declared : Ty) : Ty → Prop
  /-- A value that its adapter accepts and that fits. -/
  | value {value : Literal} {type t : Ty} (unconnected : s.graph.sourceOf node.id input = none)
    (entered : node.value? input = some value) (accepted : signature.adapt input value = some type)
    (fits : Ty.intersectionOf [type, declared] = .ok t) (some : t ≠ .never) :
    Provided s state node signature input declared t
  /-- An output that fits. -/
  | output {edge : Edge} {type t : Ty} (connected : s.graph.sourceOf node.id input = some edge)
    (offered : state.offered? edge = some type)
    (fits : Ty.intersectionOf [type, declared] = .ok t) (some : t ≠ .never) :
    Provided s state node signature input declared t
  /-- An output that was not there yet, on the way round a cycle. -/
  | late {edge : Edge} {type : Ty} (connected : s.graph.sourceOf node.id input = some edge)
    (offered : state.offered? edge = some type) (dependent : ¬ Acc s.Feeds node.id) :
    Provided s state node signature input declared declared
  /-- An edge from nothing. -/
  | dangling {edge : Edge} (connected : s.graph.sourceOf node.id input = some edge)
    (nothing : state.offered? edge = none) : Provided s state node signature input declared declared

/-- A state keeps its graph. -/
theorem graph_of_create (created : create s = .ok state) : state.graph = s.graph := by
  unfold create at created
  obtain ⟨result, -, same⟩ := bind_eq_ok_iff.mp created
  rw [← Except.ok.inj same]

/-- An edge supplies what its source offers. -/
theorem supply_of_edge {edge : Edge} {input : InputId}
    (connected : s.graph.sourceOf node.id input = some edge) :
    s.supply state.resolved? node signature input = state.offered? edge := by
  rw [Setting.sourceOf_eq] at connected
  simp only [Setting.supply, connected, offered?, instance?, Option.bind_map]
  rfl

/-- A value supplies what its adapter makes of it. -/
theorem supply_of_value {input : InputId} {value : Literal}
    (unconnected : s.graph.sourceOf node.id input = none)
    (entered : node.value? input = some value) :
    s.supply state.resolved? node signature input =
      some ((signature.adapt input value).getD .never) := by
  rw [Setting.sourceOf_eq] at unconnected
  simp only [Setting.supply, unconnected, entered]

/-- What an input without an error was bound to provides it. -/
theorem provided_of_took {input : InputId} {declared t : Ty} {provider : InputId → Option Ty}
    (supplied : ((s.graph.sourceOf node.id input).isSome || (node.value? input).isSome) = true)
    (took : s.Took state.resolved? node signature input (provider input))
    (grounded : Acc s.Feeds node.id →
      provider input = s.supply state.resolved? node signature input)
    (narrows : Interface.narrowed provider (input, declared) = .ok t)
    (fitting : provider input ≠ none → t ≠ .never) :
    Provided s state node signature input declared t := by
  cases connected : s.graph.sourceOf node.id input with
  | none =>
    obtain ⟨value, entered⟩ : ∃ value, node.value? input = some value := by
      rw [connected] at supplied
      exact Option.isSome_iff_exists.mp supplied
    have takes : provider input = some ((signature.adapt input value).getD .never) := by
      rcases took with same | ⟨-, edge, found⟩
      · rw [same, supply_of_value connected entered]
      · rw [Setting.sourceOf_eq, found] at connected
        cases connected
    have fits : Ty.intersectionOf [(signature.adapt input value).getD .never, declared] =
        .ok t := by
      simpa only [Interface.narrowed, takes] using narrows
    have values : t ≠ .never := fitting (by simp [takes])
    cases accepted : signature.adapt input value with
    | none =>
      rw [accepted, Option.getD_none, Ty.intersectionOf_never] at fits
      exact absurd (Except.ok.inj fits).symm values
    | some type =>
      rw [accepted, Option.getD_some] at fits
      exact .value connected entered accepted fits values
  | some edge =>
    have source : s.supply state.resolved? node signature input = state.offered? edge :=
      supply_of_edge connected
    cases taken : provider input with
    | none =>
      have keeps : t = declared := by
        simp only [Interface.narrowed, taken, Except.ok.injEq] at narrows
        exact narrows.symm
      subst keeps
      cases offered : state.offered? edge with
      | none => exact .dangling connected offered
      | some type =>
        refine .late connected offered fun acc => ?_
        rw [← source, ← grounded acc, taken] at offered
        cases offered
    | some type =>
      have offered : state.offered? edge = some type := by
        rcases took with same | ⟨missed, -⟩
        · rw [← source, ← same, taken]
        · rw [taken] at missed
          cases missed
      have fits : Ty.intersectionOf [type, declared] = .ok t := by
        simpa only [Interface.narrowed, taken] using narrows
      exact .output connected offered fits (fitting (by simp [taken]))

/-- A valid node has its required data: each input that is visible and required has a value that its
adapter accepts and that fits, or an edge. An edge from an output supplies the type of the output,
unless the node depends on a cycle, and with an edge from nothing the declared type stays. -/
theorem required_inputs_provided {files : List CatalogFile} {catalog : Catalog}
    (accepted : Catalog.ofFiles files = .ok catalog) (signed : s.signatures = catalog.signatures)
    (distinct : s.Distinct) (keyed : s.Keyed) (created : create s = .ok state)
    (known : s.Known node signature) (valid : state.checkNode node signature = .ok .valid) :
    ∃ inst layout, state.instance? node.id = some inst ∧
      Layout.ofNode ⟨node, signature, inst, s.graph⟩ = .ok layout ∧
      ∀ input ∈ signature.schema.inputs, layout.needs input = true →
        ∃ declared t, signature.input? input.id = some declared ∧
          inst.input? input.id = some t ∧ Provided s state node signature input.id declared t := by
  obtain ⟨clear, inst, has, valid⟩ := checkNode_eq_valid_iff.mp valid
  rw [graph_of_create created] at valid
  obtain ⟨layout, laid, supplied, hidden, -⟩ := checkView_eq_valid_iff.mp valid
  refine ⟨inst, layout, has, laid, fun input mem needs => ?_⟩
  have listed : valueAt? node.schemaId catalog.signatures = some signature := signed ▸ known.2
  have declares := Catalog.mem_inputs_of_valueAt? accepted listed input mem
  obtain ⟨declared, declaredAs⟩ := exists_valueAt? declares
  -- The instance says what binding the node to some of what its inputs take said.
  obtain ⟨p, table, errors, searched⟩ := Searched.of_create distinct created
  rw [errors] at clear
  obtain ⟨provider, fresh, bound, made, took⟩ := searched.exists_bound distinct known clear
  obtain ⟨-, binds⟩ := Interface.inputs_of_bind bound
  have alike : inst.Alike fresh := by
    have same : inst = (Resolve.reuse s node.id fresh).inst := by
      rw [instance?, table, made] at has
      exact (Option.some.inj has).symm
    rw [same]
    exact Resolve.reuse_alike keyed node.id fresh
  obtain ⟨t, found, narrows⟩ := binds.valueAt?_eq declaredAs
  obtain ⟨here, grounded⟩ := took input.id declares
  rw [← table] at here grounded
  refine ⟨declared, t, declaredAs, (alike.inputs input.id).trans found,
    provided_of_took (supplied input mem needs) here grounded narrows ?_⟩
  intro taken never
  -- An input that nothing fits is in error, and an input that needs a value is not hidden.
  obtain ⟨assigned, is⟩ := Option.ne_none_iff_exists'.mp taken
  have error : (⟨input.id, assigned, declared⟩ : InputError) ∈ inst.inputErrors := by
    rw [alike.inputErrors, binds.mem_errors_iff]
    exact ⟨(input.id, declared), mem_of_valueAt? declaredAs, assigned, is, never ▸ narrows, rfl⟩
  have isHidden := hidden _ error
  simp only [Layout.needs, isHidden, Bool.not_true, Bool.false_and] at needs
  cases needs

namespace Sample

/-- A stamp, which may stay away. -/
def stamp : InputSchema := ⟨2, "stamp", .string .all, .text, true, true, false, none⟩

/-- Copies of a text with a stamp and a note. Two copies must be stamped, and there is a note for
three only. -/
def letter : NodeSchema :=
  ⟨"letter", "letter",
    [⟨0, "copies", .number .all, .number, false, true, false, none⟩,
      ⟨1, "text", .string .all, .text, false, true, false, none⟩,
      stamp, ⟨3, "note", .string .all, .text, false, true, false, none⟩], [], false, .regular,
    [⟨.required (.oneOf 0 [.number (.num (.fin 2))]), [.input 2]⟩,
      ⟨.conditional (.oneOf 0 [.number (.num (.fin 3))]), [.input 3]⟩]⟩

/-- Says a greeting. -/
def greeting : NodeSchema :=
  ⟨"greeting", "greeting", [], [⟨0, "text", .string (.literal "hello"), true, none⟩], false,
    .regular, []⟩

/-- The catalog of both. -/
def office : Catalog :=
  (Catalog.ofFiles [⟨[], [greeting, letter]⟩]).toOption.getD ⟨[], [], []⟩

/-- Two copies. -/
def copies : Node := ⟨"copies", "letter", [(0, .number (.num (.fin 2)))]⟩

/-- Two copies of the greeting, with a stamp from a node that is not there. -/
def desk : Setting :=
  ⟨⟨[⟨"hello", "greeting", []⟩, copies], [⟨"hello", 0, "copies", 1⟩, ⟨"gone", 0, "copies", 2⟩]⟩,
    [], office.signatures, office.passthrough, none⟩

/-- The types on the desk. -/
def onDesk : State := (create desk).toOption.getD ⟨0, [], [], .empty⟩

/-- What there is of the copies. -/
def sheet : Instance := (onDesk.instance? "copies").getD ⟨"", [], [], [], []⟩

/-- The signature of letters. -/
def letters : Signature :=
  (valueAt? "letter" office.signatures).getD ⟨⟨letter, [], [], []⟩, sheet⟩

/-- Which inputs of the copies are hidden and which are required. -/
def sheetLayout : Layout :=
  (Layout.ofNode ⟨copies, letters, sheet, desk.graph⟩).toOption.getD ⟨[], []⟩

/-- The ids on the desk are distinct. -/
theorem desk_distinct : desk.Distinct := by
  show (desk.graph.nodes.map (·.id)).Nodup
  decide

/-- The office is a catalog. There is a state on the desk, where the copies are letters with a
layout and are valid. -/
theorem desk_evaluated : Catalog.ofFiles [⟨[], [greeting, letter]⟩] = .ok office ∧
    create desk = .ok onDesk ∧ desk.Known copies letters ∧
    onDesk.checkNode copies letters = .ok .valid ∧
    Layout.ofNode ⟨copies, letters, sheet, desk.graph⟩ = .ok sheetLayout :=
  ⟨eq_ok_of_isOk (by decide +kernel) _, eq_ok_of_isOk (by decide +kernel) _,
    ⟨by simp [desk], eq_some_of_isSome (by decide +kernel) _⟩,
    eq_ok_of_toOption (by decide +kernel), eq_ok_of_isOk (by decide +kernel) _⟩

end Sample

open Sample

/-- The number of copies is entered, their text comes from a node, the stamp from none, and the note
is hidden. -/
theorem required_inputs_provided_copies :
    desk.Distinct ∧ desk.Keyed ∧ onDesk.checkNode copies letters = .ok .valid ∧
    (letters.schema.inputs.filter sheetLayout.needs).map (·.id) = [0, 1, 2] ∧
    ∀ input ∈ letters.schema.inputs, sheetLayout.needs input = true →
      ∃ declared t, letters.input? input.id = some declared ∧ sheet.input? input.id = some t ∧
        Provided desk onDesk copies letters input.id declared t := by
  have keyed : desk.Keyed := fun state before => nomatch before
  obtain ⟨accepted, created, known, valid, laidOut⟩ := desk_evaluated
  obtain ⟨inst, layout, has, laid, provided⟩ :=
    required_inputs_provided accepted rfl desk_distinct keyed created known valid
  have here : onDesk.instance? "copies" = some sheet := eq_some_of_isSome (by decide +kernel) _
  obtain rfl : inst = sheet := Option.some.inj (has.symm.trans here)
  obtain rfl : layout = sheetLayout := Except.ok.inj (laid.symm.trans laidOut)
  exact ⟨desk_distinct, keyed, valid, by decide +kernel, provided⟩

/-- A node can be valid although a required input has neither a value nor an output at the other end
of its edge. -/
theorem required_input_dangles : Catalog.ofFiles [⟨[], [greeting, letter]⟩] = .ok office ∧
    desk.Distinct ∧ create desk = .ok onDesk ∧ desk.Known copies letters ∧
    onDesk.checkNode copies letters = .ok .valid ∧
    Layout.ofNode ⟨copies, letters, sheet, desk.graph⟩ = .ok sheetLayout ∧
    ∃ input ∈ letters.schema.inputs, ∃ edge, sheetLayout.needs input = true ∧
      copies.value? input.id = none ∧ desk.graph.sourceOf copies.id input.id = some edge ∧
      onDesk.instance? edge.source = none := by
  have declares : stamp ∈ letters.schema.inputs := by
    have same : letters.schema.inputs = letter.inputs := rfl
    rw [same]
    simp [letter]
  have gone : onDesk.instance? "gone" = none := Option.isNone_iff_eq_none.mp (by decide +kernel)
  obtain ⟨accepted, created, known, valid, laidOut⟩ := desk_evaluated
  exact ⟨accepted, desk_distinct, created, known, valid, laidOut,
    stamp, declares, ⟨"gone", 0, "copies", 2⟩, by decide +kernel, rfl, by decide +kernel, gone⟩

end State

end TypeFlow
