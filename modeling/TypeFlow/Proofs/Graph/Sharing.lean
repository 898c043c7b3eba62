import TypeFlow.Graph.State
import TypeFlow.Proofs.Binding
import TypeFlow.Proofs.Catalog.Accepted
import TypeFlow.Proofs.Eval.Recall

/-!
# Sharing what is remembered

All signatures of a catalog are bound in one scope, where what one evaluation remembers serves the
next: the next output, the next node, the graph after a change. The definitions of binding and of
states let every evaluation start from nothing. Here the memo is handed on instead, from any memo
that calls have led to, and nothing changes, unless an evaluation from nothing runs out of levels.
-/

namespace TypeFlow

namespace Eval

variable {chain : Scope} {α β : Type}

/-- After any calls a computation has the answer of another one that remembers nothing, unless that
one runs out of levels, and what it remembers then comes from calls again. -/
def Consults (chain : Scope) (fresh : Run EvalError α) (shared : EvalM α) : Prop :=
  fresh ≠ exhausted → ∀ memo, Reached chain memo → (shared memo).1 = fresh ∧
    ((∀ f, fresh ≠ .error (.fatal f)) → Reached chain (shared memo).2)

namespace Consults

/-- What does not evaluate anything has no use for a memo. -/
theorem lift (run : Run EvalError α) : Consults chain run (EvalM.lift run) :=
  fun _ _ reached => ⟨rfl, fun _ => reached⟩

/-- One evaluation in a part of the chain. -/
theorem evaluate {scope : Scope} (part : scope <:+ chain) (generics : Generics) (e : Expr) :
    Consults chain (scope.evaluate generics e) (scope.evaluateWith generics e) := by
  intro ended memo reached
  have same := reached.evaluateWith_eq part ended
  exact ⟨same, fun proper => reached.evaluateWith part (same ▸ proper)⟩

/-- One computation after the other. -/
theorem bind {fresh : Run EvalError α} {shared : EvalM α} {f : α → Run EvalError β}
    {g : α → EvalM β} (first : Consults chain fresh shared)
    (next : ∀ a, Consults chain (f a) (g a)) : Consults chain (fresh >>= f) (shared >>= g) := by
  intro ended memo reached
  cases outcome : shared memo with
  | mk answer memo' =>
    cases fresh with
    | error h =>
      have stops {h' : Halt EvalError} (same : (.error h : Run EvalError α) = .error h') :
          (.error h >>= f : Run EvalError β) = .error h' := by
        cases same
        rfl
      obtain ⟨same, after⟩ := first (fun same => ended (stops same)) memo reached
      rw [outcome] at same after
      obtain rfl : answer = .error h := same
      rw [bind_of_error outcome]
      exact ⟨rfl, fun proper => after fun f same => proper f (stops same)⟩
    | ok a =>
      obtain ⟨same, after⟩ := first (by simp) memo reached
      rw [outcome] at same after
      obtain rfl : answer = .ok a := same
      rw [bind_of_ok outcome]
      exact next a ended memo' (after (by simp))

/-- One step for each item. -/
theorem foldlM {f : β → α → Run EvalError β} {g : β → α → EvalM β}
    (step : ∀ b a, Consults chain (f b a) (g b a)) (items : List α) (start : β) :
    Consults chain (items.foldlM f start) (items.foldlM g start) := by
  induction items generalizing start with
  | nil => exact lift (pure start)
  | cons a rest ih =>
    rw [List.foldlM_cons, List.foldlM_cons]
    exact (step start a).bind ih

end Consults

end Eval

open Eval

namespace Interface

/-- What an output is given for the type that it evaluates to. -/
def takeOutput (narrowing : List (OutputId × Ty)) (bound : BoundOutputs) (output : OutputSchema)
    (raw : Ty) : Run EvalError BoundOutputs := do
  let own ← Run.ofChecked (splitErrors raw)
  let t ← Run.ofChecked (refined (valueAt? output.id narrowing) own.1)
  return ⟨setEntry output.id t bound.types, bound.errors ++ outputError output.id own.2 t⟩

/-- Evaluates one output with what is remembered. -/
def bindOutputWith (scope : Scope) (generics : Generics) (narrowing : List (OutputId × Ty))
    (bound : BoundOutputs) (output : OutputSchema) : EvalM BoundOutputs := do
  let raw ← scope.evaluateWith generics output.type
  EvalM.lift (takeOutput narrowing bound output raw)

/-- Binds a signature with what is remembered. -/
def bindWith (interface : Interface) (provider : InputId → Option Ty)
    (narrowing : List (OutputId × Ty)) (passthrough : Passthrough) : EvalM Instance := do
  let inputs ← EvalM.checked <| interface.inputs.foldlM (bindInput provider) ⟨[], [], []⟩
  let generics := inputs.types.map fun entry => (InputId.parameter entry.1, entry.2)
  let outputs ← interface.schema.outputs.foldlM
    (bindOutputWith interface.scope generics narrowing) ⟨[], []⟩
  let outputs := passthrough.foldl (passThrough inputs) outputs
  return ⟨interface.schema.id, inputs.types, outputs.types, inputs.errors, outputs.errors⟩

variable {chain : Scope}

/-- An output has the same type with a memo. -/
theorem bindOutput_consults {scope : Scope} (part : scope <:+ chain) (generics : Generics)
    (narrowing : List (OutputId × Ty)) (bound : BoundOutputs) (output : OutputSchema) :
    Consults chain (bindOutput scope generics narrowing bound output)
      (bindOutputWith scope generics narrowing bound output) := by
  have parts : bindOutput scope generics narrowing bound output =
      scope.evaluate generics output.type >>= takeOutput narrowing bound output := by
    rw [bindOutput_eq, evaluated, bind_assoc]
    rfl
  rw [parts]
  exact (Consults.evaluate part generics output.type).bind fun raw => .lift _

/-- Binding with a memo gives the same instance, after any calls. -/
theorem bind_consults {interface : Interface} (part : interface.scope <:+ chain)
    (provider : InputId → Option Ty) (narrowing : List (OutputId × Ty))
    (passthrough : Passthrough) :
    Consults chain (interface.bind provider narrowing passthrough)
      (interface.bindWith provider narrowing passthrough) := by
  unfold bind bindWith
  refine (Consults.lift _).bind fun inputs => ?_
  refine (Consults.foldlM (bindOutput_consults part _ narrowing) _ _).bind fun outputs => ?_
  exact .lift _

end Interface

/-- A search that hands a memo on. -/
abbrev SharedM (α : Type) := StateT Memo ResolveM α

namespace Resolve

/-- The type for an input, given how to resolve other nodes. -/
def inputTypeWith (setting : Setting) (resolve : NodeId → SharedM (Option Resolved)) (node : Node)
    (signature : Signature) (input : InputId) : SharedM (Option Ty) := do
  match setting.graph.sourceOf node.id input with
  | some edge =>
    return (← resolve edge.source).bind fun source => source.inst.output? edge.sourceHandle
  | none =>
    match node.value? input with
    | some value => return some ((signature.adapt input value).getD .never)
    | none => return if signature.isNullable input then some Prelude.null else none

/-- The types for inputs that have one. -/
def suppliedTypesWith (setting : Setting) (resolve : NodeId → SharedM (Option Resolved))
    (node : Node) (signature : Signature) : List InputId → SharedM (List (InputId × Ty))
  | [] => return []
  | input :: rest => do
    let type ← inputTypeWith setting resolve node signature input
    let others ← suppliedTypesWith setting resolve node signature rest
    return (type.map fun t => (input, t)).toList ++ others

/-- The instance of a node with the given types for its inputs, made with what is remembered. -/
def instantiateWith (setting : Setting) (node : Node) (signature : Signature)
    (supplied : List (InputId × Ty)) : SharedM Resolved := fun memo => do
  let narrowing := (valueAt? node.id setting.narrowing).getD []
  let passthrough := (valueAt? node.schemaId setting.passthrough).getD []
  let ran := signature.bindWith (fun input => valueAt? input supplied) narrowing passthrough memo
  match ← (Run.attempt ran.1 : Except Fatal _) with
  | .ok fresh => return (reuse setting node.id fresh, ran.2)
  | .error e =>
    noteError node.id (.evaluation e)
    return (fallback node signature, ran.2)

/-- Resolves a node that has not been reached before. -/
def enterNodeWith (setting : Setting) (resolve : NodeId → SharedM (Option Resolved)) (node : Node)
    (signature : Signature) : SharedM Resolved := do
  noteSlot node.id .inProgress
  let supplied ← suppliedTypesWith setting resolve node signature (signature.inputs.map (·.1))
  let p ← (get : ResolveM Progress)
  let result ← if (valueAt? node.id p.errors).isSome then pure (fallback node signature)
    else instantiateWith setting node signature supplied
  noteSlot node.id (.resolved result)
  return result

/-- Resolves a node with a given number of levels. -/
def nodeWith (setting : Setting) : (levels : Nat) → NodeId → SharedM (Option Resolved)
  | 0, _ => return none
  | levels + 1, id => do
    let p ← (get : ResolveM Progress)
    match valueAt? id p.slots with
    | some (.resolved done) => return some done
    | some .inProgress =>
      noteError id (.cycle id)
      return none
    | none =>
      match setting.node? id with
      | none => return none
      | some n =>
        match valueAt? n.schemaId setting.signatures with
        | none =>
          noteError id (.unknownSchema n.schemaId)
          return none
        | some signature =>
          return some (← enterNodeWith setting (nodeWith setting levels) n signature)

/-- Resolves all nodes. -/
def allWith (setting : Setting) : SharedM Unit :=
  setting.graph.nodes.forM fun n => do
    let _ ← nodeWith setting (setting.graph.nodes.length + 1) n.id

end Resolve

/-- The state of a graph, and what is remembered after it. -/
def State.createWith (setting : Setting) (memo : Memo) : Except Fatal (State × Memo) := do
  let (((), memo), progress) ← Resolve.allWith setting memo ⟨[], []⟩
  return (⟨setting.revision, Resolve.collect progress.slots [] setting.graph.nodes,
    progress.errors, setting.graph⟩, memo)

namespace Resolve

variable {chain : Scope} {α β : Type}

/-- After any calls a search with a memo does what another one does without, unless that one runs
out of levels, and what it remembers then comes from calls again. -/
def Shares (chain : Scope) (fresh : ResolveM α) (shared : SharedM α) : Prop :=
  ∀ p, fresh p ≠ .error .exhausted → ∀ memo, Reached chain memo →
    (∀ f, fresh p = .error f → shared memo p = .error f) ∧
    ∀ a p', fresh p = .ok (a, p') → ∃ memo', shared memo p = .ok ((a, memo'), p') ∧
      Reached chain memo'

namespace Shares

/-- What only looks at the progress has no use for a memo. -/
theorem lift (fresh : ResolveM α) : Shares chain fresh (StateT.lift fresh) := by
  intro p _ memo reached
  have parts : (StateT.lift fresh : SharedM α) memo p =
      (fresh p >>= fun found => Except.ok ((found.1, memo), found.2)) := rfl
  rw [parts]
  refine ⟨fun f same => ?_, fun a p' same => ⟨memo, ?_, reached⟩⟩
  · rw [same]
    rfl
  · rw [same]
    rfl

/-- One step after the other. -/
theorem bind {fresh : ResolveM α} {shared : SharedM α} {f : α → ResolveM β} {g : α → SharedM β}
    (first : Shares chain fresh shared) (next : ∀ a, Shares chain (f a) (g a)) :
    Shares chain (fresh >>= f) (shared >>= g) := by
  intro p ended memo reached
  have left : (fresh >>= f) p = (fresh p >>= fun found => f found.1 found.2) := rfl
  have right : (shared >>= g) memo p =
      (shared memo p >>= fun found => g found.1.1 found.1.2 found.2) := rfl
  rw [left] at ended
  rw [left, right]
  cases ran : fresh p with
  | error e =>
    have proper : fresh p ≠ .error .exhausted := by
      rw [ran] at ended ⊢
      exact fun same => ended (by cases same; rfl)
    rw [(first p proper memo reached).1 e ran]
    exact ⟨fun f same => by cases same; rfl, fun a p' same => by cases same⟩
  | ok found =>
    rw [ran] at ended
    obtain ⟨memo', same, after⟩ :=
      (first p (by simp [ran]) memo reached).2 found.1 found.2 ran
    rw [same]
    exact next found.1 found.2 ended memo' after

end Shares

section

variable {s : Setting} {resolve : NodeId → ResolveM (Option Resolved)}
  {resolve' : NodeId → SharedM (Option Resolved)}
  (sources : ∀ id, Shares chain (resolve id) (resolve' id)) (n : Node) {signature : Signature}

include sources in
/-- An input takes the same type. -/
theorem inputType_shares (input : InputId) :
    Shares chain (inputType s resolve n signature input)
      (inputTypeWith s resolve' n signature input) := by
  unfold inputType inputTypeWith
  cases s.graph.sourceOf n.id input with
  | some edge => exact (sources edge.source).bind fun source => .lift (pure _)
  | none =>
    cases n.value? input with
    | some value => exact .lift (pure _)
    | none => exact .lift (pure _)

include sources in
/-- The inputs are supplied with the same types. -/
theorem suppliedTypes_shares (inputs : List InputId) :
    Shares chain (suppliedTypes s resolve n signature inputs)
      (suppliedTypesWith s resolve' n signature inputs) := by
  induction inputs with
  | nil => exact .lift (pure _)
  | cons input rest ih =>
    refine (inputType_shares sources n input).bind fun type => ?_
    exact ih.bind fun others => .lift (pure _)

variable (part : signature.scope <:+ chain)

include part

/-- The only step that evaluates: binding has the same outcome after any calls. -/
theorem instantiate_shares (supplied : List (InputId × Ty)) :
    Shares chain (instantiate s n signature supplied) (instantiateWith s n signature supplied) := by
  intro p ended memo reached
  unfold instantiate at ended ⊢
  unfold instantiateWith
  generalize provided : (fun input => valueAt? input supplied) = provider at ended ⊢
  have consults := Interface.bind_consults part provider ((valueAt? n.id s.narrowing).getD [])
    ((valueAt? n.schemaId s.passthrough).getD [])
  cases bound : signature.bind provider ((valueAt? n.id s.narrowing).getD [])
      ((valueAt? n.schemaId s.passthrough).getD []) with
  | ok fresh =>
    rw [bound] at consults
    obtain ⟨same, after⟩ := consults (by simp) memo reached
    simp only [same]
    refine ⟨fun f same => (by cases same), fun a p' same => ?_⟩
    obtain ⟨rfl, rfl⟩ := Prod.mk.inj (Except.ok.inj same)
    exact ⟨_, rfl, after (by simp)⟩
  | error halt =>
    rw [bound] at consults
    cases halt with
    | error e =>
      obtain ⟨same, after⟩ := consults (by simp) memo reached
      simp only [same]
      refine ⟨fun f same => (by cases same), fun a p' same => ?_⟩
      obtain ⟨rfl, rfl⟩ := Prod.mk.inj (Except.ok.inj same)
      exact ⟨_, rfl, after (by simp)⟩
    | fatal fatal =>
      rw [bound] at ended
      have proper : (.error (.fatal fatal) : Run EvalError Instance) ≠ exhausted := by
        rintro same
        cases same
        exact ended rfl
      obtain ⟨same, -⟩ := consults proper memo reached
      simp only [same]
      exact ⟨fun f same => by cases same; rfl, fun a p' same => by cases same⟩

include sources in
/-- A node that is reached for the first time gets the same instance. -/
theorem enterNode_shares :
    Shares chain (enterNode s resolve n signature) (enterNodeWith s resolve' n signature) := by
  unfold enterNode enterNodeWith
  refine (Shares.lift _).bind fun _ => ?_
  refine (suppliedTypes_shares sources n _).bind fun supplied => ?_
  refine (Shares.lift get).bind fun p => ?_
  have last (r : Resolved) : Shares chain
      (noteSlot n.id (.resolved r) >>= fun _ => pure r)
      (StateT.lift (noteSlot n.id (.resolved r)) >>= fun _ => pure r) :=
    (Shares.lift _).bind fun _ => .lift (pure r)
  by_cases failed : (valueAt? n.id p.errors).isSome = true
  · simp only [if_pos failed]
    exact (Shares.lift (pure (fallback n signature))).bind last
  · simp only [if_neg failed]
    exact (instantiate_shares n part supplied).bind last

end

variable {s : Setting} (parts : ∀ entry ∈ s.signatures, entry.2.scope <:+ chain)

include parts

/-- Resolving a node leads to the same instance. -/
theorem node_shares (levels : Nat) (id : NodeId) :
    Shares chain (node s levels id) (nodeWith s levels id) := by
  induction levels generalizing id with
  | zero => exact .lift (pure none)
  | succ levels ih =>
    unfold node nodeWith
    refine (Shares.lift get).bind fun p => ?_
    cases valueAt? id p.slots with
    | some slot =>
      cases slot with
      | resolved done => exact .lift (pure (some done))
      | inProgress => exact (Shares.lift (noteError id _)).bind fun _ => .lift (pure none)
    | none =>
      cases s.node? id with
      | none => exact .lift (pure none)
      | some n =>
        cases known : valueAt? n.schemaId s.signatures with
        | none =>
          simp only [known]
          exact (Shares.lift (noteError id _)).bind fun _ => .lift (pure none)
        | some signature =>
          simp only [known]
          have part := parts _ (mem_of_valueAt? known)
          exact (enterNode_shares ih n part).bind fun r => .lift (pure (some r))

/-- Resolving all nodes goes the same way. -/
theorem all_shares : Shares chain (all s) (allWith s) := by
  unfold all allWith
  generalize s.graph.nodes.length + 1 = levels
  induction s.graph.nodes with
  | nil => exact .lift (pure ())
  | cons n rest ih =>
    exact ((node_shares parts levels n.id).bind fun _ => .lift (pure ())).bind fun _ => ih

end Resolve

namespace State

open Resolve

/-- A state that is found with what is remembered after any calls is the one that is found from
nothing, and what is remembered after it comes from calls. -/
theorem createWith_eq {chain : Scope} {s : Setting}
    (parts : ∀ entry ∈ s.signatures, entry.2.scope <:+ chain)
    (ended : create s ≠ .error .exhausted) {memo : Memo} (reached : Reached chain memo) :
    (createWith s memo).map (·.1) = create s ∧
      ∀ state memo', createWith s memo = .ok (state, memo') → Reached chain memo' := by
  have shares := all_shares parts ⟨[], []⟩
  have left : create s = (all s ⟨[], []⟩ >>= fun found => .ok ⟨s.revision,
      collect found.2.slots [] s.graph.nodes, found.2.errors, s.graph⟩) := rfl
  have right : createWith s memo = (allWith s memo ⟨[], []⟩ >>= fun found => .ok
      (⟨s.revision, collect found.2.slots [] s.graph.nodes, found.2.errors, s.graph⟩,
        found.1.2)) := rfl
  rw [left] at ended ⊢
  rw [right]
  cases ran : all s ⟨[], []⟩ with
  | error f =>
    rw [ran] at ended
    have same := (shares (by rw [ran]; exact fun same => ended (congrArg (· >>= _) same)) memo
      reached).1 f ran
    rw [same]
    exact ⟨rfl, fun state memo' same => by cases same⟩
  | ok found =>
    obtain ⟨memo', same, after⟩ := (shares (by simp [ran]) memo reached).2 found.1 found.2 ran
    rw [same]
    refine ⟨rfl, fun state last same => ?_⟩
    obtain ⟨-, rfl⟩ := Prod.mk.inj (Except.ok.inj same)
    exact after

end State

namespace Catalog

/-- All signatures of a catalog are bound in its scope. -/
theorem scope_of_mem_signatures {files : List CatalogFile} {catalog : Catalog}
    (accepted : ofFiles files = .ok catalog) {entry : SchemaId × Signature}
    (mem : entry ∈ catalog.signatures) : entry.2.scope = catalog.scope := by
  obtain ⟨schema, -, -, evaluated⟩ := exists_left_of_forall₂ (ofFiles_eq_ok accepted).2 mem
  unfold Signature.ofSchema Interface.ofSchema at evaluated
  obtain ⟨interface, ran, evaluated⟩ := bind_eq_ok_iff.mp evaluated
  obtain ⟨inputs, -, same⟩ := bind_eq_ok_iff.mp ran
  obtain ⟨default, -, made⟩ := bind_eq_ok_iff.mp evaluated
  rw [← Except.ok.inj made, ← Except.ok.inj same]

/-- The states of graphs on a catalog are the same with what was remembered there before. -/
theorem createWith_eq {files : List CatalogFile} {catalog : Catalog}
    (accepted : ofFiles files = .ok catalog) {s : Setting}
    (own : s.signatures = catalog.signatures) (ended : State.create s ≠ .error .exhausted)
    {memo : Memo} (reached : Reached catalog.scope memo) :
    (State.createWith s memo).map (·.1) = State.create s ∧
      ∀ state memo', State.createWith s memo = .ok (state, memo') →
        Reached catalog.scope memo' := by
  refine State.createWith_eq (fun entry mem => ?_) ended reached
  rw [scope_of_mem_signatures accepted (own ▸ mem)]

end Catalog

end TypeFlow
