import TypeFlow.Proofs.Catalog.Accepted
import TypeFlow.Proofs.Graph.Cycles

/-!
# Reusing instances

Two instances that say the same may list their inputs and outputs in different orders. The search
for a graph never looks at the order: it reads one output of an instance at a time. So two searches
that differ in the state before go through the same steps and end alike. The search is followed
once, for any relation of instances that have the same outputs. With itself as the other search, it
also shows that instances never list an input or output twice.
-/

namespace TypeFlow

open List

section Entries

variable {α β : Type} [DecidableEq α]

/-- Entries with the same values for all keys of the first list have the same values for all keys,
if no key is there twice and the lists are of one length. -/
theorem valueAt?_of_sameEntries [DecidableEq β] {entries others : List (α × β)}
    (nodup : (entries.map (·.1)).Nodup) (same : sameEntries entries others = true) (key : α) :
    valueAt? key entries = valueAt? key others := by
  simp only [sameEntries, Bool.and_eq_true, beq_iff_eq, all_eq_true, decide_eq_true_eq]
    at same
  obtain ⟨length, each⟩ := same
  cases found : valueAt? key entries with
  | some value => exact (each (key, value) (mem_of_valueAt? found)).symm
  | none =>
    have subset : entries.map (·.1) ⊆ others.map (·.1) := by
      intro k mem
      obtain ⟨entry, memEntry, rfl⟩ := mem_map.mp mem
      exact mem_map_of_mem (mem_of_valueAt? (each entry memEntry))
    have perm : (entries.map (·.1)).Perm (others.map (·.1)) := by
      have lengths : (others.map (·.1)).length = (entries.map (·.1)).length := by
        rw [length_map, length_map, length]
      exact (nodup.subperm subset).perm_of_length_le (Nat.le_of_eq lengths)
    cases found' : valueAt? key others with
    | none => rfl
    | some value =>
      have mem := perm.mem_iff.mpr (mem_map_of_mem (mem_of_valueAt? found'))
      obtain ⟨value', has⟩ := exists_valueAt? mem
      rw [found] at has
      cases has

end Entries

/-- Two instances say the same: their inputs and outputs are equal as maps, their errors as
lists. -/
structure Instance.Alike (a b : Instance) : Prop where
  schemaId : a.schemaId = b.schemaId
  inputs : ∀ id, a.input? id = b.input? id
  outputs : ∀ id, a.output? id = b.output? id
  inputErrors : a.inputErrors = b.inputErrors
  outputErrors : a.outputErrors = b.outputErrors

namespace Instance.Alike

variable {a b c : Instance}

/-- An instance is like itself. -/
theorem refl (a : Instance) : a.Alike a := ⟨rfl, fun _ => rfl, fun _ => rfl, rfl, rfl⟩

/-- Likeness goes both ways. -/
theorem symm (alike : a.Alike b) : b.Alike a :=
  ⟨alike.schemaId.symm, fun id => (alike.inputs id).symm, fun id => (alike.outputs id).symm,
    alike.inputErrors.symm, alike.outputErrors.symm⟩

/-- Likeness is passed on. -/
theorem trans (first : a.Alike b) (second : b.Alike c) : a.Alike c :=
  ⟨first.schemaId.trans second.schemaId, fun id => (first.inputs id).trans (second.inputs id),
    fun id => (first.outputs id).trans (second.outputs id),
    first.inputErrors.trans second.inputErrors, first.outputErrors.trans second.outputErrors⟩

/-- What the comparison of instances accepts says the same. -/
theorem of_same (keyed : a.Keyed) (same : a.same b = true) : a.Alike b := by
  simp only [Instance.same, Bool.and_eq_true, decide_eq_true_eq] at same
  obtain ⟨⟨⟨⟨schemaId, inputs⟩, outputs⟩, inputErrors⟩, outputErrors⟩ := same
  exact ⟨schemaId, valueAt?_of_sameEntries keyed.1 inputs,
    valueAt?_of_sameEntries keyed.2 outputs, inputErrors, outputErrors⟩

end Instance.Alike

/-- No instance of the state lists an input or an output twice. -/
def State.Keyed (state : State) : Prop := ∀ entry ∈ state.nodes, entry.2.inst.Keyed
deriving Decidable

namespace Setting

/-- The same setting with another state before. -/
def since (s : Setting) (previous : Option State) : Setting := { s with previous }

/-- The instances of the state before list each input and output once. -/
def Keyed (s : Setting) : Prop := ∀ state, s.previous = some state → state.Keyed

end Setting

namespace Resolve

variable {s : Setting}

/-- An instance that is kept says what the new one says. -/
theorem reuse_alike (keyed : s.Keyed) (id : NodeId) (fresh : Instance) :
    (reuse s id fresh).inst.Alike fresh := by
  rcases reuse_cases id fresh with eq | ⟨state, before, mem, same⟩
  · rw [eq]
    exact .refl fresh
  · exact .of_same (keyed state before _ mem) same

/-- Reused instances list each key once. -/
theorem reuse_keyed (keyed : s.Keyed) (id : NodeId) {fresh : Instance} (new : fresh.Keyed) :
    (reuse s id fresh).inst.Keyed := by
  rcases reuse_cases id fresh with eq | ⟨state, before, mem, -⟩
  · rw [eq]
    exact new
  · exact keyed state before _ mem

end Resolve

variable {I : Instance → Instance → Prop}

/-- Two nodes are resolved equally far, to related instances. -/
inductive Slot.Related (I : Instance → Instance → Prop) : Slot → Slot → Prop
  | inProgress : Related I .inProgress .inProgress
  | resolved {r r' : Resolved} (related : I r.inst r'.inst) :
    Related I (.resolved r) (.resolved r')

/-- Two searches have come equally far. -/
structure Progress.Related (I : Instance → Instance → Prop) (p p' : Progress) : Prop where
  slots : RelatedEntries (Slot.Related I) p.slots p'.slots
  errors : p.errors = p'.errors

namespace Resolve

variable {α β : Type}

/-- From where two searches have come equally far, the computations have related results and come
equally far again, or end for good alike. -/
def RunsAlike (I : Instance → Instance → Prop) (R : α → α → Prop) (x y : ResolveM α) : Prop :=
  ∀ p p', Progress.Related I p p' →
    match x p, y p' with
    | .ok found, .ok found' => R found.1 found'.1 ∧ Progress.Related I found.2 found'.2
    | .error f, .error f' => f = f'
    | _, _ => False

namespace RunsAlike

variable {R : α → α → Prop} {S : β → β → Prop}

/-- Nothing is done. -/
theorem pure {a b : α} (related : R a b) : RunsAlike I R (Pure.pure a) (Pure.pure b) :=
  fun _ _ alike => ⟨related, alike⟩

/-- One step after the other. -/
theorem bind {x y : ResolveM α} {f g : α → ResolveM β} (first : RunsAlike I R x y)
    (next : ∀ a b, R a b → RunsAlike I S (f a) (g b)) : RunsAlike I S (x >>= f) (y >>= g) := by
  intro p p' alike
  have started := first p p' alike
  have left : (x >>= f) p = (x p >>= fun found => f found.1 found.2) := rfl
  have right : (y >>= g) p' = (y p' >>= fun found => g found.1 found.2) := rfl
  rw [left, right]
  cases ran : x p with
  | error e =>
    cases ran' : y p' with
    | error e' =>
      simp only [ran, ran'] at started
      exact started
    | ok found' => simp only [ran, ran'] at started
  | ok found =>
    cases ran' : y p' with
    | error e' => simp only [ran, ran'] at started
    | ok found' =>
      simp only [ran, ran'] at started
      exact next found.1 found'.1 started.1 found.2 found'.2 started.2

/-- Both look at progress that is alike. -/
theorem get_bind {f g : Progress → ResolveM β}
    (next : ∀ p p', Progress.Related I p p' → RunsAlike I S (f p) (g p')) :
    RunsAlike I S (get >>= f) (get >>= g) :=
  fun p p' alike => next p p' alike p p' alike

/-- Both note the same error. -/
theorem noteError (id : NodeId) (e : NodeError) :
    RunsAlike I Eq (noteError id e) (noteError id e) := by
  intro p p' alike
  refine ⟨rfl, alike.slots, ?_⟩
  show setEntry id e p.errors = setEntry id e p'.errors
  rw [alike.errors]

/-- Both note slots that are alike. -/
theorem noteSlot (id : NodeId) {slot slot' : Slot} (slots : slot.Related I slot') :
    RunsAlike I Eq (noteSlot id slot) (noteSlot id slot') :=
  fun _ _ alike => ⟨rfl, alike.slots.setEntry id slots, alike.errors⟩

end RunsAlike

/-- Related instances, each with its identity. -/
def Instances (I : Instance → Instance → Prop) (r r' : Resolved) : Prop := I r.inst r'.inst

/-- Related instances have the same outputs, and what a node gets with one state before is
related to what it gets with another. -/
structure Fits (I : Instance → Instance → Prop) (s : Setting) (previous : Option State) :
    Prop where
  outputs {a b : Instance} : I a b → ∀ id, a.output? id = b.output? id
  default {schema : SchemaId} {signature : Signature} :
    valueAt? schema s.signatures = some signature → I signature.default signature.default
  bound {schema : SchemaId} {signature : Signature} {provider : InputId → Option Ty}
    {narrowing : List (OutputId × Ty)} {passthrough : Passthrough} {fresh : Instance} :
    valueAt? schema s.signatures = some signature →
    signature.bind provider narrowing passthrough = .ok fresh →
    ∀ id, I (reuse s id fresh).inst (reuse (s.since previous) id fresh).inst

section

variable {s : Setting} {previous : Option State} (fits : Fits I s previous)
  {resolve resolve' : NodeId → ResolveM (Option Resolved)}
  (sources : ∀ id, RunsAlike I (Option.Rel (Instances I)) (resolve id) (resolve' id))
  (n : Node) {signature : Signature}

include fits sources in
/-- An input takes the same type. -/
theorem inputType_alike (input : InputId) :
    RunsAlike I Eq (inputType s resolve n signature input)
      (inputType (s.since previous) resolve' n signature input) := by
  unfold inputType
  have graph : (s.since previous).graph = s.graph := rfl
  rw [graph]
  cases s.graph.sourceOf n.id input with
  | none =>
    cases n.value? input with
    | some value => exact .pure rfl
    | none => exact .pure rfl
  | some edge =>
    apply RunsAlike.bind (sources edge.source)
    intro source source' same
    apply RunsAlike.pure
    cases same with
    | none => rfl
    | some related => exact fits.outputs related edge.sourceHandle

include fits sources in
/-- The inputs take the same types. -/
theorem suppliedTypes_alike (inputs : List InputId) :
    RunsAlike I Eq (suppliedTypes s resolve n signature inputs)
      (suppliedTypes (s.since previous) resolve' n signature inputs) := by
  induction inputs with
  | nil => exact .pure rfl
  | cons input rest ih =>
    apply RunsAlike.bind (inputType_alike fits sources n input)
    rintro type _ rfl
    apply RunsAlike.bind ih
    rintro others _ rfl
    exact .pure rfl

variable {schema : SchemaId} (known : valueAt? schema s.signatures = some signature)

include fits known

/-- Binding does not look at the state before. -/
theorem instantiate_alike (supplied : List (InputId × Ty)) :
    RunsAlike I (Instances I) (instantiate s n signature supplied)
      (instantiate (s.since previous) n signature supplied) := by
  intro p p' alike
  unfold instantiate
  have narrowing : (s.since previous).narrowing = s.narrowing := rfl
  have passthrough : (s.since previous).passthrough = s.passthrough := rfl
  rw [narrowing, passthrough]
  cases bound : signature.bind (fun input => valueAt? input supplied)
      ((valueAt? n.id s.narrowing).getD []) ((valueAt? n.schemaId s.passthrough).getD []) with
  | ok fresh => exact ⟨fits.bound known bound n.id, alike⟩
  | error halt =>
    cases halt with
    | error e =>
      obtain ⟨-, noted⟩ := RunsAlike.noteError n.id (.evaluation e) p p' alike
      exact ⟨fits.default known, noted⟩
    | fatal f => exact rfl

include sources in
/-- A node that is entered has like instances. -/
theorem enterNode_alike :
    RunsAlike I (Instances I) (enterNode s resolve n signature)
      (enterNode (s.since previous) resolve' n signature) := by
  unfold enterNode
  apply RunsAlike.bind (.noteSlot n.id .inProgress)
  rintro - - -
  apply RunsAlike.bind (suppliedTypes_alike fits sources n _)
  rintro supplied _ rfl
  apply RunsAlike.get_bind
  intro p p' alike
  rw [← alike.errors]
  have noted : ∀ r r', Instances I r r' → RunsAlike I (Instances I)
      (noteSlot n.id (.resolved r) >>= fun _ => Pure.pure r)
      (noteSlot n.id (.resolved r') >>= fun _ => Pure.pure r') := by
    intro r r' related
    apply RunsAlike.bind (.noteSlot n.id (.resolved related))
    rintro - - -
    exact .pure related
  by_cases failed : (valueAt? n.id p.errors).isSome = true
  · simp only [if_pos failed]
    exact .bind (.pure (fits.default known)) noted
  · simp only [if_neg failed]
    exact .bind (instantiate_alike fits n known supplied) noted

end

variable {s : Setting} {previous : Option State} (fits : Fits I s previous)

include fits

/-- A node is resolved to like instances. -/
theorem node_alike (levels : Nat) (id : NodeId) :
    RunsAlike I (Option.Rel (Instances I)) (node s levels id)
      (node (s.since previous) levels id) := by
  induction levels generalizing id with
  | zero => exact .pure .none
  | succ levels ih =>
    unfold node
    apply RunsAlike.get_bind
    intro p p' alike
    have slots := alike.slots.valueAt? id
    generalize valueAt? id p.slots = slot at slots
    generalize valueAt? id p'.slots = slot' at slots
    cases slots with
    | some same =>
      cases same with
      | resolved related => exact .pure (.some related)
      | inProgress =>
        apply RunsAlike.bind (.noteError id (.cycle id))
        rintro - - -
        exact .pure .none
    | none =>
      have looked : (s.since previous).node? id = s.node? id := rfl
      have signatures : (s.since previous).signatures = s.signatures := rfl
      rw [looked, signatures]
      cases s.node? id with
      | none => exact .pure .none
      | some n =>
        simp only
        cases known : valueAt? n.schemaId s.signatures with
        | none =>
          apply RunsAlike.bind (.noteError id (.unknownSchema n.schemaId))
          rintro - - -
          exact .pure .none
        | some signature =>
          apply RunsAlike.bind (enterNode_alike fits ih n known)
          intro r r' related
          exact .pure (.some related)

/-- All nodes are resolved alike. -/
theorem all_alike : RunsAlike I Eq (all s) (all (s.since previous)) := by
  have graph : (s.since previous).graph = s.graph := rfl
  unfold all
  rw [graph]
  generalize s.graph.nodes.length + 1 = levels
  induction s.graph.nodes with
  | nil => exact .pure rfl
  | cons n rest ih =>
    apply RunsAlike.bind (R := Eq)
    · apply RunsAlike.bind (node_alike fits levels n.id)
      intro _ _ _
      exact .pure rfl
    · rintro - - -
      exact ih

omit fits in
/-- Like slots are collected into like states. -/
theorem collect_alike {slots slots' : List (NodeId × Slot)}
    (related : RelatedEntries (Slot.Related I) slots slots') {done done' : List (NodeId × Resolved)}
    (before : RelatedEntries (Instances I) done done') (nodes : List Node) :
    RelatedEntries (Instances I) (collect slots done nodes) (collect slots' done' nodes) := by
  induction nodes generalizing done done' with
  | nil => exact before
  | cons n rest ih =>
    have here := related.valueAt? n.id
    unfold collect
    generalize valueAt? n.id slots = slot at here
    generalize valueAt? n.id slots' = slot' at here
    cases here with
    | none => exact ih before
    | some same =>
      cases same with
      | inProgress => exact ih before
      | resolved instances => exact ih (before.setEntry n.id instances)

/-- With either state before, the search ends for good alike or gives states with the same errors
and related instances of the same nodes. -/
theorem create_alike :
    (∃ f, State.create s = .error f ∧ State.create (s.since previous) = .error f) ∨
    ∃ state state', State.create s = .ok state ∧ State.create (s.since previous) = .ok state' ∧
      state.errors = state'.errors ∧
      RelatedEntries (Instances I) state.nodes state'.nodes := by
  have ran := all_alike fits ⟨[], []⟩ ⟨[], []⟩ ⟨.nil, rfl⟩
  have created : ∀ setting, State.create setting = (all setting ⟨[], []⟩ >>= fun found =>
      .ok ⟨setting.revision, collect found.2.slots [] setting.graph.nodes,
        found.2.errors, setting.graph⟩) := fun _ => rfl
  rw [created s, created (s.since previous)]
  cases left : all s ⟨[], []⟩ with
  | error f =>
    cases right : all (s.since previous) ⟨[], []⟩ with
    | error f' =>
      simp only [left, right] at ran
      exact .inl ⟨f, rfl, congrArg _ ran.symm⟩
    | ok found' => simp only [left, right] at ran
  | ok found =>
    cases right : all (s.since previous) ⟨[], []⟩ with
    | error f' => simp only [left, right] at ran
    | ok found' =>
      simp only [left, right] at ran
      obtain ⟨-, slots, errors⟩ := ran
      exact .inr ⟨_, _, rfl, rfl, errors, collect_alike slots .nil s.graph.nodes⟩

end Resolve

namespace State

/-- Two states say the same of the same nodes. -/
structure Alike (state state' : State) : Prop where
  errors : state.errors = state'.errors
  nodes : RelatedEntries (Resolve.Instances Instance.Alike) state.nodes state'.nodes

/-- Like states have like instances. -/
theorem Alike.instance? {state state' : State} (alike : state.Alike state') (id : NodeId) :
    Option.Rel Instance.Alike (state.instance? id) (state'.instance? id) := by
  have related := alike.nodes.valueAt? id
  unfold State.instance? State.resolved?
  generalize valueAt? id state.nodes = found at related
  generalize valueAt? id state'.nodes = found' at related
  cases related with
  | none => exact .none
  | some same => exact .some same

/-- With another state before, the search ends for good alike or gives a state that says the
same. -/
theorem create_since {s : Setting} (keyed : s.Keyed) (previous : Option State)
    (keyed' : (s.since previous).Keyed) :
    (∃ f, create s = .error f ∧ create (s.since previous) = .error f) ∨
    ∃ state state', create s = .ok state ∧ create (s.since previous) = .ok state' ∧
      state.Alike state' := by
  have fits : Resolve.Fits Instance.Alike s previous := by
    constructor
    case outputs => exact fun alike => alike.outputs
    case default => exact fun _ => .refl _
    case bound =>
      intro schema signature provider narrowing passthrough fresh _ _ id
      exact (Resolve.reuse_alike keyed id fresh).trans (Resolve.reuse_alike keyed' id fresh).symm
  rcases Resolve.create_alike fits with fatal | ⟨state, state', created, created', errors, nodes⟩
  · exact .inl fatal
  · exact .inr ⟨state, state', created, created', errors, nodes⟩

/-- Instances made from schemas list each input and output once, if those of the state before
do. -/
theorem create_keyed {s : Setting} (keyed : s.Keyed)
    (evaluated : ∀ entry ∈ s.signatures, ∃ schema scope,
      Signature.ofSchema schema scope = .ok entry.2) {state : State}
    (created : create s = .ok state) : state.Keyed := by
  -- The search is compared with itself, and related instances are keyed ones.
  have fits : Resolve.Fits (fun a b => a = b ∧ a.Keyed) s s.previous := by
    constructor
    case outputs =>
      rintro a _ ⟨rfl, -⟩ id
      rfl
    case default =>
      intro schema signature found
      obtain ⟨_, _, ran⟩ := evaluated _ (mem_of_valueAt? found)
      exact ⟨rfl, Signature.default_keyed ran⟩
    case bound =>
      intro schema signature provider narrowing passthrough fresh found bound id
      obtain ⟨_, _, ran⟩ := evaluated _ (mem_of_valueAt? found)
      have new := Interface.keyed_of_bind (Signature.keys_of_ofSchema ran).2 bound
      exact ⟨rfl, Resolve.reuse_keyed keyed id new⟩
  rcases Resolve.create_alike fits with ⟨f, failed, -⟩ | ⟨found, other, created', -, -, nodes⟩
  · rw [created] at failed
    cases failed
  · obtain rfl : state = found := Except.ok.inj (created.symm.trans created')
    intro entry mem
    obtain ⟨entry', -, related⟩ := exists_right_of_forall₂ nodes mem
    exact related.2.2

/-- The state before does not change what a state says: errors are the same, and so are the
instances of all nodes up to the order of their inputs and outputs. With signatures that come from
schemas, the new state lists each input and output once again, and can be the state before in
turn. -/
theorem create_ignores_previous {s : Setting} (keyed : s.Keyed) :
    ((∃ f, create s = .error f ∧ create (s.since none) = .error f) ∨
      ∃ state fresh, create s = .ok state ∧ create (s.since none) = .ok fresh ∧
        state.errors = fresh.errors ∧
        state.nodes.map (·.1) = fresh.nodes.map (·.1) ∧
        ∀ id, Option.Rel Instance.Alike (state.instance? id) (fresh.instance? id)) ∧
    ((∀ entry ∈ s.signatures, ∃ schema scope, Signature.ofSchema schema scope = .ok entry.2) →
      ∀ state, create s = .ok state → state.Keyed) := by
  have keyedNone : (s.since none).Keyed := by
    intro state before
    cases before
  refine ⟨?_, fun evaluated state created => create_keyed keyed evaluated created⟩
  rcases create_since keyed none keyedNone with fatal | ⟨state, fresh, created, created', alike⟩
  · exact .inl fatal
  · exact .inr ⟨state, fresh, created, created', alike.errors, alike.nodes.keys_eq,
      alike.instance?⟩

namespace Sample

/-- What a node said that joined two texts, with its inputs the other way round. -/
def joined : Instance :=
  ⟨"join", [(1, .text "ho"), (0, .text "hi")], [(0, .union [.text "hi", .text "ho"])], [], []⟩

/-- A node that joins two texts and feeds another one, and one that feeds itself. The state before
is that of another graph, with an instance that says the same and one that does not. -/
def revised : Setting where
  graph := ⟨[⟨"after", "echo", []⟩, ⟨"meet", "join", [(0, .string "hi"), (1, .string "ho")]⟩,
      ⟨"loop", "echo", []⟩],
    [⟨"meet", 0, "after", 0⟩, ⟨"loop", 0, "loop", 0⟩]⟩
  narrowing := []
  signatures := [("echo", echo), ("join", join)]
  passthrough := [("echo", [(0, 0)])]
  previous := some ⟨3, [("meet", ⟨joined, .made 2 "meet"⟩),
    ("after", ⟨⟨"echo", [], [(0, .text "hi")], [], []⟩, .made 3 "after"⟩)],
    [("gone", .cycle "gone")], .empty⟩

/-- The changed setting lists each key once. -/
theorem keyed_revised : revised.Keyed := by
  intro state before
  obtain rfl := Option.some.inj before
  decide

/-- Its signatures come from schemas. -/
theorem evaluated_revised : ∀ entry ∈ revised.signatures, ∃ schema scope,
    Signature.ofSchema schema scope = .ok entry.2 := by
  intro entry mem
  rcases mem_pair.mp mem with rfl | rfl
  · exact ⟨echo.schema, [], rfl⟩
  · exact ⟨join.schema, [], rfl⟩

end Sample

open Sample

/-- A changed graph with a loop. -/
theorem create_ignores_previous_revised : revised.Keyed ∧
    ∃ state fresh, create revised = .ok state ∧ create (revised.since none) = .ok fresh ∧
      (state.instance? "meet").map (·.inputs) = some joined.inputs ∧
      (fresh.instance? "meet").map (·.inputs) = some joined.inputs.reverse ∧
      state.errors.map (·.1) = ["loop"] ∧ state.errors = fresh.errors ∧
      (∀ id, Option.Rel Instance.Alike (state.instance? id) (fresh.instance? id)) ∧
      state.Keyed := by
  obtain ⟨same, keyed⟩ := create_ignores_previous keyed_revised
  have kept : (create revised).toOption.map (fun state =>
      ((state.instance? "meet").map (·.inputs), state.errors.map (·.1))) =
      some (some joined.inputs, ["loop"]) := by decide +kernel
  have made : (create (revised.since none)).toOption.map (fun state =>
      (state.instance? "meet").map (·.inputs)) = some (some joined.inputs.reverse) := by
    decide +kernel
  rcases same with ⟨f, failed, -⟩ | ⟨state, fresh, created, created', errors, -, instances⟩
  · rw [failed] at kept
    cases kept
  · rw [created] at kept
    rw [created'] at made
    simp only [Except.toOption, Option.map_some, Option.some.injEq, Prod.mk.injEq] at kept made
    exact ⟨keyed_revised, state, fresh, created, created', kept.1, made, kept.2, errors,
      instances, keyed evaluated_revised state created⟩

end State

end TypeFlow
