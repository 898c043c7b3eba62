import TypeFlow.Proofs.Entries
import TypeFlow.Proofs.Results
import TypeFlow.Signature

/-!
# Binding signatures

Binding has three steps. Each declared input is narrowed to what is supplied for it, which does
not depend on other inputs; outputs are evaluated from the types of the inputs alone; and outputs
that pass an input through take its type. The last step never takes the values of an output away.
-/

namespace TypeFlow

open List

/-- No input and no output is listed twice. -/
def Instance.Keyed (i : Instance) : Prop :=
  (i.inputs.map (·.1)).Nodup ∧ (i.outputs.map (·.1)).Nodup
deriving Decidable

namespace Interface

/-- The type of a declared input when it is bound. -/
def narrowed (provider : InputId → Option Ty) (input : InputId × Ty) : Checked Ty :=
  match provider input.1 with
  | none => .ok input.2
  | some assigned => Ty.intersectionOf [assigned, input.2]

/-- The error of an input that a type is supplied for, if nothing fits. -/
def mismatch? (provider : InputId → Option Ty) (input : InputId × Ty) : Option InputError :=
  (provider input.1).bind fun assigned =>
    match narrowed provider input with
    | .ok .never => some ⟨input.1, assigned, input.2⟩
    | _ => none

/-- Declared inputs are bound: each has its type, and those that nothing fits are errors. -/
structure BindsInputs (provider : InputId → Option Ty) (inputs : List (InputId × Ty))
    (types : List (InputId × Ty)) (errors : List InputError) : Prop where
  types : Forall₂
    (fun input entry => entry.1 = input.1 ∧ narrowed provider input = .ok entry.2) inputs types
  errors : errors = inputs.filterMap (mismatch? provider)

variable {interface : Interface} {provider provider' : InputId → Option Ty}

variable {input : InputId × Ty} {inputs : List (InputId × Ty)}

/-- A mismatch is reported where nothing is left of an input. -/
theorem mismatch?_eq_some_iff {e : InputError} :
    mismatch? provider input = some e ↔ ∃ assigned, provider input.1 = some assigned ∧
      narrowed provider input = .ok .never ∧ e = ⟨input.1, assigned, input.2⟩ := by
  unfold mismatch?
  cases provider input.1 with
  | none => simp
  | some assigned =>
    rcases narrowed provider input with c | t
    · simp
    · cases t <;> simp [eq_comm]

/-- A mismatch is read off the narrowed type. -/
theorem mismatch?_of_narrowed {t : Ty} (narrows : narrowed provider input = .ok t) :
    mismatch? provider input = (provider input.1).bind fun assigned =>
      if t.isNever then some ⟨input.1, assigned, input.2⟩ else none := by
  unfold mismatch?
  rw [narrows]
  cases provider input.1 with
  | none => rfl
  | some assigned => cases t <;> rfl

/-- An input is narrowed, reported and listed by itself. -/
theorem bindInput_eq (bound : BoundInputs) (input : InputId × Ty) :
    bindInput provider bound input = (narrowed provider input).map fun t =>
      ⟨bound.types ++ [(input.1, t)], bound.errors ++ (mismatch? provider input).toList,
        bound.supplied ++ (provider input.1).elim [] fun _ => [input.1]⟩ := by
  obtain ⟨id, declared⟩ := input
  cases narrows : narrowed provider (id, declared) with
  | error c =>
    cases supplied : provider id with
    | none => simp [narrowed, supplied] at narrows
    | some assigned =>
      simp only [narrowed, supplied] at narrows
      simp only [bindInput, supplied, narrows]
      rfl
  | ok t =>
    rw [mismatch?_of_narrowed narrows]
    cases supplied : provider id with
    | none =>
      simp only [narrowed, supplied, Except.ok.injEq] at narrows
      simp [bindInput, supplied, narrows, Except.map, pure, Except.pure]
    | some assigned =>
      simp only [narrowed, supplied] at narrows
      simp only [bindInput, supplied, narrows]
      cases t <;> rfl

/-- Inputs are bound one by one. -/
theorem foldlM_bindInput {start bound : BoundInputs}
    (ran : inputs.foldlM (bindInput provider) start = .ok bound) :
    ∃ types errors, BindsInputs provider inputs types errors ∧
      bound.types = start.types ++ types ∧ bound.errors = start.errors ++ errors := by
  induction inputs generalizing start with
  | nil =>
    obtain rfl := Except.ok.inj ran
    exact ⟨[], [], ⟨.nil, rfl⟩, by simp, by simp⟩
  | cons input rest ih =>
    rw [foldlM_cons, bindInput_eq] at ran
    cases here : narrowed provider input with
    | error c =>
      rw [here] at ran
      cases ran
    | ok t =>
      rw [here] at ran
      obtain ⟨types, errors, binds, sameTypes, sameErrors⟩ := ih ran
      refine ⟨(input.1, t) :: types, (mismatch? provider input).toList ++ errors,
        ⟨.cons ⟨rfl, here⟩ binds.types, ?_⟩, by simp [sameTypes], by simp [sameErrors]⟩
      rw [binds.errors]
      cases found : mismatch? provider input with
      | none => rw [filterMap_cons_none found, Option.toList_none, nil_append]
      | some e => rw [filterMap_cons_some found, Option.toList_some, singleton_append]

/-- Only what inputs are narrowed to counts. -/
theorem foldlM_bindInput_congr {start start' : BoundInputs}
    (alike : ∀ input ∈ inputs, narrowed provider input = narrowed provider' input)
    (same : start.types = start'.types) :
    (inputs.foldlM (bindInput provider) start).map (·.types) =
      (inputs.foldlM (bindInput provider') start').map (·.types) := by
  induction inputs generalizing start start' with
  | nil => exact congrArg Except.ok same
  | cons input rest ih =>
    rw [foldlM_cons, foldlM_cons, bindInput_eq, bindInput_eq, ← alike input mem_cons_self]
    cases narrowed provider input with
    | error c => rfl
    | ok t =>
      apply ih
      · exact fun other mem => alike other (mem_cons_of_mem _ mem)
      · simp only [same]

namespace BindsInputs

variable {inputs types : List (InputId × Ty)} {errors : List InputError}

/-- The errors are the mismatches of the inputs. -/
theorem mem_errors_iff (binds : BindsInputs provider inputs types errors) {e : InputError} :
    e ∈ errors ↔ ∃ input ∈ inputs, ∃ assigned, provider input.1 = some assigned ∧
      narrowed provider input = .ok .never ∧ e = ⟨input.1, assigned, input.2⟩ := by
  simp only [binds.errors, mem_filterMap, mismatch?_eq_some_iff]

/-- A declared input has its narrowed type. -/
theorem valueAt?_eq (binds : BindsInputs provider inputs types errors) {id : InputId}
    {declared : Ty} (has : valueAt? id inputs = some declared) :
    ∃ t, valueAt? id types = some t ∧ narrowed provider (id, declared) = .ok t := by
  have each := binds.types
  clear binds
  induction each with
  | nil => cases has
  | @cons input entry rest entries head tail ih =>
    obtain ⟨key, narrows⟩ := head
    by_cases same : input.1 = id
    · have first : input.2 = declared := by simpa [valueAt?, same] using has
      refine ⟨entry.2, by simp [valueAt?, key, same], ?_⟩
      rw [← narrows, ← same, ← first]
    · have later : valueAt? id rest = some declared := by simpa [valueAt?, same] using has
      obtain ⟨t, found, narrows⟩ := ih later
      exact ⟨t, by simpa [valueAt?, key, same] using found, narrows⟩

/-- A declared input that a type is supplied for is no error if some value fits. -/
theorem no_error_iff (binds : BindsInputs provider inputs types errors)
    (nodup : (inputs.map (·.1)).Nodup) {id : InputId} {declared assigned : Ty}
    (has : valueAt? id inputs = some declared) (supplied : provider id = some assigned) :
    (∀ e ∈ errors, e.input ≠ id) ↔
      ∃ t, Ty.intersectionOf [assigned, declared] = .ok t ∧ t ≠ .never := by
  have narrows : narrowed provider (id, declared) = Ty.intersectionOf [assigned, declared] := by
    simp only [narrowed, supplied]
  obtain ⟨t, -, result⟩ := binds.valueAt?_eq has
  rw [← narrows, result]
  constructor
  · intro none
    refine ⟨t, rfl, fun never => ?_⟩
    subst never
    have noted := binds.mem_errors_iff.mpr
      ⟨(id, declared), mem_of_valueAt? has, assigned, supplied, result, rfl⟩
    exact none _ noted rfl
  · rintro ⟨t', same, values⟩ e noted here
    obtain rfl := Except.ok.inj same
    obtain ⟨input, mem, other, -, never, rfl⟩ := binds.mem_errors_iff.mp noted
    obtain rfl : input.1 = id := here
    have same := (valueAt?_of_mem nodup mem).symm.trans has
    obtain rfl := Option.some.inj same
    exact values (Except.ok.inj (result.symm.trans never))

end BindsInputs

/-- What an output evaluates to without its errors, and their messages. -/
def evaluated (scope : Scope) (generics : Generics) (output : OutputSchema) :
    Run EvalError (Ty × Option String) := do
  let raw ← scope.evaluate generics output.type
  Run.ofChecked (splitErrors raw)

/-- What a reported type leaves of the type of an output. -/
def refined (reported : Option Ty) (value : Ty) : Checked Ty :=
  match reported with
  | none => .ok value
  | some t => (Ty.intersectionOf [value, t]).map fun both => if both.isNever then value else both

/-- The error of an output, if it has no value. -/
def outputError (id : OutputId) (reason : Option String) (t : Ty) : List OutputError :=
  if t.isNever then [⟨id, reason⟩] else []

variable {scope : Scope} {generics : Generics} {narrowing : List (OutputId × Ty)}
  {bound next : BoundOutputs} {passthrough : Passthrough} {result : Instance}

/-- An output is evaluated and then refined. -/
theorem bindOutput_eq (bound : BoundOutputs) (output : OutputSchema) :
    bindOutput scope generics narrowing bound output = (do
      let own ← evaluated scope generics output
      let t ← Run.ofChecked (refined (valueAt? output.id narrowing) own.1)
      return ⟨setEntry output.id t bound.types,
        bound.errors ++ outputError output.id own.2 t⟩) := by
  unfold bindOutput evaluated
  rw [bind_assoc]
  congr 1
  funext raw
  congr 1
  funext own
  obtain ⟨value, reason⟩ := own
  cases valueAt? output.id narrowing with
  | none => rfl
  | some reported =>
    simp only [refined]
    cases Ty.intersectionOf [value, reported] with
    | error c => rfl
    | ok both => rfl

/-- What a bound output is made of. -/
theorem bindOutput_eq_ok_iff {output : OutputSchema} :
    bindOutput scope generics narrowing bound output = .ok next ↔
      ∃ value reason t, evaluated scope generics output = .ok (value, reason) ∧
        refined (valueAt? output.id narrowing) value = .ok t ∧
        next = ⟨setEntry output.id t bound.types,
          bound.errors ++ outputError output.id reason t⟩ := by
  rw [bindOutput_eq, bind_eq_ok_iff]
  constructor
  · rintro ⟨⟨value, reason⟩, own, ran⟩
    obtain ⟨t, narrows, same⟩ := bind_eq_ok_iff.mp ran
    exact ⟨value, reason, t, own, Run.ofChecked_eq_ok_iff.mp narrows, (Except.ok.inj same).symm⟩
  · rintro ⟨value, reason, t, own, narrows, rfl⟩
    exact ⟨_, own, bind_eq_ok_iff.mpr ⟨t, Run.ofChecked_eq_ok_iff.mpr narrows, rfl⟩⟩

/-- The outputs of a schema, evaluated with types for its inputs. -/
def outputsFor (interface : Interface) (narrowing : List (OutputId × Ty))
    (types : List (InputId × Ty)) : Run EvalError BoundOutputs :=
  interface.schema.outputs.foldlM (bindOutput interface.scope
    (types.map fun entry => (InputId.parameter entry.1, entry.2)) narrowing) ⟨[], []⟩

/-- Binding in three steps. -/
theorem bind_eq (narrowing : List (OutputId × Ty)) (passthrough : Passthrough) :
    interface.bind provider narrowing passthrough =
      match interface.inputs.foldlM (bindInput provider) ⟨[], [], []⟩ with
      | .error c => .error (.fatal (.clash c))
      | .ok inputs => (interface.outputsFor narrowing inputs.types).map fun outputs =>
        ⟨interface.schema.id, inputs.types, (passthrough.foldl (passThrough inputs) outputs).types,
          inputs.errors, (passthrough.foldl (passThrough inputs) outputs).errors⟩ := by
  unfold bind
  cases interface.inputs.foldlM (bindInput provider) ⟨[], [], []⟩ with
  | error c => rfl
  | ok inputs =>
    show (interface.outputsFor narrowing inputs.types >>= _) =
      (interface.outputsFor narrowing inputs.types).map _
    cases interface.outputsFor narrowing inputs.types with
    | error h => rfl
    | ok outputs => rfl

/-- An instance is made of bound inputs and evaluated outputs, some of which pass inputs
through. -/
theorem bind_ok_iff :
    interface.bind provider narrowing passthrough = .ok result ↔
      ∃ inputs outputs, interface.inputs.foldlM (bindInput provider) ⟨[], [], []⟩ = .ok inputs ∧
        interface.outputsFor narrowing inputs.types = .ok outputs ∧
        result = ⟨interface.schema.id, inputs.types,
          (passthrough.foldl (passThrough inputs) outputs).types, inputs.errors,
          (passthrough.foldl (passThrough inputs) outputs).errors⟩ := by
  rw [bind_eq]
  cases interface.inputs.foldlM (bindInput provider) ⟨[], [], []⟩ with
  | error c => simp
  | ok inputs => simp [map_eq_ok_iff, eq_comm (a := result)]

/-- An output that passes an input through keeps its type or takes one that has values. -/
theorem valueAt?_passThrough (inputs : BoundInputs) (outputs : BoundOutputs)
    (pair : OutputId × InputId) (output : OutputId) :
    valueAt? output (passThrough inputs outputs pair).types = valueAt? output outputs.types ∨
      ∃ t, valueAt? output (passThrough inputs outputs pair).types = some t ∧
        t.isNever = false := by
  obtain ⟨passed, input⟩ := pair
  simp only [passThrough]
  by_cases supplied : input ∈ inputs.supplied
  · rw [if_pos supplied]
    cases valueAt? input inputs.types with
    | none => exact .inl rfl
    | some t =>
      by_cases never : t.isNever = true
      · exact .inl (by simp only [never, if_true])
      · simp only [never, Bool.false_eq_true, if_false]
        by_cases same : passed = output
        · subst same
          exact .inr ⟨t, valueAt?_setEntry_self _ _ _, Bool.eq_false_iff.mpr never⟩
        · exact .inl (valueAt?_setEntry_of_ne same _ _)
  · exact .inl (by rw [if_neg supplied])

/-- An output that passes nothing through keeps its type. -/
theorem valueAt?_foldl_passThrough (inputs : BoundInputs) (passthrough : Passthrough)
    (outputs : BoundOutputs) (output : OutputId) :
    valueAt? output (passthrough.foldl (passThrough inputs) outputs).types =
        valueAt? output outputs.types ∨
      ∃ t, valueAt? output (passthrough.foldl (passThrough inputs) outputs).types = some t ∧
        t.isNever = false := by
  induction passthrough generalizing outputs with
  | nil => exact .inl rfl
  | cons pair rest ih =>
    rw [foldl_cons]
    rcases ih (passThrough inputs outputs pair) with kept | taken
    · rw [kept]
      exact valueAt?_passThrough inputs outputs pair output
    · exact .inr taken

/-- Bound inputs have the declared keys. -/
theorem BindsInputs.keys_eq {inputs types : List (InputId × Ty)} {errors : List InputError}
    (binds : BindsInputs provider inputs types errors) :
    types.map (·.1) = inputs.map (·.1) := by
  have each := binds.types
  clear binds
  induction each with
  | nil => rfl
  | cons head tail ih => rw [map_cons, map_cons, head.1, ih]

/-- Binding sets one output. -/
theorem types_of_bindOutput {output : OutputSchema}
    (ran : bindOutput scope generics narrowing bound output = .ok next) :
    ∃ value, next.types = setEntry output.id value bound.types := by
  obtain ⟨-, -, t, -, -, rfl⟩ := bindOutput_eq_ok_iff.mp ran
  exact ⟨t, rfl⟩

/-- Each output is there once. -/
theorem nodup_keys_outputsFor {types : List (InputId × Ty)} {outputs : BoundOutputs}
    (evaluated : interface.outputsFor narrowing types = .ok outputs) :
    (outputs.types.map (·.1)).Nodup := by
  refine foldlM_keeps (P := fun sofar : BoundOutputs => (sofar.types.map (·.1)).Nodup) evaluated
    nodup_nil ?_
  intro sofar nodup output mem next ran
  obtain ⟨value, types⟩ := types_of_bindOutput ran
  rw [types]
  exact nodup_keys_setEntry nodup

/-- Passing inputs through repeats no output. -/
theorem nodup_keys_passThrough (inputs : BoundInputs) (passthrough : Passthrough)
    {outputs : BoundOutputs} (nodup : (outputs.types.map (·.1)).Nodup) :
    ((passthrough.foldl (passThrough inputs) outputs).types.map (·.1)).Nodup := by
  induction passthrough generalizing outputs with
  | nil => exact nodup
  | cons pair rest ih =>
    rw [foldl_cons]
    apply ih
    obtain ⟨output, input⟩ := pair
    simp only [passThrough]
    split
    · split
      · split
        · exact nodup
        · exact nodup_keys_setEntry nodup
      · exact nodup
    · exact nodup

/-- The inputs of an instance are the bound ones. -/
theorem inputs_of_bind (bound : interface.bind provider narrowing passthrough = .ok result) :
    result.schemaId = interface.schema.id ∧
      BindsInputs provider interface.inputs result.inputs result.inputErrors := by
  obtain ⟨inputs, outputs, ran, -, rfl⟩ := bind_ok_iff.mp bound
  obtain ⟨types, errors, binds, sameTypes, sameErrors⟩ := foldlM_bindInput ran
  refine ⟨rfl, ?_⟩
  simp only [sameTypes, sameErrors, nil_append]
  exact binds

/-- An instance lists each input and output once, if the declared inputs are listed once. -/
theorem keyed_of_bind (nodup : (interface.inputs.map (·.1)).Nodup)
    (bound : interface.bind provider narrowing passthrough = .ok result) : result.Keyed := by
  refine ⟨?_, ?_⟩
  · rw [(inputs_of_bind bound).2.keys_eq]
    exact nodup
  · obtain ⟨inputs, outputs, -, evaluated, rfl⟩ := bind_ok_iff.mp bound
    exact nodup_keys_passThrough inputs passthrough (nodup_keys_outputsFor evaluated)

/-- Where inputs are narrowed alike, binding ends alike, with or without passing inputs through,
and an output that has values without that has values with it. -/
theorem bind_without_passthrough
    (alike : ∀ input ∈ interface.inputs, narrowed provider input = narrowed provider' input)
    (narrowing : List (OutputId × Ty)) (passthrough : Passthrough) :
    (∃ halt, interface.bind provider narrowing passthrough = .error halt ∧
      interface.bind provider' narrowing [] = .error halt) ∨
    ∃ result plain, interface.bind provider narrowing passthrough = .ok result ∧
      interface.bind provider' narrowing [] = .ok plain ∧
      (∀ output, result.output? output = plain.output? output ∨
        ∃ t, result.output? output = some t ∧ t.isNever = false) ∧
      (passthrough = [] → result.outputs = plain.outputs) := by
  have types : (interface.inputs.foldlM (bindInput provider) ⟨[], [], []⟩).map (·.types) =
      (interface.inputs.foldlM (bindInput provider') ⟨[], [], []⟩).map (·.types) :=
    foldlM_bindInput_congr alike rfl
  rw [bind_eq, bind_eq]
  cases ran : interface.inputs.foldlM (bindInput provider) ⟨[], [], []⟩ with
  | error c =>
    cases ran' : interface.inputs.foldlM (bindInput provider') ⟨[], [], []⟩ with
    | error c' =>
      rw [ran, ran'] at types
      obtain rfl := Except.error.inj types
      exact .inl ⟨_, rfl, rfl⟩
    | ok inputs' =>
      rw [ran, ran'] at types
      cases types
  | ok inputs =>
    cases ran' : interface.inputs.foldlM (bindInput provider') ⟨[], [], []⟩ with
    | error c' =>
      rw [ran, ran'] at types
      cases types
    | ok inputs' =>
      rw [ran, ran'] at types
      have same : inputs.types = inputs'.types := Except.ok.inj types
      simp only [same]
      cases interface.outputsFor narrowing inputs'.types with
      | error h => exact .inl ⟨h, rfl, rfl⟩
      | ok outputs =>
        refine .inr ⟨_, _, rfl, rfl, valueAt?_foldl_passThrough inputs passthrough outputs, ?_⟩
        rintro rfl
        rfl

end Interface

/-- A type can be assigned if something is left of it. -/
theorem Signature.canAssign_eq {signature : Signature} {input : InputId} {type declared : Ty}
    (has : signature.input? input = some declared) :
    signature.canAssign input type =
      (Ty.intersectionOf [type, declared]).map fun t => !t.isNever := by
  simp only [canAssign, has, Ty.disjoint]
  cases Ty.intersectionOf [type, declared] with
  | error c => rfl
  | ok t => rfl

end TypeFlow
