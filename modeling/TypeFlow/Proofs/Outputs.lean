import TypeFlow.Proofs.Binding
import TypeFlow.Proofs.Values

/-!
# Outputs without a value

An output is set up to three times: to what it evaluates to without its errors, to what a reported
type leaves of that, and to the type of the input that it passes through. Only the first and the
last decide whether it has a value, and the list of outputs in error follows them. So the errors of
an instance are the outputs of type `never`, in their order and each of them once.
-/

namespace TypeFlow

open List

section Entries

variable {α β : Type} [DecidableEq α] {key : α} {value : β} {entries : List (α × β)}

/-- A value that is not looked for takes its key out of what is found. -/
theorem filter_setEntry {p : α × β → Bool} (unwanted : p (key, value) = false)
    (nodup : (entries.map (·.1)).Nodup) :
    (setEntry key value entries).filter p =
      (entries.filter p).filter fun entry => decide (entry.1 ≠ key) := by
  induction entries with
  | nil => simp [setEntry, unwanted]
  | cons entry rest ih =>
    rw [map_cons, nodup_cons] at nodup
    by_cases same : entry.1 = key
    · have others : rest.filter (fun entry => decide (entry.1 ≠ key)) = rest := by
        refine filter_eq_self.mpr fun other mem => decide_eq_true fun again => ?_
        exact nodup.1 (mem_map.mpr ⟨other, mem, again.trans same.symm⟩)
      rw [filter_filter, filter_cons_of_neg (by simp [same])]
      simp only [setEntry, same, if_true, filter_cons, unwanted, Bool.false_eq_true, if_false]
      rw [← filter_filter, filter_comm, others]
    · simp only [setEntry, same, if_false, filter_cons, ih nodup.2]
      cases p entry <;> simp [same]

end Entries

namespace Interface

variable {scope : Scope} {generics : Generics} {narrowing : List (OutputId × Ty)}

/-- The outputs in error are those of type `never`, in their order, and no output is listed
twice. -/
structure InStep (bound : BoundOutputs) : Prop where
  nodup : (bound.types.map (·.1)).Nodup
  errors : bound.errors.map (·.output) = (bound.types.filter (·.2.isNever)).map (·.1)

namespace InStep

variable {bound next : BoundOutputs}

/-- A new output is an error if it has no value. -/
theorem bindOutput (inStep : InStep bound) {output : OutputSchema}
    (new : output.id ∉ bound.types.map (·.1))
    (ran : Interface.bindOutput scope generics narrowing bound output = .ok next) :
    InStep next ∧ next.types.map (·.1) = bound.types.map (·.1) ++ [output.id] := by
  obtain ⟨value, reason, t, -, -, rfl⟩ := bindOutput_eq_ok_iff.mp ran
  simp only [setEntry_of_not_mem new, map_append, map_cons, map_nil, and_true]
  refine ⟨?_, ?_⟩
  · rw [map_append, map_singleton, ← concat_eq_append]
    exact inStep.nodup.concat new
  · simp only [filter_append, map_append, inStep.errors, outputError]
    cases never : t.isNever <;> simp [never]

/-- Bound outputs stay in step, in their order. -/
theorem foldlM_bindOutput (inStep : InStep bound) {outputs : List OutputSchema}
    (distinct : (outputs.map (·.id)).Nodup)
    (new : ∀ output ∈ outputs, output.id ∉ bound.types.map (·.1))
    (ran : outputs.foldlM (Interface.bindOutput scope generics narrowing) bound = .ok next) :
    InStep next ∧ next.types.map (·.1) = bound.types.map (·.1) ++ outputs.map (·.id) := by
  induction outputs generalizing bound with
  | nil =>
    obtain rfl := Except.ok.inj ran
    exact ⟨inStep, (append_nil _).symm⟩
  | cons output rest ih =>
    rw [map_cons, nodup_cons] at distinct
    rw [foldlM_cons] at ran
    obtain ⟨middle, here, later⟩ := bind_eq_ok_iff.mp ran
    obtain ⟨newHere, newLater⟩ := forall_mem_cons.mp new
    obtain ⟨inStepHere, keys⟩ := inStep.bindOutput newHere here
    have newNext : ∀ other ∈ rest, other.id ∉ middle.types.map (·.1) := by
      intro other mem
      rw [keys, mem_append, mem_singleton, not_or]
      refine ⟨newLater other mem, fun same => distinct.1 ?_⟩
      exact mem_map.mpr ⟨other, mem, same⟩
    obtain ⟨inStepNext, keysNext⟩ := ih inStepHere distinct.2 newNext later
    exact ⟨inStepNext, by rw [keysNext, keys, append_assoc]; rfl⟩

/-- An output that takes the type of an input is no error any more. -/
theorem passThrough (inStep : InStep bound) (inputs : BoundInputs) (pair : OutputId × InputId) :
    InStep (Interface.passThrough inputs bound pair) := by
  obtain ⟨output, input⟩ := pair
  simp only [Interface.passThrough]
  split
  · split
    · next t _ =>
      split
      · exact inStep
      · next values =>
        have unwanted : (output, t).2.isNever = false := Bool.eq_false_iff.mpr values
        refine ⟨nodup_keys_setEntry inStep.nodup, ?_⟩
        rw [filter_setEntry (p := fun entry => entry.2.isNever) unwanted inStep.nodup]
        calc (bound.errors.filter fun e => decide (e.output ≠ output)).map (·.output)
            = (bound.errors.map (·.output)).filter fun id => decide (id ≠ output) := by
              rw [filter_map]
              rfl
          _ = ((bound.types.filter (·.2.isNever)).map (·.1)).filter fun id =>
                decide (id ≠ output) := by rw [inStep.errors]
          _ = ((bound.types.filter (·.2.isNever)).filter fun entry =>
                decide (entry.1 ≠ output)).map (·.1) := by
              rw [filter_map]
              rfl
    · exact inStep
  · exact inStep

/-- Passing inputs through keeps outputs in step. -/
theorem foldl_passThrough (inStep : InStep bound) (inputs : BoundInputs)
    (passthrough : Passthrough) :
    InStep (passthrough.foldl (Interface.passThrough inputs) bound) := by
  induction passthrough generalizing bound with
  | nil => exact inStep
  | cons pair rest ih => exact ih (inStep.passThrough inputs pair)

end InStep

/-- Passing inputs through loses no output. -/
theorem keys_passThrough (inputs : BoundInputs) (passthrough : Passthrough)
    (outputs : BoundOutputs) :
    outputs.types.map (·.1) ⊆
      (passthrough.foldl (Interface.passThrough inputs) outputs).types.map (·.1) := by
  intro id mem
  obtain ⟨t, found⟩ := exists_valueAt? mem
  by_contra absent
  have missing := valueAt?_eq_none_iff.mpr absent
  rcases valueAt?_foldl_passThrough inputs passthrough outputs id with kept | ⟨t', taken, -⟩
  · rw [missing, found] at kept
    cases kept
  · rw [missing] at taken
    cases taken

end Interface

namespace Signature

/-- Where outputs have ids of their own, the errors of an instance are its outputs of type `never`,
in their order. So an output has one error if its type is `never` and none otherwise, and every
declared output has a type. -/
theorem outputErrors_exact {signature : Signature} {provider : InputId → Option Ty}
    {narrowing : List (OutputId × Ty)} {passthrough : Passthrough} {result : Instance}
    (distinct : (signature.schema.outputs.map (·.id)).Nodup)
    (bound : signature.bind provider narrowing passthrough = .ok result) :
    (∀ id, (result.outputErrors.map (·.output)).count id =
      if result.output? id = some .never then 1 else 0) ∧
    result.outputErrors.map (·.output) = (result.outputs.filter (·.2.isNever)).map (·.1) ∧
    ∀ output ∈ signature.schema.outputs, ∃ t, result.output? output.id = some t := by
  obtain ⟨inputs, outputs, -, evaluated, rfl⟩ := Interface.bind_ok_iff.mp bound
  have start : Interface.InStep ⟨[], []⟩ := ⟨nodup_nil, rfl⟩
  obtain ⟨inStepOutputs, keys⟩ := start.foldlM_bindOutput distinct (fun _ _ => by simp) evaluated
  have inStep := inStepOutputs.foldl_passThrough inputs passthrough
  refine ⟨fun id => ?_, inStep.errors, fun output mem => ?_⟩
  · have once : ((passthrough.foldl (Interface.passThrough inputs) outputs).errors.map
        (·.output)).Nodup := by
      rw [inStep.errors]
      exact inStep.nodup.sublist (filter_sublist.map _)
    rw [once.count]
    refine if_congr ?_ rfl rfl
    rw [inStep.errors]
    constructor
    · intro mem
      obtain ⟨⟨id, t⟩, listed, rfl⟩ := mem_map.mp mem
      obtain ⟨listed, never⟩ := mem_filter.mp listed
      cases Ty.isNever_iff.mp never
      exact valueAt?_of_mem inStep.nodup listed
    · intro never
      exact mem_map.mpr ⟨(id, .never), mem_filter.mpr ⟨mem_of_valueAt? never, rfl⟩, rfl⟩
  · apply exists_valueAt?
    apply Interface.keys_passThrough inputs passthrough outputs
    rw [keys]
    exact mem_map_of_mem mem

namespace Sample

/-- Outputs without a value, with an error for a value, with numbers, and with the input for a
value. -/
def faulty : NodeSchema :=
  ⟨"faulty", "faulty", [⟨0, "in", .number .all, .number, false, true, false, none⟩],
    [⟨4, "none", .never, true, none⟩,
      ⟨1, "error", .named "Error" [("message", .string (.literal "no"))], true, none⟩,
      ⟨2, "number", .number .all, true, none⟩, ⟨0, "same", .never, true, none⟩],
    false, .regular, []⟩

/-- A number for the input. -/
def five (_ : InputId) : Option Ty := some (.literal 5)

/-- A text for the number, and something for the error. -/
def reports : List (OutputId × Ty) := [(2, .strings), (1, .any)]

end Sample

open Sample

/-- Only the outputs without a value and with an error for a value are in error. -/
theorem outputErrors_exact_faulty : ∃ signature result,
    Signature.ofSchema faulty Prelude.scope = .ok signature ∧
    (signature.schema.outputs.map (·.id)).Nodup ∧
    signature.bind five reports [(0, 0)] = .ok result ∧
    result.outputErrors.map (·.output) = [4, 1] ∧
    (result.outputErrors.map (·.output)).count 0 = 0 ∧
    (result.outputErrors.map (·.output)).count 1 = 1 := by
  obtain ⟨signature, evaluated, schema⟩ : ∃ s, Signature.ofSchema faulty Prelude.scope = .ok s ∧
      s.schema = faulty := ⟨_, rfl, rfl⟩
  obtain ⟨result, bound, outputs⟩ : ∃ r, signature.bind five reports [(0, 0)] = .ok r ∧
      r.outputs = [(4, .never), (1, .never), (2, .number .all), (0, .literal 5)] := by
    cases evaluated
    exact ⟨_, rfl, rfl⟩
  have distinct : (signature.schema.outputs.map (·.id)).Nodup := by
    rw [schema]
    decide
  obtain ⟨count, errors, -⟩ := outputErrors_exact distinct bound
  have types : ∀ id, result.output? id = _ := fun id => congrArg (valueAt? id) outputs
  refine ⟨signature, result, evaluated, distinct, bound, ?_, ?_, ?_⟩
  · rw [errors, outputs]
    rfl
  · rw [count, types]
    rfl
  · rw [count, types]
    rfl

end Signature
end TypeFlow
