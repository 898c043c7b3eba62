import TypeFlow.Proofs.Catalog.Accepted
import TypeFlow.Proofs.Exactness

/-!
# Supplied inputs

Binding keeps the declared inputs and their order. An input that nothing is supplied for keeps its
declared type. The type of another one has exactly the values of both the supplied and the declared
type, and where there is none the input is reported, in the order of the inputs. These are the
inputs to which the supplied type cannot be assigned.
-/

namespace TypeFlow

open List

namespace Interface

/-- Added inputs have the declared keys, in order. -/
theorem keys_of_foldlM_addInput {scope : Scope} {inputs : List InputSchema}
    {sofar final : List (InputId × Ty) × List (InputId × Adapter)}
    (ran : inputs.foldlM (addInput scope) sofar = .ok final) :
    ∃ added, final.1.map (·.1) = sofar.1.map (·.1) ++ added ∧
      added.Sublist (inputs.map (·.id)) ∧
      ∀ input ∈ inputs, input.id ∈ final.1.map (·.1) := by
  induction inputs generalizing sofar with
  | nil =>
    obtain rfl := Except.ok.inj ran
    exact ⟨[], by simp, .slnil, by simp⟩
  | cons input rest ih =>
    rw [foldlM_cons, addInput_eq] at ran
    obtain ⟨next, here, ran⟩ := bind_eq_ok_iff.mp ran
    obtain ⟨type, -, here⟩ := bind_eq_ok_iff.mp here
    obtain ⟨adapter, -, here⟩ := bind_eq_ok_iff.mp here
    obtain rfl := Except.ok.inj here
    obtain ⟨added, keys, sublist, members⟩ := ih ran
    rw [keys_setEntry] at keys
    by_cases known : input.id ∈ sofar.1.map (·.1)
    · rw [if_pos known] at keys
      refine ⟨added, keys, sublist.cons _, forall_mem_cons.mpr ⟨?_, members⟩⟩
      rw [keys]
      exact mem_append_left _ known
    · rw [if_neg known, append_assoc] at keys
      refine ⟨input.id :: added, keys, sublist.cons_cons _, forall_mem_cons.mpr ⟨?_, members⟩⟩
      rw [keys]
      exact mem_append_right _ mem_cons_self

end Interface

namespace Signature

variable {schema : NodeSchema} {scope : Scope} {signature : Signature}

/-- A signature has the declared inputs, in order. -/
theorem inputs_of_ofSchema (evaluated : Signature.ofSchema schema scope = .ok signature) :
    (signature.inputs.map (·.1)).Sublist (schema.inputs.map (·.id)) ∧
      ∀ input ∈ schema.inputs, input.id ∈ signature.inputs.map (·.1) := by
  unfold Signature.ofSchema Interface.ofSchema at evaluated
  obtain ⟨interface, made, evaluated⟩ := bind_eq_ok_iff.mp evaluated
  obtain ⟨default, -, evaluated⟩ := bind_eq_ok_iff.mp evaluated
  obtain rfl := Except.ok.inj evaluated
  obtain ⟨⟨inputs, adapters⟩, ran, same⟩ := bind_eq_ok_iff.mp made
  obtain rfl := Except.ok.inj same
  obtain ⟨added, keys, sublist, members⟩ := Interface.keys_of_foldlM_addInput ran
  rw [map_nil, nil_append] at keys
  exact ⟨keys ▸ sublist, members⟩

/-- Supplied types go with the declared ones: they are well-formed, have small numbers, and structs
of one name have the same fields in them. -/
def Admits (signature : Signature) (provider : InputId → Option Ty) : Prop :=
  ∀ id declared assigned, signature.input? id = some declared → provider id = some assigned →
    (∀ t ∈ [assigned, declared], t.WellFormed) ∧ (∀ t ∈ [assigned, declared], t.Small) ∧
      Ty.Consistent [assigned, declared]

/-- The supplied inputs that cannot be assigned, in the order of the inputs. -/
def refused (signature : Signature) (provider : InputId → Option Ty) : List InputError :=
  signature.inputs.filterMap fun input => (provider input.1).bind fun assigned =>
    match signature.canAssign input.1 assigned with
    | .ok false => some ⟨input.1, assigned, input.2⟩
    | _ => none

section Bound

variable {provider : InputId → Option Ty}

/-- The reported inputs are those that are refused. -/
theorem mismatches_eq_refused (nodup : (signature.inputs.map (·.1)).Nodup) :
    signature.inputs.filterMap (Interface.mismatch? provider) = signature.refused provider := by
  refine filterMap_congr fun input mem => ?_
  have has : signature.input? input.1 = some input.2 := valueAt?_of_mem nodup mem
  unfold Interface.mismatch?
  cases supplied : provider input.1 with
  | none => rfl
  | some assigned =>
    simp only [Interface.narrowed, supplied, Option.bind_some, canAssign_eq has]
    rcases Ty.intersectionOf [assigned, input.2] with c | t
    · rfl
    · cases t <;> rfl

/-- Narrowing an input keeps the values of both types, and the input is refused if there are
none. -/
theorem exists_narrowed (admits : signature.Admits provider) {id : InputId} {declared assigned : Ty}
    (has : signature.input? id = some declared) (supplied : provider id = some assigned) :
    ∃ t, Interface.narrowed provider (id, declared) = .ok t ∧
      (∀ v, v ∈ t ↔ v ∈ assigned ∧ v ∈ declared) ∧
      signature.canAssign id assigned = .ok (!t.isNever) ∧
      (t.isNever = true ↔ ∀ v, ¬ (v ∈ assigned ∧ v ∈ declared)) := by
  obtain ⟨wellFormed, small, consistent⟩ := admits id declared assigned has supplied
  obtain ⟨shape, keeps⟩ := Ty.exists_keeps wellFormed small consistent
  obtain ⟨t, common, keepsT, values⟩ := Invariant.intersectionOf_yields keeps
  have both : ∀ v, v ∈ t ↔ v ∈ assigned ∧ v ∈ declared := by simpa using values
  refine ⟨t, by simp only [Interface.narrowed, supplied, common], both, ?_, ?_⟩
  · rw [canAssign_eq has, common]
    rfl
  · rw [Ty.isNever_iff, Ty.eq_never_iff keepsT.1]
    simp only [both]

end Bound

/-- Binding is exact: the declared inputs stay as they are listed, an input that nothing is supplied
for keeps its declared type, another one has the values of both its types, and the inputs without
such a value, which are those that cannot be assigned, are the errors in their order. -/
theorem bind_inputs_exact {provider : InputId → Option Ty} {narrowing : List (OutputId × Ty)}
    {passthrough : Passthrough} {result : Instance}
    (evaluated : Signature.ofSchema schema scope = .ok signature)
    (admits : signature.Admits provider)
    (bound : signature.bind provider narrowing passthrough = .ok result) :
    (result.inputs.map (·.1) = signature.inputs.map (·.1) ∧
      (signature.inputs.map (·.1)).Nodup ∧
      (signature.inputs.map (·.1)).Sublist (schema.inputs.map (·.id)) ∧
      ∀ input ∈ schema.inputs, input.id ∈ signature.inputs.map (·.1)) ∧
    (∀ id declared, signature.input? id = some declared →
      (provider id = none → result.input? id = some declared) ∧
      ∀ assigned, provider id = some assigned →
        (∃ t, result.input? id = some t ∧ ∀ v, v ∈ t ↔ v ∈ assigned ∧ v ∈ declared) ∧
        ∃ fits, signature.canAssign id assigned = .ok fits ∧
          (fits = false ↔ ∀ v, ¬ (v ∈ assigned ∧ v ∈ declared))) ∧
    result.inputErrors = signature.refused provider := by
  obtain ⟨-, nodup⟩ := keys_of_ofSchema evaluated
  obtain ⟨sublist, members⟩ := inputs_of_ofSchema evaluated
  obtain ⟨-, binds⟩ := Interface.inputs_of_bind bound
  refine ⟨⟨binds.keys_eq, nodup, sublist, members⟩, fun id declared has => ⟨?_, ?_⟩, ?_⟩
  · intro unsupplied
    obtain ⟨t, found, narrows⟩ := binds.valueAt?_eq has
    simp only [Interface.narrowed, unsupplied, Except.ok.injEq] at narrows
    exact narrows ▸ found
  · intro assigned supplied
    obtain ⟨t, found, narrows⟩ := binds.valueAt?_eq has
    obtain ⟨t', narrows', values, assigns, never⟩ := exists_narrowed admits has supplied
    obtain rfl := Except.ok.inj (narrows.symm.trans narrows')
    exact ⟨⟨t, found, values⟩, _, assigns, by rw [Bool.not_eq_false', never]⟩
  · rw [binds.errors, mismatches_eq_refused nodup]

namespace Sample

/-- A number between 3 and 20, a digit, and a text. -/
def form : NodeSchema :=
  ⟨"form", "form",
    [⟨2, "number", .number (.reals (.fin 3) (.fin 20)), .number, false, true, false, none⟩,
      ⟨0, "digit", .number (.ints (.fin 0) (.fin 9)), .number, false, true, false, none⟩,
      ⟨1, "text", .string .all, .text, false, true, false, none⟩],
    [], false, .regular, []⟩

/-- Digits for the number and for the text. -/
def digits (id : InputId) : Option Ty :=
  if id = 0 then none else some (.number (.ints (.fin 0) (.fin 9)))

end Sample

open Sample

/-- Of the digits those from 3 are left for the number and none for the text. -/
theorem bind_inputs_exact_form : ∃ signature result, Signature.ofSchema form [] = .ok signature ∧
    signature.Admits digits ∧ signature.bind digits [] [] = .ok result ∧
    result.inputs.map (·.1) = [2, 0, 1] ∧
    result.input? 0 = some (.number (.ints (.fin 0) (.fin 9))) ∧
    (∃ t, result.input? 2 = some t ∧ ¬ Value.number (.fin 2) ∈ t ∧ Value.number (.fin 9) ∈ t) ∧
    result.inputErrors.map (·.input) = [1] := by
  obtain ⟨signature, evaluated, inputs⟩ : ∃ s, Signature.ofSchema form [] = .ok s ∧
      s.inputs = [(2, .number (.reals (.fin 3) (.fin 20))),
        (0, .number (.ints (.fin 0) (.fin 9))), (1, .string .all)] := ⟨_, rfl, rfl⟩
  obtain ⟨result, bound⟩ : ∃ r, signature.bind digits [] [] = .ok r := by
    cases evaluated
    exact ⟨_, rfl⟩
  have admits : signature.Admits digits := by
    intro id declared assigned has supplied
    have mem := mem_of_valueAt? has
    simp only [inputs, mem_cons, Prod.mk.injEq, not_mem_nil, or_false] at mem
    rcases mem with ⟨rfl, rfl⟩ | ⟨rfl, rfl⟩ | ⟨rfl, rfl⟩
    · cases supplied
      decide
    · cases supplied
    · cases supplied
      decide
  obtain ⟨⟨keys, -⟩, types, errors⟩ := bind_inputs_exact evaluated admits bound
  have declared : ∀ id, signature.input? id = _ := fun id => congrArg (valueAt? id) inputs
  refine ⟨signature, result, evaluated, admits, bound, ?_, ?_, ?_, ?_⟩
  · rw [keys, inputs]
    rfl
  · exact (types 0 _ (declared 0)).1 rfl
  · obtain ⟨⟨t, found, values⟩, -⟩ := (types 2 _ (declared 2)).2 _ rfl
    exact ⟨t, found, by rw [values]; decide, by rw [values]; decide⟩
  · rw [errors]
    cases evaluated
    rfl

end Signature

end TypeFlow
