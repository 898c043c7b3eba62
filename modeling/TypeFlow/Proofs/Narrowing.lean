import TypeFlow.Proofs.Algebra.Conservative
import TypeFlow.Proofs.Operands
import TypeFlow.Proofs.Outputs

/-!
# Reported types of outputs

A type that is reported for an output can only refine it. It counts where something is left of the
output, and then it takes values away; otherwise the output keeps its own type. So binding with
reported types ends as binding without them does, with the same errors, and no output has a value
that it would not have by itself.
-/

namespace TypeFlow

open List

namespace Interface

variable {reported : Option Ty} {own t other : Ty} {values : Value → Prop}

/-- An output keeps its own type or takes a part of it that has a value. -/
theorem refined_cases (ran : refined reported own = .ok t) :
    t = own ∨ ∃ other, reported = some other ∧ Ty.intersectionOf [own, other] = .ok t ∧
      t.isNever = false := by
  cases reported with
  | none => exact .inl (Except.ok.inj ran).symm
  | some other =>
    obtain ⟨both, common, same⟩ := map_eq_ok_iff.mp ran
    by_cases never : both.isNever = true
    · rw [if_pos never] at same
      exact .inl same.symm
    · rw [if_neg never] at same
      exact .inr ⟨other, rfl, same ▸ common, same ▸ Bool.eq_false_iff.mpr never⟩

/-- A reported type neither gives an output a value nor takes the last one. -/
theorem isNever_of_refined (ran : refined reported own = .ok t) : t.isNever = own.isNever := by
  rcases refined_cases ran with rfl | ⟨other, -, common, values⟩
  · rfl
  · rw [values]
    cases own with
    | never =>
      rw [Ty.intersectionOf_never] at common
      rw [← Except.ok.inj common] at values
      cases values
    | _ => rfl

/-- Types that go together meet without a clash. -/
theorem exists_refined (consistent : ∀ other, reported = some other → Ty.Consistent [own, other]) :
    ∃ t, refined reported own = .ok t := by
  cases reported with
  | none => exact ⟨own, rfl⟩
  | some other =>
    obtain ⟨shape, shaped⟩ := Ty.exists_shaped (consistent other rfl)
    obtain ⟨both, common, -⟩ := Ty.intersectionOf_shaped shaped
    exact ⟨_, map_eq_ok_iff.mpr ⟨both, common, rfl⟩⟩

/-- The errors are the same, and so are the outputs, with related types. -/
structure Refines (R : Ty → Ty → Prop) (bound plain : BoundOutputs) : Prop where
  errors : bound.errors = plain.errors
  types : RelatedEntries R bound.types plain.types

variable {scope : Scope} {generics : Generics} {narrowing : List (OutputId × Ty)}
  {bound plain final : BoundOutputs} {outputs : List OutputSchema} {R : Ty → Ty → Prop}

/-- Without a report an output keeps its own type. -/
theorem bindOutput_nil_eq_ok_iff {output : OutputSchema} :
    bindOutput scope generics [] plain output = .ok final ↔
      ∃ own reason, evaluated scope generics output = .ok (own, reason) ∧
        final = ⟨setEntry output.id own plain.types,
          plain.errors ++ outputError output.id reason own⟩ := by
  rw [bindOutput_eq_ok_iff]
  constructor
  · rintro ⟨own, reason, t, here, narrows, rfl⟩
    obtain rfl := Except.ok.inj narrows
    exact ⟨own, reason, here, rfl⟩
  · rintro ⟨own, reason, here, rfl⟩
    exact ⟨own, reason, own, here, rfl, rfl⟩

/-- What can be evaluated with reported types can be evaluated without them. -/
theorem exists_foldlM_bindOutput_nil
    (ran : outputs.foldlM (bindOutput scope generics narrowing) bound = .ok final)
    (plain : BoundOutputs) :
    ∃ result, outputs.foldlM (bindOutput scope generics []) plain = .ok result := by
  induction outputs generalizing bound plain with
  | nil => exact ⟨plain, rfl⟩
  | cons output rest ih =>
    rw [foldlM_cons] at ran
    obtain ⟨next, here, later⟩ := bind_eq_ok_iff.mp ran
    obtain ⟨own, reason, t, evaluates, -, -⟩ := bindOutput_eq_ok_iff.mp here
    let middle : BoundOutputs :=
      ⟨setEntry output.id own plain.types, plain.errors ++ outputError output.id reason own⟩
    have step : bindOutput scope generics [] plain output = .ok middle :=
      bindOutput_nil_eq_ok_iff.mpr ⟨own, reason, evaluates, rfl⟩
    obtain ⟨result, last⟩ := ih later middle
    refine ⟨result, ?_⟩
    rw [foldlM_cons]
    exact bind_eq_ok_iff.mpr ⟨middle, step, last⟩

/-- Outputs that can be evaluated by themselves, and whose reported types refine them, can be
evaluated with the reported types. -/
theorem foldlM_bindOutput_refines
    (refines : ∀ output ∈ outputs, ∀ own reason,
      evaluated scope generics output = .ok (own, reason) →
      ∃ t, refined (valueAt? output.id narrowing) own = .ok t ∧ R t own)
    (start : Refines R bound plain)
    (ran : outputs.foldlM (bindOutput scope generics []) plain = .ok final) :
    ∃ result, outputs.foldlM (bindOutput scope generics narrowing) bound = .ok result ∧
      Refines R result final := by
  induction outputs generalizing bound plain with
  | nil =>
    obtain rfl := Except.ok.inj ran
    exact ⟨bound, rfl, start⟩
  | cons output rest ih =>
    obtain ⟨refinesHere, refinesLater⟩ := forall_mem_cons.mp refines
    rw [foldlM_cons] at ran
    obtain ⟨next, here, later⟩ := bind_eq_ok_iff.mp ran
    obtain ⟨own, reason, evaluates, rfl⟩ := bindOutput_nil_eq_ok_iff.mp here
    obtain ⟨t, narrows, related⟩ := refinesHere own reason evaluates
    let middle : BoundOutputs :=
      ⟨setEntry output.id t bound.types, bound.errors ++ outputError output.id reason t⟩
    have step : bindOutput scope generics narrowing bound output = .ok middle :=
      bindOutput_eq_ok_iff.mpr ⟨own, reason, t, evaluates, narrows, rfl⟩
    have same : outputError output.id reason t = outputError output.id reason own := by
      unfold outputError
      rw [isNever_of_refined narrows]
    have errors : middle.errors = plain.errors ++ outputError output.id reason own := by
      rw [← same, ← start.errors]
    obtain ⟨result, last, refinesFinal⟩ := ih refinesLater
      ⟨errors, start.types.setEntry _ related⟩ later
    refine ⟨result, ?_, refinesFinal⟩
    rw [foldlM_cons]
    exact bind_eq_ok_iff.mpr ⟨middle, step, last⟩

/-- Binding leaves other outputs alone. -/
theorem valueAt?_of_foldlM_bindOutput {id : OutputId}
    (ran : outputs.foldlM (bindOutput scope generics narrowing) bound = .ok final)
    (other : id ∉ outputs.map (·.id)) : valueAt? id final.types = valueAt? id bound.types := by
  refine foldlM_keeps (P := fun sofar : BoundOutputs =>
    valueAt? id sofar.types = valueAt? id bound.types) ran rfl ?_
  intro sofar same output mem next here
  obtain ⟨own, reason, t, -, -, rfl⟩ := bindOutput_eq_ok_iff.mp here
  have differ : output.id ≠ id := fun same => other (mem_map.mpr ⟨output, mem, same⟩)
  rw [valueAt?_setEntry_of_ne differ, same]

/-- Without reports each output has its own type. -/
theorem valueAt?_of_evaluated (distinct : (outputs.map (·.id)).Nodup)
    (ran : outputs.foldlM (bindOutput scope generics []) plain = .ok final)
    {output : OutputSchema} (mem : output ∈ outputs) {own : Ty} {reason : Option String}
    (evaluates : evaluated scope generics output = .ok (own, reason)) :
    valueAt? output.id final.types = some own := by
  induction outputs generalizing plain with
  | nil => cases mem
  | cons first rest ih =>
    rw [map_cons, nodup_cons] at distinct
    rw [foldlM_cons] at ran
    obtain ⟨next, here, later⟩ := bind_eq_ok_iff.mp ran
    rcases mem_cons.mp mem with rfl | mem
    · obtain ⟨own', reason', evaluates', rfl⟩ := bindOutput_nil_eq_ok_iff.mp here
      obtain ⟨rfl, -⟩ := Prod.mk.inj (Except.ok.inj (evaluates'.symm.trans evaluates))
      rw [valueAt?_of_foldlM_bindOutput later distinct.1, valueAt?_setEntry_self]
    · exact ih distinct.2 later mem

/-- Passing inputs through gives related outputs the same type. -/
theorem Refines.foldl_passThrough (refl : ∀ t, R t t) (refines : Refines R bound plain)
    (inputs : BoundInputs) (passthrough : Passthrough) :
    Refines R (passthrough.foldl (passThrough inputs) bound)
      (passthrough.foldl (passThrough inputs) plain) := by
  induction passthrough generalizing bound plain with
  | nil => exact refines
  | cons pair rest ih =>
    apply ih
    obtain ⟨output, input⟩ := pair
    simp only [passThrough]
    split
    · split
      · split
        · exact refines
        · exact ⟨by rw [refines.errors], refines.types.setEntry _ (refl _)⟩
      · exact refines
    · exact refines

/-- Types of an output that keep it from being or becoming `never`, and bring in none of the
values. -/
def Narrower (values : Value → Prop) (t own : Ty) : Prop :=
  t.isNever = own.isNever ∧ ∀ v, values v → v ∈ t → v ∈ own

/-- A type narrows itself. -/
theorem narrower_refl (t : Ty) : Narrower values t t :=
  ⟨rfl, fun _ _ has => has⟩

/-- A reported type that goes with the own type narrows it, if what both have in common brings in
none of the values. -/
theorem exists_narrower (consistent : ∀ other, reported = some other → Ty.Consistent [own, other])
    (inside : ∀ other, reported = some other → ∀ t, Ty.intersectionOf [own, other] = .ok t →
      ∀ v, values v → v ∈ t → v ∈ own) :
    ∃ t, refined reported own = .ok t ∧ Narrower values t own := by
  obtain ⟨t, ran⟩ := exists_refined consistent
  refine ⟨t, ran, isNever_of_refined ran, ?_⟩
  rcases refined_cases ran with rfl | ⟨other, same, common, -⟩
  · exact fun _ _ has => has
  · exact inside other same t common

/-- Sets of numbers with doubles for bounds have no other doubles in common than their own. -/
theorem doubles_of_intersection (held : ∀ t ∈ [own, other], t.Held)
    (common : Ty.intersectionOf [own, other] = .ok t) (v : Value) (doubles : v.OfDoubles)
    (has : v ∈ t) : v ∈ own :=
  Ty.intersectionOf_conservative held common v doubles has own mem_cons_self

/-- An intersection of small types has only values of the first. -/
theorem values_of_intersection (consistent : Ty.Consistent [own, other])
    (formed : ∀ t ∈ [own, other], t.WellFormed ∧ t.Small)
    (common : Ty.intersectionOf [own, other] = .ok t) (v : Value) (has : v ∈ t) : v ∈ own := by
  obtain ⟨shape, keeps⟩ := Ty.exists_keeps (fun t mem => (formed t mem).1)
    (fun t mem => (formed t mem).2) consistent
  obtain ⟨t', common', -, values⟩ := Invariant.intersectionOf_yields keeps
  obtain rfl := Except.ok.inj (common.symm.trans common')
  exact (values v).mp has own mem_cons_self

end Interface

namespace Signature

open Interface

variable {signature : Signature} {provider : InputId → Option Ty}
  {narrowing : List (OutputId × Ty)}

/-- What is reported for an output meets a condition together with the type that the output has by
itself. -/
def Reports (signature : Signature) (provider : InputId → Option Ty)
    (narrowing : List (OutputId × Ty)) (P : Ty → Ty → Prop) : Prop :=
  ∀ plain, signature.bind provider [] [] = .ok plain → ∀ id own reported,
    plain.output? id = some own → valueAt? id narrowing = some reported → P own reported

/-- Two facts about all reports. -/
theorem Reports.and {P Q : Ty → Ty → Prop} (first : signature.Reports provider narrowing P)
    (second : signature.Reports provider narrowing Q) :
    signature.Reports provider narrowing fun own reported => P own reported ∧ Q own reported :=
  fun plain bound id own reported found reports =>
    ⟨first plain bound id own reported found reports,
      second plain bound id own reported found reports⟩

/-- Binding with reported types follows binding without them, output by output. -/
theorem exists_bind_narrower (values : Value → Prop) {P : Ty → Ty → Prop}
    (distinct : (signature.schema.outputs.map (·.id)).Nodup)
    (reports : signature.Reports provider narrowing fun own reported =>
      Ty.Consistent [own, reported] ∧ P own reported)
    (inside : ∀ own reported t, Ty.Consistent [own, reported] → P own reported →
      Ty.intersectionOf [own, reported] = .ok t → ∀ v, values v → v ∈ t → v ∈ own)
    {passthrough : Passthrough} {plain : Instance}
    (ran : signature.bind provider [] passthrough = .ok plain) :
    ∃ result, signature.bind provider narrowing passthrough = .ok result ∧
      result.inputs = plain.inputs ∧ result.inputErrors = plain.inputErrors ∧
      result.outputErrors = plain.outputErrors ∧
      RelatedEntries (Narrower values) result.outputs plain.outputs := by
  obtain ⟨inputs, outputs, narrows, evaluates, rfl⟩ := bind_ok_iff.mp ran
  have alone : signature.bind provider [] [] = .ok
      ⟨signature.schema.id, inputs.types, outputs.types, inputs.errors, outputs.errors⟩ :=
    bind_ok_iff.mpr ⟨inputs, outputs, narrows, evaluates, rfl⟩
  have refines : ∀ output ∈ signature.schema.outputs, ∀ own reason,
      evaluated signature.scope
        (inputs.types.map fun entry => (InputId.parameter entry.1, entry.2)) output =
          .ok (own, reason) →
      ∃ t, refined (valueAt? output.id narrowing) own = .ok t ∧ Narrower values t own := by
    intro output mem own reason here
    have found := valueAt?_of_evaluated distinct evaluates mem here
    have meets := fun other => reports _ alone output.id own other found
    exact exists_narrower (fun other same => (meets other same).1) fun other same t =>
      inside own other t (meets other same).1 (meets other same).2
  have start : Refines (Narrower values) ⟨[], []⟩ ⟨[], []⟩ := ⟨rfl, .nil⟩
  obtain ⟨result, ran', related⟩ := foldlM_bindOutput_refines refines start evaluates
  have final := related.foldl_passThrough narrower_refl inputs passthrough
  exact ⟨_, bind_ok_iff.mpr ⟨inputs, result, narrows, ran', rfl⟩, rfl, rfl, final.errors,
    final.types⟩

/-- Binding without reported types succeeds where binding with them does. -/
theorem exists_bind_nil {passthrough : Passthrough} {result : Instance}
    (ran : signature.bind provider narrowing passthrough = .ok result) :
    ∃ plain, signature.bind provider [] passthrough = .ok plain := by
  obtain ⟨inputs, outputs, narrows, evaluates, -⟩ := bind_ok_iff.mp ran
  obtain ⟨plain, evaluates'⟩ := exists_foldlM_bindOutput_nil evaluates ⟨[], []⟩
  exact ⟨_, bind_ok_iff.mpr ⟨inputs, plain, narrows, evaluates', rfl⟩⟩

/-- Reported types only refine. Where outputs have ids of their own and what is reported for them
goes with their own types, binding succeeds with the reported types if and only if it does without
them. Then inputs and all errors are the same, and an output is `never` if and only if it is
`never` by itself. It has no value that it does not have by itself if the numbers are small, and
none of doubles whatever their size. -/
theorem narrowing_refines (passthrough : Passthrough)
    (distinct : (signature.schema.outputs.map (·.id)).Nodup)
    (consistent : signature.Reports provider narrowing fun own reported =>
      Ty.Consistent [own, reported]) :
    ((∃ result, signature.bind provider narrowing passthrough = .ok result) ↔
      ∃ plain, signature.bind provider [] passthrough = .ok plain) ∧
    ∀ result plain, signature.bind provider narrowing passthrough = .ok result →
      signature.bind provider [] passthrough = .ok plain →
      result.inputs = plain.inputs ∧ result.inputErrors = plain.inputErrors ∧
      result.outputErrors = plain.outputErrors ∧
      result.outputs.map (·.1) = plain.outputs.map (·.1) ∧
      ∀ id t own, result.output? id = some t → plain.output? id = some own →
        (t = .never ↔ own = .never) ∧
        (signature.Reports provider narrowing
          (fun own reported => ∀ t ∈ [own, reported], t.WellFormed ∧ t.Small) →
            ∀ v, v ∈ t → v ∈ own) ∧
        (signature.Reports provider narrowing (fun own reported => ∀ t ∈ [own, reported], t.Held) →
          ∀ v : Value, v.OfDoubles → v ∈ t → v ∈ own) := by
  have follows (values : Value → Prop) {P : Ty → Ty → Prop}
      (reports : signature.Reports provider narrowing P)
      (inside : ∀ own reported t, Ty.Consistent [own, reported] → P own reported →
        Ty.intersectionOf [own, reported] = .ok t → ∀ v, values v → v ∈ t → v ∈ own)
      {plain : Instance} (ran : signature.bind provider [] passthrough = .ok plain) :=
    exists_bind_narrower values distinct (consistent.and reports) inside ran
  -- Where nothing is asked of the values, reported types need only go with the own ones.
  have free : signature.Reports provider narrowing fun _ _ => True := fun _ _ _ _ _ _ _ => trivial
  refine ⟨⟨fun ⟨_, ran⟩ => exists_bind_nil ran, fun ⟨plain, ran⟩ => ?_⟩, ?_⟩
  · obtain ⟨result, ran', -⟩ := follows (fun _ => False) free (by simp) ran
    exact ⟨result, ran'⟩
  · intro result plain ran ran'
    obtain ⟨result', same, inputs, inputErrors, outputErrors, related⟩ :=
      follows (fun _ => False) free (by simp) ran'
    obtain rfl := Except.ok.inj (same.symm.trans ran)
    refine ⟨inputs, inputErrors, outputErrors, related.keys_eq, fun id t own found found' => ?_⟩
    have never := (related.of_valueAt? found found').1
    refine ⟨by rw [← Ty.isNever_iff, never, Ty.isNever_iff], fun formed v has => ?_,
      fun held v doubles has => ?_⟩
    · obtain ⟨result'', same', -, -, -, related'⟩ := follows (fun _ => True) formed
        (fun own reported t consistent formed common v _ =>
          values_of_intersection consistent formed common v) ran'
      obtain rfl := Except.ok.inj (same'.symm.trans ran)
      exact (related'.of_valueAt? found found').2 v trivial has
    · obtain ⟨result'', same', -, -, -, related'⟩ := follows Value.OfDoubles held
        (fun own reported t _ held common => doubles_of_intersection held common) ran'
      obtain rfl := Except.ok.inj (same'.symm.trans ran)
      exact (related'.of_valueAt? found found').2 v doubles has

namespace Sample

/-- Numbers up to 20 or an error, a text, nothing, and a number beyond the exact ones. -/
def mixed : NodeSchema :=
  ⟨"mixed", "mixed", [],
    [⟨0, "number", .union [.number (.ints (.fin 0) (.fin 20)), .named "Error" []], true, none⟩,
      ⟨1, "text", .string .all, true, none⟩, ⟨2, "none", .never, true, none⟩,
      ⟨3, "large", .number (.ints (.fin 0) (.fin (2 ^ 60))), true, none⟩],
    false, .regular, []⟩

/-- Numbers from 5 on for the numbers, and a number for the text. -/
def measured : List (OutputId × Ty) :=
  [(0, .number (.reals (.fin 5) .posInf)), (1, .literal 5), (2, .any),
    (3, .number (.ints (.fin 5) (.fin (2 ^ 54))))]

end Sample

open Sample

/-- The numbers are narrowed, the text is not, and nothing stays nothing. -/
theorem narrowing_refines_mixed : ∃ signature result plain,
    Signature.ofSchema mixed Prelude.scope = .ok signature ∧
    (signature.schema.outputs.map (·.id)).Nodup ∧
    (signature.Reports (fun _ => none) measured fun own reported =>
      Ty.Consistent [own, reported] ∧ ∀ t ∈ [own, reported], t.Held) ∧
    signature.bind (fun _ => none) [] [] = .ok plain ∧
    signature.bind (fun _ => none) measured [] = .ok result ∧
    result.outputErrors = plain.outputErrors ∧
    result.output? 0 = some (.number (.ints (.fin 5) (.fin 20))) ∧
    ∀ id t own, result.output? id = some t → plain.output? id = some own →
      ∀ v : Value, v.OfDoubles → v ∈ t → v ∈ own := by
  obtain ⟨signature, evaluated, schema⟩ : ∃ s, Signature.ofSchema mixed Prelude.scope = .ok s ∧
      s.schema = mixed := ⟨_, rfl, rfl⟩
  have distinct : (signature.schema.outputs.map (·.id)).Nodup := by
    rw [schema]
    decide
  obtain ⟨plain, bound, outputs⟩ : ∃ r, signature.bind (fun _ => none) [] [] = .ok r ∧
      r.outputs = [(0, .number (.ints (.fin 0) (.fin 20))), (1, .string .all), (2, .never),
        (3, .number (.ints (.fin 0) (.fin (2 ^ 60))))] := by
    cases evaluated
    exact ⟨_, rfl, rfl⟩
  obtain ⟨result, bound', narrowed⟩ : ∃ r, signature.bind (fun _ => none) measured [] = .ok r ∧
      r.output? 0 = some (.number (.ints (.fin 5) (.fin 20))) := by
    cases evaluated
    exact ⟨_, rfl, rfl⟩
  have reports : signature.Reports (fun _ => none) measured fun own reported =>
      Ty.Consistent [own, reported] ∧ ∀ t ∈ [own, reported], t.Held := by
    intro plain' again id own reported found reports
    obtain rfl := Except.ok.inj (again.symm.trans bound)
    have mem := mem_of_valueAt? found
    have mem' := mem_of_valueAt? reports
    simp only [outputs, measured, mem_cons, Prod.mk.injEq, not_mem_nil, or_false]
      at mem mem'
    rcases mem with ⟨rfl, rfl⟩ | ⟨rfl, rfl⟩ | ⟨rfl, rfl⟩ | ⟨rfl, rfl⟩ <;>
      simp at mem' <;> subst mem' <;> decide +kernel
  have consistent : signature.Reports (fun _ => none) measured fun own reported =>
      Ty.Consistent [own, reported] := fun plain bound id own reported found same =>
    (reports plain bound id own reported found same).1
  obtain ⟨-, refines⟩ := narrowing_refines [] distinct consistent
  obtain ⟨-, -, errors, -, values⟩ := refines result plain bound' bound
  refine ⟨signature, result, plain, evaluated, distinct, reports, bound, bound', errors, narrowed,
    fun id t own found found' => (values id t own found found').2.2 ?_⟩
  exact fun plain bound id own reported found same =>
    (reports plain bound id own reported found same).2

end Signature

end TypeFlow
