import TypeFlow.Catalog.Basic
import TypeFlow.Proofs.Binding
import TypeFlow.Proofs.Eval.Surroundings

/-!
# Accepted catalogs

What files must have done for a catalog to come out of them: their definitions make a scope, and
every schema has the signature that it evaluates to there.
-/

namespace TypeFlow

namespace Interface

/-- The declared type of an input; null is one of the values if the input is nullable. -/
def declaredType (scope : Scope) (input : InputSchema) : Run EvalError Ty := do
  let declared ← scope.evaluate [] input.type
  if input.nullable then Run.ofChecked (Ty.unionOf [declared, Prelude.null]) else pure declared

/-- An input adds its type and its adapter. -/
theorem addInput_eq (scope : Scope) (sofar : List (InputId × Ty) × List (InputId × Adapter))
    (input : InputSchema) : addInput scope sofar input = (do
      let type ← declaredType scope input
      let adapter ← adapterOf scope input.kind
      return (setEntry input.id type sofar.1, setEntry input.id adapter sofar.2)) := by
  unfold addInput declaredType
  rw [bind_assoc]
  congr 1
  funext declared
  by_cases nullable : input.nullable = true <;> simp [nullable]

/-- An interface has each declared input once. -/
theorem keys_of_ofSchema {schema : NodeSchema} {scope : Scope} {interface : Interface}
    (evaluated : Interface.ofSchema schema scope = .ok interface) :
    interface.schema = schema ∧ (interface.inputs.map (·.1)).Nodup := by
  unfold Interface.ofSchema at evaluated
  obtain ⟨⟨inputs, adapters⟩, ran, same⟩ := bind_eq_ok_iff.mp evaluated
  obtain rfl := Except.ok.inj same
  refine ⟨rfl, ?_⟩
  refine foldlM_keeps (P := fun sofar => (sofar.1.map (·.1)).Nodup) ran List.nodup_nil ?_
  intro sofar nodup input _ next added
  rw [addInput_eq] at added
  obtain ⟨type, -, added⟩ := bind_eq_ok_iff.mp added
  obtain ⟨adapter, -, added⟩ := bind_eq_ok_iff.mp added
  obtain rfl := Except.ok.inj added
  exact nodup_keys_setEntry nodup

end Interface

variable {schema : NodeSchema} {scope : Scope} {signature : Signature}

/-- A signature has each declared input once. -/
theorem Signature.keys_of_ofSchema (evaluated : Signature.ofSchema schema scope = .ok signature) :
    signature.schema = schema ∧ (signature.inputs.map (·.1)).Nodup := by
  unfold Signature.ofSchema at evaluated
  obtain ⟨interface, ran, evaluated⟩ := bind_eq_ok_iff.mp evaluated
  obtain ⟨default, -, evaluated⟩ := bind_eq_ok_iff.mp evaluated
  obtain rfl := Except.ok.inj evaluated
  exact Interface.keys_of_ofSchema ran

/-- Default instances list each key once. -/
theorem Signature.default_keyed (evaluated : Signature.ofSchema schema scope = .ok signature) :
    signature.default.Keyed := by
  unfold Signature.ofSchema at evaluated
  obtain ⟨interface, ran, evaluated⟩ := bind_eq_ok_iff.mp evaluated
  obtain ⟨default, bound, evaluated⟩ := bind_eq_ok_iff.mp evaluated
  obtain rfl := Except.ok.inj evaluated
  exact Interface.keyed_of_bind (Interface.keys_of_ofSchema ran).2 bound

namespace Catalog

/-- The scope of an accepted catalog is that of its definitions, and its signatures are those of
its schemas in this scope. -/
theorem ofFiles_eq_ok {files : List CatalogFile} {catalog : Catalog}
    (accepted : ofFiles files = .ok catalog) :
    scopeOf (files.flatMap (·.definitions)) = .ok catalog.scope ∧
      List.Forall₂ (fun schema entry => entry.1 = schema.id ∧
        Signature.ofSchema schema catalog.scope = .ok entry.2)
        (files.flatMap (·.schemas)) catalog.signatures := by
  unfold ofFiles at accepted
  simp only at accepted
  split at accepted
  · cases accepted
  · obtain ⟨scope, made, accepted⟩ := bind_eq_ok_iff.mp accepted
    obtain ⟨signatures, signed, accepted⟩ := bind_eq_ok_iff.mp accepted
    obtain ⟨passthrough, -, accepted⟩ := bind_eq_ok_iff.mp accepted
    obtain rfl := Except.ok.inj accepted
    refine ⟨made, (mapM_eq_ok signed).imp ?_⟩
    intro schema entry evaluated
    obtain ⟨signature, ran, same⟩ := bind_eq_ok_iff.mp evaluated
    obtain rfl := Except.ok.inj same
    exact ⟨rfl, Run.mapError_eq_ok_iff.mp ran⟩

/-- A signature is that of the schema it is listed for, and its inputs have a name each. -/
theorem signature_of_valueAt? {files : List CatalogFile} {catalog : Catalog}
    (accepted : ofFiles files = .ok catalog) {id : SchemaId} {signature : Signature}
    (found : valueAt? id catalog.signatures = some signature) :
    signature.schema.id = id ∧ (signature.inputs.map (·.1)).Nodup := by
  obtain ⟨schema, -, named, evaluated⟩ :=
    exists_left_of_forall₂ (ofFiles_eq_ok accepted).2 (mem_of_valueAt? found)
  obtain ⟨same, nodup⟩ := Signature.keys_of_ofSchema evaluated
  exact ⟨by rw [same, ← named], nodup⟩

end Catalog

end TypeFlow
