import TypeFlow.Proofs.Eval.Plain

/-!
# Errors of calls

A call checks each argument against the bound of its parameter, defines the parameter in a frame of
its own and sets it to the argument. The function was accepted only because its parameters differ,
so the frame never has the name already, and setting the parameter repeats a check that has just
succeeded. What is left to go wrong is a name that is no identifier.
-/

namespace TypeFlow

open List

/-- A function of the scope has a parameter of this name. -/
def Scope.HasParameter (scope : Scope) (name : String) : Prop :=
  ∃ frame ∈ scope, ∃ function parameters body,
    (function, .function parameters body) ∈ frame.entries ∧ name ∈ parameters.map (·.1)

/-- The error is about parameters only if one of them has a name that is no identifier. -/
def EvalError.Expected (root : Scope) : EvalError → Prop
  | .assignment _ => False
  | .definition error =>
    ∃ name, error = .invalidName name ∧ isIdentifier name = false ∧ root.HasParameter name
  | _ => True

theorem EvalError.Plain.expected {e : EvalError} (plain : e.Plain) (root : Scope) :
    e.Expected root := by
  cases e <;> trivial

namespace Scope.Built

variable {root : Scope} (built : root.Built)
include built

theorem proper : ∀ frame ∈ root, ProperEntries frame.entries := by
  induction root with
  | nil => simp
  | cons frame outer ih =>
    obtain ⟨around, here⟩ := built_cons.mp built
    exact forall_mem_cons.mpr ⟨here, ih around⟩

/-- The parameters of a function differ, and they are parameters of the scope. -/
theorem parameters {owner : Scope} (suffix : owner <:+ root) {function : String}
    {parameters : List (String × Expr)} {body : Expr}
    (said : owner.local? function = some (.function parameters body)) :
    (parameters.map (·.1)).Nodup ∧ ∀ name ∈ parameters.map (·.1), root.HasParameter name := by
  obtain ⟨frame, mem, found⟩ := exists_frame suffix said
  have entry := mem_of_valueAt? found
  exact ⟨((built.proper frame mem).2 _ entry).2,
    fun name own => ⟨frame, mem, function, parameters, body, entry, own⟩⟩

end Scope.Built

namespace Builder

variable {b : Builder} {name : String} {bound : Ty}

theorem add_parameter (free : name ∉ b.entries.map (·.1)) :
    b.add name (.parameter bound none) =
      if isIdentifier name = false then .error (.invalidName name)
      else .ok { b with entries := b.entries ++ [(name, .parameter bound none)] } := by
  have absent : valueAt? name b.entries = none := valueAt?_eq_none_iff.mpr free
  simp [add, inner, absent, firstRepeated]

theorem assign_parameter (free : name ∉ b.entries.map (·.1)) {value : Ty}
    (inside : value.subset bound = .ok true) :
    assign { b with entries := b.entries ++ [(name, .parameter bound none)] } name value =
      .ok { b with entries := b.entries ++ [(name, .parameter bound (some value))] } := by
  refine assign_eq_ok_iff.mpr ⟨bound, none, ?_, inside, ?_⟩
  · show valueAt? name (b.entries ++ [(name, .parameter bound none)]) = _
    rw [valueAt?_concat, valueAt?_eq_none_iff.mpr free]
    simp
  · rw [setEntry_append_cons free]

end Builder

namespace Eval

/-- Whatever is remembered, the errors of the computation are expected. -/
def Expects (root : Scope) (α : Type) (family : Unit → EvalM α) : Prop :=
  ∀ memo e, (family () memo).1 = .error (.error e) → e.Expected root

variable {root : Scope}

/-- What it means for a single computation. -/
theorem Expects.expected {α : Type} {x : EvalM α} (expects : Expects root α fun _ => x)
    (memo : Memo) {e : EvalError} (failed : (x memo).1 = .error (.error e)) : e.Expected root :=
  expects memo e failed

theorem expects_admissible (root : Scope) : Admissible EvalError.Plain (Expects root) where
  lift run raises := fun memo e same => (raises.2 e same).expected root
  bind {α β first next} expects expectsNext := by
    intro memo e failed
    change ((first () >>= fun a => next a ()) memo).1 = _ at failed
    rcases bind_cases (first ()) (fun a => next a ()) memo with
      ⟨a, memo', -, ran⟩ | ⟨h, memo', outcome, ran⟩ <;> rw [ran] at failed
    · exact expectsNext a memo' e failed
    · obtain rfl := Except.error.inj failed
      exact expects memo e (congrArg Prod.fst outcome)

theorem settle_fst (key : EntryKey) (result : Run EvalError Ty × Memo) :
    (settle key result).1 = result.1 := by
  rcases result with ⟨(_ | _) | _, _⟩ <;> rfl

theorem Expects.once {x : EvalM Ty} (expects : Expects root Ty fun _ => x) (key : EntryKey) :
    Expects root Ty fun _ => once key x := by
  intro memo e failed
  change (Eval.once key x memo).1 = _ at failed
  cases found : valueAt? key memo with
  | some cell =>
    cases cell with
    | resolving =>
      rw [once_of_marked found] at failed
      obtain rfl := Halt.error.inj (Except.error.inj failed)
      trivial
    | resolved t =>
      rw [once_of_resolved found] at failed
      cases failed
  | none =>
    rw [once_of_none found, settle_fst] at failed
    exact expects (setEntry key .resolving memo) e failed

section Calls

variable {reach : Reach}
  (enters : ∀ scope e, Scope.Rooted root scope → Expects root Ty fun _ => reach.enter scope e)
include enters

theorem bindParameters_expects {owner : Scope} (suffix : owner <:+ root) {function : String}
    {b : Builder} (parametric : b.Parametric owner) {arguments : List ((String × Expr) × Ty)}
    (distinct : (arguments.map (·.1.1)).Nodup) (free : ∀ a ∈ arguments, a.1.1 ∉ b.entries.map (·.1))
    (known : ∀ a ∈ arguments, root.HasParameter a.1.1) {β : Type} {next : Builder → EvalM β}
    (each : ∀ b', b'.Parametric owner → Expects root β fun _ => next b') :
    Expects root β fun _ => bindParameters reach owner function b arguments >>= next := by
  have admissible := expects_admissible root
  induction arguments generalizing b with
  | nil => exact each b parametric
  | cons argument rest ih =>
    obtain ⟨⟨parameter, type⟩, value⟩ := argument
    obtain ⟨differs, distinctRest⟩ := nodup_cons.mp distinct
    have new : parameter ∉ b.entries.map (·.1) := free _ mem_cons_self
    simp only [bindParameters, bind_assoc]
    refine admissible.bind (enters owner type (Scope.rooted_of_suffix suffix)) fun bound => ?_
    refine admissible.checked_bind fun inside within => ?_
    cases inside with
    | false => exact admissible.fail trivial
    | true =>
      have added : b.add parameter (.parameter bound none) = _ := Builder.add_parameter new
      have assigned := Builder.assign_parameter new within
      simp only [if_true, bind_assoc]
      cases named : isIdentifier parameter with
      | false =>
        rw [added, if_pos named]
        intro memo e failed
        obtain rfl := Halt.error.inj (Except.error.inj failed)
        exact ⟨parameter, rfl, named, known _ mem_cons_self⟩
      | true =>
        rw [if_neg (by simp [named])] at added
        have parametric' := (parametric.add added).assign assigned
        have freeRest : ∀ a ∈ rest, a.1.1 ∉
            (b.entries ++ [(parameter, Definition.parameter bound (some value))]).map (·.1) := by
          intro a mem taken
          rw [map_append, mem_append] at taken
          rcases taken with before | here
          · exact free a (mem_cons_of_mem _ mem) before
          · exact differs (mem_map.mpr ⟨a, mem, by simpa using here⟩)
        rw [added]
        show Expects root β fun _ =>
          EvalM.lift (Run.mapError .assignment (Builder.assign _ parameter value)) >>= _
        rw [assigned]
        exact ih parametric' distinctRest freeRest fun a mem => known a (mem_cons_of_mem _ mem)

theorem callFunction_expects (built : root.Built) {owner : Scope} (suffix : owner <:+ root)
    {name : String} {parameters : List (String × Expr)} {body : Expr}
    (said : owner.local? name = some (.function parameters body)) (values : List Ty) :
    Expects root Ty fun _ => callFunction reach owner name parameters body values := by
  obtain ⟨distinct, known⟩ := built.parameters suffix said
  have names : ((parameters.zip values).map (·.1.1)).Sublist (parameters.map (·.1)) := by
    have firsts : ((parameters.zip values).map (·.1)).Sublist parameters := by
      rw [zip_eq_zip_take_min, map_fst_zip (by simp)]
      exact take_sublist _ _
    simpa [map_map, Function.comp_def] using firsts.map (·.1)
  refine bindParameters_expects enters suffix (Builder.parametric_new _ owner)
    (names.nodup distinct) (by simp [Builder.new]) (fun a mem => ?_) fun b parametric => ?_
  · exact known _ (names.subset (mem_map_of_mem mem))
  · split
    · exact (expects_admissible root).pure _
    · exact enters b.build body (parametric.rooted suffix)

end Calls

/-- Evaluation has expected errors only, with any number of levels. -/
theorem expects_level (built : root.Built) (n : Nat) : ∀ context : Context,
    Scope.Rooted root context.scope → ∀ e, Expects root Ty fun _ => level n context e := by
  induction n with
  | zero =>
    intro context _ e memo error failed
    cases failed
  | succ n ih =>
    intro context rooted e
    let reach : Reach := ⟨fun scope e => level n ⟨scope, []⟩ e, once⟩
    have enters : ∀ scope e, Scope.Rooted root scope →
        Expects root Ty fun _ => reach.enter scope e :=
      fun scope e rooted => ih ⟨scope, []⟩ rooted e
    have resolves : ∀ owner name, owner <:+ root → Expects root Ty fun _ =>
        reach.resolve (owner.length, name) (resolution reach owner name) :=
      fun owner name suffix =>
        (resolution_admissible (expects_admissible root) enters suffix name).once _
    have above : Expects root Ty fun _ => expr reach context e :=
      expr_admissible_of_calls (expects_admissible root) resolves
        (fun _ _ _ _ values suffix said => callFunction_expects enters built suffix said values) e
        rooted
    exact above

/-- In a scope that was built, evaluation never fails because a parameter cannot be set, whatever
is remembered. If it fails because something cannot be defined, then because a function of the scope
has a parameter whose name is no identifier: never because a name, a field or a parameter is there
twice. -/
theorem binding_never_fails {scope : Scope} (built : scope.Built) (generics : Generics) (e : Expr)
    (memo : Memo) :
    (∀ error, (scope.evaluateWith generics e memo).1 ≠ .error (.error (.assignment error))) ∧
    ∀ error, (scope.evaluateWith generics e memo).1 = .error (.error (.definition error)) →
      ∃ name, error = .invalidName name ∧ isIdentifier name = false ∧ scope.HasParameter name := by
  have rooted := Scope.rooted_of_suffix (suffix_refl scope)
  have expects : Expects scope Ty fun _ => scope.evaluateWith generics e := by
    rw [Scope.evaluateWith]
    exact expects_level built _ ⟨scope, generics⟩ rooted e
  exact ⟨fun error failed => expects.expected memo failed,
    fun error failed => expects.expected memo failed⟩

namespace Sample

/-- A function of two types whose second parameter cannot be defined, with a function that calls it
for one type. -/
def pairing : Scope :=
  ⟨"pairing", [("pair", .function [("left", .any), ("right one", .any)] (.named "left" [])),
    ("twice", .function [("item", .number .all)]
      (.call "pair" [.named "item" [], .named "item" []]))]⟩ :: Prelude.scope

end Sample

open Sample

theorem binding_never_fails_pairing :
    let answer := (pairing.evaluateWith [] (.call "twice" [.number .all]) []).1
    pairing.Built ∧ answer = .error (.error (.definition (.invalidName "right one"))) ∧
      pairing.HasParameter "right one" := by
  intro answer
  have built : pairing.Built := Scope.built_cons.mpr ⟨Prelude.built, by decide +kernel⟩
  have failed : answer = .error (.error (.definition (.invalidName "right one"))) := rfl
  obtain ⟨name, same, -, known⟩ :=
    (binding_never_fails built [] (.call "twice" [.number .all]) []).2 _ failed
  obtain rfl := DefinitionError.invalidName.inj same
  exact ⟨built, failed, known⟩

end Eval

end TypeFlow
