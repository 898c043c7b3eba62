import TypeFlow.Proofs.Eval.Surroundings

/-!
# Evaluation keeps properties of types

Evaluation keeps a property that the operations on types keep, and so does what is remembered of
definitions. If types with the property never clash, evaluation does not.
-/

namespace TypeFlow

namespace Eval

open Ty

variable {kept : Kept} {α β : Type}

/-- All types that are remembered have the property. -/
def KeptMemo (kept : Kept) (memo : Memo) : Prop :=
  ∀ key t, valueAt? key memo = some (.resolved t) → kept.Holds t

/-- From a memo with the property a computation does not clash, unless that is allowed, its result
has a property of its own, and the memo keeps the property. -/
def Keeps (kept : Kept) (P : α → Prop) (x : EvalM α) : Prop :=
  ∀ memo, KeptMemo kept memo →
    Run.UnclashedUnless kept.clashes P (x memo).1 ∧ KeptMemo kept (x memo).2

theorem Keeps.bind {P : α → Prop} {Q : β → Prop} {x : EvalM α} {next : α → EvalM β}
    (first : Keeps kept P x) (then' : ∀ a, P a → Keeps kept Q (next a)) :
    Keeps kept Q (x >>= next) := by
  intro memo keptMemo
  obtain ⟨unclashed, keptMemo'⟩ := first memo keptMemo
  cases outcome : x memo with
  | mk answer memo' =>
    rw [outcome] at unclashed keptMemo'
    cases unclashed with
    | ok holds =>
      rw [bind_of_ok outcome]
      exact then' _ holds memo' keptMemo'
    | error e =>
      rw [bind_of_error outcome]
      exact ⟨.error e, keptMemo'⟩
    | exhausted =>
      rw [bind_of_error outcome]
      exact ⟨.exhausted, keptMemo'⟩
    | clash allowed c =>
      rw [bind_of_error outcome]
      exact ⟨.clash allowed c, keptMemo'⟩

theorem keeps_judgement (kind : EvalError → Prop) :
    Judgement kind kept.clashes fun α P (family : Unit → EvalM α) => Keeps kept P (family ()) where
  lift _ unclashed := fun _ keptMemo => ⟨unclashed, keptMemo⟩
  bind first then' := first.bind then'

/-- Remembering a type with the property keeps the memo. -/
theorem KeptMemo.set {memo : Memo} (keptMemo : KeptMemo kept memo) (key : EntryKey)
    (cell : Cell) (own : ∀ t, cell = .resolved t → kept.Holds t) :
    KeptMemo kept (setEntry key cell memo) := by
  intro other t found
  by_cases same : key = other
  · subst same
    rw [valueAt?_setEntry_self] at found
    exact own t (Option.some.inj found)
  · rw [valueAt?_setEntry_of_ne same] at found
    exact keptMemo other t found

theorem KeptMemo.drop {memo : Memo} (keptMemo : KeptMemo kept memo) (key : EntryKey) :
    KeptMemo kept (dropEntry key memo) := by
  intro other t found
  by_cases same : key = other
  · subst same
    rw [valueAt?_dropEntry_self] at found
    cases found
  · rw [valueAt?_dropEntry_of_ne same] at found
    exact keptMemo other t found

theorem Keeps.once {x : EvalM Ty} (keeps : Keeps kept kept.Holds x) (key : EntryKey) :
    Keeps kept kept.Holds (once key x) := by
  intro memo keptMemo
  unfold Eval.once
  cases known : valueAt? key memo with
  | some cell =>
    cases cell with
    | resolved t => exact ⟨.ok (keptMemo key t known), keptMemo⟩
    | resolving => exact ⟨.error _, keptMemo⟩
  | none =>
    have marked := keptMemo.set key .resolving (by simp)
    obtain ⟨unclashed, keptMemo'⟩ := keeps _ marked
    show (settle key (x (setEntry key .resolving memo))).1.UnclashedUnless kept.clashes kept.Holds ∧
      KeptMemo kept (settle key (x (setEntry key .resolving memo))).2
    generalize x (setEntry key .resolving memo) = result at unclashed keptMemo'
    obtain ⟨answer, memo'⟩ := result
    cases unclashed with
    | ok holds =>
      refine ⟨.ok holds, keptMemo'.set key _ fun t same => ?_⟩
      exact Cell.resolved.inj same ▸ holds
    | error e => exact ⟨.error e, keptMemo'.drop key⟩
    | exhausted => exact ⟨.exhausted, keptMemo'⟩
    | clash allowed c => exact ⟨.clash allowed c, keptMemo'⟩

/-- Scopes in which all names keep the property, with the expressions that can be evaluated in the
scopes around them. -/
structure Surrounds (kept : Kept) (Around : Scope → Prop) (Fits : Scope → Expr → Prop) : Prop where
  fits : ∀ {scope : Scope}, Around scope → ∀ e, Fits scope e
  frame : ∀ {owner : Scope} {b : Builder}, Around owner → kept.Fills owner b → Around b.build
  defines : ∀ {scope owner : Scope} {name : String} {definition : Definition}, Around scope →
    scope.lookup name = some (owner, definition) → kept.Defines name definition
  owner : ∀ {scope owner : Scope} {name : String} {definition : Definition}, Around scope →
    scope.lookup name = some (owner, definition) →
      (∀ e, definition.Enters e → Fits owner e) ∧
      ∀ parameters body, definition = .function parameters body → Around owner

/-- Reaching outside an expression keeps the property. -/
structure KeepsOutside (kept : Kept) (Fits : Scope → Expr → Prop) (reach : Reach) : Prop where
  enter : ∀ scope e, Fits scope e → Keeps kept kept.Holds (reach.enter scope e)
  resolve : ∀ key x, Keeps kept kept.Holds x → Keeps kept kept.Holds (reach.resolve key x)

section Outside

variable {Fits : Scope → Expr → Prop} {reach : Reach} (outside : KeepsOutside kept Fits reach)
include outside

/-- A definition whose expressions can be evaluated is resolved to a type with the property. -/
theorem resolve_keeps {owner : Scope} {name : String} {definition : Definition}
    (said : owner.local? name = some definition) (defines : kept.Defines name definition)
    (fits : ∀ e, definition.Enters e → Fits owner e) :
    Keeps kept kept.Holds (reach.resolve (owner.length, name) (resolution reach owner name)) := by
  refine outside.resolve _ _ (resolution_judged (fun _ => reach) (keeps_judgement _)
    (fun _ same => ?_) fun _ e same enters => ?_)
  · exact Option.some.inj (said.symm.trans same) ▸ defines
  · rw [← Option.some.inj (said.symm.trans same)] at enters
    exact outside.enter owner e (fits e enters)

theorem expr_keeps {Around : Scope → Prop} (surrounds : Surrounds kept Around Fits) (e : Expr)
    {context : Context} (around : Around context.scope)
    (known : KeptGenerics kept context.generics) :
    Keeps kept kept.Holds (expr reach context e) := by
  refine expr_judged (fun _ => reach) (keeps_judgement _)
    (fun name owner definition said => ?_) e known
  have defines := surrounds.defines around said
  obtain ⟨fits, functions⟩ := surrounds.owner around said
  refine ⟨defines, fun _ => ?_, fun isFunction holds => ?_⟩
  · exact resolve_keeps outside (Scope.lookup_cases said).2 defines fits
  · have around := functions _ _ isFunction
    refine callFunction_judged (fun _ => reach) (keeps_judgement _)
      (fun e => outside.enter owner e (surrounds.fits around e)) (fun b _ fills => ?_) holds
    exact outside.enter b.build _ (surrounds.fits (surrounds.frame around fills) _)

end Outside

theorem keptGenerics_nil : KeptGenerics kept [] := fun _ _ found => by cases found

theorem keptMemo_nil : KeptMemo kept [] := fun _ _ found => by cases found

/-- All definitions in all frames keep the property. -/
def KeptFrames (kept : Kept) (scope : Scope) : Prop :=
  ∀ frame ∈ scope, kept.DefinesAll frame.entries

theorem surrounds_keptFrames :
    Surrounds kept (KeptFrames kept) fun scope _ => KeptFrames kept scope where
  fits around _ := around
  frame around own := by
    refine List.forall_mem_cons.mpr ⟨own.2, ?_⟩
    rw [own.1]
    exact around
  defines around found := by
    obtain ⟨suffix, said⟩ := Scope.lookup_cases found
    obtain ⟨frame, mem, said⟩ := Scope.exists_frame suffix said
    exact around frame mem _ _ said
  owner around found := by
    have inside := (Scope.lookup_cases found).1.subset
    exact ⟨fun _ _ frame mem => around frame (inside mem),
      fun _ _ _ frame mem => around frame (inside mem)⟩

/-- Evaluation in frames that keep the property keeps it, however definitions are resolved. -/
theorem levelBy_keeps {resolve : EntryKey → EvalM Ty → EvalM Ty}
    (resolves : ∀ key x, Keeps kept kept.Holds x → Keeps kept kept.Holds (resolve key x))
    (n : Nat) {scope : Scope} {generics : Generics} (frames : KeptFrames kept scope)
    (known : KeptGenerics kept generics) (e : Expr) :
    Keeps kept kept.Holds (levelBy resolve n ⟨scope, generics⟩ e) := by
  induction n generalizing scope generics e with
  | zero => exact fun memo keptMemo => ⟨.exhausted, keptMemo⟩
  | succ n ih =>
    have outside : KeepsOutside kept (fun scope _ => KeptFrames kept scope)
        ⟨fun scope e => levelBy resolve n ⟨scope, []⟩ e, resolve⟩ :=
      ⟨fun scope e frames => ih frames keptGenerics_nil e, resolves⟩
    exact expr_keeps outside surrounds_keptFrames e frames known

end Eval

end TypeFlow
