import TypeFlow.Proofs.Eval.Kept
import TypeFlow.Proofs.Scope.Shapes

/-!
# Evaluation keeps shapes

Evaluation in a shaped scope never clashes and gives shaped types. The definitions of the prelude
may be hidden by others of another shape, so it is only evaluated what these definitions are made
of.
-/

namespace TypeFlow

namespace Eval

open Ty

variable {shape : String → List String}

/-- Evaluation of what the prelude is made of keeps shapes. -/
theorem plain_keeps {reach : Reach} (outside : KeepsOutside (.shaped shape) (Fit shape) reach)
    (truth : shape "true" = [] ∧ shape "false" = []) {e : Expr} (plain : Prelude.Plain e) :
    Keeps (.shaped shape) (Shaped shape) (expr reach ⟨Prelude.scope, []⟩ e) := by
  have judgement : Judgement EvalError.Plain (Kept.shaped shape).clashes _ := keeps_judgement _
  cases plain with
  | number n =>
    simp only [expr]
    exact judgement.pure shaped_number
  | string s =>
    simp only [expr]
    exact judgement.pure shaped_string
  | truth =>
    have bare {name : String} (said : valueAt? name Prelude.entries = some (.struct []))
        (none : shape name = []) : Keeps (.shaped shape) (Shaped shape)
          (expr reach ⟨Prelude.scope, []⟩ (Prelude.named name)) := by
      refine named_judged (fun _ => reach) judgement (fun owner definition found => ?_)
        (fun _ _ found => by cases found) (by simp)
      obtain ⟨rfl, said'⟩ := Prelude.lookup_scope found
      obtain rfl := Option.some.inj (said.symm.trans said')
      refine ⟨none.symm, fun _ => resolve_keeps outside said none.symm ?_,
        fun other => by cases other⟩
      rintro e ⟨f, mem, -⟩
      cases mem
    have each : ∀ e ∈ [Prelude.named "true", Prelude.named "false"],
        Keeps (.shaped shape) (Shaped shape) (expr reach ⟨Prelude.scope, []⟩ e) := by
      intro e mem
      rw [List.mem_pair] at mem
      rcases mem with rfl | rfl
      · exact bare rfl truth.1
      · exact bare rfl truth.2
    simp only [expr]
    exact Keeps.bind (exprs_judged (fun _ => reach) judgement each) fun ts shaped =>
      judgement.checked ((Kept.shaped shape).union shaped)

/-- Shaped scopes surround evaluation. -/
theorem surrounds_shapedScope :
    Surrounds (.shaped shape) (ShapedScope shape) (Fit shape) where
  fits around _ := .inl around
  frame around own := by
    obtain ⟨outer, entries⟩ := own
    exact .inner entries (outer ▸ around)
  defines around found := (around.lookup found).1
  owner around found := around.fit found

/-- All levels keep shapes. -/
theorem level_keeps (truth : shape "true" = [] ∧ shape "false" = []) (n : Nat) {scope : Scope}
    {generics : Generics} {e : Expr}
    (fit : ShapedScope shape scope ∧ KeptGenerics (.shaped shape) generics ∨
      scope = Prelude.scope ∧ generics = [] ∧ Prelude.Plain e) :
    Keeps (.shaped shape) (Shaped shape) (level n ⟨scope, generics⟩ e) := by
  induction n generalizing scope generics e with
  | zero => exact fun memo keptMemo => ⟨.exhausted, keptMemo⟩
  | succ n ih =>
    have outside : KeepsOutside (.shaped shape) (Fit shape)
        ⟨fun scope e => level n ⟨scope, []⟩ e, once⟩ := by
      constructor
      · rintro scope e (shaped | ⟨rfl, plain⟩)
        · exact ih (.inl ⟨shaped, keptGenerics_nil⟩)
        · exact ih (.inr ⟨rfl, rfl, plain⟩)
      · exact fun key x keeps => keeps.once key
    rcases fit with ⟨shaped, known⟩ | ⟨rfl, rfl, plain⟩
    · exact expr_keeps outside surrounds_shapedScope e shaped known
    · exact plain_keeps outside truth plain

end Eval

/-- Evaluation starts from an empty memo. -/
theorem Scope.evaluate_eq (scope : Scope) (generics : Generics) (e : Expr) :
    scope.evaluate generics e = (scope.evaluateWith generics e []).1 := by
  -- the function as a whole: applied to arguments, it would be run in order to compare the sides
  have unfolded : Scope.evaluate = fun scope generics e =>
    (scope.evaluateWith generics e []).1 := rfl
  rw [unfolded]

/-- Evaluation in a shaped scope gives shaped types. -/
theorem ShapedScope.evaluate {shape : String → List String} {scope : Scope}
    (shaped : ShapedScope shape scope) (truth : shape "true" = [] ∧ shape "false" = [])
    {generics : Generics} (known : Eval.KeptGenerics (.shaped shape) generics) (e : Expr) :
    (scope.evaluate generics e).Unclashed (Ty.Shaped shape) := by
  have keeps : Eval.Keeps (.shaped shape) (Ty.Shaped shape) (scope.evaluateWith generics e) := by
    rw [Scope.evaluateWith]
    exact Eval.level_keeps truth _ (.inl ⟨shaped, known⟩)
  rw [Scope.evaluate_eq]
  exact (keeps [] Eval.keptMemo_nil).1

end TypeFlow
