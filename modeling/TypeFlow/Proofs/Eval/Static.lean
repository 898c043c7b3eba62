import TypeFlow.Proofs.Eval.Recall
import TypeFlow.Proofs.Expr.Valid

/-!
# Evaluation without a scope

An expression without names, field accesses, calls and choices has a type of its own. It is the
type that the expression has in every scope, whatever is known of the definitions there, and finding
it never fails. Any other expression is refused with the first part that needs a scope, where each
part comes before the parts inside it.
-/

namespace TypeFlow

open List Eval

namespace Expr

/-- Whether only a scope gives an expression a meaning, apart from the expressions inside it. -/
def needsScope : Expr → Bool
  | named _ _ | access _ _ | call _ _ | choose _ _ => true
  | never | any | number _ | string _ | union _ | intersection _ => false

variable {α β : Type} {shape : String → List String}

/-- A run over some parts of an expression has a result unless a part needs a scope; the first one
that does is reported. -/
def Ends (parts : List Expr) (P : α → Prop) (run : Run EvalError α) : Prop :=
  match parts.find? needsScope with
  | none => ∃ a, run = .ok a ∧ P a
  | some part => run = Run.fail (.notStatic part.text)

namespace Ends

variable {parts more : List Expr} {P : α → Prop} {Q : β → Prop}

theorem pure {a : α} (holds : P a) : Ends [] P (Pure.pure a) := ⟨a, rfl, holds⟩

theorem ofChecked {x : Checked α} (yields : Yields x P) : Ends [] P (Run.ofChecked x) := by
  obtain ⟨a, rfl, holds⟩ := yields
  exact ⟨a, rfl, holds⟩

theorem bind {x : Run EvalError α} {next : α → Run EvalError β} (first : Ends parts P x)
    (then' : ∀ a, P a → Ends more Q (next a)) : Ends (parts ++ more) Q (x >>= next) := by
  unfold Ends at first ⊢
  rw [find?_append]
  cases found : parts.find? needsScope with
  | some part =>
    simp only [found] at first
    rw [first]
    rfl
  | none =>
    simp only [found] at first
    obtain ⟨a, rfl, holds⟩ := first
    exact then' a holds

/-- A part that needs no scope is passed over. -/
theorem cons {e : Expr} {run : Run EvalError α} (free : e.needsScope = false)
    (ends : Ends parts P run) : Ends (e :: parts) P run := by
  unfold Ends
  rwa [find?_cons_of_neg (by simp [free])]

theorem stop {e : Expr} (needs : e.needsScope = true) :
    Ends (e :: parts) P (Run.fail (.notStatic e.text)) := by
  unfold Ends
  rw [find?_cons_of_pos needs]

end Ends

theorem evaluateStaticItems_ends {items : List Expr}
    (each : ∀ e ∈ items, Ends e.parts (Ty.Shaped shape) e.evaluateStatic) :
    Ends (items.flatMap parts) (fun types => ∀ t ∈ types, Ty.Shaped shape t)
      (evaluateStaticItems items) := by
  induction items with
  | nil => exact .pure (forall_mem_nil _)
  | cons e rest ih =>
    obtain ⟨here, later⟩ := forall_mem_cons.mp each
    rw [evaluateStaticItems, flatMap_cons]
    refine .bind here fun t shaped => ?_
    rw [← append_nil (rest.flatMap parts)]
    exact .bind (ih later) fun types all => .pure (forall_mem_cons.mpr ⟨shaped, all⟩)

/-- The types have no structs, so they are shaped in any way and nothing can clash. -/
theorem evaluateStatic_ends (e : Expr) : Ends e.parts (Ty.Shaped shape) e.evaluateStatic := by
  induction e using Expr.induction with
  | never => exact .cons rfl (.pure Ty.shaped_never)
  | any => exact .cons rfl (.pure Ty.shaped_any)
  | number n => exact .cons rfl (.pure Ty.shaped_number)
  | string s => exact .cons rfl (.pure Ty.shaped_string)
  | union items each =>
    rw [parts_eq, evaluateStatic, ← append_nil (List.flatMap _ _)]
    exact .cons rfl (.bind (evaluateStaticItems_ends each) fun types shaped =>
      .ofChecked (Ty.unionOf_shaped shaped))
  | intersection items each =>
    rw [parts_eq, evaluateStatic, ← append_nil (List.flatMap _ _)]
    exact .cons rfl (.bind (evaluateStaticItems_ends each) fun types shaped =>
      .ofChecked (Ty.intersectionOf_shaped shaped))
  | named name fields _ | access of field _ | call name args _ | choose of arms _ _ =>
    rw [parts_eq, evaluateStatic]
    exact .stop rfl

variable {reach : Reach} {context : Context} {memo : Memo}

theorem checked_of_static {x : Checked α} {a : α}
    (result : (Run.ofChecked x : Run EvalError α) = .ok a) :
    EvalM.checked x memo = (.ok a, memo) := by
  rw [EvalM.checked, EvalM.lift, result]

theorem exprs_of_static {items : List Expr} {types : List Ty}
    (each : ∀ e ∈ items, ∀ t, e.evaluateStatic = .ok t → expr reach context e memo = (.ok t, memo))
    (static : evaluateStaticItems items = .ok types) :
    exprs reach context items memo = (.ok types, memo) := by
  induction items generalizing types with
  | nil =>
    obtain rfl := Except.ok.inj static
    rfl
  | cons e rest ih =>
    rw [evaluateStaticItems, bind_eq_ok_iff] at static
    obtain ⟨t, here, static⟩ := static
    obtain ⟨types, later, same⟩ := bind_eq_ok_iff.mp static
    obtain rfl := Except.ok.inj same
    obtain ⟨first, others⟩ := forall_mem_cons.mp each
    rw [exprs, bind_of_ok (first t here), bind_of_ok (ih others later)]
    rfl

/-- Evaluation in a scope finds the same type and learns nothing. -/
theorem expr_of_static {e : Expr} {t : Ty} (static : e.evaluateStatic = .ok t) :
    expr reach context e memo = (.ok t, memo) := by
  induction e using Expr.induction generalizing t with
  | never | any | number n | string s =>
    obtain rfl := Except.ok.inj static
    rfl
  | union items each | intersection items each =>
    rw [evaluateStatic, bind_eq_ok_iff] at static
    obtain ⟨types, inner, result⟩ := static
    have evaluated := exprs_of_static (fun e mem t static => each e mem static) inner
    rw [expr, bind_of_ok evaluated, checked_of_static result]
  | named name fields _ | access of field _ | call name args _ | choose of arms _ _ =>
    rw [evaluateStatic] at static
    cases static

/-- What can be evaluated without a scope has the same type in every scope, with any names before
it and whatever is known of its definitions. That fails if and only if some part needs a scope, and
the first such part is reported. -/
theorem evaluateStatic_exact (e : Expr) :
    (∀ t, e.evaluateStatic = .ok t → ∀ (scope : Scope) (generics : Generics) (memo : Memo),
      scope.evaluateWith generics e memo = (.ok t, memo)) ∧
    ((∃ halt, e.evaluateStatic = .error halt) ↔ ∃ part ∈ e.parts, part.needsScope = true) ∧
    ∀ part, e.parts.find? needsScope = some part →
      e.evaluateStatic = .error (.error (.notStatic part.text)) := by
  have ends : Ends e.parts (Ty.Shaped fun _ => []) e.evaluateStatic := evaluateStatic_ends e
  unfold Ends at ends
  refine ⟨fun t static scope generics memo => ?_, ?_, fun part found => ?_⟩
  · rw [Scope.evaluateWith, level_succ]
    exact expr_of_static static
  · rw [← find?_isSome]
    cases found : e.parts.find? needsScope with
    | none =>
      simp only [found] at ends
      obtain ⟨t, static, -⟩ := ends
      simp [static]
    | some part =>
      simp only [found] at ends
      simp [ends, Run.fail]
  · simp only [found] at ends
    exact ends

namespace Mixed

/-- A digit or a text. -/
def digit : Expr :=
  .union [.number (.ints (.fin 0) (.fin 9)), .intersection [.any, .string (.literal "none")]]

/-- The width of a page. -/
def width : Expr := .access (.named "Page" [("height", .named "Length" [])]) "width"

/-- A text, a width that is also a length, or the result of a function. -/
def measure : Expr :=
  .union [.string .all, .intersection [digit, width, .named "Length" []], .call "any" []]

end Mixed

open Mixed in
/-- A part that needs a scope hides those inside it and those after it. -/
theorem evaluateStatic_exact_mixed :
    digit.evaluateStatic = .ok (.union [.number (.ints (.fin 0) (.fin 9)), .text "none"]) ∧
    (∀ scope generics memo, Scope.evaluateWith scope generics digit memo =
      (.ok (.union [.number (.ints (.fin 0) (.fin 9)), .text "none"]), memo)) ∧
    measure.parts.find? needsScope = some width ∧
    measure.evaluateStatic = .error (.error (.notStatic width.text)) := by
  have static : digit.evaluateStatic =
      .ok (.union [.number (.ints (.fin 0) (.fin 9)), .text "none"]) :=
    eq_ok_of_toOption (by decide +kernel)
  have first : measure.parts.find? needsScope = some width := rfl
  exact ⟨static, (evaluateStatic_exact digit).1 _ static, first,
    (evaluateStatic_exact measure).2.2 _ first⟩

end Expr

end TypeFlow
