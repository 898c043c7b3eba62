import TypeFlow.Proofs.Eval.Recall
import TypeFlow.Proofs.Exactness

/-!
# The arms that values take

A choice goes through its arms with the values that are left. The part of them that a pattern
matches takes the arm, and what is left after an arm may be too much but is never too little. So a
value takes the first arm whose pattern it matches.
-/

namespace TypeFlow

open List hiding ranges
open Ty

namespace Eval

/-- A type is divided by patterns in order: each matches a part of what is left for it, and leaves
at least what it does not match. -/
inductive Divides : Ty → List Ty → List Ty → Prop
  | nil (left : Ty) : Divides left [] []
  | cons {left pattern matched rest : Ty} {patterns others : List Ty}
      (matches_iff : ∀ v, v ∈ matched ↔ v ∈ left ∧ v ∈ pattern)
      (within : ∀ v, v ∈ rest → v ∈ left)
      (leaves : ∀ v, v ∈ left → ¬ v ∈ pattern → v ∈ rest)
      (next : Divides rest patterns others) : Divides left (pattern :: patterns) (matched :: others)

/-- A matched type has only values of the divided type and of its pattern. -/
theorem Divides.forall₂ {left : Ty} {patterns matched : List Ty}
    (divides : Divides left patterns matched) :
    Forall₂ (fun m p => ∀ v, v ∈ m → v ∈ left ∧ v ∈ p) matched patterns := by
  induction divides with
  | nil left => exact .nil
  | cons matches_iff within leaves next ih =>
    exact .cons (fun v => (matches_iff v).mp)
      (ih.imp fun m p each v mem => ⟨within v (each v mem).1, (each v mem).2⟩)

/-- A value is in the matched type of the first pattern that has it. -/
theorem Divides.mem_first {left : Ty} {patterns matched : List Ty}
    (divides : Divides left patterns matched) {v : Value} (mem : v ∈ left) {i : Nat} {p : Ty}
    (here : patterns[i]? = some p) (matches' : v ∈ p)
    (first : ∀ j < i, ∀ q, patterns[j]? = some q → ¬ v ∈ q) :
    ∃ m, matched[i]? = some m ∧ v ∈ m := by
  induction divides generalizing i with
  | nil left => simp at here
  | @cons left pattern matched rest patterns others matches_iff within leaves next ih =>
    cases i with
    | zero =>
      obtain rfl : pattern = p := by simpa using here
      exact ⟨matched, rfl, (matches_iff v).mpr ⟨mem, matches'⟩⟩
    | succ i =>
      have outside : ¬ v ∈ pattern := first 0 (Nat.succ_pos i) pattern rfl
      exact ih (leaves v mem outside) here fun j less q at' =>
        first (j + 1) (Nat.succ_lt_succ less) q at'

/-- The generic parameters for the body of an arm, where the binding is the matched type. -/
def inner (arm : Arm Expr) (generics : Generics) (matched : Ty) : Generics :=
  match arm.binding with
  | some name => setEntry name matched generics
  | none => generics

/-- Evaluation has this answer, perhaps after others in the scope. -/
def EvaluatesTo (scope : Scope) (generics : Generics) (e : Expr) (answer : Run EvalError Ty) :
    Prop :=
  ∃ memo, Reached scope memo ∧ (scope.evaluateWith generics e memo).1 = answer

/-- It is the answer that evaluation has on its own. -/
theorem EvaluatesTo.eq {scope : Scope} {generics : Generics} {e : Expr}
    {answer : Run EvalError Ty} (evaluates : EvaluatesTo scope generics e answer)
    (ended : scope.evaluate generics e ≠ exhausted) : answer = scope.evaluate generics e := by
  obtain ⟨memo, reached, same⟩ := evaluates
  rw [← same, reached.evaluateWith_eq (suffix_refl scope) ended]

/-- The arms are gone through with the types that they match. An arm that matches nothing is
skipped, the body of any other one is evaluated, and one that fails ends it. -/
inductive Takes (scope : Scope) (generics : Generics) :
    List (Arm Expr) → List Ty → Run EvalError (List Ty) → Prop
  | nil : Takes scope generics [] [] (.ok [])
  | skip {arm : Arm Expr} {arms : List (Arm Expr)} {others : List Ty}
      {results : Run EvalError (List Ty)} (rest : Takes scope generics arms others results) :
      Takes scope generics (arm :: arms) (.never :: others) results
  | take {arm : Arm Expr} {arms : List (Arm Expr)} {matched type : Ty} {others : List Ty}
      {results : Run EvalError (List Ty)} (proper : matched ≠ .never)
      (body : EvaluatesTo scope (inner arm generics matched) arm.body (.ok type))
      (rest : Takes scope generics arms others results) :
      Takes scope generics (arm :: arms) (matched :: others) ((type :: ·) <$> results)
  | fail {arm : Arm Expr} {arms : List (Arm Expr)} {matched : Ty} {others : List Ty}
      {halt : Halt EvalError} (proper : matched ≠ .never)
      (body : EvaluatesTo scope (inner arm generics matched) arm.body (.error halt)) :
      Takes scope generics (arm :: arms) (matched :: others) (.error halt)

/-- The body of an arm that matches something is evaluated, unless an earlier one fails. -/
theorem Takes.evaluates {scope : Scope} {generics : Generics} {arms : List (Arm Expr)}
    {matched : List Ty} {results : Run EvalError (List Ty)}
    (takes : Takes scope generics arms matched results) {i : Nat} {arm : Arm Expr} {m : Ty}
    (here : arms[i]? = some arm) (found : matched[i]? = some m) (proper : m ≠ .never) :
    (∃ type, EvaluatesTo scope (inner arm generics m) arm.body (.ok type) ∧
      ∀ types, results = .ok types → type ∈ types) ∨
    ∃ j ≤ i, ∃ arm' m' halt, arms[j]? = some arm' ∧ matched[j]? = some m' ∧
      EvaluatesTo scope (inner arm' generics m') arm'.body (.error halt) ∧
      results = .error halt := by
  induction takes generalizing i with
  | nil => simp at here
  | skip rest ih =>
    cases i with
    | zero =>
      obtain rfl : Ty.never = m := by simpa using found
      exact absurd rfl proper
    | succ i =>
      rcases ih here found with evaluated | ⟨j, le, failed⟩
      · exact .inl evaluated
      · exact .inr ⟨j + 1, Nat.succ_le_succ le, failed⟩
  | @take first arms matched type others results properFirst body rest ih =>
    cases i with
    | zero =>
      obtain rfl : first = arm := by simpa using here
      obtain rfl : matched = m := by simpa using found
      refine .inl ⟨type, body, fun types same => ?_⟩
      cases results with
      | error halt => cases same
      | ok later =>
        cases same
        exact mem_cons_self
    | succ i =>
      rcases ih here found with
        ⟨type', evaluated, mem⟩ | ⟨j, le, arm', m', halt, at', found', failed⟩
      · refine .inl ⟨type', evaluated, fun types same => ?_⟩
        cases results with
        | error halt => cases same
        | ok later =>
          cases same
          exact mem_cons_of_mem _ (mem later rfl)
      · refine .inr ⟨j + 1, Nat.succ_le_succ le, arm', m', halt, at', found', failed.1, ?_⟩
        rw [failed.2]
        rfl
  | @fail first arms matched others halt properFirst body =>
    exact .inr ⟨0, Nat.zero_le i, first, matched, halt, rfl, rfl, body, rfl⟩

section Arms

variable {scope : Scope} {generics : Generics}

/-- A number type is its own type. -/
theorem evaluate_number (n : NumberTy) : scope.evaluate generics (.number n) = .ok (.number n) := by
  rw [Scope.evaluate, evaluateWith_eq_expr, expr]
  rfl

/-- A parameter has its type. -/
theorem evaluate_named {name : String} {t : Ty} (bound : valueAt? name generics = some t) :
    scope.evaluate generics (.named name []) = .ok t := by
  rw [Scope.evaluate, evaluateWith_eq_expr, expr]
  simp only [bound]
  rfl

/-- Results without a clash. -/
theorem checked_ok {α : Type} (a : α) : EvalM.checked (.ok a) = pure a := rfl

/-- An evaluation with a type has it also later. -/
theorem Reached.evaluateWith_ok {memo : Memo} (reached : Reached scope memo) {e : Expr} {t : Ty}
    (evaluates : scope.evaluate generics e = .ok t) : ∃ memo', Reached scope memo' ∧
      scope.evaluateWith generics e memo = (.ok t, memo') := by
  have part := suffix_refl scope
  have ended : scope.evaluate generics e ≠ exhausted := by simp [evaluates]
  have same := reached.evaluateWith_eq part ended
  cases outcome : scope.evaluateWith generics e memo with
  | mk answer memo' =>
    rw [outcome, evaluates] at same
    obtain rfl : answer = .ok t := same
    have proper : ∀ f, (scope.evaluateWith generics e memo).1 ≠ .error (.fatal f) := by
      simp [outcome]
    have after := reached.evaluateWith part proper
    rw [outcome] at after
    exact ⟨memo', after, rfl⟩

/-- One arm: what it matches and leaves, and how its body goes on. -/
theorem arms_cons {left pattern matched rest : Ty} {arm : Arm Expr} {items : List (Arm Expr)}
    {memo memo' : Memo}
    (evaluates : scope.evaluateWith generics arm.pattern memo = (.ok pattern, memo'))
    (common : intersectionOf [left, pattern] = .ok matched)
    (remains : left.without pattern = .ok rest) :
    arms (levelReach (scope.size + maxCalls)) ⟨scope, generics⟩ left (arm :: items) memo =
      if matched = .never then
        arms (levelReach (scope.size + maxCalls)) ⟨scope, generics⟩ rest items memo'
      else (do
        let type ← scope.evaluateWith (inner arm generics matched) arm.body
        let types ← arms (levelReach (scope.size + maxCalls)) ⟨scope, generics⟩ rest items
        return type :: types : EvalM (List Ty)) memo' := by
  obtain ⟨patternExpr, binding, body⟩ := arm
  simp only [evaluateWith_eq_expr] at evaluates ⊢
  rw [arms, bind_of_ok evaluates]
  simp only [common, remains, checked_ok, pure_bind, nil_append, bind_pure, isNever_iff]
  split
  · rfl
  · cases binding <;> rfl

/-- Going through the arms divides what is left for them. -/
theorem arms_takes {shape : String → List String} {items : List (Arm Expr)} {patterns : List Ty}
    (evaluate : Forall₂ (fun arm p => scope.evaluate generics arm.pattern = .ok p) items
      patterns) (keeps : ∀ p ∈ patterns, (Invariant.sound shape).Keeps p) {left : Ty}
    (keepsLeft : (Invariant.sound shape).Keeps left) {memo : Memo} (reached : Reached scope memo) :
    ∃ matched results, Divides left patterns matched ∧ Takes scope generics items matched results ∧
      (arms (levelReach (scope.size + maxCalls)) ⟨scope, generics⟩ left items memo).1 =
        results := by
  induction evaluate generalizing left memo with
  | nil => exact ⟨[], .ok [], .nil left, .nil, rfl⟩
  | @cons arm p items patterns pattern evaluate ih =>
    obtain ⟨memo', reached', evaluates⟩ := reached.evaluateWith_ok pattern
    have keepsP := keeps p mem_cons_self
    have keepsBoth : ∀ t ∈ [left, p], (Invariant.sound shape).Keeps t := by
      simpa using ⟨keepsLeft, keepsP⟩
    obtain ⟨m, common, keepsM, values⟩ := Invariant.intersectionOf_yields keepsBoth
    obtain ⟨rest, remains, keepsRest, leaves⟩ := Invariant.without_yields keepsLeft keepsP
    have divide {others : List Ty} : Divides rest patterns others →
        Divides left (p :: patterns) (m :: others) :=
      .cons (by simpa using values) (fun v => (leaves v).1) fun v => (leaves v).2
    have later : ∀ q ∈ patterns, (Invariant.sound shape).Keeps q :=
      fun q mem => keeps q (mem_cons_of_mem p mem)
    rw [arms_cons evaluates common remains]
    split
    · next never =>
      subst never
      obtain ⟨others, results, divides, takes, same⟩ := ih later keepsRest reached'
      exact ⟨_, results, divide divides, .skip takes, same⟩
    · next proper =>
      cases outcome : scope.evaluateWith (inner arm generics m) arm.body memo' with
      | mk answer memo'' =>
        have body : EvaluatesTo scope (inner arm generics m) arm.body answer :=
          ⟨memo', reached', congrArg Prod.fst outcome⟩
        cases answer with
        | error halt =>
          obtain ⟨others, -, divides, -⟩ := ih later keepsRest reached'
          rw [bind_of_error outcome]
          exact ⟨_, _, divide divides, .fail proper body, rfl⟩
        | ok type =>
          have reached'' : Reached scope memo'' := by
            have proper : ∀ f, (scope.evaluateWith (inner arm generics m) arm.body memo').1 ≠
                .error (.fatal f) := by simp [outcome]
            have after := reached'.evaluateWith (suffix_refl scope) proper
            rwa [outcome] at after
          obtain ⟨others, results, divides, takes, same⟩ := ih later keepsRest reached''
          rw [bind_of_ok outcome]
          refine ⟨_, _, divide divides, .take proper body takes, ?_⟩
          rw [← same]
          exact (fst_bind_lift _ _ _).trans (bind_pure_comp _ _)

/-- No choice skips the arm that a value takes. Each arm has a matched type, and is skipped exactly
if that is `never`; otherwise its body is evaluated with the binding, if there is one, bound to the
matched type. The results are united, or the first body that halts ends the choice. The matched
types have only values of the scrutinee and of their patterns. A value of the scrutinee is in the
matched type of the first arm whose pattern has it, so the body of this arm is evaluated unless an
earlier one halts. -/
theorem choose_takes_first {of : Expr} {items : List (Arm Expr)} {t : Ty} {patterns : List Ty}
    (scrutinee : scope.evaluate generics of = .ok t)
    (evaluate : Forall₂ (fun arm p => scope.evaluate generics arm.pattern = .ok p) items
      patterns)
    (wellFormed : ∀ u ∈ t :: patterns, u.WellFormed) (small : ∀ u ∈ t :: patterns, u.Small)
    (consistent : Consistent (t :: patterns)) {memo : Memo} (reached : Reached scope memo) :
    ∃ (matched : List Ty) (results : Run EvalError (List Ty)),
      (scope.evaluateWith generics (.choose of items) memo).1 =
        (do Run.ofChecked (unionOf (← results))) ∧
      Takes scope generics items matched results ∧
      Forall₂ (fun m p => ∀ v, v ∈ m → v ∈ t ∧ v ∈ p) matched patterns ∧
      ∀ v, v ∈ t → ∀ (i : Nat) (arm : Arm Expr) (p : Ty), items[i]? = some arm →
        patterns[i]? = some p → v ∈ p → (∀ j < i, ∀ q : Ty, patterns[j]? = some q → ¬ v ∈ q) →
        ∃ m : Ty, matched[i]? = some m ∧ v ∈ m ∧
          ((∃ type, EvaluatesTo scope (inner arm generics m) arm.body (.ok type) ∧
              ∀ types, results = .ok types → type ∈ types) ∨
            ∃ j ≤ i, ∃ arm' m' halt, items[j]? = some arm' ∧ matched[j]? = some m' ∧
              EvaluatesTo scope (inner arm' generics m') arm'.body (.error halt) ∧
              results = .error halt) := by
  obtain ⟨shape, keeps⟩ := exists_keeps wellFormed small consistent
  obtain ⟨memo', reached', evaluates⟩ := reached.evaluateWith_ok scrutinee
  obtain ⟨matched, results, divides, takes, same⟩ := arms_takes evaluate
    (fun p mem => keeps p (mem_cons_of_mem t mem)) (keeps t mem_cons_self) reached'
  refine ⟨matched, results, ?_, takes, divides.forall₂,
    fun v mem i arm p here at' found first => ?_⟩
  · rw [evaluateWith_eq_expr] at evaluates ⊢
    rw [expr, bind_of_ok evaluates]
    rw [← same]
    exact fst_bind_lift _ _ _
  · obtain ⟨m, at'', member⟩ := divides.mem_first mem at' found first
    have proper : m ≠ .never := by
      rintro rfl
      exact not_mem_never v member
    exact ⟨m, at'', member, takes.evaluates here at'' proper⟩

end Arms

namespace Choice

/-- Two arms for overlapping ranges, the second of which gives what it matches. -/
def ranges : List (Arm Expr) :=
  [⟨.number (.ints (.fin 0) (.fin 4)), none, .number (.literal 0)⟩,
    ⟨.number (.reals (.fin 2) (.fin 20)), some "x", .named "x" []⟩]

def digits : Ty := .number (.ints (.fin 0) (.fin 9))

def patterns : List Ty := [.number (.ints (.fin 0) (.fin 4)), .number (.reals (.fin 2) (.fin 20))]

/-- The patterns of the ranges. -/
theorem evaluate_ranges : Forall₂
    (fun arm p => Scope.evaluate [] [("n", digits)] arm.pattern = .ok p) ranges patterns :=
  .cons (evaluate_number _) (.cons (evaluate_number _) .nil)

end Choice

open Choice

/-- Seven takes the second arm, whose body gives the matched type. -/
theorem choose_takes_first_ranges :
    (Scope.evaluate [] [("n", digits)] (.named "n" []) = .ok digits ∧
      (∀ u ∈ digits :: patterns, u.WellFormed) ∧ (∀ u ∈ digits :: patterns, u.Small) ∧
      Consistent (digits :: patterns)) ∧
    ∃ (m : Ty) (results : Run EvalError (List Ty)),
      Scope.evaluate [] [("n", digits)] (.choose (.named "n" []) ranges) =
        (do Run.ofChecked (unionOf (← results))) ∧
      Value.number (.fin 7) ∈ m ∧ ∀ types, results = .ok types → m ∈ types := by
  have scrutinee : Scope.evaluate [] [("n", digits)] (.named "n" []) = .ok digits :=
    evaluate_named rfl
  have wellFormed : ∀ u ∈ digits :: patterns, u.WellFormed := by decide
  have small : ∀ u ∈ digits :: patterns, u.Small := by decide
  have consistent : Consistent (digits :: patterns) := by decide
  obtain ⟨matched, results, evaluates, -, -, first⟩ :=
    choose_takes_first scrutinee evaluate_ranges wellFormed small consistent .fresh
  obtain ⟨m, -, member, outcome⟩ := first (.number (.fin 7)) (by decide) 1 _ _ rfl rfl
    (by decide) (by decide)
  rw [← Scope.evaluate] at evaluates
  refine ⟨⟨scrutinee, wellFormed, small, consistent⟩, m, results, evaluates, member, ?_⟩
  have ended {arm : Arm Expr} {u t : Ty} {answer : Run EvalError Ty}
      (body : EvaluatesTo [] (inner arm [("n", digits)] u) arm.body answer)
      (same : Scope.evaluate [] (inner arm [("n", digits)] u) arm.body = .ok t) :
      answer = .ok t := (body.eq (by simp [same])).trans same
  rcases outcome with ⟨type, body, listed⟩ | ⟨j, -, arm, u, halt, here, -, body, -⟩
  · obtain rfl : type = m := Except.ok.inj (ended body (evaluate_named rfl))
    exact listed
  · -- no body halts
    have mem := mem_of_getElem? here
    simp only [ranges, mem_cons, not_mem_nil, or_false] at mem
    rcases mem with rfl | rfl
    · cases ended body (evaluate_number _)
    · cases ended body (evaluate_named rfl)

end Eval

end TypeFlow
