import TypeFlow.Proofs.Eval.Tracking

/-!
# Remembering is transparent

What evaluation remembers of definitions does not change its answers: calls on a chain of scopes
leave a memo that is right and has no marks, and from such a memo evaluation answers what it
answers from an empty one.
-/

namespace TypeFlow

namespace Eval

/-- The memo after calls on parts of a chain of scopes that all ended in a type or an error. -/
inductive Reached (chain : Scope) : Memo → Prop
  | fresh : Reached chain []
  | call {memo memo' : Memo} {scope : Scope} {generics : Generics} {e : Expr} {levels : Nat}
      {answer : Run EvalError Ty} (before : Reached chain memo) (part : scope <:+ chain)
      (ends : level levels ⟨scope, generics⟩ e memo = (answer, memo'))
      (proper : ∀ f, answer ≠ .error (.fatal f)) : Reached chain memo'

section Reached

variable {chain : Scope} {memo : Memo}

/-- No call leaves a mark behind, and the memo stays right. -/
theorem Reached.right (reached : Reached chain memo) :
    (∀ key, ¬ Marked memo key) ∧ Right chain memo := by
  induction reached with
  | fresh =>
    constructor
    · intro key marked
      cases marked
    · intro key t resolved
      cases resolved
  | @call memo memo' scope generics e levels answer before part ends proper ih =>
    have rooted := Scope.rooted_of_suffix part
    have follows := (tracks_level chain levels ⟨scope, generics⟩ rooted e).follows memo ih.2
    rw [ends] at follows
    obtain ⟨grows, right⟩ := follows.kept proper
    exact ⟨fun key marked => ih.1 key ((grows.1 key).mpr marked), right⟩

/-- Calls leave no marks. -/
theorem Reached.marksOf (reached : Reached chain memo) : MarksOf [] memo := by
  constructor
  · intro key t resolved
    cases resolved
  · intro key
    exact iff_of_false (fun marked => by cases marked) (reached.right.1 key)

/-- The answers from such a memo are those of evaluation that remembers nothing. -/
theorem Reached.answers_iff (reached : Reached chain memo) {scope : Scope}
    (part : scope <:+ chain) (generics : Generics) (e : Expr) {answer : Run EvalError Ty}
    (finished : answer ≠ exhausted) :
    (∃ levels, (level levels ⟨scope, generics⟩ e memo).1 = answer) ↔
      ∃ m, (plain m ⟨scope, generics⟩ e []).1 = answer := by
  have right := reached.right.2
  have marksOf := reached.marksOf
  have tracks (n : Nat) :=
    tracks_level chain n ⟨scope, generics⟩ (Scope.rooted_of_suffix part) e
  constructor
  · rintro ⟨n, same⟩
    obtain ⟨m, same'⟩ := ((tracks n).follows memo right).answers (same ▸ finished) marksOf
    exact ⟨m, same'.trans same⟩
  · rintro ⟨m, same⟩
    have follows := (tracks m).follows memo right
    have ended : (level m ⟨scope, generics⟩ e memo).1 ≠ exhausted := by
      intro ran
      rw [follows.exhausts ran [] marksOf] at same
      exact finished same.symm
    obtain ⟨m', same'⟩ := follows.answers ended marksOf
    exact ⟨m, (tracks m).steady.unique same' ended same finished⟩

/-- Two answers, from such a memo and from an empty one, are equal. -/
theorem Reached.answers_eq (reached : Reached chain memo) {scope : Scope} (part : scope <:+ chain)
    {generics : Generics} {e : Expr} {n n' : Nat}
    (ended : (level n ⟨scope, generics⟩ e memo).1 ≠ exhausted)
    (ended' : (level n' ⟨scope, generics⟩ e []).1 ≠ exhausted) :
    (level n ⟨scope, generics⟩ e memo).1 = (level n' ⟨scope, generics⟩ e []).1 := by
  have steady := (tracks_level chain 0 ⟨scope, generics⟩ (Scope.rooted_of_suffix part) e).steady
  obtain ⟨m, same⟩ := (reached.answers_iff part generics e ended).mp ⟨n, rfl⟩
  obtain ⟨m', same'⟩ := (Reached.fresh.answers_iff part generics e ended').mp ⟨n', rfl⟩
  exact steady.unique same ended same' ended'

end Reached

/-- Remembering is transparent. After any calls on a chain of scopes, also failed ones, no
definition is marked, and a call answers what it answers when nothing is remembered: a type or an
error or a clash is reached from the one memo exactly when it is reached from the other. With the
levels that a call has, two answers are therefore equal. -/
theorem memo_transparent {chain : Scope} {memo : Memo} (reached : Reached chain memo) :
    (∀ key, ¬ Marked memo key) ∧
    ∀ scope : Scope, scope <:+ chain → ∀ (generics : Generics) (e : Expr),
      (∀ answer, answer ≠ exhausted →
        ((∃ levels, (level levels ⟨scope, generics⟩ e memo).1 = answer) ↔
          ∃ levels, (level levels ⟨scope, generics⟩ e []).1 = answer)) ∧
      ((scope.evaluateWith generics e memo).1 ≠ exhausted →
        (scope.evaluateWith generics e []).1 ≠ exhausted →
          (scope.evaluateWith generics e memo).1 = (scope.evaluateWith generics e []).1) := by
  refine ⟨reached.right.1, fun scope part generics e => ⟨fun answer finished => ?_, ?_⟩⟩
  · rw [reached.answers_iff part generics e finished,
      Reached.fresh.answers_iff part generics e finished]
  · have run : scope.evaluateWith generics e =
        level (scope.size + maxCalls + 1) ⟨scope, generics⟩ e := rfl
    rw [run]
    exact reached.answers_eq part

namespace Sample

/-- A struct that needs an alias twice, and an alias that needs itself. -/
def chain : Scope :=
  [⟨"inner", [("loop", .alias (.access (.named "loop" []) "left"))]⟩,
    ⟨"outer", [("word", .alias (.string (.literal "a"))),
      ("both", .struct [("left", .named "word" []), ("right", .named "word" [])])]⟩]

def word : Ty := .string (.literal "a")

def both : Ty := .struct "both" [("left", word), ("right", word)]

/-- What is remembered after the struct. -/
def remembered : Memo := [((1, "both"), .resolved both), ((1, "word"), .resolved word)]

/-- The struct is resolved, and then the alias fails. -/
theorem reached_remembered : Reached chain remembered := by
  have resolved : level 3 ⟨chain, []⟩ (.named "both" []) [] = (.ok both, remembered) := rfl
  have failed : level 3 ⟨chain, []⟩ (.named "loop" []) remembered =
      (.error (.error (.recursive "loop")), remembered) := rfl
  have first : Reached chain remembered :=
    .call .fresh (List.suffix_refl chain) resolved (by simp)
  exact .call first (List.suffix_refl chain) failed (by simp)

end Sample

open Sample

/-- A definition remembered. -/
theorem memo_transparent_remembered : Reached chain remembered ∧
    (∀ key, ¬ Marked remembered key) ∧
    (level 1 ⟨chain.tail, []⟩ (.named "both" []) remembered).1 = .ok both ∧
      ∃ levels, (level levels ⟨chain.tail, []⟩ (.named "both" []) []).1 = .ok both := by
  obtain ⟨unmarked, answers⟩ := memo_transparent reached_remembered
  have known : (level 1 ⟨chain.tail, []⟩ (.named "both" []) remembered).1 = .ok both := rfl
  have part : chain.tail <:+ chain := List.tail_suffix chain
  refine ⟨reached_remembered, unmarked, known, ?_⟩
  exact ((answers _ part _ _).1 _ (by simp)).mp ⟨1, known⟩

end Eval

end TypeFlow
