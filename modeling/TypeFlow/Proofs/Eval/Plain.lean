import TypeFlow.Proofs.Eval.Surroundings

/-!
# Evaluation that remembers nothing

An evaluator that marks the definitions that it is resolving and forgets what came out. It leaves
the memo as it found it, and an answer that it has with some number of levels it has with more.
-/

namespace TypeFlow

namespace Eval

/-- The answer of a computation that ran out of levels. -/
abbrev exhausted {α : Type} : Run EvalError α := .error (.fatal .exhausted)

section Bind

variable {α β : Type} {x : EvalM α} {f : α → EvalM β} {memo memo' : Memo}

/-- What follows a step depends on what the step comes to. -/
theorem bind_congr_at {y : EvalM α} (same : x memo = y memo) (next : α → EvalM β) :
    (x >>= next) memo = (y >>= next) memo := by
  rcases bind_cases y next memo with ⟨a, memo', outcome, ran⟩ | ⟨h, memo', outcome, ran⟩
  · rw [ran, bind_of_ok (same.trans outcome)]
  · rw [ran, bind_of_error (same.trans outcome)]

/-- After a computation that restores the memo, the next one starts from the same memo. -/
theorem bind_of_restored (restored : (x memo).2 = memo) :
    (x >>= f) memo = match (x memo).1 with
      | .ok a => f a memo
      | .error h => (.error h, memo) := by
  rcases bind_cases x f memo with ⟨a, memo', outcome, ran⟩ | ⟨h, memo', outcome, ran⟩ <;>
  · rw [outcome] at restored
    obtain rfl : memo' = memo := restored
    rw [ran, outcome]

end Bind

/-- The definition is being resolved. -/
def Marked (memo : Memo) (key : EntryKey) : Prop := valueAt? key memo = some .resolving

/-- The definition was resolved to the type. -/
def Resolved (memo : Memo) (key : EntryKey) (t : Ty) : Prop :=
  valueAt? key memo = some (.resolved t)

theorem not_resolved_of_marked {memo : Memo} {key : EntryKey} (marked : Marked memo key) (t : Ty) :
    ¬ Resolved memo key t := by
  unfold Marked at marked
  simp [Resolved, marked]

section Once

variable {key : EntryKey} {x : EvalM Ty} {memo : Memo}

theorem once_of_resolved {t : Ty} (resolved : Resolved memo key t) :
    once key x memo = (.ok t, memo) := by
  unfold Resolved at resolved
  simp [once, resolved]

theorem once_of_marked (marked : Marked memo key) :
    once key x memo = (Run.fail (.recursive key.2), memo) := by
  unfold Marked at marked
  simp [once, marked]

theorem once_of_none (free : valueAt? key memo = none) :
    once key x memo = settle key (x (setEntry key .resolving memo)) := by
  simp [once, free]

end Once

/-- Resolves a definition, unless that is being done, and forgets the result. -/
def afresh (key : EntryKey) (resolve : EvalM Ty) : EvalM Ty := fun memo =>
  match valueAt? key memo with
  | some (.resolved t) => (.ok t, memo)
  | some .resolving => (Run.fail (.recursive key.2), memo)
  | none => ((resolve (setEntry key .resolving memo)).1, memo)

section Afresh

variable {key : EntryKey} {x : EvalM Ty} {memo : Memo}

theorem afresh_snd : (afresh key x memo).2 = memo := by
  unfold afresh
  split <;> rfl

theorem afresh_of_marked (marked : Marked memo key) :
    afresh key x memo = (Run.fail (.recursive key.2), memo) := by
  unfold Marked at marked
  simp [afresh, marked]

theorem afresh_of_none (free : valueAt? key memo = none) :
    afresh key x memo = ((x (setEntry key .resolving memo)).1, memo) := by
  simp [afresh, free]

end Afresh

/-- Evaluation that remembers nothing. -/
def plain : (levels : Nat) → Context → Expr → EvalM Ty := levelBy afresh

/-- How it goes on outside an expression. -/
def plainReach (levels : Nat) : Reach := ⟨fun scope e => plain levels ⟨scope, []⟩ e, afresh⟩

/-- Up to a number of levels, the computations restore the memo, and more levels keep an answer. -/
def SteadyBelow (k : Nat) (α : Type) (family : Nat → EvalM α) : Prop :=
  (∀ m ≤ k, ∀ memo, (family m memo).2 = memo) ∧
    ∀ m < k, ∀ memo, (family m memo).1 ≠ exhausted →
      (family (m + 1) memo).1 = (family m memo).1

theorem steadyBelow_admissible (k : Nat) : Admissible EvalError.Direct (SteadyBelow k) where
  lift run _ := ⟨fun _ _ _ => rfl, fun _ _ _ _ => rfl⟩
  bind {α β first next} steady steadyNext := by
    constructor
    · intro m bound memo
      show ((first m >>= fun a => next a m) memo).2 = memo
      rw [bind_of_restored (steady.1 m bound memo)]
      cases (first m memo).1 with
      | ok a => exact (steadyNext a).1 m bound memo
      | error h => rfl
    · intro m bound memo finished
      change ((first m >>= fun a => next a m) memo).1 ≠ exhausted at finished
      show ((first (m + 1) >>= fun a => next a (m + 1)) memo).1 =
        ((first m >>= fun a => next a m) memo).1
      rw [bind_of_restored (steady.1 m bound.le memo)] at finished ⊢
      rw [bind_of_restored (steady.1 (m + 1) bound memo)]
      have kept := steady.2 m bound memo
      cases answer : (first m memo).1 with
      | ok a =>
        simp only [answer] at finished kept ⊢
        rw [kept (by simp)]
        exact (steadyNext a).2 m bound memo finished
      | error h =>
        simp only [answer] at finished kept ⊢
        rw [kept (by simpa using finished)]

theorem SteadyBelow.afresh {k : Nat} {family : Nat → EvalM Ty} (steady : SteadyBelow k Ty family)
    (key : EntryKey) : SteadyBelow k Ty fun m => afresh key (family m) := by
  constructor
  · intro m bound memo
    exact afresh_snd
  · intro m bound memo finished
    cases found : valueAt? key memo with
    | none =>
      simp only [afresh_of_none found] at finished ⊢
      exact steady.2 m bound _ finished
    | some cell => cases cell <;> simp [Eval.afresh, found]

theorem steadyBelow_levelBy {resolve : EntryKey → EvalM Ty → EvalM Ty}
    (keeps : ∀ {k : Nat} {family : Nat → EvalM Ty}, SteadyBelow k Ty family →
      ∀ key, SteadyBelow k Ty fun m => resolve key (family m)) (root : Scope) (k : Nat) :
    ∀ {context : Context}, Scope.Rooted root context.scope →
      ∀ e, SteadyBelow k Ty fun m => levelBy resolve m context e := by
  induction k with
  | zero =>
    intro context _ e
    refine ⟨fun m bound memo => ?_, fun m bound => absurd bound (Nat.not_lt_zero m)⟩
    rw [Nat.le_zero.mp bound]
    rfl
  | succ k ih =>
    intro context rooted e
    let reach (m : Nat) : Reach := ⟨fun scope e => levelBy resolve m ⟨scope, []⟩ e, resolve⟩
    have enters : ∀ scope e, Scope.Rooted root scope →
        SteadyBelow k Ty fun m => (reach m).enter scope e :=
      fun scope e rooted => ih rooted e
    have resolves : ∀ owner name, owner <:+ root → SteadyBelow k Ty fun m =>
        (reach m).resolve (owner.length, name) (resolution (reach m) owner name) := by
      intro owner name suffix
      exact keeps (resolution_admissible (steadyBelow_admissible k).plain enters suffix name) _
    have above : SteadyBelow k Ty fun m => levelBy resolve (m + 1) context e :=
      expr_admissible (steadyBelow_admissible k) enters resolves e rooted
    constructor
    · intro m bound memo
      cases m with
      | zero => rfl
      | succ m => exact above.1 m (Nat.le_of_succ_le_succ bound) memo
    · intro m bound memo finished
      cases m with
      | zero => exact absurd rfl finished
      | succ m => exact above.2 m (Nat.lt_of_succ_lt_succ bound) memo finished

theorem steadyBelow_plain (root : Scope) (k : Nat) {context : Context}
    (rooted : Scope.Rooted root context.scope) (e : Expr) :
    SteadyBelow k Ty fun m => plain m context e :=
  steadyBelow_levelBy (fun steady key => steady.afresh key) root k rooted e

theorem plain_restores (n : Nat) (context : Context) (e : Expr) (memo : Memo) :
    (plain n context e memo).2 = memo := by
  have rooted := Scope.rooted_of_suffix (List.suffix_refl context.scope)
  exact (steadyBelow_plain context.scope n rooted e).1 n (Nat.le_refl n) memo

/-- The computations restore the memo, and more levels keep an answer. -/
structure Steady {α : Type} (family : Nat → EvalM α) : Prop where
  below : ∀ k, SteadyBelow k α family

namespace Steady

variable {α : Type} {family : Nat → EvalM α} (steady : Steady family)
include steady

theorem restores (m : Nat) (memo : Memo) : (family m memo).2 = memo :=
  (steady.below m).1 m (Nat.le_refl m) memo

theorem keeps {m : Nat} {memo : Memo} {answer : Run EvalError α}
    (same : (family m memo).1 = answer) (finished : answer ≠ exhausted) {m' : Nat}
    (more : m ≤ m') : (family m' memo).1 = answer := by
  induction m', more using Nat.le_induction with
  | base => exact same
  | succ m' _ ih =>
    rw [(steady.below (m' + 1)).2 m' (Nat.lt_succ_self m') memo (ih ▸ finished)]
    exact ih

theorem unique {m m' : Nat} {memo : Memo} {answer answer' : Run EvalError α}
    (same : (family m memo).1 = answer) (finished : answer ≠ exhausted)
    (same' : (family m' memo).1 = answer') (finished' : answer' ≠ exhausted) :
    answer = answer' := by
  have left := steady.keeps same finished (Nat.le_max_left m m')
  have right := steady.keeps same' finished' (Nat.le_max_right m m')
  rw [← left, ← right]

end Steady

end Eval

end TypeFlow
