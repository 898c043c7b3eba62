import TypeFlow.Proofs.Eval.Tracking

/-!
# Following definitions blindly

An evaluator that follows every definition it meets and never looks back. It answers what
evaluation answers, except where evaluation reports that a definition needs itself: then it never
comes to an end.

The argument is a descent. A definition is reported when it is met under its own mark. If following
it came to an end, then this would take some least number of levels; but within these levels it is
met again and followed to an end with fewer.
-/

namespace TypeFlow

namespace Eval

/-- Evaluation that follows definitions without marking or remembering them. -/
def unfolding : (levels : Nat) → Context → Expr → EvalM Ty := levelBy fun _ resolve => resolve

/-- How it goes on outside an expression. -/
def unfoldingReach (levels : Nat) : Reach :=
  ⟨fun scope e => unfolding levels ⟨scope, []⟩ e, fun _ resolve => resolve⟩

variable {root owner : Scope} {name : String}

theorem steady_unfolding {context : Context} (rooted : Scope.Rooted root context.scope) (e : Expr) :
    Steady fun m => unfolding m context e :=
  ⟨fun k => steadyBelow_levelBy (fun steady _ => steady) root k rooted e⟩

/-- Evaluation that remembers nothing, with a given number of levels, and beside it the evaluators
that follow definitions. -/
def sides (levels : Nat) : Option Nat → Reach
  | none => plainReach levels
  | some m => unfoldingReach m

/-- Following the definition of a name never comes to an end. -/
def Endless (root : Scope) (name : String) : Prop :=
  ∃ owner : Scope, owner <:+ root ∧
    ∀ m, (resolution (unfoldingReach m) owner name []).1 = exhausted

/-- Why a definition is reported. Either it was marked before, and then following the computation to
an end means following the definition to an end, at least `d` levels below; or neither of the two
comes to an end. -/
def Blames {α : Type} (root : Scope) (d : Nat) (marks : Memo) (name : String)
    (family : Nat → EvalM α) : Prop :=
  (∃ owner : Scope, owner <:+ root ∧ Marked marks (owner.length, name) ∧
    ∀ m, (family m []).1 ≠ exhausted →
      ∃ i, i + d ≤ m ∧ (resolution (unfoldingReach i) owner name []).1 ≠ exhausted) ∨
  Endless root name ∧ ∀ m, (family m []).1 = exhausted

/-- What does not end earlier blames the same definition. -/
theorem Blames.mono {α β : Type} {d : Nat} {marks : Memo} {family : Nat → EvalM α}
    {family' : Nat → EvalM β} (blames : Blames root d marks name family)
    (within : ∀ m, (family' m []).1 ≠ exhausted → (family m []).1 ≠ exhausted) :
    Blames root d marks name family' := by
  rcases blames with ⟨owner, suffix, marked, descends⟩ | ⟨endless, never⟩
  · exact .inl ⟨owner, suffix, marked, fun m ended => descends m (within m ended)⟩
  · exact .inr ⟨endless, fun m => by_contra fun ended => within m ended (never m)⟩

/-- A definition that is met again on the way to its end has none. -/
theorem never_ends_of_descends
    (descends : ∀ m, (resolution (unfoldingReach m) owner name []).1 ≠ exhausted →
      ∃ i, i < m ∧ (resolution (unfoldingReach i) owner name []).1 ≠ exhausted) (m : Nat) :
    (resolution (unfoldingReach m) owner name []).1 = exhausted := by
  induction m using Nat.strongRecOn with
  | ind m ih =>
    by_contra ended
    obtain ⟨i, below, ended'⟩ := descends m ended
    exact ended' (ih i below)

/-- When the mark of a definition is taken off again, either one that was marked before it is to
blame, or the definition itself never comes to an end. -/
theorem Blames.unmark (suffix : owner <:+ root) {marks : Memo} {name reported : String}
    (blames : Blames root 1 (setEntry (owner.length, name) .resolving marks) reported
      fun m => resolution (unfoldingReach m) owner name) :
    Blames root 0 marks reported fun m => resolution (unfoldingReach m) owner name := by
  rcases blames with ⟨other, suffix', marked, descends⟩ | endless
  · rcases marked_setEntry_iff.mp marked with own | before
    · obtain ⟨-, rfl⟩ := Prod.mk.inj own
      obtain rfl : other = owner := by
        rw [← ownerAt_eq suffix' reported, own, ownerAt_eq suffix]
      have never := never_ends_of_descends descends
      exact .inr ⟨⟨other, suffix, never⟩, never⟩
    · refine .inl ⟨other, suffix', before, fun m ended => ?_⟩
      obtain ⟨i, below, ended'⟩ := descends m ended
      exact ⟨i, by omega, ended'⟩
  · exact .inr endless

/-- Evaluation under marks answers what following definitions answers, or it reports a definition
that is to blame. The first computation is evaluation, the others follow definitions. -/
structure Unrolls (root : Scope) (n d : Nat) (α : Type) (family : Option Nat → EvalM α) : Prop where
  steady : Steady fun m => family (some m)
  restores : ∀ marks, (family none marks).2 = marks
  agrees : ∀ marks, (∀ key t, ¬ Resolved marks key t) →
    (family none marks).1 = (family (some n) []).1 ∨
      ∃ name, (family none marks).1 = Run.fail (.recursive name)
  blames : ∀ marks, (∀ key t, ¬ Resolved marks key t) → ∀ name,
    (family none marks).1 = Run.fail (.recursive name) →
      Blames root d marks name fun m => family (some m)

namespace Unrolls

variable {root : Scope} {n d : Nat}

/-- Where evaluation has a result, following definitions has no other. -/
theorem eq_ok {α : Type} {family : Option Nat → EvalM α} (unrolls : Unrolls root n d α family)
    {marks : Memo} (only : ∀ key t, ¬ Resolved marks key t) {a : α}
    (answer : (family none marks).1 = .ok a) {m : Nat}
    (ended : (family (some m) []).1 ≠ exhausted) : (family (some m) []).1 = .ok a := by
  rcases unrolls.agrees marks only with same | ⟨name, reported⟩
  · exact unrolls.steady.unique rfl ended (same.symm.trans answer) (by simp)
  · rw [answer] at reported
    cases reported

theorem bind {α β : Type} {first : Option Nat → EvalM α} {next : α → Option Nat → EvalM β}
    (unrolls : Unrolls root n d α first) (unrollsNext : ∀ a, Unrolls root n d β (next a)) :
    Unrolls root n d β fun i => first i >>= fun a => next a i where
  steady := ⟨fun k => (steadyBelow_admissible k).bind (unrolls.steady.below k)
    fun a => (unrollsNext a).steady.below k⟩
  restores marks := by
    rw [bind_of_restored (unrolls.restores marks)]
    cases (first none marks).1 with
    | ok a => exact (unrollsNext a).restores marks
    | error h => rfl
  agrees marks only := by
    rw [bind_of_restored (unrolls.restores marks), bind_of_restored (unrolls.steady.restores n [])]
    rcases unrolls.agrees marks only with same | ⟨name, reported⟩
    · rw [same]
      cases (first (some n) []).1 with
      | ok a => exact (unrollsNext a).agrees marks only
      | error h => exact .inl rfl
    · rw [reported]
      exact .inr ⟨name, rfl⟩
  blames marks only name reported := by
    rw [bind_of_restored (unrolls.restores marks)] at reported
    cases answer : (first none marks).1 with
    | error h =>
      rw [answer] at reported
      have cause : (first none marks).1 = Run.fail (.recursive name) := by
        rw [answer]
        exact congrArg Except.error (Except.error.inj reported)
      refine (unrolls.blames marks only name cause).mono fun m ended exhausts => ended ?_
      rw [bind_of_restored (unrolls.steady.restores m []), exhausts]
    | ok a =>
      rw [answer] at reported
      refine ((unrollsNext a).blames marks only name reported).mono fun m ended exhausts => ended ?_
      rw [bind_of_restored (unrolls.steady.restores m [])]
      by_cases started : (first (some m) []).1 = exhausted
      · rw [started]
      · rw [unrolls.eq_ok only answer started]
        exact exhausts

theorem admissible (root : Scope) (n d : Nat) : Admissible EvalError.Direct (Unrolls root n d) where
  lift run direct :=
    { steady := ⟨fun k => (steadyBelow_admissible k).lift run direct⟩
      restores := fun _ => rfl
      agrees := fun _ _ => .inl rfl
      blames := fun _ _ name reported => absurd rfl (direct.2 _ reported name) }
  bind unrolls unrollsNext := unrolls.bind unrollsNext

theorem mono {d' : Nat} (less : d' ≤ d) {α : Type} {family : Option Nat → EvalM α}
    (unrolls : Unrolls root n d α family) : Unrolls root n d' α family where
  steady := unrolls.steady
  restores := unrolls.restores
  agrees := unrolls.agrees
  blames marks only name reported := by
    rcases unrolls.blames marks only name reported with ⟨owner, suffix, marked, descends⟩ | endless
    · refine .inl ⟨owner, suffix, marked, fun m ended => ?_⟩
      obtain ⟨i, below, ended'⟩ := descends m ended
      exact ⟨i, by omega, ended'⟩
    · exact .inr endless

theorem afresh {owner : Scope} (suffix : owner <:+ root) {name : String}
    (unrolls : Unrolls root n 1 Ty fun i => resolution (sides n i) owner name) :
    Unrolls root n 0 Ty fun i =>
      (sides n i).resolve (owner.length, name) (resolution (sides n i) owner name) := by
  have mark {marks : Memo} (only : ∀ key t, ¬ Resolved marks key t)
      (unmarked : ¬ Marked marks (owner.length, name)) :
      (∀ key t, ¬ Resolved (setEntry (owner.length, name) .resolving marks) key t) ∧
        ((sides n none).resolve (owner.length, name)
          (resolution (sides n none) owner name) marks).1 =
          (resolution (sides n none) owner name
            (setEntry (owner.length, name) .resolving marks)).1 := by
    have free := free_of_not_marked only unmarked
    constructor
    · intro key t
      rw [resolved_setEntry_resolving_iff free]
      exact only key t
    · show (Eval.afresh (owner.length, name) _ marks).1 = _
      rw [afresh_of_none free]
  constructor
  · exact unrolls.steady
  · intro marks
    exact afresh_snd
  · intro marks only
    by_cases marked : Marked marks (owner.length, name)
    · exact .inr ⟨name, congrArg Prod.fst (afresh_of_marked marked)⟩
    · obtain ⟨only', same⟩ := mark only marked
      rw [same]
      exact unrolls.agrees _ only'
  · intro marks only reported cause
    by_cases marked : Marked marks (owner.length, name)
    · have same := (congrArg Prod.fst (afresh_of_marked marked)).symm.trans cause
      obtain rfl : name = reported := by simpa [Run.fail] using same
      exact .inl ⟨owner, suffix, marked, fun m ended => ⟨m, Nat.le_refl m, ended⟩⟩
    · obtain ⟨only', same⟩ := mark only marked
      rw [same] at cause
      exact (unrolls.blames _ only' reported cause).unmark suffix

end Unrolls

/-- Evaluation that remembers nothing follows definitions, or it reports one. -/
theorem unrolls_plain (root : Scope) (n : Nat) : ∀ context : Context,
    Scope.Rooted root context.scope → ∀ e, Unrolls root n 1 Ty fun i =>
      i.elim (plain n context e) fun m => unfolding m context e := by
  induction n with
  | zero =>
    intro context rooted e
    refine ⟨steady_unfolding rooted e, fun _ => rfl, fun _ _ => .inl rfl, ?_⟩
    intro marks _ name reported
    cases reported
  | succ n ih =>
    intro context rooted e
    have enters : ∀ scope e, Scope.Rooted root scope →
        Unrolls root n 1 Ty fun i => (sides n i).enter scope e := by
      intro scope e rooted
      convert ih ⟨scope, []⟩ rooted e using 2 with i
      cases i <;> rfl
    have resolves : ∀ owner name, owner <:+ root → Unrolls root n 0 Ty fun i =>
        (sides n i).resolve (owner.length, name) (resolution (sides n i) owner name) :=
      fun owner name suffix => Unrolls.afresh suffix
        (resolution_admissible (Unrolls.admissible root n 1).plain enters suffix name)
    have above : Unrolls root n 0 Ty fun i => expr (sides n i) context e :=
      expr_admissible (Unrolls.admissible root n 0)
        (fun scope e rooted => (enters scope e rooted).mono (Nat.zero_le 1)) resolves e rooted
    refine ⟨steady_unfolding rooted e, above.restores, above.agrees, ?_⟩
    intro marks only name reported
    rcases above.blames marks only name reported with
      ⟨owner, suffix, marked, descends⟩ | ⟨endless, never⟩
    · refine .inl ⟨owner, suffix, marked, fun m ended => ?_⟩
      cases m with
      | zero => exact absurd rfl ended
      | succ m =>
        obtain ⟨i, below, ended'⟩ := descends m ended
        exact ⟨i, Nat.succ_le_succ below, ended'⟩
    · refine .inr ⟨endless, fun m => ?_⟩
      cases m with
      | zero => rfl
      | succ m => exact never m

section Answers

variable (scope : Scope) (generics : Generics) (e : Expr)

/-- Evaluation answers what following definitions answers, or it reports a definition. -/
theorem plain_follows (n : Nat) :
    (plain n ⟨scope, generics⟩ e []).1 = (unfolding n ⟨scope, generics⟩ e []).1 ∨
      ∃ name, (plain n ⟨scope, generics⟩ e []).1 = .error (.error (.recursive name)) := by
  have rooted := Scope.rooted_of_suffix (List.suffix_refl scope)
  exact (unrolls_plain scope n ⟨scope, generics⟩ rooted e).agrees []
    fun key t resolved => by cases resolved

/-- Where a definition is reported, neither following it nor following the whole ends. -/
theorem endless_of_plain {n : Nat} {name : String}
    (reported : (plain n ⟨scope, generics⟩ e []).1 = .error (.error (.recursive name))) :
    Endless scope name ∧ ∀ m, (unfolding m ⟨scope, generics⟩ e []).1 = exhausted := by
  have rooted := Scope.rooted_of_suffix (List.suffix_refl scope)
  have unrolls := unrolls_plain scope n ⟨scope, generics⟩ rooted e
  rcases unrolls.blames [] (fun key t resolved => by cases resolved) name reported with
    ⟨owner, -, marked, -⟩ | endless
  · cases marked
  · exact endless

end Answers

/-- A type that an expression has while definitions are being resolved it has anyway. -/
theorem plain_unmark {n : Nat} {scope : Scope} {generics : Generics} {e : Expr} {marks : Memo}
    (only : ∀ key t, ¬ Resolved marks key t) {t : Ty}
    (answer : (plain n ⟨scope, generics⟩ e marks).1 = .ok t) :
    (plain n ⟨scope, generics⟩ e []).1 = .ok t := by
  have rooted := Scope.rooted_of_suffix (List.suffix_refl scope)
  have followed : (unfolding n ⟨scope, generics⟩ e []).1 = .ok t := by
    rcases (unrolls_plain scope n ⟨scope, generics⟩ rooted e).agrees marks only with
      same | ⟨name, reported⟩
    · exact same.symm.trans answer
    · cases answer.symm.trans reported
  rcases plain_follows scope generics e n with same | ⟨name, reported⟩
  · exact same.trans followed
  · have endless := (endless_of_plain scope generics e reported).2 n
    cases followed.symm.trans endless

end Eval

end TypeFlow
