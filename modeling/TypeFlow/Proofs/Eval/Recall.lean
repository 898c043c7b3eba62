import TypeFlow.Proofs.Eval.Memo
import TypeFlow.Proofs.Eval.Shapes

/-!
# Remembering costs no levels

What is remembered never makes evaluation go deeper: if it ends with some number of levels when
nothing is remembered, it ends with as many after any calls, and with the same answer. The reason
is that a memo is complete. All that a resolved definition needs is resolved as well, so that its
type can be found by heart, without resolving anything. A definition that one run resolves and the
other remembers therefore adds nothing to the first run's memo that the second run lacks.
-/

namespace TypeFlow

namespace Eval

/-- Looks up a definition that was resolved; for any other there is no answer. -/
def fromMemo (key : EntryKey) (_ : EvalM Ty) : EvalM Ty := fun memo =>
  match valueAt? key memo with
  | some (.resolved t) => (.ok t, memo)
  | _ => (exhausted, memo)

/-- Evaluation that resolves nothing. -/
def byHeart : (levels : Nat) → Context → Expr → EvalM Ty := levelBy fromMemo

/-- How it goes on outside an expression. -/
def heartReach (levels : Nat) : Reach := ⟨fun scope e => byHeart levels ⟨scope, []⟩ e, fromMemo⟩

variable {key : EntryKey} {memo memo' : Memo} {t : Ty} {root owner : Scope}

theorem fromMemo_eq_ok_iff {x : EvalM Ty} :
    (fromMemo key x memo).1 = .ok t ↔ Resolved memo key t := by
  unfold fromMemo Resolved
  split
  · next s found => simp [found]
  · next missing => exact iff_of_false (by simp) (missing t)

theorem fromMemo_of_resolved {x : EvalM Ty}
    (resolved : Resolved memo key t) : fromMemo key x memo = (.ok t, memo) := by
  unfold Resolved at resolved
  simp [fromMemo, resolved]

/-- The second memo has all types of the first. -/
def Knows (memo memo' : Memo) : Prop := ∀ key t, Resolved memo key t → Resolved memo' key t

theorem Knows.refl (memo : Memo) : Knows memo memo := fun _ _ resolved => resolved

theorem Knows.trans {memo memo' memo'' : Memo} (first : Knows memo memo')
    (second : Knows memo' memo'') : Knows memo memo'' :=
  fun key t resolved => second key t (first key t resolved)

/-- A mark on a definition that is not there adds no type. -/
theorem knows_mark (free : valueAt? key memo = none) : Knows (setEntry key .resolving memo) memo :=
  fun _ _ => (resolved_setEntry_resolving_iff free).mp

/-- Recording a definition with the type that is known adds nothing. -/
theorem knows_record (knows : Knows memo memo')
    (resolved : Resolved memo' key t) : Knows (setEntry key (.resolved t) memo) memo' := by
  intro other s found
  by_cases same : key = other
  · subst same
    have cells : Cell.resolved t = .resolved s := by
      simpa [Resolved, valueAt?_setEntry_self] using found
    rwa [← Cell.resolved.inj cells]
  · exact knows other s (by simpa [Resolved, valueAt?_setEntry_of_ne same] using found)

theorem Knows.setEntry (knows : Knows memo memo') (key : EntryKey) (t : Ty) :
    Knows (setEntry key (.resolved t) memo) (setEntry key (.resolved t) memo') := by
  intro other s found
  by_cases same : key = other
  · subst same
    rw [Resolved, valueAt?_setEntry_self] at found ⊢
    exact found
  · rw [Resolved, valueAt?_setEntry_of_ne same] at found ⊢
    exact knows other s found

theorem Knows.dropEntry (knows : Knows memo memo') (key : EntryKey) :
    Knows (dropEntry key memo) (dropEntry key memo') := by
  intro other s found
  by_cases same : key = other
  · subst same
    rw [Resolved, valueAt?_dropEntry_self] at found
    cases found
  · rw [Resolved, valueAt?_dropEntry_of_ne same] at found ⊢
    exact knows other s found

/-- Up to a number of levels, an answer is kept by more levels and by a memo that knows more, and
the memo stays as it is. -/
def PersistsBelow (k : Nat) (α : Type) (family : Nat → EvalM α) : Prop :=
  ∀ m m', m ≤ m' → m' ≤ k → ∀ memo memo', Knows memo memo' → ∀ a, (family m memo).1 = .ok a →
    family m' memo' = (.ok a, memo')

theorem persistsBelow_admissible (k : Nat) : Admissible EvalError.Direct (PersistsBelow k) where
  lift _ _ := fun _ _ _ _ _ _ _ _ same => Prod.ext same rfl
  bind {α β first next} persists persistsNext := by
    intro m m' more bound memo memo' knows b found
    change ((first m >>= fun a => next a m) memo).1 = .ok b at found
    show (first m' >>= fun a => next a m') memo' = (.ok b, memo')
    obtain ⟨a, after, outcome, -⟩ := bind_eq_ok found
    have answered := congrArg Prod.fst outcome
    have stays := persists m m (Nat.le_refl m) (more.trans bound) memo memo (.refl memo) a answered
    rw [bind_of_ok stays] at found
    rw [bind_of_ok (persists m m' more bound memo memo' knows a answered)]
    exact persistsNext a m m' more bound memo memo' knows b found

theorem persistsBelow_fromMemo (k : Nat) (key : EntryKey) (resolve : Nat → EvalM Ty) :
    PersistsBelow k Ty fun m => fromMemo key (resolve m) := by
  intro m m' _ _ memo memo' knows t found
  exact fromMemo_of_resolved (knows key t (fromMemo_eq_ok_iff.mp found))

theorem persistsBelow_byHeart (root : Scope) (k : Nat) : ∀ {context : Context},
    Scope.Rooted root context.scope → ∀ e, PersistsBelow k Ty fun m => byHeart m context e := by
  induction k with
  | zero =>
    intro context _ e m m' more bound memo memo' _ a found
    obtain rfl : m = 0 := Nat.le_zero.mp (more.trans bound)
    cases found
  | succ k ih =>
    intro context rooted e
    have enters : ∀ scope e, Scope.Rooted root scope →
        PersistsBelow k Ty fun m => (heartReach m).enter scope e :=
      fun scope e rooted => ih rooted e
    have resolves : ∀ owner name, owner <:+ root → PersistsBelow k Ty fun m =>
        (heartReach m).resolve (owner.length, name) (resolution (heartReach m) owner name) :=
      fun owner name _ =>
        persistsBelow_fromMemo k (owner.length, name) fun m => resolution (heartReach m) owner name
    have above : PersistsBelow k Ty fun m => byHeart (m + 1) context e :=
      expr_admissible (persistsBelow_admissible k) enters resolves e rooted
    intro m m' more bound memo memo' knows a found
    cases m with
    | zero => cases found
    | succ m =>
      obtain ⟨j, rfl⟩ : ∃ j, m' = j + 1 := ⟨m' - 1, by omega⟩
      exact above m j (by omega) (by omega) memo memo' knows a found

/-- What an answer by heart does not depend on: it is kept by more levels and by a memo that knows
more. -/
structure Persists {α : Type} (family : Nat → EvalM α) : Prop where
  below : ∀ k, PersistsBelow k α family

theorem Persists.keeps {α : Type} {family : Nat → EvalM α} (persists : Persists family)
    {m : Nat} {memo : Memo} {a : α} (found : (family m memo).1 = .ok a) {m' : Nat} (more : m ≤ m')
    {memo' : Memo} (knows : Knows memo memo') : family m' memo' = (.ok a, memo') :=
  persists.below m' m m' more (Nat.le_refl m') memo memo' knows a found

theorem persists_resolution (suffix : owner <:+ root) (name : String) :
    Persists fun m => resolution (heartReach m) owner name :=
  ⟨fun k => resolution_admissible (persistsBelow_admissible k).plain
    (fun _ e rooted => persistsBelow_byHeart root k rooted e) suffix name⟩

/-- The type of every resolved definition is found by heart. -/
def Complete (root : Scope) (memo : Memo) : Prop :=
  ∀ key t, Resolved memo key t →
    ∃ m, (resolution (heartReach m) (ownerAt root key) key.2 memo).1 = .ok t

theorem complete_nil (root : Scope) : Complete root [] := by
  intro key t resolved
  cases resolved

theorem ownerAt_suffix (root : Scope) (key : EntryKey) : ownerAt root key <:+ root :=
  List.drop_suffix _ _

/-- A memo with the same types is complete as well. -/
theorem Complete.congr (complete : Complete root memo) (knows : Knows memo memo')
    (known : Knows memo' memo) : Complete root memo' := by
  intro key t resolved
  obtain ⟨m, found⟩ := complete key t (known key t resolved)
  have persists := persists_resolution (ownerAt_suffix root key) key.2
  have kept := persists.keeps found (Nat.le_refl m) knows
  exact ⟨m, by rw [kept]⟩

theorem Complete.mark (complete : Complete root memo)
    (free : valueAt? key memo = none) : Complete root (setEntry key .resolving memo) :=
  complete.congr (fun _ _ => (resolved_setEntry_resolving_iff free).mpr) (knows_mark free)

/-- A memo stays complete when a definition is recorded whose type is found by heart. -/
theorem Complete.record {name : String} (complete : Complete root memo) (suffix : owner <:+ root)
    (marked : Marked memo (owner.length, name)) {m : Nat}
    (found : (resolution (heartReach m) owner name memo).1 = .ok t) :
    Complete root (setEntry (owner.length, name) (.resolved t) memo) := by
  have knows : Knows memo (setEntry (owner.length, name) (.resolved t) memo) :=
    fun _ _ resolved => (resolved_setEntry_resolved_iff marked).mpr (.inr resolved)
  intro key s resolved
  rcases (resolved_setEntry_resolved_iff marked).mp resolved with ⟨rfl, rfl⟩ | before
  · have kept := (persists_resolution suffix name).keeps found (Nat.le_refl m) knows
    rw [ownerAt_eq suffix name]
    exact ⟨m, by rw [kept]⟩
  · obtain ⟨m', found'⟩ := complete key s before
    have kept := (persists_resolution (ownerAt_suffix root key) key.2).keeps found'
      (Nat.le_refl m') knows
    exact ⟨m', by rw [kept]⟩

/-- Three evaluators: one that remembers, one that remembers nothing and one by heart. -/
inductive Mode where
  /-- Definitions are resolved once. -/
  | once
  /-- Definitions are resolved again each time, with some number of levels. -/
  | afresh (levels : Nat)
  /-- Definitions are only looked up, with some number of levels. -/
  | byHeart (levels : Nat)

/-- What two runs start from: the second memo is complete and knows all that the first one does. -/
structure Ahead (root : Scope) (memo memo' : Memo) : Prop where
  marks : SameMarks memo memo'
  only : ∃ marks, MarksOf marks memo
  knows : Knows memo memo'
  right : Right root memo
  right' : Right root memo'
  complete' : Complete root memo'

theorem Ahead.mark (ahead : Ahead root memo memo') (free : valueAt? key memo = none)
    (free' : valueAt? key memo' = none) :
    Ahead root (setEntry key .resolving memo) (setEntry key .resolving memo') where
  marks other := by rw [marked_setEntry_iff, marked_setEntry_iff, ahead.marks other]
  only := by
    obtain ⟨marks, marksOf⟩ := ahead.only
    have unmarked : ¬ Marked marks key := by
      rw [marksOf.2, Marked, free]
      simp
    exact ⟨_, marksOf.mark (free_of_not_marked marksOf.1 unmarked)⟩
  knows := (knows_mark free).trans fun other t resolved =>
    (resolved_setEntry_resolving_iff free').mpr (ahead.knows other t resolved)
  right := ahead.right.mark free
  right' := ahead.right'.mark free'
  complete' := ahead.complete'.mark free'

/-- What a computation of the three evaluators owes. It tracks the one that remembers nothing; it
keeps a memo complete, and what it answered is then known by heart; what is known by heart from a
complete memo it answers without adding anything to that memo; and from a memo that knows more it
comes to the same answer. -/
structure Recalls {α : Type} (root : Scope) (n : Nat) (family : Mode → EvalM α) : Prop where
  tracks : Tracks root n (family .once) fun m => family (.afresh m)
  persists : Persists fun m => family (.byHeart m)
  learns : ∀ {memo memo' answer}, Right root memo → Complete root memo →
    family .once memo = (answer, memo') → (∀ f, answer ≠ .error (.fatal f)) →
    Complete root memo' ∧ ∀ a, answer = .ok a → ∃ m, (family (.byHeart m) memo').1 = .ok a
  within : ∀ {memo memo' known m a b}, Complete root known → Knows memo known →
    (family (.byHeart m) known).1 = .ok a → family .once memo = (.ok b, memo') →
    b = a ∧ Knows memo' known
  agrees : ∀ {memo memo' after answer}, Ahead root memo memo' →
    family .once memo = (answer, after) → answer ≠ exhausted →
    ∃ after', family .once memo' = (answer, after') ∧
      ((∀ f, answer ≠ .error (.fatal f)) → Knows after after')

section Recalls

variable {α β : Type} {root : Scope} {n : Nat}

/-- Two runs that gave the same answer can go on side by side. -/
theorem Recalls.ahead {family : Mode → EvalM α} (recalls : Recalls root n family)
    {memo memo' after after' : Memo} {answer : Run EvalError α} (ahead : Ahead root memo memo')
    (ran : family .once memo = (answer, after)) (ran' : family .once memo' = (answer, after'))
    (knows : Knows after after') (proper : ∀ f, answer ≠ .error (.fatal f)) :
    Ahead root after after' := by
  have follows := recalls.tracks.follows memo ahead.right
  have follows' := recalls.tracks.follows memo' ahead.right'
  rw [ran] at follows
  rw [ran'] at follows'
  obtain ⟨grows, right⟩ := follows.kept proper
  obtain ⟨grows', right'⟩ := follows'.kept proper
  obtain ⟨marks, marksOf⟩ := ahead.only
  refine ⟨fun key => ?_, ⟨marks, marksOf.of_extends grows⟩, knows, right, right', ?_⟩
  · rw [← grows.1 key, ahead.marks key, grows'.1 key]
  · exact (recalls.learns ahead.right' ahead.complete' ran' proper).1

theorem recalls_lift (run : Run EvalError α) (direct : run.Raises EvalError.Direct) :
    Recalls root n fun _ => EvalM.lift run where
  tracks := Tracks.lift run direct
  persists := ⟨fun k => (persistsBelow_admissible k).lift run direct⟩
  learns _ complete ran _ := by
    obtain ⟨rfl, rfl⟩ := Prod.mk.inj ran
    exact ⟨complete, fun a same => ⟨0, same⟩⟩
  within _ knows found ran := by
    obtain ⟨same, rfl⟩ := Prod.mk.inj ran
    exact ⟨Except.ok.inj (same.symm.trans found), knows⟩
  agrees ahead ran _ := by
    obtain ⟨rfl, rfl⟩ := Prod.mk.inj ran
    exact ⟨_, rfl, fun _ => ahead.knows⟩

section Bind

variable {first : Mode → EvalM α} {next : α → Mode → EvalM β}
  (recalls : Recalls root n first) (recallsNext : ∀ a, Recalls root n (next a))
include recalls recallsNext

theorem Recalls.learns_bind {memo memo' : Memo} {answer : Run EvalError β}
    (right : Right root memo) (complete : Complete root memo)
    (ran : (first .once >>= fun a => next a .once) memo = (answer, memo'))
    (proper : ∀ f, answer ≠ .error (.fatal f)) :
    Complete root memo' ∧ ∀ b, answer = .ok b →
      ∃ m, ((first (.byHeart m) >>= fun a => next a (.byHeart m)) memo').1 = .ok b := by
  have follows := recalls.tracks.follows memo right
  rcases bind_cases (first .once) (fun a => next a .once) memo with
    ⟨a, memo₁, outcome, through⟩ | ⟨h, memo₁, outcome, ended⟩
  · rw [through] at ran
    rw [outcome] at follows
    obtain ⟨complete₁, known⟩ := recalls.learns right complete outcome (by simp)
    have right₁ := (follows.kept (by simp)).2
    obtain ⟨complete', known'⟩ := (recallsNext a).learns right₁ complete₁ ran proper
    have followsNext := (recallsNext a).tracks.follows memo₁ right₁
    rw [ran] at followsNext
    have grows := (followsNext.kept proper).1
    refine ⟨complete', fun b same => ?_⟩
    obtain ⟨m, found⟩ := known a rfl
    obtain ⟨m', found'⟩ := known' b same
    -- Both parts are known by heart at the greater number of levels.
    refine ⟨max m m', ?_⟩
    rw [bind_of_ok (recalls.persists.keeps found (Nat.le_max_left m m') grows.2),
      (recallsNext a).persists.keeps found' (Nat.le_max_right m m') (.refl memo')]
  · rw [ended] at ran
    obtain ⟨rfl, rfl⟩ := Prod.mk.inj ran
    have proper₁ : ∀ f, (Except.error h : Run EvalError α) ≠ .error (.fatal f) :=
      fun f same => proper f (by rw [Except.error.inj same])
    refine ⟨(recalls.learns right complete outcome proper₁).1, fun b same => ?_⟩
    cases same

omit recallsNext in
/-- What a step by heart answers, it answers without a trace. -/
theorem Recalls.byHeart_eq {m : Nat} {known : Memo} {a : α}
    (found : (first (.byHeart m) known).1 = .ok a) : first (.byHeart m) known = (.ok a, known) :=
  recalls.persists.keeps found (Nat.le_refl m) (.refl known)

theorem Recalls.within_bind {memo memo' known : Memo} {m : Nat} {b b' : β}
    (complete : Complete root known) (knows : Knows memo known)
    (found : ((first (.byHeart m) >>= fun a => next a (.byHeart m)) known).1 = .ok b)
    (ran : (first .once >>= fun a => next a .once) memo = (.ok b', memo')) :
    b' = b ∧ Knows memo' known := by
  obtain ⟨a, known', heart, -⟩ := bind_eq_ok found
  replace heart := congrArg Prod.fst heart
  rw [bind_of_ok (recalls.byHeart_eq heart)] at found
  obtain ⟨a', memo₁, outcome, through⟩ := bind_eq_ok (congrArg Prod.fst ran)
  rw [through] at ran
  obtain ⟨rfl, knows₁⟩ := recalls.within complete knows heart outcome
  exact (recallsNext a').within complete knows₁ found ran

theorem Recalls.agrees_bind {memo memo' after : Memo} {answer : Run EvalError β}
    (ahead : Ahead root memo memo')
    (ran : (first .once >>= fun a => next a .once) memo = (answer, after))
    (ended : answer ≠ exhausted) :
    ∃ after', (first .once >>= fun a => next a .once) memo' = (answer, after') ∧
      ((∀ f, answer ≠ .error (.fatal f)) → Knows after after') := by
  rcases bind_cases (first .once) (fun a => next a .once) memo with
    ⟨a, memo₁, outcome, through⟩ | ⟨h, memo₁, outcome, stopped⟩
  · rw [through] at ran
    obtain ⟨memo₁', outcome', knows⟩ := recalls.agrees ahead outcome (by simp)
    have ahead₁ := recalls.ahead ahead outcome outcome' (knows (by simp)) (by simp)
    rw [bind_of_ok outcome']
    exact (recallsNext a).agrees ahead₁ ran ended
  · rw [stopped] at ran
    obtain ⟨rfl, rfl⟩ := Prod.mk.inj ran
    have ended₁ : (Except.error h : Run EvalError α) ≠ exhausted :=
      fun same => ended (by rw [Except.error.inj same])
    obtain ⟨after', ran', knows⟩ := recalls.agrees ahead outcome ended₁
    refine ⟨after', bind_of_error ran', fun proper => knows fun f same => proper f ?_⟩
    rw [Except.error.inj same]

end Bind

theorem recalls_admissible (root : Scope) (n : Nat) :
    Admissible EvalError.Direct fun α (family : Mode → EvalM α) => Recalls root n family where
  lift run direct := recalls_lift run direct
  bind recalls recallsNext :=
    { tracks := Tracks.bind recalls.tracks fun a => (recallsNext a).tracks
      persists := ⟨fun k => (persistsBelow_admissible k).bind (recalls.persists.below k)
        fun a => (recallsNext a).persists.below k⟩
      learns := recalls.learns_bind recallsNext
      within := recalls.within_bind recallsNext
      agrees := recalls.agrees_bind recallsNext }

/-- How evaluation that resolves definitions once goes on outside an expression. -/
def levelReach (levels : Nat) : Reach := ⟨fun scope e => level levels ⟨scope, []⟩ e, once⟩

theorem level_succ (levels : Nat) (context : Context) (e : Expr) :
    level (levels + 1) context e = expr (levelReach levels) context e := rfl

theorem evaluateWith_eq_expr {scope : Scope} {generics : Generics} (e : Expr) :
    scope.evaluateWith generics e =
      expr (levelReach (scope.size + maxCalls)) ⟨scope, generics⟩ e := by
  rw [Scope.evaluateWith, level_succ]

/-- How the three evaluators go on outside an expression. -/
def modeReach (n : Nat) : Mode → Reach
  | .once => levelReach n
  | .afresh m => plainReach m
  | .byHeart m => heartReach m

section Resolve

variable {owner : Scope} {name : String} (suffix : owner <:+ root)
  (recalls : Recalls root n fun mode => resolution (modeReach n mode) owner name)
include suffix recalls

theorem Recalls.learns_once {memo memo' : Memo} {answer : Run EvalError Ty}
    (right : Right root memo) (complete : Complete root memo)
    (ran : once (owner.length, name) (resolution (modeReach n .once) owner name) memo =
      (answer, memo')) (proper : ∀ f, answer ≠ .error (.fatal f)) :
    Complete root memo' ∧ ∀ t, answer = .ok t → Resolved memo' (owner.length, name) t := by
  cases found : valueAt? (owner.length, name) memo with
  | some cell =>
    cases cell with
    | resolving =>
      rw [once_of_marked found] at ran
      obtain ⟨rfl, rfl⟩ := Prod.mk.inj ran
      exact ⟨complete, fun t same => by cases same⟩
    | resolved t =>
      rw [once_of_resolved found] at ran
      obtain ⟨rfl, rfl⟩ := Prod.mk.inj ran
      exact ⟨complete, fun s same => Except.ok.inj same ▸ found⟩
  | none =>
    rw [once_of_none found] at ran
    have follows := recalls.tracks.follows _ (right.mark found)
    cases outcome : resolution (modeReach n .once) owner name
        (setEntry (owner.length, name) .resolving memo) with
    | mk answer₁ memo₁ =>
      rw [outcome] at ran follows
      have marked (proper₁ : ∀ f, answer₁ ≠ .error (.fatal f)) :
          Marked memo₁ (owner.length, name) :=
        ((follows.kept proper₁).1.1 _).mp (marked_setEntry_iff.mpr (.inl rfl))
      have learns := recalls.learns (right.mark found) (complete.mark found) outcome
      rcases answer₁ with (e | f) | t
      · obtain ⟨rfl, rfl⟩ := Prod.mk.inj ran
        refine ⟨(learns proper).1.congr ?_ ?_, fun t same => by cases same⟩
        · exact fun other s => (resolved_dropEntry_iff (marked proper)).mpr
        · exact fun other s => (resolved_dropEntry_iff (marked proper)).mp
      · obtain ⟨rfl, rfl⟩ := Prod.mk.inj ran
        exact absurd rfl (proper f)
      · obtain ⟨rfl, rfl⟩ := Prod.mk.inj ran
        obtain ⟨complete₁, known⟩ := learns (by simp)
        obtain ⟨m, found⟩ := known t rfl
        refine ⟨complete₁.record suffix (marked (by simp)) found, fun s same => ?_⟩
        obtain rfl := Except.ok.inj same
        exact valueAt?_setEntry_self _ _ _

theorem Recalls.within_once {memo memo' known : Memo} {t s : Ty} (complete : Complete root known)
    (knows : Knows memo known) (found : Resolved known (owner.length, name) t)
    (ran : once (owner.length, name) (resolution (modeReach n .once) owner name) memo =
      (.ok s, memo')) : s = t ∧ Knows memo' known := by
  cases here : valueAt? (owner.length, name) memo with
  | some cell =>
    cases cell with
    | resolving =>
      rw [once_of_marked here] at ran
      cases (Prod.mk.inj ran).1
    | resolved t' =>
      rw [once_of_resolved here] at ran
      obtain ⟨same, rfl⟩ := Prod.mk.inj ran
      obtain rfl := Except.ok.inj same
      have cells := (knows _ _ here).symm.trans found
      exact ⟨Cell.resolved.inj (Option.some.inj cells), knows⟩
  | none =>
    rw [once_of_none here] at ran
    cases outcome : resolution (modeReach n .once) owner name
        (setEntry (owner.length, name) .resolving memo) with
    | mk answer₁ memo₁ =>
      rw [outcome] at ran
      rcases answer₁ with (e | f) | t'
      · cases (Prod.mk.inj ran).1
      · cases (Prod.mk.inj ran).1
      · obtain ⟨same, rfl⟩ := Prod.mk.inj ran
        obtain rfl := Except.ok.inj same
        -- What the definition needs is in the complete memo, so nothing else is resolved for it.
        obtain ⟨m, heart⟩ := complete _ t found
        rw [ownerAt_eq suffix name] at heart
        obtain ⟨rfl, knows₁⟩ :=
          recalls.within complete ((knows_mark here).trans knows) heart outcome
        exact ⟨rfl, knows_record knows₁ found⟩

theorem Recalls.agrees_once {memo memo' after : Memo} {answer : Run EvalError Ty}
    (ahead : Ahead root memo memo')
    (ran : once (owner.length, name) (resolution (modeReach n .once) owner name) memo =
      (answer, after)) (ended : answer ≠ exhausted) :
    ∃ after', once (owner.length, name) (resolution (modeReach n .once) owner name) memo' =
      (answer, after') ∧ ((∀ f, answer ≠ .error (.fatal f)) → Knows after after') := by
  cases found : valueAt? (owner.length, name) memo with
  | some cell =>
    cases cell with
    | resolving =>
      have found' : Marked memo' (owner.length, name) := (ahead.marks _).mp found
      rw [once_of_marked found] at ran
      obtain ⟨rfl, rfl⟩ := Prod.mk.inj ran
      exact ⟨memo', once_of_marked found', fun _ => ahead.knows⟩
    | resolved t =>
      rw [once_of_resolved found] at ran
      obtain ⟨rfl, rfl⟩ := Prod.mk.inj ran
      exact ⟨memo', once_of_resolved (ahead.knows _ t found), fun _ => ahead.knows⟩
  | none =>
    cases found' : valueAt? (owner.length, name) memo' with
    | some cell =>
      cases cell with
      | resolving =>
        have marked : Marked memo (owner.length, name) := (ahead.marks _).mpr found'
        rw [Marked, found] at marked
        cases marked
      | resolved t =>
        -- One run resolves the definition and the other remembers it. Both compare with evaluation
        -- that remembers nothing, under the marks that they share.
        have tracks := Tracks.once suffix recalls.tracks
        have follows := tracks.follows memo ahead.right
        rw [ran] at follows
        obtain ⟨marks, marksOf⟩ := ahead.only
        obtain ⟨m, same⟩ := follows.answers ended marksOf
        have beside : Beside marks memo' :=
          ⟨marksOf.1, fun key marked =>
            not_resolved_of_marked ((ahead.marks key).mp ((marksOf.2 key).mp marked))⟩
        obtain ⟨m', same'⟩ := ahead.right' _ t found' marks beside
        rw [ownerAt_eq suffix name] at same'
        obtain rfl := tracks.steady.unique same ended same' (by simp)
        refine ⟨memo', once_of_resolved found', fun _ => ?_⟩
        exact (recalls.within_once suffix ahead.complete' ahead.knows found' ran).2
    | none =>
      rw [once_of_none found] at ran
      rw [once_of_none found']
      cases outcome : resolution (modeReach n .once) owner name
          (setEntry (owner.length, name) .resolving memo) with
      | mk answer₁ after₁ =>
        rw [outcome] at ran
        have agrees := recalls.agrees (ahead.mark found found') outcome
        rcases answer₁ with (e | f) | t
        · obtain ⟨rfl, rfl⟩ := Prod.mk.inj ran
          obtain ⟨after₁', outcome', knows⟩ := agrees ended
          rw [outcome']
          exact ⟨_, rfl, fun proper => (knows proper).dropEntry _⟩
        · obtain ⟨rfl, rfl⟩ := Prod.mk.inj ran
          obtain ⟨after₁', outcome', -⟩ := agrees ended
          rw [outcome']
          exact ⟨_, rfl, fun proper => absurd rfl (proper f)⟩
        · obtain ⟨rfl, rfl⟩ := Prod.mk.inj ran
          obtain ⟨after₁', outcome', knows⟩ := agrees ended
          rw [outcome']
          exact ⟨_, rfl, fun proper => (knows proper).setEntry _ t⟩

/-- Resolving a definition owes what its resolution owes. -/
theorem Recalls.resolve : Recalls root n fun mode =>
    (modeReach n mode).resolve (owner.length, name) (resolution (modeReach n mode) owner name) where
  tracks := Tracks.once suffix recalls.tracks
  persists := ⟨fun k =>
    persistsBelow_fromMemo k (owner.length, name) fun m => resolution (heartReach m) owner name⟩
  learns right complete ran proper := by
    obtain ⟨complete', known⟩ := recalls.learns_once suffix right complete ran proper
    refine ⟨complete', fun t same => ⟨0, ?_⟩⟩
    show (fromMemo _ (resolution (heartReach 0) owner name) _).1 = _
    exact fromMemo_eq_ok_iff.mpr (known t same)
  within {_ _ known m a _} complete knows found ran := by
    change (fromMemo _ (resolution (heartReach m) owner name) known).1 = .ok a at found
    exact recalls.within_once suffix complete knows (fromMemo_eq_ok_iff.mp found) ran
  agrees := recalls.agrees_once suffix

end Resolve

/-- Evaluation of an expression by the three evaluators. -/
def modeLevel (n : Nat) (context : Context) (e : Expr) : Mode → EvalM Ty
  | .once => level n context e
  | .afresh m => plain m context e
  | .byHeart m => byHeart m context e

theorem recalls_level (root : Scope) (n : Nat) (context : Context)
    (rooted : Scope.Rooted root context.scope) (e : Expr) :
    Recalls root n (modeLevel n context e) := by
  induction n generalizing context e with
  | zero =>
    refine ⟨tracks_level root 0 context rooted e,
      ⟨fun k => persistsBelow_byHeart root k rooted e⟩, ?_, ?_, ?_⟩
    · intro memo memo' answer _ _ ran proper
      exact absurd (Prod.mk.inj ran).1.symm (proper .exhausted)
    · intro memo memo' known m a b _ _ _ ran
      cases (Prod.mk.inj ran).1
    · intro memo memo' after answer _ ran ended
      exact absurd (Prod.mk.inj ran).1.symm ended
  | succ n ih =>
    have admissible := recalls_admissible root n
    have enters : ∀ scope e, Scope.Rooted root scope →
        Recalls root n fun mode => (modeReach n mode).enter scope e := by
      intro scope e rooted
      have inner := ih ⟨scope, []⟩ rooted e
      convert inner using 1
      funext mode
      cases mode <;> rfl
    have resolves : ∀ owner name, owner <:+ root → Recalls root n fun mode =>
        (modeReach n mode).resolve (owner.length, name)
          (resolution (modeReach n mode) owner name) :=
      fun owner name suffix =>
        Recalls.resolve suffix (resolution_admissible admissible.plain enters suffix name)
    have above : Recalls root n fun mode => expr (modeReach n mode) context e :=
      expr_admissible admissible enters resolves e rooted
    refine ⟨tracks_level root (n + 1) context rooted e,
      ⟨fun k => persistsBelow_byHeart root k rooted e⟩, ?_, ?_, above.agrees⟩
    · intro memo memo' answer right complete ran proper
      obtain ⟨complete', known⟩ := above.learns right complete ran proper
      refine ⟨complete', fun t same => ?_⟩
      obtain ⟨m, found⟩ := known t same
      exact ⟨m + 1, found⟩
    · intro memo memo' known m a b complete knows found ran
      cases m with
      | zero => cases found
      | succ m => exact above.within complete knows found ran

end Recalls

variable {chain : Scope} {memo : Memo}

theorem Reached.mono {chain chain' : Scope} (reached : Reached chain memo)
    (part : chain <:+ chain') : Reached chain' memo := by
  induction reached with
  | fresh => exact .fresh
  | call _ inside ends proper ih => exact ih.call (inside.trans part) ends proper

/-- All that a remembered definition needs is remembered. -/
theorem Reached.complete (reached : Reached chain memo) : Complete chain memo := by
  induction reached with
  | fresh => exact complete_nil chain
  | @call memo memo' scope generics e levels answer before part ends proper ih =>
    have recalls :=
      recalls_level chain levels ⟨scope, generics⟩ (Scope.rooted_of_suffix part) e
    exact (recalls.learns before.right.2 ih ends proper).1

variable {scope : Scope} {generics : Generics} {e : Expr}

/-- A call that ends when nothing is remembered ends after any calls, with as many levels and the
same answer. -/
theorem Reached.level_eq (reached : Reached chain memo) (part : scope <:+ chain) {levels : Nat}
    (ended : (level levels ⟨scope, generics⟩ e []).1 ≠ exhausted) :
    (level levels ⟨scope, generics⟩ e memo).1 = (level levels ⟨scope, generics⟩ e []).1 := by
  obtain ⟨unmarked, right⟩ := reached.right
  have fresh := (Reached.fresh : Reached chain []).right
  have ahead : Ahead chain [] memo := by
    refine ⟨fun key => ?_, ⟨[], ?_, fun _ => Iff.rfl⟩, ?_, fresh.2, right, reached.complete⟩
    · exact iff_of_false (fresh.1 key) (unmarked key)
    · intro key t resolved
      cases resolved
    · intro key t resolved
      cases resolved
  have recalls := recalls_level chain levels ⟨scope, generics⟩ (Scope.rooted_of_suffix part) e
  cases outcome : level levels ⟨scope, generics⟩ e [] with
  | mk answer after =>
    rw [outcome] at ended
    obtain ⟨after', same, -⟩ := recalls.agrees ahead outcome ended
    change level levels ⟨scope, generics⟩ e memo = (answer, after') at same
    rw [same]

theorem Reached.evaluateWith (reached : Reached chain memo) (part : scope <:+ chain)
    (proper : ∀ f, (scope.evaluateWith generics e memo).1 ≠ .error (.fatal f)) :
    Reached chain (scope.evaluateWith generics e memo).2 := by
  rw [Scope.evaluateWith] at proper ⊢
  exact reached.call part rfl proper

/-- A call that ends when nothing is remembered has the same answer after any calls. -/
theorem Reached.evaluateWith_eq (reached : Reached chain memo) (part : scope <:+ chain)
    (ended : scope.evaluate generics e ≠ exhausted) :
    (scope.evaluateWith generics e memo).1 = scope.evaluate generics e := by
  rw [Scope.evaluate_eq, Scope.evaluateWith] at ended ⊢
  exact reached.level_eq part ended

end Eval

end TypeFlow
