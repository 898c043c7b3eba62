import TypeFlow.Proofs.Eval.Plain

/-!
# Evaluation compared with evaluation that remembers nothing

A type in the memo is right when the evaluator that remembers nothing finds it under any marks, as
long as no definition that the memo has resolved is marked. This is enough for the definitions
that evaluation looks up, since none is both marked and resolved. Evaluation keeps the memo right
and answers what the other evaluator answers: a definition that was resolved under its own mark
does not need itself, and one that fails leaves nothing behind.
-/

namespace TypeFlow

namespace Eval

/-- The same definitions are being resolved. -/
def SameMarks (memo memo' : Memo) : Prop := ∀ key, Marked memo key ↔ Marked memo' key

/-- The second memo has the same marks and all types of the first. -/
def Extends (memo memo' : Memo) : Prop :=
  SameMarks memo memo' ∧ ∀ key t, Resolved memo key t → Resolved memo' key t

/-- There are only marks, none on a definition that the memo has resolved. -/
def Beside (marks memo : Memo) : Prop :=
  (∀ key t, ¬ Resolved marks key t) ∧ ∀ key, Marked marks key → ∀ t, ¬ Resolved memo key t

/-- There are only marks, those of the memo. -/
def MarksOf (marks memo : Memo) : Prop :=
  (∀ key t, ¬ Resolved marks key t) ∧ SameMarks marks memo

theorem Extends.refl (memo : Memo) : Extends memo memo := ⟨fun _ => Iff.rfl, fun _ _ => id⟩

theorem Extends.trans {memo memo' memo'' : Memo} (first : Extends memo memo')
    (second : Extends memo' memo'') : Extends memo memo'' :=
  ⟨fun key => (first.1 key).trans (second.1 key),
    fun key t resolved => second.2 key t (first.2 key t resolved)⟩

theorem Beside.of_extends {marks memo memo' : Memo} (beside : Beside marks memo')
    (grows : Extends memo memo') : Beside marks memo :=
  ⟨beside.1, fun key marked t resolved => beside.2 key marked t (grows.2 key t resolved)⟩

theorem MarksOf.of_extends {marks memo memo' : Memo} (marksOf : MarksOf marks memo)
    (grows : Extends memo memo') : MarksOf marks memo' :=
  ⟨marksOf.1, fun key => (marksOf.2 key).trans (grows.1 key)⟩

theorem MarksOf.beside {marks memo : Memo} (marksOf : MarksOf marks memo) : Beside marks memo :=
  ⟨marksOf.1, fun key marked => not_resolved_of_marked ((marksOf.2 key).mp marked)⟩

/-- The owner of a definition of the root. -/
def ownerAt (root : Scope) (key : EntryKey) : Scope := root.drop (root.length - key.1)

theorem ownerAt_eq {root owner : Scope} (suffix : owner <:+ root) (name : String) :
    ownerAt root (owner.length, name) = owner := by
  obtain ⟨inner, rfl⟩ := suffix
  simp [ownerAt]

/-- Every type in the memo is what evaluation that remembers nothing finds, under any marks on
definitions that the memo has not resolved. -/
def Right (root : Scope) (memo : Memo) : Prop :=
  ∀ key t, Resolved memo key t → ∀ marks, Beside marks memo →
    ∃ m, (afresh key (resolution (plainReach m) (ownerAt root key) key.2) marks).1 = .ok t

/-- What a run that started from a memo owes to computations that remember nothing. -/
structure Follows {α : Type} (root : Scope) (n : Nat) (memo : Memo)
    (outcome : Run EvalError α × Memo) (family : Nat → EvalM α) : Prop where
  kept : (∀ f, outcome.1 ≠ .error (.fatal f)) → Extends memo outcome.2 ∧ Right root outcome.2
  succeeds : ∀ a, outcome.1 = .ok a → ∀ marks, Beside marks outcome.2 →
    ∃ m, (family m marks).1 = .ok a
  fails : ∀ h, outcome.1 = .error h → h ≠ .fatal .exhausted → ∀ marks, MarksOf marks memo →
    ∃ m, (family m marks).1 = .error h
  exhausts : outcome.1 = exhausted → ∀ marks, MarksOf marks memo →
    (family n marks).1 = exhausted

/-- The computation answers as those that remember nothing, and keeps the memo right. -/
structure Tracks {α : Type} (root : Scope) (n : Nat) (computation : EvalM α)
    (family : Nat → EvalM α) : Prop where
  steady : Steady family
  follows : ∀ memo, Right root memo → Follows root n memo (computation memo) family

section Tracks

variable {α β : Type} {root : Scope} {n : Nat}

/-- An answer is one of the computations that remember nothing, under the same marks. -/
theorem Follows.answers {memo : Memo} {outcome : Run EvalError α × Memo} {family : Nat → EvalM α}
    (follows : Follows root n memo outcome family) (finished : outcome.1 ≠ exhausted)
    {marks : Memo} (marksOf : MarksOf marks memo) : ∃ m, (family m marks).1 = outcome.1 := by
  cases answer : outcome.1 with
  | ok a =>
    have grows := (follows.kept (by simp [answer])).1
    exact follows.succeeds a answer marks (marksOf.of_extends grows).beside
  | error h =>
    refine follows.fails h answer (fun same => finished ?_) marks marksOf
    rw [answer, same]

theorem Tracks.lift (run : Run EvalError α) (direct : run.Raises EvalError.Direct) :
    Tracks root n (EvalM.lift run) fun _ => EvalM.lift run where
  steady := ⟨fun k => (steadyBelow_admissible k).lift run direct⟩
  follows memo right :=
    { kept := fun _ => ⟨Extends.refl memo, right⟩
      succeeds := fun _ same _ _ => ⟨0, same⟩
      fails := fun _ same _ _ _ => ⟨0, same⟩
      exhausts := fun same _ _ => same }

section Bind

variable {computation : EvalM α} {family : Nat → EvalM α} {next : α → EvalM β}
  {families : α → Nat → EvalM β}

/-- What a step in sequence owes after the first part succeeded. -/
theorem Follows.bind_ok (steady : Steady family) (steadyNext : ∀ a, Steady (families a))
    {memo memo' : Memo} {a : α} {outcome : Run EvalError β × Memo}
    (first : Follows root n memo (.ok a, memo') family)
    (second : Follows root n memo' outcome (families a)) :
    Follows root n memo outcome fun m => family m >>= fun a => families a m := by
  obtain ⟨grows, _⟩ := first.kept (by simp)
  have through {m : Nat} {marks : Memo} (same : (family m marks).1 = .ok a) :
      (family m >>= fun a => families a m) marks = families a m marks := by
    rw [bind_of_restored (steady.restores m marks), same]
  -- Both parts have their answers at the greater number of levels.
  have together {marks : Memo} {answer : Run EvalError β} (beside : Beside marks memo')
      (finished : answer ≠ exhausted) (found : ∃ m, (families a m marks).1 = answer) :
      ∃ m, ((family m >>= fun a => families a m) marks).1 = answer := by
    obtain ⟨m, same⟩ := first.succeeds a rfl marks beside
    obtain ⟨m', same'⟩ := found
    refine ⟨max m m', ?_⟩
    rw [through (steady.keeps same (by simp) (Nat.le_max_left m m'))]
    exact (steadyNext a).keeps same' finished (Nat.le_max_right m m')
  constructor
  · intro notFatal
    obtain ⟨grows', right⟩ := second.kept notFatal
    exact ⟨grows.trans grows', right⟩
  · intro b answer marks beside
    have grows' := (second.kept (by simp [answer])).1
    exact together (beside.of_extends grows') (by simp) (second.succeeds b answer marks beside)
  · intro h answer finished marks marksOf
    have marksOf' := marksOf.of_extends grows
    exact together marksOf'.beside (by simpa using finished)
      (second.fails h answer finished marks marksOf')
  · intro answer marks marksOf
    have marksOf' := marksOf.of_extends grows
    obtain ⟨m, same⟩ := first.succeeds a rfl marks marksOf'.beside
    by_cases finished : (family n marks).1 = exhausted
    · rw [bind_of_restored (steady.restores n marks), finished]
    · rw [through (steady.unique rfl finished same (by simp))]
      exact second.exhausts answer marks marksOf'

/-- What a step in sequence owes after the first part failed. -/
theorem Follows.bind_error (steady : Steady family) {memo memo' : Memo} {h : Halt EvalError}
    (first : Follows root n memo (.error h, memo') family) :
    Follows root n memo (.error h, memo') fun m => family m >>= fun a => families a m := by
  have through {m : Nat} {marks : Memo} {h : Halt EvalError}
      (same : (family m marks).1 = .error h) :
      ((family m >>= fun a => families a m) marks).1 = .error h := by
    rw [bind_of_restored (steady.restores m marks), same]
  constructor
  · intro notFatal
    exact first.kept (by simpa using notFatal)
  · intro b answer
    cases answer
  · intro h' answer finished marks marksOf
    obtain ⟨m, same⟩ := first.fails h' (by simpa using answer) finished marks marksOf
    exact ⟨m, through same⟩
  · intro answer marks marksOf
    exact through (first.exhausts (by simpa using answer) marks marksOf)

/-- Steps in sequence track when both parts do. -/
theorem Tracks.bind (first : Tracks root n computation family)
    (second : ∀ a, Tracks root n (next a) (families a)) :
    Tracks root n (computation >>= next) fun m => family m >>= fun a => families a m where
  steady := ⟨fun k => (steadyBelow_admissible k).bind (first.steady.below k)
    fun a => (second a).steady.below k⟩
  follows memo right := by
    have started := first.follows memo right
    rcases bind_cases computation next memo with
      ⟨a, memo', outcome, ran⟩ | ⟨h, memo', outcome, ran⟩ <;> rw [outcome] at started <;> rw [ran]
    · have ended := (second a).follows memo' (started.kept (by simp)).2
      exact Follows.bind_ok first.steady (fun a => (second a).steady) started ended
    · exact Follows.bind_error first.steady started

end Bind

theorem tracks_admissible (root : Scope) (n : Nat) :
    Admissible EvalError.Direct fun α (family : Option Nat → EvalM α) =>
      Tracks root n (family none) fun m => family (some m) where
  lift run direct := Tracks.lift run direct
  bind first second := Tracks.bind first second

section Mark

variable {key : EntryKey} {memo : Memo}

variable {other : EntryKey} {t s : Ty} {marks : Memo}

/-- Marking a definition that is not in the memo adds this mark only. -/
theorem marked_setEntry_iff :
    Marked (setEntry key .resolving memo) other ↔ other = key ∨ Marked memo other := by
  by_cases same : key = other
  · subst same
    simp [Marked, valueAt?_setEntry_self]
  · simp [Marked, valueAt?_setEntry_of_ne same, Ne.symm same]

theorem resolved_setEntry_resolving_iff (free : valueAt? key memo = none) :
    Resolved (setEntry key .resolving memo) other t ↔ Resolved memo other t := by
  by_cases same : key = other
  · subst same
    simp [Resolved, valueAt?_setEntry_self, free]
  · simp [Resolved, valueAt?_setEntry_of_ne same]

/-- Marks beside a memo stay beside it with a mark on a definition that it has not resolved. -/
theorem Beside.mark (beside : Beside marks memo) (free : valueAt? key marks = none)
    (unresolved : ∀ t, ¬ Resolved memo key t) : Beside (setEntry key .resolving marks) memo := by
  constructor
  · intro other t
    rw [resolved_setEntry_resolving_iff free]
    exact beside.1 other t
  · intro other marked
    rcases marked_setEntry_iff.mp marked with rfl | marked
    · exact unresolved
    · exact beside.2 other marked

theorem MarksOf.mark (marksOf : MarksOf marks memo) (free : valueAt? key marks = none) :
    MarksOf (setEntry key .resolving marks) (setEntry key .resolving memo) := by
  constructor
  · intro other t
    rw [resolved_setEntry_resolving_iff free]
    exact marksOf.1 other t
  · intro other
    rw [marked_setEntry_iff, marked_setEntry_iff, marksOf.2 other]

/-- Where there are only marks, a definition without one is not there at all. -/
theorem free_of_not_marked (only : ∀ key t, ¬ Resolved marks key t)
    (unmarked : ¬ Marked marks key) : valueAt? key marks = none := by
  cases found : valueAt? key marks with
  | none => rfl
  | some cell =>
    cases cell with
    | resolving => exact absurd found unmarked
    | resolved t => exact absurd found (only key t)

/-- Recording a type takes the mark of the definition away. -/
theorem marked_setEntry_resolved_iff :
    Marked (setEntry key (.resolved t) memo) other ↔ other ≠ key ∧ Marked memo other := by
  by_cases same : key = other
  · subst same
    simp [Marked, valueAt?_setEntry_self]
  · simp [Marked, valueAt?_setEntry_of_ne same, Ne.symm same]

theorem resolved_setEntry_resolved_iff (marked : Marked memo key) :
    Resolved (setEntry key (.resolved t) memo) other s ↔
      (other = key ∧ s = t) ∨ Resolved memo other s := by
  by_cases same : key = other
  · subst same
    constructor
    · intro found
      have cells : Cell.resolved t = .resolved s := by
        simpa [Resolved, valueAt?_setEntry_self] using found
      exact .inl ⟨rfl, (Cell.resolved.inj cells).symm⟩
    · rintro (⟨_, rfl⟩ | before)
      · exact valueAt?_setEntry_self _ _ _
      · exact absurd before (not_resolved_of_marked marked s)
  · simp [Resolved, valueAt?_setEntry_of_ne same, Ne.symm same]

/-- Taking a definition out takes its mark away. -/
theorem marked_dropEntry_iff :
    Marked (dropEntry key memo) other ↔ other ≠ key ∧ Marked memo other := by
  by_cases same : key = other
  · subst same
    simp [Marked, valueAt?_dropEntry_self]
  · simp [Marked, valueAt?_dropEntry_of_ne same, Ne.symm same]

theorem resolved_dropEntry_iff (marked : Marked memo key) :
    Resolved (dropEntry key memo) other s ↔ Resolved memo other s := by
  by_cases same : key = other
  · subst same
    exact iff_of_false (by simp [Resolved, valueAt?_dropEntry_self])
      (not_resolved_of_marked marked s)
  · simp [Resolved, valueAt?_dropEntry_of_ne same]

/-- A memo that grew under a mark has grown altogether once the mark is taken away. -/
theorem Extends.unmark {memo' memo'' : Memo} (free : valueAt? key memo = none)
    (grows : Extends (setEntry key .resolving memo) memo')
    (marks : ∀ other, Marked memo'' other ↔ other ≠ key ∧ Marked memo' other)
    (types : ∀ other t, Resolved memo' other t → Resolved memo'' other t) :
    Extends memo memo'' := by
  constructor
  · intro other
    rw [marks, ← grows.1 other, marked_setEntry_iff]
    constructor
    · intro marked
      refine ⟨?_, .inr marked⟩
      rintro rfl
      simp [Marked, free] at marked
    · rintro ⟨differ, same | marked⟩
      · exact absurd same differ
      · exact marked
  · intro other t resolved
    exact types other t (grows.2 other t ((resolved_setEntry_resolving_iff free).mpr resolved))

/-- A mark alone changes nothing about the types in a memo. -/
theorem Right.mark (right : Right root memo) (free : valueAt? key memo = none) :
    Right root (setEntry key .resolving memo) := by
  intro other t resolved marks beside
  rw [resolved_setEntry_resolving_iff free] at resolved
  refine right other t resolved marks ⟨beside.1, fun k marked s found => ?_⟩
  exact beside.2 k marked s ((resolved_setEntry_resolving_iff free).mpr found)

end Mark

section Once

variable {owner : Scope} {name : String} {computation : EvalM Ty}

/-- What is left after a definition was resolved. -/
theorem Follows.settle_ok (suffix : owner <:+ root) {memo memo' : Memo} {t : Ty}
    (free : valueAt? (owner.length, name) memo = none)
    (inner : Follows root n (setEntry (owner.length, name) .resolving memo) (.ok t, memo')
      fun m => resolution (plainReach m) owner name) :
    Follows root n memo (.ok t, setEntry (owner.length, name) (.resolved t) memo')
      fun m => afresh (owner.length, name) (resolution (plainReach m) owner name) := by
  obtain ⟨grows, right⟩ := inner.kept (by simp)
  have marked : Marked memo' (owner.length, name) :=
    (grows.1 _).mp (marked_setEntry_iff.mpr (.inl rfl))
  have smaller {marks : Memo}
      (beside : Beside marks (setEntry (owner.length, name) (.resolved t) memo')) :
      Beside marks memo' :=
    ⟨beside.1, fun key found s resolved =>
      beside.2 key found s ((resolved_setEntry_resolved_iff marked).mpr (.inr resolved))⟩
  -- The computation ran under the mark of the definition, so it does not need the definition.
  have found {marks : Memo}
      (beside : Beside marks (setEntry (owner.length, name) (.resolved t) memo')) :
      ∃ m, (afresh (owner.length, name) (resolution (plainReach m) owner name) marks).1 =
        .ok t := by
    have unmarked : ¬ Marked marks (owner.length, name) := fun mark =>
      beside.2 _ mark t ((resolved_setEntry_resolved_iff marked).mpr (.inl ⟨rfl, rfl⟩))
    have none := free_of_not_marked beside.1 unmarked
    obtain ⟨m, same⟩ := inner.succeeds t rfl _
      ((smaller beside).mark none (not_resolved_of_marked marked))
    refine ⟨m, ?_⟩
    rw [afresh_of_none none]
    exact same
  constructor
  · intro _
    refine ⟨grows.unmark free (fun _ => marked_setEntry_resolved_iff)
      fun other s resolved => (resolved_setEntry_resolved_iff marked).mpr (.inr resolved), ?_⟩
    intro key s resolved marks beside
    rcases (resolved_setEntry_resolved_iff marked).mp resolved with ⟨rfl, rfl⟩ | before
    · rw [ownerAt_eq suffix name]
      exact found beside
    · exact right key s before marks (smaller beside)
  · intro s answer marks beside
    obtain rfl := Except.ok.inj answer
    exact found beside
  · intro h answer
    cases answer
  · intro answer
    cases answer

/-- What is left after the resolution of a definition failed. -/
theorem Follows.settle_error {memo memo' memo'' : Memo} {h : Halt EvalError}
    (free : valueAt? (owner.length, name) memo = none)
    (inner : Follows root n (setEntry (owner.length, name) .resolving memo) (.error h, memo')
      fun m => resolution (plainReach m) owner name)
    (kept : (∀ f, h ≠ .fatal f) → Extends memo memo'' ∧ Right root memo'') :
    Follows root n memo (.error h, memo'')
      fun m => afresh (owner.length, name) (resolution (plainReach m) owner name) := by
  have none {marks : Memo} (marksOf : MarksOf marks memo) :
      valueAt? (owner.length, name) marks = none := by
    refine free_of_not_marked marksOf.1 ?_
    rw [marksOf.2, Marked, free]
    simp
  constructor
  · intro notFatal
    exact kept fun f same => notFatal f (by rw [same])
  · intro t answer
    cases answer
  · intro h' answer finished marks marksOf
    obtain ⟨m, same⟩ := inner.fails h' answer finished _ (marksOf.mark (none marksOf))
    refine ⟨m, ?_⟩
    rw [afresh_of_none (none marksOf)]
    exact same
  · intro answer marks marksOf
    rw [afresh_of_none (none marksOf)]
    exact inner.exhausts answer _ (marksOf.mark (none marksOf))

/-- What resolving a definition owes once the computation under its mark has ended. -/
theorem Follows.settle (suffix : owner <:+ root) {memo : Memo}
    (free : valueAt? (owner.length, name) memo = none) {outcome : Run EvalError Ty × Memo}
    (inner : Follows root n (setEntry (owner.length, name) .resolving memo) outcome
      fun m => resolution (plainReach m) owner name) :
    Follows root n memo (settle (owner.length, name) outcome)
      fun m => afresh (owner.length, name) (resolution (plainReach m) owner name) := by
  obtain ⟨answer, memo'⟩ := outcome
  cases answer with
  | ok t => exact inner.settle_ok suffix free
  | error h =>
    cases h with
    | error e =>
      refine inner.settle_error free fun _ => ?_
      obtain ⟨grows, right⟩ := inner.kept (by simp)
      have marked : Marked memo' (owner.length, name) :=
        (grows.1 _).mp (marked_setEntry_iff.mpr (.inl rfl))
      refine ⟨grows.unmark free (fun _ => marked_dropEntry_iff)
        fun other s => (resolved_dropEntry_iff marked).mpr, ?_⟩
      intro key s resolved marks beside
      refine right key s ((resolved_dropEntry_iff marked).mp resolved) marks ⟨beside.1, ?_⟩
      exact fun other found s resolved =>
        beside.2 other found s ((resolved_dropEntry_iff marked).mpr resolved)
    | fatal f => exact inner.settle_error free fun notFatal => absurd rfl (notFatal f)

theorem Tracks.once (suffix : owner <:+ root)
    (tracks : Tracks root n computation fun m => resolution (plainReach m) owner name) :
    Tracks root n (once (owner.length, name) computation)
      fun m => afresh (owner.length, name) (resolution (plainReach m) owner name) where
  steady := ⟨fun k => (tracks.steady.below k).afresh _⟩
  follows memo right := by
    cases found : valueAt? (owner.length, name) memo with
    | none =>
      rw [once_of_none found]
      exact Follows.settle suffix found (tracks.follows _ (right.mark found))
    | some cell =>
      cases cell with
      | resolving =>
        rw [once_of_marked found]
        have repeated {m : Nat} {marks : Memo} (marksOf : MarksOf marks memo) :
            (afresh (owner.length, name) (resolution (plainReach m) owner name) marks).1 =
              Run.fail (.recursive name) := by
          rw [afresh_of_marked ((marksOf.2 _).mpr found)]
        constructor
        · intro _
          exact ⟨Extends.refl memo, right⟩
        · intro t answer
          cases answer
        · intro h answer _ marks marksOf
          exact ⟨0, (repeated marksOf).trans answer⟩
        · intro answer
          cases answer
      | resolved t =>
        rw [once_of_resolved found]
        constructor
        · intro _
          exact ⟨Extends.refl memo, right⟩
        · intro t' answer marks beside
          obtain rfl := Except.ok.inj answer
          have known := right _ t found marks beside
          rwa [ownerAt_eq suffix name] at known
        · intro h answer
          cases answer
        · intro answer
          cases answer

end Once

theorem tracks_level (root : Scope) (n : Nat) (context : Context)
    (rooted : Scope.Rooted root context.scope) (e : Expr) :
    Tracks root n (level n context e) fun m => plain m context e := by
  have steady {context : Context} (rooted : Scope.Rooted root context.scope) (e : Expr) :
      Steady fun m => plain m context e := ⟨fun k => steadyBelow_plain root k rooted e⟩
  induction n generalizing context e with
  | zero =>
    refine ⟨steady rooted e, fun memo right => ⟨fun notFatal => ?_, ?_, ?_, ?_⟩⟩
    · exact absurd rfl (notFatal .exhausted)
    · intro t answer
      cases answer
    · intro h answer finished
      exact absurd (Except.error.inj answer).symm finished
    · intro _ marks _
      rfl
  | succ n ih =>
    -- Index `none` is evaluation itself, the others are evaluation that remembers nothing.
    let reach (i : Option Nat) : Reach :=
      i.elim ⟨fun scope e => level n ⟨scope, []⟩ e, once⟩ plainReach
    have admissible := tracks_admissible root n
    have enters : ∀ scope e, Scope.Rooted root scope →
        Tracks root n ((reach none).enter scope e) fun m => (reach (some m)).enter scope e :=
      fun scope e rooted => ih ⟨scope, []⟩ rooted e
    have resolves : ∀ owner name, owner <:+ root →
        Tracks root n ((reach none).resolve (owner.length, name)
            (resolution (reach none) owner name))
          fun m => (reach (some m)).resolve (owner.length, name)
            (resolution (reach (some m)) owner name) :=
      fun owner name suffix =>
        Tracks.once suffix (resolution_admissible admissible.plain enters suffix name)
    have above : Tracks root n (level (n + 1) context e) fun m => plain (m + 1) context e :=
      expr_admissible admissible enters resolves e rooted
    refine ⟨steady rooted e, fun memo right => ?_⟩
    have follows := above.follows memo right
    constructor
    · exact follows.kept
    · intro t answer marks beside
      obtain ⟨m, same⟩ := follows.succeeds t answer marks beside
      exact ⟨m + 1, same⟩
    · intro h answer finished marks marksOf
      obtain ⟨m, same⟩ := follows.fails h answer finished marks marksOf
      exact ⟨m + 1, same⟩
    · exact follows.exhausts

end Tracks

end Eval

end TypeFlow
