import TypeFlow.Proofs.Eval.Memo
import TypeFlow.Proofs.Eval.Shapes
import TypeFlow.Proofs.Eval.Unfolding

/-!
# Evaluation without functions ends

Without functions that have a body, evaluation goes a level down only into a definition that it has
just marked, and a marked definition is not entered again. With more levels than there are
definitions it therefore ends. The only error that comes from marks is the one for a definition that
needs itself. It is reported exactly where following the definitions would never end.
-/

namespace TypeFlow

open List

/-- Whether this is a function with a body. -/
def Definition.isFunction : Definition → Bool
  | .function _ _ => true
  | _ => false

namespace Scope

/-- No name means a function with a body. -/
def Functionless (scope : Scope) : Prop :=
  ∀ frame ∈ scope, ∀ entry ∈ frame.entries, entry.2.isFunction = false
deriving Decidable

theorem Functionless.not_function {root owner : Scope} (functionless : root.Functionless)
    (suffix : owner <:+ root) {name : String} {parameters : List (String × Expr)} {body : Expr} :
    owner.local? name ≠ some (.function parameters body) := by
  intro found
  obtain ⟨frame, mem, said⟩ := exists_frame suffix found
  cases functionless frame mem _ (mem_of_valueAt? said)

/-- All definitions. -/
def keys : Scope → List EntryKey
  | [] => []
  | frame :: outer => frame.entries.map (fun entry => (outer.length + 1, entry.1)) ++ keys outer

theorem length_keys (scope : Scope) : scope.keys.length = scope.size := by
  induction scope with
  | nil => rfl
  | cons frame outer ih => simp [keys, size, ih]

theorem mem_keys {root owner : Scope} (suffix : owner <:+ root) {name : String}
    {definition : Definition} (found : owner.local? name = some definition) :
    (owner.length, name) ∈ root.keys := by
  induction root with
  | nil =>
    rw [suffix_nil.mp suffix] at found
    cases found
  | cons frame outer ih =>
    rcases suffix_cons_iff.mp suffix with rfl | inner
    · exact mem_append_left _
        (mem_map.mpr ⟨(name, definition), mem_of_valueAt? found, rfl⟩)
    · exact mem_append_right _ (ih inner)

end Scope

namespace Eval

/-- The definitions that are not in the memo. -/
def fresh (root : Scope) (memo : Memo) : List EntryKey :=
  root.keys.filter fun key => (valueAt? key memo).isNone

theorem length_fresh_nil (root : Scope) : (fresh root []).length = root.size := by
  rw [← Scope.length_keys, fresh, filter_eq_self.mpr]
  exact fun _ _ => rfl

/-- Marking a definition leaves fewer. -/
theorem length_fresh_mark {root : Scope} {memo : Memo} {key : EntryKey} (mem : key ∈ root.keys)
    (free : valueAt? key memo = none) :
    (fresh root (setEntry key .resolving memo)).length < (fresh root memo).length := by
  have fewer : fresh root (setEntry key .resolving memo) =
      (fresh root memo).filter fun other => decide (other ≠ key) := by
    rw [fresh, fresh, filter_filter]
    refine filter_congr fun other _ => ?_
    by_cases same : key = other
    · subst same
      simp [valueAt?_setEntry_self]
    · simp [valueAt?_setEntry_of_ne same, Ne.symm same]
  rw [fewer, length_filter_lt_length_iff_exists]
  exact ⟨key, mem_filter.mpr ⟨mem, by simp [free]⟩, by simp⟩

/-- With fewer than `n` definitions left, the computation ends and restores the memo. -/
def EndsBelow (root : Scope) (n : Nat) (α : Type) (family : Unit → EvalM α) : Prop :=
  ∀ memo, (fresh root memo).length < n →
    (family () memo).1 ≠ exhausted ∧ (family () memo).2 = memo

theorem endsBelow_admissible (root : Scope) (n : Nat) :
    Admissible EvalError.Direct (EndsBelow root n) where
  lift run direct := fun _ _ => ⟨direct.1, rfl⟩
  bind {α β first next} ends endsNext := by
    intro memo few
    obtain ⟨ended, restored⟩ := ends memo few
    show ((first () >>= fun a => next a ()) memo).1 ≠ exhausted ∧
      ((first () >>= fun a => next a ()) memo).2 = memo
    rw [bind_of_restored restored]
    cases answer : (first () memo).1 with
    | ok a => exact endsNext a memo few
    | error h =>
      rw [answer] at ended
      exact ⟨by simpa using ended, rfl⟩

/-- Resolving a definition takes the level that its mark saves. -/
theorem EndsBelow.afresh {root owner : Scope} {n : Nat} (suffix : owner <:+ root) {name : String}
    (ends : EndsBelow root n Ty fun _ => resolution (plainReach n) owner name) :
    EndsBelow root (n + 1) Ty fun _ =>
      afresh (owner.length, name) (resolution (plainReach n) owner name) := by
  intro memo few
  refine ⟨?_, afresh_snd⟩
  cases found : valueAt? (owner.length, name) memo with
  | some cell => cases cell <;> simp [Eval.afresh, found, Run.fail]
  | none =>
    simp only [afresh_of_none found]
    cases meaning : owner.local? name with
    | none =>
      simp only [resolution, meaning]
      exact Run.ended_fail _
    | some definition =>
      have less := length_fresh_mark (Scope.mem_keys suffix meaning) found
      exact (ends _ (by omega)).1

/-- Without functions, evaluation that remembers nothing ends. -/
theorem endsBelow_plain {root : Scope} (functionless : root.Functionless) (n : Nat) :
    ∀ context : Context, Scope.Rooted root context.scope →
      ∀ e, EndsBelow root n Ty fun _ => plain n context e := by
  induction n with
  | zero => exact fun _ _ _ _ few => absurd few (Nat.not_lt_zero _)
  | succ n ih =>
    intro context rooted e
    have enters : ∀ scope e, Scope.Rooted root scope →
        EndsBelow root n Ty fun _ => (plainReach n).enter scope e :=
      fun scope e rooted => ih ⟨scope, []⟩ rooted e
    have resolves : ∀ owner name, owner <:+ root → EndsBelow root (n + 1) Ty fun _ =>
        (plainReach n).resolve (owner.length, name) (resolution (plainReach n) owner name) :=
      fun owner name suffix => EndsBelow.afresh suffix
        (resolution_admissible (endsBelow_admissible root n).plain enters suffix name)
    have above : EndsBelow root (n + 1) Ty fun _ => expr (plainReach n) context e :=
      expr_admissible_of_calls (endsBelow_admissible root (n + 1)).plain resolves
        (fun _ _ _ _ _ suffix meaning => absurd meaning (functionless.not_function suffix)) e rooted
    exact above

section Answers

variable {chain scope : Scope} {memo : Memo} (reached : Reached chain memo) (part : scope <:+ chain)
  (functionless : scope.Functionless) (generics : Generics) (e : Expr)

include functionless in
theorem plain_ends {n : Nat} (enough : scope.size < n) :
    (plain n ⟨scope, generics⟩ e []).1 ≠ exhausted := by
  have rooted : Scope.Rooted scope scope := Scope.rooted_of_suffix (suffix_refl scope)
  exact (endsBelow_plain functionless n ⟨scope, generics⟩ rooted e []
    ((length_fresh_nil scope).symm ▸ enough)).1

include reached part functionless in
/-- Whatever is remembered, all numbers of levels that are enough lead to the same answer. -/
theorem level_eq_plain {n m : Nat} (enough : scope.size < n) (enough' : scope.size < m) :
    (level n ⟨scope, generics⟩ e memo).1 = (plain m ⟨scope, generics⟩ e []).1 := by
  have tracks := tracks_level chain n ⟨scope, generics⟩ (Scope.rooted_of_suffix part) e
  have follows := tracks.follows memo reached.right.2
  have ended : (level n ⟨scope, generics⟩ e memo).1 ≠ exhausted := fun ran =>
    plain_ends functionless generics e enough (follows.exhausts ran [] reached.marksOf)
  obtain ⟨k, same⟩ := follows.answers ended reached.marksOf
  exact tracks.steady.unique same ended rfl (plain_ends functionless generics e enough')

include functionless in
theorem plain_levels {n m : Nat} (enough : scope.size < n) (enough' : scope.size < m) :
    (plain n ⟨scope, generics⟩ e []).1 = (plain m ⟨scope, generics⟩ e []).1 := by
  have same {m : Nat} (more : scope.size < m) :=
    level_eq_plain .fresh (suffix_refl scope) functionless generics e enough more
  exact (same enough).symm.trans (same enough')

end Answers

/-- All structs of one name that a scope and generic parameters can bring have the same fields. -/
def OneShape (scope : Scope) (generics : Generics) : Prop :=
  ∃ shape, KeptFrames (.shaped shape) scope ∧ KeptGenerics (.shaped shape) generics

theorem not_oneShape_of_clash {scope : Scope} (functionless : scope.Functionless)
    {generics : Generics} {e : Expr} {n : Nat} (enough : scope.size < n) {clash : Clash}
    (clashes : (plain n ⟨scope, generics⟩ e []).1 = .error (.fatal (.clash clash))) :
    ¬ OneShape scope generics := by
  rintro ⟨shape, frames, known⟩
  have same := level_eq_plain .fresh (suffix_refl scope) functionless generics e enough enough
  have keeps := levelBy_keeps (fun key _ keeps => keeps.once key) n frames known e [] keptMemo_nil
  exact keeps.1.ne_clash clash (same.trans clashes)

/-- Evaluation without functions ends after any calls. It gives a type or an error, or it clashes,
and then some structs of one name have different fields. A definition is reported to need itself
exactly if following the definitions would never end, and then following that definition would
not; otherwise the answer is the one that following the definitions leads to. -/
theorem evaluation_ends {chain scope : Scope} {memo : Memo} (reached : Reached chain memo)
    (part : scope <:+ chain) (functionless : scope.Functionless) (generics : Generics) (e : Expr) :
    ∃ answer : Run EvalError Ty, (scope.evaluateWith generics e memo).1 = answer ∧
      (∀ levels, scope.size < levels → (level levels ⟨scope, generics⟩ e memo).1 = answer) ∧
      ((∃ t, answer = .ok t) ∨ (∃ error, answer = .error (.error error)) ∨
        (∃ clash, answer = .error (.fatal (.clash clash))) ∧ ¬ OneShape scope generics) ∧
      ((∃ name, answer = .error (.error (.recursive name))) ↔
        ∀ levels, (unfolding levels ⟨scope, generics⟩ e []).1 = exhausted) ∧
      (∀ name, answer = .error (.error (.recursive name)) → Endless scope name) ∧
      ((∀ name, answer ≠ .error (.error (.recursive name))) → ∀ levels, scope.size < levels →
        (unfolding levels ⟨scope, generics⟩ e []).1 = answer) := by
  have enough : scope.size < scope.size + 1 := Nat.lt_succ_self _
  have levels {n : Nat} (more : scope.size < n) :=
    level_eq_plain reached part functionless generics e more enough
  have ended := plain_ends functionless generics e enough
  refine ⟨(plain (scope.size + 1) ⟨scope, generics⟩ e []).1, ?_, fun n more => levels more,
    ?_, ⟨?_, fun never => ?_⟩, fun name reported => ?_, fun unreported n more => ?_⟩
  · rw [Scope.evaluateWith]
    exact levels (by omega)
  · rcases answer : (plain (scope.size + 1) ⟨scope, generics⟩ e []).1 with (error | fatal) | t
    · exact .inr (.inl ⟨error, rfl⟩)
    · cases fatal with
      | clash clash =>
        exact .inr (.inr ⟨⟨clash, rfl⟩, not_oneShape_of_clash functionless enough answer⟩)
      | exhausted => exact absurd answer ended
    · exact .inl ⟨t, rfl⟩
  · rintro ⟨name, reported⟩
    exact (endless_of_plain scope generics e reported).2
  · rcases plain_follows scope generics e (scope.size + 1) with same | reported
    · exact absurd (same.trans (never _)) ended
    · exact reported
  · exact (endless_of_plain scope generics e reported).1
  · have same := plain_levels functionless generics e enough more
    rcases plain_follows scope generics e n with follows | ⟨name, reported⟩
    · exact follows.symm.trans same.symm
    · exact absurd (same.trans reported) (unreported name)

namespace Sample

/-- An alias for a struct, and a struct of the same name and with another field further in. -/
def shadowed : Scope :=
  [⟨"inner", [("P", .struct [("y", .number .all)])]⟩,
    ⟨"outer", [("P", .struct [("x", .number .all)]), ("A", .alias (.named "P" []))]⟩]

end Sample

/-- Without functions, evaluation can end in neither a type nor an error. -/
theorem evaluation_clashes_shadowed : Sample.shadowed.Functionless ∧
    ∃ clash, (Sample.shadowed.evaluateWith [] (.union [.named "A" [], .named "P" []]) []).1 =
      .error (.fatal (.clash clash)) := by
  have functionless : Sample.shadowed.Functionless := by decide
  refine ⟨functionless, ?_⟩
  rw [Scope.evaluateWith, level_eq_plain .fresh (suffix_refl _) functionless _ _ (by omega)
    (Nat.lt_succ_self _)]
  exact ⟨_, rfl⟩

open Sample in
theorem evaluation_ends_loop : Reached chain remembered ∧ chain.Functionless ∧
    (∀ levels, (unfolding levels ⟨chain, []⟩ (.named "loop" []) []).1 = exhausted) ∧
    Endless chain "loop" := by
  have functionless : chain.Functionless := by decide
  obtain ⟨answer, -, levels, -, never, endless, -⟩ :=
    evaluation_ends reached_remembered (suffix_refl chain) functionless [] (.named "loop" [])
  have reported : answer = .error (.error (.recursive "loop")) :=
    (levels 4 (by decide)).symm.trans rfl
  exact ⟨reached_remembered, functionless, never.mp ⟨_, reported⟩, endless _ reported⟩

end Eval

end TypeFlow
