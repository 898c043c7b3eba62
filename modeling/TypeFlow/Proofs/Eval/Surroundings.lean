import Mathlib.Data.List.Infix
import TypeFlow.Eval.Basic
import TypeFlow.Proofs.Scope.Kept
import TypeFlow.Proofs.Scope.Visible

/-!
# What evaluation does outside an expression

Evaluation of an expression reaches outside of it in two ways only: it enters the expression of a
definition in the scope of that definition, and it resolves a definition. A judgement of
computations that goes through steps in sequence therefore holds of the evaluation of every
expression once it holds of these two. It may be about several computations side by side, so that it
can compare evaluators, and it may speak of the types that come out.

All aliases and structs that evaluation meets are in the scope where it started, although bodies of
functions have a frame of their own: this frame has only parameters.
-/

namespace TypeFlow

open List

namespace Run

variable {ε δ α : Type}

variable {f : ε → δ} {run : Run ε α}

@[simp] theorem mapError_eq_ok_iff {a : α} : mapError f run = .ok a ↔ run = .ok a := by
  rcases run with (_ | _) | _ <;> simp [mapError]

@[simp] theorem ofExcept_eq_ok_iff {x : Except ε α} {a : α} :
    ofExcept x = .ok a ↔ x = .ok a := by
  cases x <;> simp [ofExcept, fail]

/-- A computation did not run out of levels. -/
def Ended (run : Run ε α) : Prop := run ≠ .error (.fatal .exhausted)

theorem ended_ok (a : α) : Ended (.ok a : Run ε α) := by simp [Ended]

theorem ended_fail (e : ε) : Ended (fail e : Run ε α) := by simp [Ended, fail]

theorem ended_ofChecked (result : Checked α) : Ended (ofChecked result : Run ε α) := by
  cases result <;> simp [Ended, ofChecked]

theorem ended_ofExcept (x : Except ε α) : Ended (ofExcept x) := by
  cases x with
  | ok a => exact ended_ok a
  | error e => exact ended_fail e

theorem Ended.mapError (ended : run.Ended) : Ended (mapError f run) := by
  rcases run with (e | h) | a
  · exact ended_fail (f e)
  · simpa [Ended, Run.mapError] using ended
  · exact ended_ok a

theorem Ended.bind {β : Type} {next : α → Run ε β} (ended : run.Ended)
    (each : ∀ a, (next a).Ended) : Ended (run >>= next) := by
  cases run with
  | ok a => exact each a
  | error h => simpa [Ended, Bind.bind, Except.bind] using ended

end Run

/-- The error is not that a definition needs itself. -/
def EvalError.Direct (e : EvalError) : Prop := ∀ name, e ≠ .recursive name

/-- The error is not that a definition needs itself, and not about the parameters of a function. -/
def EvalError.Plain : EvalError → Prop
  | .recursive _ | .definition _ | .assignment _ => False
  | _ => True

theorem EvalError.Plain.direct {e : EvalError} (plain : e.Plain) : e.Direct := by
  rintro name rfl
  exact plain

/-- A computation answers by itself: it does not run out of levels, and its errors are of a kind. -/
def Run.Raises {α : Type} (kind : EvalError → Prop) (run : Run EvalError α) : Prop :=
  run.Ended ∧ ∀ e, run = Run.fail e → kind e

namespace Run

variable {ε α β : Type} {kind : EvalError → Prop}

theorem raises_ok (a : α) : Raises kind (.ok a) := ⟨ended_ok a, by simp [fail]⟩

theorem raises_fail {e : EvalError} (own : kind e) : Raises kind (fail e : Run EvalError α) := by
  refine ⟨ended_fail e, fun e' same => ?_⟩
  simp only [fail, Except.error.injEq, Halt.error.injEq] at same
  exact same ▸ own

theorem raises_ofChecked (result : Checked α) : Raises kind (ofChecked result) :=
  ⟨ended_ofChecked result, by cases result <;> simp [ofChecked, fail]⟩

theorem Ended.raises_mapError {f : ε → EvalError} {run : Run ε α} (ended : run.Ended)
    (own : ∀ e, kind (f e)) : Raises kind (Run.mapError f run) := by
  rcases run with (e | h) | a
  · exact raises_fail (own e)
  · exact ⟨ended.mapError, by simp [Run.mapError, fail]⟩
  · exact raises_ok a

theorem raises_error {h : Halt EvalError} (raises : Raises kind (.error h : Run EvalError α)) :
    Raises kind (.error h : Run EvalError β) := by
  simpa [Raises, Ended, fail] using raises

theorem Raises.bind {run : Run EvalError α} {next : α → Run EvalError β} (raises : run.Raises kind)
    (each : ∀ a, (next a).Raises kind) : Raises kind (run >>= next) := by
  cases run with
  | ok a => exact each a
  | error h => exact raises_error raises

end Run

theorem Ty.raises_access (field : String) (t : Ty) : (access field t).Raises EvalError.Plain := by
  have members (items : List Ty) :
      (Run.ofExcept (items.mapM (accessMember field))).Raises EvalError.Plain := by
    induction items with
    | nil => exact Run.raises_ok []
    | cons m rest ih =>
      rw [mapM_cons]
      cases m with
      | struct name fields =>
        cases found : valueAt? field fields with
        | none =>
          simp only [accessMember, found]
          exact Run.raises_fail trivial
        | some t =>
          simp only [accessMember, found]
          show (Run.ofExcept (rest.mapM (accessMember field) >>= _)).Raises _
          cases results : rest.mapM (accessMember field) with
          | ok ts => exact Run.raises_ok _
          | error e => exact Run.raises_error (results ▸ ih)
      | _ => exact Run.raises_fail trivial
  unfold access
  split
  · exact Run.raises_ok _
  · exact Run.raises_fail trivial
  · exact (members _).bind fun _ => Run.raises_ofChecked _

theorem Builder.ended_assign (b : Builder) (name : String) (value : Ty) :
    (b.assign name value).Ended := by
  unfold assign
  split
  · exact Run.ended_fail _
  · refine (Run.ended_ofChecked _).bind fun inside => ?_
    split
    · exact Run.ended_ok _
    · exact Run.ended_fail _
  · exact Run.ended_fail _

theorem Eval.countError_plain {function : String} {fixed : Nat} {more : Bool} {actual : Nat}
    {e : EvalError} (wrong : countError function fixed more actual = some e) : e.Plain := by
  unfold countError at wrong
  split at wrong
  all_goals
    split at wrong
    · cases wrong
    · obtain rfl := Option.some.inj wrong
      trivial

namespace Scope

variable {scope owner root : Scope} {name : String}

/-- What a part of a scope says of a name stands in one of the frames. -/
theorem exists_frame (suffix : owner <:+ root) {name : String} {definition : Definition}
    (found : owner.local? name = some definition) :
    ∃ frame ∈ root, frame.get? name = some definition := by
  cases owner with
  | nil => cases found
  | cons frame outer => exact ⟨frame, suffix.subset mem_cons_self, found⟩

theorem lookup_of_resolve {found : Scope × Definition}
    (same : scope.resolve name = .ok found) : scope.lookup name = some found := by
  unfold resolve at same
  split at same
  · next here => rw [here, Except.ok.inj same]
  · cases same

/-- What a name means in the scope is defined in a part of the root, or is a parameter. -/
def Rooted (root scope : Scope) : Prop :=
  ∀ name owner definition, scope.lookup name = some (owner, definition) →
    owner <:+ root ∨ ∃ bound value, definition = .parameter bound value

theorem rooted_of_suffix (suffix : scope <:+ root) : Rooted root scope :=
  fun _ _ _ found => .inl ((lookup_cases found).1.trans suffix)

end Scope

namespace Builder

/-- A builder of a frame inside the owner that has only parameters so far. -/
def Parametric (owner : Scope) (b : Builder) : Prop :=
  b.outer = owner ∧ ∀ name definition, valueAt? name b.entries = some definition →
    ∃ bound value, definition = .parameter bound value

theorem parametric_new (name : String) (owner : Scope) : Parametric owner (new name owner) :=
  ⟨rfl, fun _ _ found => by cases found⟩

variable {owner : Scope} {b b' : Builder} {name : String}

theorem Parametric.add {bound : Ty} {value : Option Ty} (parametric : Parametric owner b)
    (added : b.add name (.parameter bound value) = .ok b') : Parametric owner b' := by
  obtain ⟨-, -, rfl⟩ := add_eq_ok_iff.mp added
  refine ⟨parametric.1, fun other definition found => ?_⟩
  rw [valueAt?_concat, Option.or_eq_some_iff] at found
  rcases found with before | ⟨_, here⟩
  · exact parametric.2 other definition before
  · rw [Option.ite_none_right_eq_some] at here
    exact ⟨bound, value, (Option.some.inj here.2).symm⟩

theorem Parametric.assign {value : Ty} (parametric : Parametric owner b)
    (assigned : b.assign name value = .ok b') : Parametric owner b' := by
  obtain ⟨bound, old, -, -, rfl⟩ := assign_eq_ok_iff.mp assigned
  refine ⟨parametric.1, fun other definition found => ?_⟩
  by_cases same : name = other
  · subst same
    rw [valueAt?_setEntry_self] at found
    exact ⟨bound, some value, (Option.some.inj found).symm⟩
  · rw [valueAt?_setEntry_of_ne same] at found
    exact parametric.2 other definition found

theorem Parametric.rooted {root : Scope} (parametric : Parametric owner b)
    (suffix : owner <:+ root) : Scope.Rooted root b.build := by
  intro name scope definition found
  cases here : valueAt? name b.entries with
  | some d =>
    have same : d = definition := by
      simp only [build, Scope.lookup, Frame.get?, here, Option.some.injEq, Prod.mk.injEq] at found
      exact found.2
    exact .inr (parametric.2 name definition (same ▸ here))
  | none =>
    simp only [build, Scope.lookup, Frame.get?, here, parametric.1] at found
    exact Scope.rooted_of_suffix suffix name scope definition found

end Builder

namespace Eval

section Bind

variable {α β : Type} {x : EvalM α} {f : α → EvalM β} {memo memo' : Memo}

theorem bind_of_ok {a : α} (first : x memo = (.ok a, memo')) : (x >>= f) memo = f a memo' := by
  show (match x memo with | (r, s) => ExceptT.bindCont f r s) = _
  rw [first]
  rfl

theorem bind_of_error {h : Halt EvalError} (first : x memo = (.error h, memo')) :
    (x >>= f) memo = (.error h, memo') := by
  show (match x memo with | (r, s) => ExceptT.bindCont f r s) = _
  rw [first]
  rfl

/-- The first part answers and the second one goes on, or the first one ends both. -/
theorem bind_cases (x : EvalM α) (f : α → EvalM β) (memo : Memo) :
    (∃ a memo', x memo = (.ok a, memo') ∧ (x >>= f) memo = f a memo') ∨
      ∃ h memo', x memo = (.error h, memo') ∧ (x >>= f) memo = (.error h, memo') := by
  cases outcome : x memo with
  | mk answer memo' =>
    cases answer with
    | ok a => exact .inl ⟨a, memo', rfl, bind_of_ok outcome⟩
    | error h => exact .inr ⟨h, memo', rfl, bind_of_error outcome⟩

theorem bind_eq_ok {b : β} (ok : ((x >>= f) memo).1 = .ok b) :
    ∃ a memo', x memo = (.ok a, memo') ∧ (x >>= f) memo = f a memo' := by
  rcases bind_cases x f memo with through | ⟨h, memo', -, ended⟩
  · exact through
  · rw [ended] at ok
    cases ok

/-- A last step that remembers nothing adds only its own answer. -/
theorem fst_bind_lift (x : EvalM α) (run : α → Run EvalError β) (memo : Memo) :
    ((x >>= fun a => EvalM.lift (run a)) memo).1 = (x memo).1 >>= run := by
  rcases bind_cases x (fun a => EvalM.lift (run a)) memo with
    ⟨a, memo', outcome, ran⟩ | ⟨h, memo', outcome, ran⟩ <;> rw [ran, outcome] <;> rfl

end Bind

/-- A judgement of families of computations and properties of their results that goes through
steps in sequence, and holds of steps with errors of a kind. -/
structure Judgement {ι : Type} (kind : EvalError → Prop) (clashes : Prop)
    (J : (α : Type) → (α → Prop) → (ι → EvalM α) → Prop) : Prop where
  lift : ∀ {α : Type} {Q : α → Prop} {run : Run EvalError α}, run.Raises kind →
    run.UnclashedUnless clashes Q → J α Q fun _ => EvalM.lift run
  bind : ∀ {α β : Type} {Q : α → Prop} {R : β → Prop} {first : ι → EvalM α}
    {next : α → ι → EvalM β}, J α Q first → (∀ a, Q a → J β R (next a)) →
    J β R fun i => first i >>= fun a => next a i

namespace Judgement

variable {ι α β : Type} {kind : EvalError → Prop} {clashes : Prop}
  {J : (α : Type) → (α → Prop) → (ι → EvalM α) → Prop} {Q : α → Prop}

variable (judgement : Judgement kind clashes J)
include judgement

theorem pure {a : α} (holds : Q a) : J α Q fun _ => Pure.pure a :=
  judgement.lift (Run.raises_ok a) (.ok holds)

theorem fail {e : EvalError} (own : kind e) : J α Q fun _ => EvalM.fail e :=
  judgement.lift (Run.raises_fail own) (.error e)

theorem checked {result : Checked α} (yields : YieldsUnless clashes result Q) :
    J α Q fun _ => EvalM.checked result :=
  judgement.lift (Run.raises_ofChecked result) (.ofChecked yields)

theorem mapM {f : ι → α → EvalM β} {R : α → β → Prop} {items : List α}
    (each : ∀ a ∈ items, J β (R a) fun i => f i a) :
    J (List β) (Forall₂ R items) fun i => items.mapM (f i) := by
  induction items with
  | nil => exact judgement.pure .nil
  | cons a rest ih =>
    simp only [mapM_cons]
    refine judgement.bind (each a mem_cons_self) fun b holds => ?_
    refine judgement.bind (ih fun a' mem => each a' (mem_cons_of_mem a mem)) fun bs all => ?_
    exact judgement.pure (.cons holds all)

omit judgement in
/-- Looking up a name gives what it means. -/
theorem resolve (judgement : Judgement EvalError.Plain clashes J) (scope : Scope) (name : String) :
    J (Scope × Definition) (fun found => scope.lookup name = some found) fun _ =>
      EvalM.lift (Run.mapError .unknownName (Run.ofExcept (scope.resolve name))) :=
  judgement.lift ((Run.ended_ofExcept _).raises_mapError fun _ => trivial)
    (Run.UnclashedUnless.ofExcept fun _ same => Scope.lookup_of_resolve same).mapError

end Judgement

/-- The computation that resolves an alias or a struct of the owner. -/
def resolution (reach : Reach) (owner : Scope) (name : String) : EvalM Ty :=
  match owner.local? name with
  | some (.alias type) => reach.enter owner type
  | some (.struct fields) => skeleton reach owner name fields
  | _ => EvalM.fail (.notType name)

/-- All types that names are given have the property. -/
def KeptGenerics (kept : Kept) (generics : Generics) : Prop :=
  ∀ name t, valueAt? name generics = some t → kept.Holds t

/-- The judgement holds of what evaluation does with a name that has a definition. -/
structure Meaning {ι : Type} (kept : Kept) (J : (α : Type) → (α → Prop) → (ι → EvalM α) → Prop)
    (reach : ι → Reach) (owner : Scope) (name : String) (definition : Definition) : Prop where
  defines : kept.Defines name definition
  resolves : (∀ bound value, definition ≠ .parameter bound value) → J Ty kept.Holds fun i =>
    (reach i).resolve (owner.length, name) (resolution (reach i) owner name)
  calls : ∀ {parameters body values}, definition = .function parameters body →
    (∀ t ∈ values, kept.Holds t) →
    J Ty kept.Holds fun i => callFunction (reach i) owner name parameters body values

section Expressions

variable {ι : Type} {kept : Kept} {J : (α : Type) → (α → Prop) → (ι → EvalM α) → Prop}
  (reach : ι → Reach) (judgement : Judgement EvalError.Plain kept.clashes J)

theorem access_holds {t : Ty} (holds : kept.Holds t) (field : String) :
    (Ty.access field t).UnclashedUnless kept.clashes kept.Holds := by
  have member : ∀ m ∈ t.members, ∀ u, Ty.accessMember field m = .ok u → kept.Holds u := by
    intro m mem u found
    have holdsM := kept.member holds mem
    cases m with
    | struct name fields =>
      cases here : valueAt? field fields with
      | none => simp [Ty.accessMember, here] at found
      | some u' =>
        obtain rfl : u' = u := by simpa [Ty.accessMember, here] using found
        exact (kept.struct.mp holdsM).2 _ (mem_of_valueAt? here)
    | _ => cases found
  have union : Run.UnclashedUnless kept.clashes kept.Holds (do
      Run.ofChecked (Ty.unionOf (← Run.ofExcept (t.members.mapM (Ty.accessMember field))))) := by
    have types : (Run.ofExcept (t.members.mapM (Ty.accessMember field))).UnclashedUnless
        kept.clashes fun us => ∀ u ∈ us, kept.Holds u := by
      refine .ofExcept fun us ran u memU => ?_
      obtain ⟨m, memM, found⟩ := exists_left_of_forall₂ (mapM_eq_ok ran) memU
      exact member m memM u found
    exact types.bind fun us holdsUs => .ofChecked (kept.union holdsUs)
  cases t with
  | never => exact .ok kept.never
  | any => exact .error _
  | _ => exact union

include judgement

/-- The judgement holds of resolving a definition once it holds of what that enters. -/
theorem resolution_judged {owner : Scope} {name : String}
    (defines : ∀ definition, owner.local? name = some definition → kept.Defines name definition)
    (enters : ∀ definition e, owner.local? name = some definition → definition.Enters e →
      J Ty kept.Holds fun i => (reach i).enter owner e) :
    J Ty kept.Holds fun i => resolution (reach i) owner name := by
  unfold resolution
  split
  · next type said => exact enters _ type said rfl
  · next fields said =>
    have each : J (List (String × Ty))
        (Forall₂ (fun f r => r.1 = f.1 ∧ kept.Holds r.2) fields)
        fun i => fields.mapM fun f => do return (f.1, ← (reach i).enter owner f.2) := by
      refine judgement.mapM fun f mem => ?_
      refine judgement.bind (enters _ f.2 said ⟨f, mem, rfl⟩) fun t holds => ?_
      exact judgement.pure ⟨rfl, holds⟩
    refine judgement.bind each fun types all => judgement.pure (Kept.holds_build ?_ fun r mem => ?_)
    · have same : types.map (·.1) = fields.map (·.1) := by
        clear said each
        induction all with
        | nil => rfl
        | cons head tail ih => rw [map_cons, map_cons, head.1, ih]
      exact same ▸ defines _ said
    · obtain ⟨f, _, _, holds⟩ := exists_left_of_forall₂ all mem
      exact holds
  · exact judgement.fail trivial

theorem callBuiltin_judged {name : String} {parameters : List (String × Ty)} {varargs : Option Ty}
    {run : List Ty → Checked Ty} (own : kept.Defines name (.builtin parameters varargs run))
    {values : List Ty} (holds : ∀ t ∈ values, kept.Holds t) :
    J Ty kept.Holds fun _ => callBuiltin name parameters varargs run values := by
  obtain ⟨holdsParameters, holdsVarargs, results⟩ := own
  have expected (index : Nat) (unnamed : String) :
      kept.Holds (parameters.getD index (unnamed, varargs.getD .any)).2 := by
    rw [getD_eq_getElem?_getD]
    cases found : parameters[index]? with
    | some p => exact holdsParameters p (mem_of_getElem? found)
    | none =>
      cases varargs with
      | none => exact kept.any
      | some t => exact holdsVarargs t rfl
  have check (index : Nat) {rest : List Ty} (holds : ∀ t ∈ rest, kept.Holds t) :
      J Unit (fun _ => True) fun _ =>
        checkArguments name parameters (varargs.getD .any) index rest := by
    induction rest generalizing index with
    | nil => exact judgement.pure trivial
    | cons value rest ih =>
      have inside := kept.subset (holds value mem_cons_self)
        (expected index ("#" ++ index.repr))
      simp only [checkArguments]
      refine judgement.bind (judgement.checked inside) fun inside _ => ?_
      cases inside with
      | false => exact judgement.fail trivial
      | true => exact ih (index + 1) fun t mem => holds t (mem_cons_of_mem value mem)
  refine judgement.bind (check 0 holds) fun _ _ => ?_
  split
  · exact judgement.pure kept.never
  · exact judgement.checked (results values holds)

variable {scope : Scope} {context : Context}

theorem exprs_judged {items : List Expr}
    (each : ∀ e ∈ items, J Ty kept.Holds fun i => expr (reach i) context e) :
    J (List Ty) (fun ts => ∀ t ∈ ts, kept.Holds t) fun i => exprs (reach i) context items := by
  induction items with
  | nil => exact judgement.pure (by simp)
  | cons e rest ih =>
    simp only [exprs]
    refine judgement.bind (each e mem_cons_self) fun t holdsT => ?_
    refine judgement.bind (ih fun e' mem => each e' (mem_cons_of_mem e mem)) ?_
    exact fun ts holdsTs => judgement.pure (forall_mem_cons.mpr ⟨holdsT, holdsTs⟩)

/-- Assignments change types of fields, but not their names. -/
theorem assignments_judged {items : List (String × Expr)}
    (each : ∀ f ∈ items, J Ty kept.Holds fun i => expr (reach i) context f.2) {declared : Record}
    (own : ∀ f ∈ declared.fields, kept.Holds f.2) {seen : List String} {fields : List (String × Ty)}
    (names : fields.map (·.1) = declared.fields.map (·.1)) (sofar : ∀ f ∈ fields, kept.Holds f.2) :
    J (List (String × Ty)) (fun result => result.map (·.1) = declared.fields.map (·.1) ∧
      ∀ f ∈ result, kept.Holds f.2)
      fun i => assignments (reach i) context declared seen fields items := by
  induction items generalizing seen fields with
  | nil => exact judgement.pure ⟨names, sofar⟩
  | cons f rest ih =>
    obtain ⟨field, e⟩ := f
    simp only [assignments]
    cases found : declared.field? field with
    | none => exact judgement.fail trivial
    | some type =>
      obtain ⟨g, first, rfl⟩ := Option.map_eq_some_iff.mp found
      have isField := find?_some first
      have memG := mem_of_find?_eq_some first
      by_cases repeated : field ∈ seen
      · simp only [repeated, if_true]
        exact judgement.fail trivial
      · simp only [repeated, if_false]
        refine judgement.bind (each (field, e) mem_cons_self) fun value holdsValue => ?_
        refine judgement.bind (judgement.checked (kept.subset holdsValue (own g memG))) ?_
        intro inside _
        cases inside with
        | false => exact judgement.fail trivial
        | true =>
          have mem : field ∈ fields.map (·.1) := by
            rw [names, ← of_decide_eq_true isField]
            exact mem_map_of_mem memG
          apply ih fun f' memF => each f' (mem_cons_of_mem _ memF)
          · rw [keys_setEntry, if_pos mem, names]
          · intro f memF
            rcases eq_or_mem_of_mem_setEntry memF with rfl | old
            · exact holdsValue
            · exact sofar f old

theorem arms_judged {items : List (Arm Expr)}
    (each : ∀ a ∈ items, ∀ generics, KeptGenerics kept generics →
      (J Ty kept.Holds fun i => expr (reach i) ⟨scope, generics⟩ a.pattern) ∧
        J Ty kept.Holds fun i => expr (reach i) ⟨scope, generics⟩ a.body) {generics : Generics}
    (known : KeptGenerics kept generics) {left : Ty} (holdsLeft : kept.Holds left) :
    J (List Ty) (fun ts => ∀ t ∈ ts, kept.Holds t)
      fun i => arms (reach i) ⟨scope, generics⟩ left items := by
  induction items generalizing left with
  | nil => exact judgement.pure (by simp)
  | cons arm rest ih =>
    obtain ⟨pattern, binding, body⟩ := arm
    have here := each _ mem_cons_self
    simp only [arms]
    refine judgement.bind (here generics known).1 fun t holdsT => ?_
    have both : ∀ s ∈ [left, t], kept.Holds s := by simp [holdsLeft, holdsT]
    refine judgement.bind (judgement.checked (kept.intersection both))
      fun matched holdsMatched => ?_
    have last {result : List Ty} (holdsResult : ∀ t ∈ result, kept.Holds t) :
        J (List Ty) (fun ts => ∀ t ∈ ts, kept.Holds t) fun i => do
          let left ← EvalM.checked (left.without t)
          return result ++ (← arms (reach i) ⟨scope, generics⟩ left rest) := by
      refine judgement.bind (judgement.checked (kept.without holdsLeft holdsT)) ?_
      intro next holdsNext
      refine judgement.bind (ih (fun a mem => each a (mem_cons_of_mem _ mem)) holdsNext) ?_
      exact fun results holdsResults =>
        judgement.pure (forall_mem_append.mpr ⟨holdsResult, holdsResults⟩)
    split
    · exact last (by simp)
    · refine judgement.bind (Q := kept.Holds) ?_ fun result holdsResult => last (by simpa)
      cases binding with
      | none => exact (here generics known).2
      | some name =>
        refine (here (setEntry name matched generics) fun other s found => ?_).2
        by_cases same : name = other
        · subst same
          rw [valueAt?_setEntry_self] at found
          exact Option.some.inj found ▸ holdsMatched
        · rw [valueAt?_setEntry_of_ne same] at found
          exact known other s found

theorem named_judged {name : String} {fields : List (String × Expr)}
    (meaning : ∀ owner definition, context.scope.lookup name = some (owner, definition) →
      Meaning kept J reach owner name definition) (generics : KeptGenerics kept context.generics)
    (each : ∀ f ∈ fields, J Ty kept.Holds fun i => expr (reach i) context f.2) :
    J Ty kept.Holds fun i => expr (reach i) context (.named name fields) := by
  have bare : J Unit (fun _ => True) fun _ => noFields name fields := by
    unfold noFields
    split
    · exact judgement.pure trivial
    · exact judgement.fail trivial
  simp only [expr]
  cases free : valueAt? name context.generics with
  | some t => exact judgement.bind bare fun _ _ => judgement.pure (generics name t free)
  | none =>
    refine judgement.bind (judgement.resolve context.scope name) fun found said => ?_
    obtain ⟨owner, definition⟩ := found
    have here := (Scope.lookup_cases said).2
    have means := meaning owner definition said
    cases definition with
    | «alias» type =>
      have resolved := means.resolves (by simp)
      simp only [resolution, here] at resolved
      exact judgement.bind bare fun _ _ => resolved
    | «variable» value => exact judgement.bind bare fun _ _ => judgement.pure means.defines
    | parameter bound value =>
      refine judgement.bind bare fun _ _ => judgement.pure ?_
      cases value with
      | none => exact means.defines.1
      | some t => exact means.defines.2 t rfl
    | struct declared =>
      have resolved := means.resolves (by simp)
      simp only [resolution, here] at resolved
      refine judgement.bind resolved fun t holds => ?_
      cases t with
      | struct name' types =>
        obtain ⟨names, own⟩ := kept.struct.mp holds
        have declared : ∀ f ∈ (Record.mk name' types).fields, kept.Holds f.2 := own
        refine judgement.bind (assignments_judged reach judgement each declared rfl own) ?_
        rintro fields' ⟨names', own'⟩
        exact judgement.pure (Kept.holds_build (names' ▸ names) own')
      | _ => exact judgement.pure holds
    | function parameters body => exact judgement.fail trivial
    | builtin parameters varargs run => exact judgement.fail trivial

theorem expr_judged (meaning : ∀ name owner definition,
      scope.lookup name = some (owner, definition) → Meaning kept J reach owner name definition)
    (e : Expr) : ∀ {generics : Generics}, KeptGenerics kept generics →
      J Ty kept.Holds fun i => expr (reach i) ⟨scope, generics⟩ e := by
  induction e using Expr.induction with
  | never => exact fun _ => judgement.pure kept.never
  | any => exact fun _ => judgement.pure kept.any
  | number n => exact fun _ => judgement.pure (kept.number n)
  | string s => exact fun _ => judgement.pure (kept.string s)
  | union items each =>
    intro generics known
    simp only [expr]
    refine judgement.bind (exprs_judged reach judgement fun e mem => each e mem known) ?_
    exact fun ts holds => judgement.checked (kept.union holds)
  | intersection items each =>
    intro generics known
    simp only [expr]
    refine judgement.bind (exprs_judged reach judgement fun e mem => each e mem known) ?_
    exact fun ts holds => judgement.checked (kept.intersection holds)
  | access of field each =>
    intro generics known
    simp only [expr]
    exact judgement.bind (each known) fun t holds =>
      judgement.lift (Ty.raises_access field t) (access_holds holds field)
  | named name fields each =>
    intro generics known
    exact named_judged reach judgement (meaning name) known fun f mem => each f mem known
  | call name args each =>
    intro generics known
    have values := exprs_judged reach judgement fun e mem => each e mem known
    simp only [expr]
    refine judgement.bind (judgement.resolve scope name) fun found said => ?_
    obtain ⟨owner, definition⟩ := found
    have means := meaning name owner definition said
    cases definition with
    | builtin parameters varargs run =>
      simp only
      cases wrong : countError name parameters.length varargs.isSome args.length with
      | some e => exact judgement.fail (countError_plain wrong)
      | none =>
        exact judgement.bind values fun ts holds => callBuiltin_judged judgement means.defines holds
    | function parameters body =>
      simp only
      cases wrong : countError name parameters.length false args.length with
      | some e => exact judgement.fail (countError_plain wrong)
      | none => exact judgement.bind values fun ts holds => means.calls rfl holds
    | _ => exact judgement.fail trivial
  | choose of arms each eachArm =>
    intro generics known
    simp only [expr]
    refine judgement.bind (each known) fun left holdsLeft => ?_
    have results := arms_judged reach judgement (fun arm mem generics known =>
      ⟨(eachArm arm mem).1 known, (eachArm arm mem).2 known⟩) known holdsLeft
    exact judgement.bind results fun ts holds => judgement.checked (kept.union holds)

end Expressions

section Calls

variable {ι : Type} {kept : Kept} {J : (α : Type) → (α → Prop) → (ι → EvalM α) → Prop}
  (reach : ι → Reach) (judgement : Judgement EvalError.Direct kept.clashes J) {owner : Scope}
  (enters : ∀ e, J Ty kept.Holds fun i => (reach i).enter owner e)
include judgement enters

theorem bindParameters_judged {function : String} {b : Builder} (parametric : b.Parametric owner)
    (fills : kept.Fills owner b) {arguments : List ((String × Expr) × Ty)}
    (holds : ∀ a ∈ arguments, kept.Holds a.2) :
    J Builder (fun b => b.Parametric owner ∧ kept.Fills owner b)
      fun i => bindParameters (reach i) owner function b arguments := by
  induction arguments generalizing b with
  | nil => exact judgement.pure ⟨parametric, fills⟩
  | cons argument rest ih =>
    obtain ⟨⟨parameter, type⟩, value⟩ := argument
    have holdsValue := holds _ mem_cons_self
    simp only [bindParameters]
    refine judgement.bind (enters type) fun bound holdsBound => ?_
    refine judgement.bind (judgement.checked (kept.subset holdsValue holdsBound)) fun inside _ => ?_
    cases inside with
    | false => exact judgement.fail (by simp [EvalError.Direct])
    | true =>
      have own : kept.Defines parameter (.parameter bound none) := ⟨holdsBound, by simp⟩
      have added : Run.UnclashedUnless kept.clashes
          (fun b => b.Parametric owner ∧ kept.Fills owner b)
          (Run.ofExcept (b.add parameter (.parameter bound none))) :=
        .ofExcept fun b' same => ⟨parametric.add same, fills.add own same⟩
      refine judgement.bind (judgement.lift
        ((Run.ended_ofExcept _).raises_mapError (by simp [EvalError.Direct])) added.mapError) ?_
      rintro b' ⟨parametric', fills'⟩
      have assigned : (b'.assign parameter value).UnclashedUnless kept.clashes
          fun b => b.Parametric owner ∧ kept.Fills owner b :=
        (fills'.assign holdsValue).mono fun b'' same fills'' => ⟨parametric'.assign same, fills''⟩
      refine judgement.bind (judgement.lift
        ((Builder.ended_assign _ _ _).raises_mapError (by simp [EvalError.Direct]))
        assigned.mapError) fun b'' both => ?_
      exact ih both.1 both.2 fun a mem => holds a (mem_cons_of_mem _ mem)

theorem callFunction_judged {body : Expr} (frames : ∀ b : Builder, b.Parametric owner →
      kept.Fills owner b → J Ty kept.Holds fun i => (reach i).enter b.build body)
    {name : String} {parameters : List (String × Expr)} {values : List Ty}
    (holds : ∀ t ∈ values, kept.Holds t) :
    J Ty kept.Holds fun i => callFunction (reach i) owner name parameters body values := by
  have arguments : ∀ a ∈ parameters.zip values, kept.Holds a.2 :=
    fun a mem => holds a.2 (of_mem_zip mem).2
  refine judgement.bind (bindParameters_judged reach judgement enters
    (Builder.parametric_new _ owner) (Kept.fills_new _ owner) arguments) fun b both => ?_
  split
  · exact judgement.pure kept.never
  · exact frames b both.1 both.2

end Calls

/-- A property of families of computations that goes through steps in sequence, and holds of steps
with errors of a kind. -/
structure Admissible {ι : Type} (kind : EvalError → Prop)
    (P : (α : Type) → (ι → EvalM α) → Prop) : Prop where
  lift : ∀ {α : Type} (run : Run EvalError α), run.Raises kind → P α fun _ => EvalM.lift run
  bind : ∀ {α β : Type} {first : ι → EvalM α} {next : α → ι → EvalM β}, P α first →
    (∀ a, P β (next a)) → P β fun i => first i >>= fun a => next a i

/-- A property of computations, with one of all results there are. -/
def Told {ι : Type} (P : (α : Type) → (ι → EvalM α) → Prop) (α : Type) (Q : α → Prop)
    (family : ι → EvalM α) : Prop :=
  P α family ∧ ∀ i memo a, (family i memo).1 = .ok a → Q a

namespace Admissible

variable {ι α β : Type} {kind : EvalError → Prop} {P : (α : Type) → (ι → EvalM α) → Prop}

theorem plain (admissible : Admissible EvalError.Direct P) : Admissible EvalError.Plain P where
  lift run raises := admissible.lift run ⟨raises.1, fun e same => (raises.2 e same).direct⟩
  bind := admissible.bind

variable (admissible : Admissible kind P)
include admissible

theorem pure (a : α) : P α fun _ => Pure.pure a := admissible.lift (.ok a) (Run.raises_ok a)

theorem fail {e : EvalError} (own : kind e) : P α fun _ => EvalM.fail e :=
  admissible.lift (Run.fail e) (Run.raises_fail own)

/-- What comes after an operation on types needs the property at its result. -/
theorem checked_bind {result : Checked α} {next : α → ι → EvalM β}
    (each : ∀ a, result = .ok a → P β (next a)) :
    P β fun i => EvalM.checked result >>= fun a => next a i := by
  cases result with
  | ok a => exact each a rfl
  | error clash => exact admissible.lift _ (Run.raises_ofChecked (.error clash))

theorem judgement (own : ∃ e, kind e) : Judgement kind True (Told P) where
  lift raises unclashed := ⟨admissible.lift _ raises, fun _ _ _ same => unclashed.of_eq_ok same⟩
  bind {α β Q R first next} told each := by
    classical
    obtain ⟨holds, results⟩ := told
    obtain ⟨e, own⟩ := own
    -- what comes after a result that there is not may as well fail
    have same : (fun i => first i >>= fun a => next a i) = fun i => first i >>= fun a =>
        (if Q a then next a else fun _ => EvalM.fail e) i := by
      funext i memo
      rcases bind_cases (first i) (fun a => next a i) memo with
        ⟨a, memo', outcome, ran⟩ | ⟨h, memo', outcome, ran⟩
      · have result : Q a := results i memo a (congrArg Prod.fst outcome)
        rw [ran, bind_of_ok outcome, if_pos result]
      · rw [ran, bind_of_error outcome]
    refine ⟨?_, fun i memo b (ok : ((first i >>= fun a => next a i) memo).1 = .ok b) => ?_⟩
    · rw [same]
      refine admissible.bind holds fun a => ?_
      split
      · next result => exact (each a result).1
      · exact admissible.fail own
    · obtain ⟨a, memo', outcome, ran⟩ := bind_eq_ok ok
      rw [ran] at ok
      exact (each a (results i memo a (congrArg Prod.fst outcome))).2 i memo' b ok

end Admissible

section Surroundings

variable {ι : Type} {P : (α : Type) → (ι → EvalM α) → Prop} {root : Scope} {reach : ι → Reach}

theorem told_anything {family : ι → EvalM Ty} (holds : P Ty family) :
    Told P Ty Kept.anything.Holds family :=
  ⟨holds, fun _ _ _ _ => trivial⟩

theorem Admissible.told (admissible : Admissible EvalError.Plain P) :
    Judgement EvalError.Plain Kept.anything.clashes (Told P) :=
  admissible.judgement ⟨.notType "", trivial⟩

theorem resolution_admissible (admissible : Admissible EvalError.Plain P)
    (enters : ∀ scope e, Scope.Rooted root scope → P Ty fun i => (reach i).enter scope e)
    {owner : Scope} (suffix : owner <:+ root) (name : String) :
    P Ty fun i => resolution (reach i) owner name :=
  (resolution_judged reach admissible.told (fun _ _ => Kept.defines_anything _ _)
    fun _ e _ _ => told_anything (enters owner e (Scope.rooted_of_suffix suffix))).1

/-- A property that goes through steps in sequence holds of the evaluation of an expression once
it holds of what evaluation resolves and of the functions with a body that it calls. -/
theorem expr_admissible_of_calls (admissible : Admissible EvalError.Plain P)
    (resolves : ∀ owner name, owner <:+ root →
      P Ty fun i => (reach i).resolve (owner.length, name) (resolution (reach i) owner name))
    (calls : ∀ (owner : Scope) name parameters body values,
      owner <:+ root → owner.local? name = some (.function parameters body) →
      P Ty fun i => callFunction (reach i) owner name parameters body values)
    (e : Expr) {context : Context} (rooted : Scope.Rooted root context.scope) :
    P Ty fun i => expr (reach i) context e := by
  refine (expr_judged reach admissible.told (fun name owner definition said => ?_) e
    fun _ _ _ => trivial).1
  have place := rooted name owner definition said
  refine ⟨Kept.defines_anything name definition, fun proper => ?_, fun isFunction _ => ?_⟩
  · refine told_anything (resolves owner name (place.resolve_right ?_))
    exact fun ⟨bound, value, same⟩ => proper bound value same
  · subst isFunction
    exact told_anything (calls owner name _ _ _ (place.resolve_right (by simp))
      (Scope.lookup_cases said).2)

/-- It is enough that the property holds of what evaluation enters and resolves. -/
theorem expr_admissible (admissible : Admissible EvalError.Direct P)
    (enters : ∀ scope e, Scope.Rooted root scope → P Ty fun i => (reach i).enter scope e)
    (resolves : ∀ owner name, owner <:+ root →
      P Ty fun i => (reach i).resolve (owner.length, name) (resolution (reach i) owner name))
    (e : Expr) {context : Context} (rooted : Scope.Rooted root context.scope) :
    P Ty fun i => expr (reach i) context e := by
  have judgement : Judgement EvalError.Direct Kept.anything.clashes (Told P) :=
    admissible.judgement ⟨.notType "", by simp [EvalError.Direct]⟩
  refine expr_admissible_of_calls admissible.plain resolves (fun owner _ _ body _ suffix _ => ?_) e
    rooted
  have inside := fun e => told_anything (enters owner e (Scope.rooted_of_suffix suffix))
  refine (callFunction_judged reach judgement inside (fun b parametric _ => ?_)
    fun _ _ => trivial).1
  exact told_anything (enters b.build body (parametric.rooted suffix))

end Surroundings

end Eval

end TypeFlow
