import Mathlib.Data.List.Sort
import TypeFlow.Proofs.Eval.Lexical
import TypeFlow.Proofs.Eval.Recall

/-!
# Scopes that agree

Two scopes agree if their frames give every name the same meaning, one frame after the other; the
definitions may stand in any order. All that evaluation asks of a scope is then the same: what a
name means, which scope owns it, and, since the names that are offered instead of an unknown one
are ranked, also the offers. So is all that evaluation does.
-/

namespace TypeFlow

open List
open Std (TransCmp LawfulEqCmp ReflCmp OrientedCmp)

namespace Scope

/-- Comparison by better scores and then by names. -/
def ranking (a b : Num × String) : Ordering := (b.1.compare a.1).then (compare a.2 b.2)

theorem betterFirst_eq (a b : Num × String) : betterFirst a b = (ranking a b).isLE := by
  unfold betterFirst ranking
  rw [Num.compare_swap a.1 b.1]
  cases a.1.compare b.1 with
  | eq => cases named : compare a.2 b.2 <;> simp
  | _ => rfl

instance : LawfulEqCmp ranking where
  compare_self := by
    intro a
    rw [ranking, Ordering.then_eq_eq]
    exact ⟨ReflCmp.compare_self, ReflCmp.compare_self⟩
  eq_of_compare := by
    intro a b same
    rw [ranking, Ordering.then_eq_eq] at same
    exact Prod.ext (LawfulEqCmp.eq_of_compare same.1).symm (LawfulEqCmp.eq_of_compare same.2)

instance : TransCmp ranking := by
  refine transCmp_of_lt_trans ?_ (fun _ _ => LawfulEqCmp.eq_of_compare) ?_
  · exact fun a b => then_swap (Num.compare_swap b.1 a.1) Std.OrientedOrd.eq_swap
  · intro a b c left right
    have flipped : ∀ {x y z : Num}, y.compare x = .lt → z.compare y = .lt → z.compare x = .lt :=
      fun first second => TransCmp.lt_trans second first
    exact @then_lt_trans Num (fun x y => y.compare x) a.1 b.1 c.1 _ _ _ ReflCmp.compare_self
      (fun same => (LawfulEqCmp.eq_of_compare same).symm)
      (fun same => (LawfulEqCmp.eq_of_compare same).symm) flipped
      (fun _ _ => TransCmp.lt_trans) left right

/-- A ranked list is determined by its items. -/
theorem mergeSort_betterFirst_eq {items items' : List (Num × String)} (perm : items.Perm items') :
    items.mergeSort betterFirst = items'.mergeSort betterFirst := by
  have trans : ∀ a b c, betterFirst a b = true → betterFirst b c = true →
      betterFirst a c = true := by
    simp only [betterFirst_eq]
    exact fun a b c => TransCmp.isLE_trans
  have total : ∀ a b, (betterFirst a b || betterFirst b a) = true := by
    intro a b
    have swap : ranking b a = (ranking a b).swap := OrientedCmp.eq_swap
    rw [betterFirst_eq, betterFirst_eq, swap]
    cases ranking a b <;> rfl
  have antisymm : ∀ a b, betterFirst a b = true → betterFirst b a = true → a = b := by
    simp only [betterFirst_eq]
    exact fun a b le ge => LawfulEqCmp.eq_of_compare (OrientedCmp.isLE_antisymm le ge)
  have perm' := (mergeSort_perm items betterFirst).trans
    (perm.trans (mergeSort_perm items' betterFirst).symm)
  exact perm'.eq_of_pairwise (fun a b _ _ => antisymm a b)
    (pairwise_mergeSort trans total items) (pairwise_mergeSort trans total items')

end Scope

/-- Two frames give every name the same meaning, with as many definitions. -/
structure Frame.Agrees (frame frame' : Frame) : Prop where
  meaning : ∀ name, frame.get? name = frame'.get? name
  length : frame.entries.length = frame'.entries.length

theorem Frame.Agrees.refl (frame : Frame) : frame.Agrees frame := ⟨fun _ => rfl, rfl⟩

/-- Definitions with a name each may stand in any order. -/
theorem Frame.agrees_of_perm {frame frame' : Frame} (perm : frame.entries.Perm frame'.entries)
    (nodup : (frame.entries.map (·.1)).Nodup) : frame.Agrees frame' := by
  refine ⟨fun name => ?_, perm.length_eq⟩
  have nodup' : (frame'.entries.map (·.1)).Nodup := (perm.map (·.1)).nodup_iff.mp nodup
  unfold Frame.get?
  cases found : valueAt? name frame.entries with
  | some definition =>
    exact (valueAt?_of_mem nodup' (perm.mem_iff.mp (mem_of_valueAt? found))).symm
  | none =>
    rw [valueAt?_eq_none_iff] at found
    exact (valueAt?_eq_none_iff.mpr fun mem => found ((perm.map (·.1)).mem_iff.mpr mem)).symm

namespace Scope

/-- The frames agree one after the other. -/
def Agrees (scope scope' : Scope) : Prop := Forall₂ Frame.Agrees scope scope'

theorem Agrees.refl (scope : Scope) : scope.Agrees scope :=
  forall₂_same.mpr fun frame _ => .refl frame

variable {scope scope' : Scope}

theorem Agrees.size (agrees : scope.Agrees scope') : scope.size = scope'.size := by
  induction agrees with
  | nil => rfl
  | cons here _ ih => rw [Scope.size, Scope.size, here.length, ih]

/-- A name means nothing in both scopes, or the same in parts that agree again. -/
theorem Agrees.lookup (agrees : scope.Agrees scope') (name : String) :
    (scope.lookup name = none ∧ scope'.lookup name = none) ∨
      ∃ owner owner' definition, scope.lookup name = some (owner, definition) ∧
        scope'.lookup name = some (owner', definition) ∧ owner.Agrees owner' := by
  induction agrees with
  | nil => exact .inl ⟨rfl, rfl⟩
  | @cons frame frame' outer outer' here around ih =>
    have meaning := here.meaning name
    cases found : frame.get? name with
    | none =>
      rw [found] at meaning
      simpa only [Scope.lookup, found, ← meaning] using ih
    | some definition =>
      rw [found] at meaning
      refine .inr ⟨frame :: outer, frame' :: outer', definition, ?_, ?_, .cons here around⟩
      · simp only [Scope.lookup, found]
      · simp only [Scope.lookup, ← meaning]

theorem Agrees.suggestions (agrees : scope.Agrees scope') (name : String) :
    scope.suggestions name = scope'.suggestions name := by
  have visible : scope.visibleNames.Perm scope'.visibleNames := by
    refine (perm_ext_iff_of_nodup (nodup_addNames .nil) (nodup_addNames .nil)).mpr fun n => ?_
    show n ∈ scope.visibleNames ↔ n ∈ scope'.visibleNames
    rw [mem_visibleNames, mem_visibleNames]
    rcases agrees.lookup n with ⟨missing, missing'⟩ | ⟨_, _, _, found, found', -⟩
    · rw [missing, missing']
    · simp [found, found']
  unfold Scope.suggestions
  simp only
  rw [mergeSort_betterFirst_eq ((visible.map _).filter _)]

end Scope

namespace Builder

/-- The builder inside another scope. -/
def around (b : Builder) (outer : Scope) : Builder := { b with outer }

theorem add_around (b : Builder) (outer : Scope) (name : String) (definition : Definition) :
    (b.around outer).add name definition = (·.around outer) <$> b.add name definition := by
  unfold add around
  simp only
  split
  · rfl
  · split
    · rfl
    · split <;> rfl

theorem assign_around (b : Builder) (outer : Scope) (name : String) (value : Ty) :
    (b.around outer).assign name value = (·.around outer) <$> b.assign name value := by
  unfold assign around
  simp only
  cases valueAt? name b.entries with
  | none => rfl
  | some definition =>
    cases definition with
    | parameter bound old =>
      simp only
      rcases value.subset bound with clash | inside
      · rfl
      · cases inside <;> rfl
    | _ => rfl

end Builder

namespace Eval

section Lift

variable {ε α β : Type} (g : α → β)

theorem lift_map (run : Run EvalError α) : EvalM.lift (g <$> run) = g <$> EvalM.lift run := by
  funext memo
  cases run <;> rfl

theorem mapError_map (f : ε → EvalError) (run : Run ε α) :
    Run.mapError f (g <$> run) = g <$> Run.mapError f run := by
  rcases run with (e | h) | a <;> rfl

theorem ofExcept_map (x : Except ε α) : Run.ofExcept (g <$> x) = g <$> Run.ofExcept x := by
  cases x <;> rfl

end Lift

theorem bindParameters_around (reach : Reach) (owner : Scope) (function : String) (outer : Scope)
    (b : Builder) (parameters : List ((String × Expr) × Ty)) :
    bindParameters reach owner function (b.around outer) parameters =
      (·.around outer) <$> bindParameters reach owner function b parameters := by
  induction parameters generalizing b with
  | nil => simp only [bindParameters, map_pure]
  | cons first rest ih =>
    obtain ⟨⟨parameter, type⟩, value⟩ := first
    simp only [bindParameters, map_bind]
    refine bind_congr fun bound => bind_congr fun inside => ?_
    cases inside with
    | false => rfl
    | true =>
      simp only [if_true, Builder.add_around, ofExcept_map, mapError_map, lift_map, map_bind,
        bind_map_left]
      refine bind_congr fun b => ?_
      simp only [Builder.assign_around, mapError_map, lift_map, bind_map_left, ih]

/-- How evaluation goes on is the same in scopes that agree. -/
def Impartial (reach : Reach) : Prop :=
  ∀ scope scope' : Scope, scope.Agrees scope' → ∀ e, reach.enter scope e = reach.enter scope' e

section Impartial

variable {reach : Reach} (impartial : Impartial reach) {scope scope' owner owner' : Scope}
include impartial

theorem bindParameters_agrees (agrees : owner.Agrees owner') (function : String) (b : Builder)
    (parameters : List ((String × Expr) × Ty)) :
    bindParameters reach owner function b parameters =
      bindParameters reach owner' function b parameters := by
  induction parameters generalizing b with
  | nil => rfl
  | cons first rest ih =>
    obtain ⟨⟨parameter, type⟩, value⟩ := first
    simp only [bindParameters, impartial owner owner' agrees type, ih]

theorem callFunction_agrees (agrees : owner.Agrees owner') (name : String)
    (parameters : List (String × Expr)) (body : Expr) (values : List Ty) :
    callFunction reach owner name parameters body values =
      callFunction reach owner' name parameters body values := by
  have inside (around : Scope) : Builder.new (name ++ "()") around =
      (Builder.new (name ++ "()") []).around around := rfl
  unfold callFunction
  rw [inside owner, inside owner', bindParameters_around, bindParameters_around,
    bindParameters_agrees impartial agrees]
  simp only [bind_map_left]
  refine bind_congr fun b => ?_
  have bodies : reach.enter (b.around owner).build body =
      reach.enter (b.around owner').build body := impartial _ _ (.cons (.refl _) agrees) body
  rw [bodies]

theorem skeleton_agrees (agrees : owner.Agrees owner') (name : String)
    (fields : List (String × Expr)) :
    skeleton reach owner name fields = skeleton reach owner' name fields := by
  simp only [skeleton, impartial owner owner' agrees]

omit impartial in
theorem resolve_unknown {name : String} (missing : scope.lookup name = none) (memo : Memo) :
    EvalM.lift (Run.mapError EvalError.unknownName (Run.ofExcept (scope.resolve name))) memo =
      (.error (.error (.unknownName ⟨name, scope.suggestions name⟩)), memo) := by
  have unknown : scope.resolve name = .error ⟨name, scope.suggestions name⟩ := by
    simp only [Scope.resolve, missing]
  rw [unknown]
  rfl

variable (agrees : scope.Agrees scope') {generics : Generics} {name : String}
include agrees

theorem named_agrees {fields : List (String × Expr)}
    (each : ∀ f ∈ fields, expr reach ⟨scope, generics⟩ f.2 = expr reach ⟨scope', generics⟩ f.2) :
    expr reach ⟨scope, generics⟩ (.named name fields) =
      expr reach ⟨scope', generics⟩ (.named name fields) := by
  funext memo
  rw [expr, expr]
  simp only
  cases valueAt? name generics with
  | some t => rfl
  | none =>
    simp only
    rcases agrees.lookup name with ⟨missing, missing'⟩ | ⟨owner, owner', d, found, found', part⟩
    · rw [bind_of_error (resolve_unknown missing memo),
        bind_of_error (resolve_unknown missing' memo), agrees.suggestions name]
    · have length : owner.length = owner'.length := part.length_eq
      rw [bind_of_ok (resolve_eq found memo), bind_of_ok (resolve_eq found' memo)]
      cases d with
      | struct declared =>
        simp only [length, skeleton_agrees impartial part, assignments_congr each]
      | «alias» type => simp only [length, impartial owner owner' part]
      | _ => rfl

theorem call_agrees {args : List Expr}
    (each : ∀ e ∈ args, expr reach ⟨scope, generics⟩ e = expr reach ⟨scope', generics⟩ e) :
    expr reach ⟨scope, generics⟩ (.call name args) =
      expr reach ⟨scope', generics⟩ (.call name args) := by
  funext memo
  rw [expr, expr]
  rcases agrees.lookup name with ⟨missing, missing'⟩ | ⟨owner, owner', d, found, found', part⟩
  · rw [bind_of_error (resolve_unknown missing memo),
      bind_of_error (resolve_unknown missing' memo), agrees.suggestions name]
  · rw [bind_of_ok (resolve_eq found memo), bind_of_ok (resolve_eq found' memo)]
    cases d with
    | builtin parameters varargs run => simp only [exprs_congr each]
    | function parameters body =>
      simp only [exprs_congr each, callFunction_agrees impartial part]
    | _ => rfl

omit name in
theorem expr_agrees (e : Expr) :
    expr reach ⟨scope, generics⟩ e = expr reach ⟨scope', generics⟩ e := by
  induction e using Expr.induction generalizing generics with
  | never | any | number | string => simp only [expr]
  | union items each | intersection items each =>
    simp only [expr, exprs_congr fun e mem => each e mem]
  | call _ args each => exact call_agrees impartial agrees fun e mem => each e mem
  | access of field inner => simp only [expr, inner]
  | named _ fields each => exact named_agrees impartial agrees fun f mem => each f mem
  | choose of arms inner each =>
    have results (left : Ty) : Eval.arms reach ⟨scope, generics⟩ left arms =
        Eval.arms reach ⟨scope', generics⟩ left arms := by
      apply arms_congr
      · exact fun arm mem => (each arm mem).1
      · exact fun arm mem => ⟨(each arm mem).2, fun _ _ => (each arm mem).2⟩
    simp only [expr, inner, results]

end Impartial

theorem level_agrees (levels : Nat) {scope scope' : Scope} (agrees : scope.Agrees scope')
    (generics : Generics) (e : Expr) :
    level levels ⟨scope, generics⟩ e = level levels ⟨scope', generics⟩ e := by
  induction levels generalizing scope scope' generics e with
  | zero => rfl
  | succ levels ih =>
    have impartial : Impartial (levelReach levels) := fun _ _ agrees e => ih agrees [] e
    exact expr_agrees impartial agrees e

end Eval

theorem Scope.Agrees.evaluateWith {scope scope' : Scope} (agrees : scope.Agrees scope') :
    scope.evaluateWith = scope'.evaluateWith := by
  funext generics e
  rw [Scope.evaluateWith, Scope.evaluateWith, agrees.size, Eval.level_agrees _ agrees]

theorem Scope.Agrees.evaluate {scope scope' : Scope} (agrees : scope.Agrees scope')
    (generics : Generics) (e : Expr) : scope.evaluate generics e = scope'.evaluate generics e := by
  rw [Scope.evaluate_eq, Scope.evaluate_eq, agrees.evaluateWith]

end TypeFlow
