import TypeFlow.Proofs.Eval.Memo
import TypeFlow.Proofs.Expr.Valid

/-!
# Lexical scope

What an expression evaluates to depends on the generic parameters only through the names that stand
in it. What a definition or a function contributes depends on the definition, the scope that owns it
and the types of the arguments alone. Evaluations in two places may remember different things. Both
are compared with the evaluator that remembers nothing, where the arguments restore what they found
and are the same from some number of levels on.
-/

namespace TypeFlow

open List

namespace Eval

/-- The generic parameters give all names that stand in the expression the same meaning. -/
def AgreeOn (e : Expr) (generics generics' : Generics) : Prop :=
  ∀ name fields, .named name fields ∈ e.parts → valueAt? name generics = valueAt? name generics'

section Generics

variable {e : Expr} {generics generics' : Generics}

theorem AgreeOn.child (agree : AgreeOn e generics generics') {child : Expr}
    (mem : child ∈ e.children) : AgreeOn child generics generics' := by
  intro name fields part
  apply agree name fields
  rw [Expr.parts_eq]
  exact mem_cons_of_mem e (mem_flatMap.mpr ⟨child, mem, part⟩)

/-- A name that is bound for an arm has the same meaning for both. -/
theorem AgreeOn.setEntry (agree : AgreeOn e generics generics') (name : String) (t : Ty) :
    AgreeOn e (setEntry name t generics) (setEntry name t generics') := by
  intro other fields part
  by_cases same : name = other
  · subst same
    rw [valueAt?_setEntry_self, valueAt?_setEntry_self]
  · rw [valueAt?_setEntry_of_ne same, valueAt?_setEntry_of_ne same]
    exact agree other fields part

variable {reach : Reach} {scope : Scope}

theorem exprs_congr {context context' : Context} {items : List Expr}
    (each : ∀ e ∈ items, expr reach context e = expr reach context' e) :
    exprs reach context items = exprs reach context' items := by
  induction items with
  | nil => rfl
  | cons e rest ih =>
    have tail := ih fun e' mem => each e' (mem_cons_of_mem e mem)
    simp only [exprs, each e mem_cons_self, tail]

theorem assignments_congr {context context' : Context} {items : List (String × Expr)}
    (each : ∀ f ∈ items, expr reach context f.2 = expr reach context' f.2) (declared : Record)
    (seen : List String) (fields : List (String × Ty)) :
    assignments reach context declared seen fields items =
      assignments reach context' declared seen fields items := by
  induction items generalizing seen fields with
  | nil => rfl
  | cons f rest ih =>
    have head : expr reach context f.2 = expr reach context' f.2 := each f mem_cons_self
    have tail := ih fun f' mem => each f' (mem_cons_of_mem f mem)
    simp only [assignments, head, tail]

theorem arms_congr {scope' : Scope} {items : List (Arm Expr)}
    (patterns : ∀ a ∈ items,
      expr reach ⟨scope, generics⟩ a.pattern = expr reach ⟨scope', generics'⟩ a.pattern)
    (bodies : ∀ a ∈ items,
      expr reach ⟨scope, generics⟩ a.body = expr reach ⟨scope', generics'⟩ a.body ∧
      ∀ name t, expr reach ⟨scope, setEntry name t generics⟩ a.body =
        expr reach ⟨scope', setEntry name t generics'⟩ a.body) (left : Ty) :
    arms reach ⟨scope, generics⟩ left items = arms reach ⟨scope', generics'⟩ left items := by
  induction items generalizing left with
  | nil => rfl
  | cons arm rest ih =>
    obtain ⟨pattern, binding, body⟩ := arm
    have head := patterns _ mem_cons_self
    obtain ⟨same, bound⟩ := bodies _ mem_cons_self
    have tail := ih (fun a mem => patterns a (mem_cons_of_mem _ mem))
      fun a mem => bodies a (mem_cons_of_mem _ mem)
    simp only at head same bound
    cases binding with
    | none => simp only [arms, head, same, tail]
    | some name => simp only [arms, head, bound, tail]

/-- Evaluation reads the generic parameters only at names that stand in the expression. -/
theorem expr_congr (agree : AgreeOn e generics generics') :
    expr reach ⟨scope, generics⟩ e = expr reach ⟨scope, generics'⟩ e := by
  induction e using Expr.induction generalizing generics generics' with
  | never | any | number | string => simp only [expr]
  | union items each | intersection items each | call _ items each =>
    have same : exprs reach ⟨scope, generics⟩ items = exprs reach ⟨scope, generics'⟩ items :=
      exprs_congr fun e mem => each e mem (agree.child mem)
    simp only [expr, same]
  | access of field inner =>
    have same := inner (agree.child (mem_singleton_self of))
    simp only [expr, same]
  | named name fields each =>
    have here : valueAt? name generics = valueAt? name generics' := by
      apply agree name fields
      rw [Expr.parts_eq]
      exact mem_cons_self
    have parts : ∀ f ∈ fields,
        expr reach ⟨scope, generics⟩ f.2 = expr reach ⟨scope, generics'⟩ f.2 :=
      fun f mem => each f mem (agree.child (mem_map_of_mem mem))
    simp only [expr, here, assignments_congr parts]
  | choose of arms inner each =>
    have same := inner (agree.child mem_cons_self)
    have inArm : ∀ arm ∈ arms, ∀ part ∈ [arm.pattern, arm.body],
        AgreeOn part generics generics' := by
      intro arm mem part inside
      exact agree.child (mem_cons_of_mem _ (mem_flatMap.mpr ⟨arm, mem, inside⟩))
    have results (left : Ty) : Eval.arms reach ⟨scope, generics⟩ left arms =
        Eval.arms reach ⟨scope, generics'⟩ left arms := by
      apply arms_congr
      · exact fun arm mem => (each arm mem).1 (inArm arm mem arm.pattern (by simp))
      · intro arm mem
        have body := inArm arm mem arm.body (by simp)
        exact ⟨(each arm mem).2 body, fun name t => (each arm mem).2 (body.setEntry name t)⟩
    simp only [expr, same, results]

theorem level_congr (agree : AgreeOn e generics generics') (levels : Nat) :
    level levels ⟨scope, generics⟩ e = level levels ⟨scope, generics'⟩ e := by
  cases levels with
  | zero => rfl
  | succ levels => exact expr_congr agree

end Generics

/-- A name is looked up without a trace. -/
theorem resolve_eq {scope owner : Scope} {name : String} {definition : Definition}
    (found : scope.lookup name = some (owner, definition)) (memo : Memo) :
    EvalM.lift (Run.mapError EvalError.unknownName (Run.ofExcept (scope.resolve name))) memo =
      (.ok (owner, definition), memo) := by
  have resolved : scope.resolve name = .ok (owner, definition) := by
    simp only [Scope.resolve, found]
  rw [resolved]
  rfl

/-- Where an expression is evaluated: a part of a chain of scopes with generic parameters, and
what is remembered after earlier calls on the chain. -/
structure Caller extends Context where
  /-- What is remembered. -/
  memo : Memo
  /-- The scopes of earlier calls. -/
  chain : Scope
  part : scope <:+ chain
  reached : Reached chain memo

namespace Caller

/-- What evaluation comes to with the levels that a call has, and what it remembers. -/
def evaluate (c : Caller) (e : Expr) : Run EvalError Ty × Memo :=
  c.scope.evaluateWith c.generics e c.memo

/-- What evaluation comes to with some number of levels. -/
def Answers (c : Caller) (e : Expr) (answer : Run EvalError Ty) : Prop :=
  ∃ levels, (level levels c.toContext e c.memo).1 = answer

/-- Evaluation in two places comes to the same. -/
def Alike (c c' : Caller) (e e' : Expr) : Prop :=
  (∀ answer, answer ≠ exhausted → (c.Answers e answer ↔ c'.Answers e' answer)) ∧
    ((c.evaluate e).1 ≠ exhausted → (c'.evaluate e').1 ≠ exhausted →
      (c.evaluate e).1 = (c'.evaluate e').1)

/-- The expressions have the same type, each in its place. -/
def SameType (c c' : Caller) (e e' : Expr) : Prop :=
  ∃ t, c.Answers e (.ok t) ∧ c'.Answers e' (.ok t)

variable {c c' : Caller} {e e' : Expr}

variable {answer : Run EvalError Ty} {args args' : List Expr}

theorem answers_iff (finished : answer ≠ exhausted) :
    c.Answers e answer ↔ ∃ m, (plain m c.toContext e []).1 = answer :=
  c.reached.answers_iff c.part c.generics e finished

theorem answers_evaluate (c : Caller) (e : Expr) : c.Answers e (c.evaluate e).1 := by
  refine ⟨c.scope.size + maxCalls + 1, ?_⟩
  rw [evaluate, Scope.evaluateWith]

theorem steady (c : Caller) (e : Expr) : Steady fun m => plain m c.toContext e :=
  ⟨fun k => steadyBelow_plain c.scope k (Scope.rooted_of_suffix (suffix_refl _)) e⟩

/-- An answer is there from some number of levels on. -/
theorem Answers.eventually (answers : c.Answers e answer) (finished : answer ≠ exhausted) :
    ∃ least, ∀ m, least ≤ m → plain m c.toContext e [] = (answer, []) := by
  obtain ⟨least, found⟩ := (answers_iff finished).mp answers
  refine ⟨least, fun m more => ?_⟩
  exact Prod.ext ((c.steady e).keeps found finished more) ((c.steady e).restores m [])

theorem Answers.unique {e : Expr} {answer answer' : Run EvalError Ty}
    (answers : c.Answers e answer) (finished : answer ≠ exhausted)
    (answers' : c.Answers e answer') (finished' : answer' ≠ exhausted) : answer = answer' := by
  obtain ⟨m, found⟩ := (answers_iff finished).mp answers
  obtain ⟨m', found'⟩ := (answers_iff finished').mp answers'
  exact (c.steady e).unique found finished found' finished'

/-- An answer is found in another place as well, if evaluation that remembers nothing comes to the
same in both from some number of levels on. -/
theorem Answers.of_eventually {least : Nat}
    (same : ∀ m, least ≤ m → expr (plainReach m) c.toContext e [] =
      expr (plainReach m) c'.toContext e' []) {answer : Run EvalError Ty}
    (finished : answer ≠ exhausted) (answers : c.Answers e answer) : c'.Answers e' answer := by
  obtain ⟨enough, found⟩ := answers.eventually finished
  have here : expr (plainReach (max least enough)) c.toContext e [] = (answer, []) :=
    found (max least enough + 1) (by omega)
  rw [same _ (Nat.le_max_left least enough)] at here
  exact (answers_iff finished).mpr ⟨max least enough + 1, congrArg Prod.fst here⟩

theorem alike_of_eventually {least : Nat}
    (same : ∀ m, least ≤ m → expr (plainReach m) c.toContext e [] =
      expr (plainReach m) c'.toContext e' []) : Alike c c' e e' := by
  refine ⟨fun answer finished => ⟨?_, ?_⟩, fun ended ended' => ?_⟩
  · exact Answers.of_eventually same finished
  · exact Answers.of_eventually (fun m more => (same m more).symm) finished
  · have there := Answers.of_eventually same ended (c.answers_evaluate e)
    exact there.unique ended (c'.answers_evaluate e') ended'

/-- Expressions of the same type have it from some number of levels on. -/
theorem SameType.eventually (same : SameType c c' e e') :
    ∃ t least, ∀ m, least ≤ m → expr (plainReach m) c.toContext e [] = (.ok t, []) ∧
      expr (plainReach m) c'.toContext e' [] = (.ok t, []) := by
  obtain ⟨t, answers, answers'⟩ := same
  obtain ⟨least, here⟩ := answers.eventually (by simp)
  obtain ⟨least', there⟩ := answers'.eventually (by simp)
  refine ⟨t, max least least', fun m more => ⟨?_, ?_⟩⟩
  · exact here (m + 1) (by omega)
  · exact there (m + 1) (by omega)

/-- Arguments of the same types come to the same from some number of levels on. -/
theorem exprs_eventually (same : Forall₂ (SameType c c') args args') :
    ∃ least, ∀ m, least ≤ m →
      exprs (plainReach m) c.toContext args [] = exprs (plainReach m) c'.toContext args' [] := by
  induction same with
  | nil => exact ⟨0, fun m _ => rfl⟩
  | @cons e e' rest rest' head tail ih =>
    obtain ⟨t, least, both⟩ := head.eventually
    obtain ⟨later, others⟩ := ih
    refine ⟨max least later, fun m more => ?_⟩
    obtain ⟨here, there⟩ := both m (by omega)
    rw [exprs, exprs, bind_of_ok here, bind_of_ok there]
    exact bind_congr_at (others m (by omega)) _

/-- Assignments of the same types to the same fields come to the same from some number of levels
on. -/
theorem assignments_eventually {fields fields' : List (String × Expr)}
    (same : Forall₂ (fun f f' => f.1 = f'.1 ∧ SameType c c' f.2 f'.2) fields fields') :
    ∃ least, ∀ m, least ≤ m → ∀ declared seen types,
      assignments (plainReach m) c.toContext declared seen types fields [] =
        assignments (plainReach m) c'.toContext declared seen types fields' [] := by
  induction same with
  | nil => exact ⟨0, fun m _ declared seen types => rfl⟩
  | @cons f f' rest rest' head tail ih =>
    obtain ⟨field, e⟩ := f
    obtain ⟨_, e'⟩ := f'
    obtain ⟨rfl, sameType⟩ := head
    obtain ⟨t, least, both⟩ := sameType.eventually
    obtain ⟨later, others⟩ := ih
    refine ⟨max least later, fun m more declared seen types => ?_⟩
    obtain ⟨here, there⟩ := both m (by omega)
    simp only [assignments]
    cases declared.field? field with
    | none => rfl
    | some type =>
      by_cases repeated : field ∈ seen
      · simp only [repeated, if_true]
      · simp only [repeated, if_false]
        rw [bind_of_ok here, bind_of_ok there]
        rcases t.subset type with clash | inside
        · rfl
        · cases inside with
          | false => rfl
          | true => exact others m (by omega) declared (field :: seen) (setEntry field t types)

variable {name : String} {owner : Scope} {definition : Definition}
  (found : c.scope.lookup name = some (owner, definition))
  (found' : c'.scope.lookup name = some (owner, definition))
include found found'

theorem call_alike (same : Forall₂ (SameType c c') args args') :
    Alike c c' (.call name args) (.call name args') := by
  obtain ⟨least, both⟩ := exprs_eventually same
  have length : args.length = args'.length := same.length_eq
  refine alike_of_eventually fun m (more : least ≤ m) => ?_
  have ready := both m more
  rw [expr, expr, bind_of_ok (resolve_eq found []), bind_of_ok (resolve_eq found' []), length]
  cases definition with
  | builtin parameters varargs run =>
    simp only
    cases countError name parameters.length varargs.isSome args'.length with
    | some e => rfl
    | none => exact bind_congr_at ready _
  | function parameters body =>
    simp only
    cases countError name parameters.length false args'.length with
    | some e => rfl
    | none => exact bind_congr_at ready _
  | _ => rfl

/-- A name that is no generic parameter comes to what its definition makes of the types that are
assigned. -/
theorem named_alike (free : valueAt? name c.generics = none)
    (free' : valueAt? name c'.generics = none) {fields fields' : List (String × Expr)}
    (same : Forall₂ (fun f f' => f.1 = f'.1 ∧ SameType c c' f.2 f'.2) fields fields') :
    Alike c c' (.named name fields) (.named name fields') := by
  obtain ⟨least, both⟩ := assignments_eventually same
  have empty : fields.isEmpty = fields'.isEmpty := by
    cases same <;> rfl
  have bare : noFields name fields = noFields name fields' := by
    simp only [noFields, empty]
  refine alike_of_eventually fun m (more : least ≤ m) => ?_
  have assigned := both m more
  rw [expr, expr, free, free']
  simp only
  rw [bind_of_ok (resolve_eq found []), bind_of_ok (resolve_eq found' []), bare]
  cases definition with
  | struct declared =>
    simp only
    have restored : ((plainReach m).resolve (owner.length, name)
        (skeleton (plainReach m) owner name declared) []).2 = [] := afresh_snd
    rw [bind_of_restored restored, bind_of_restored restored]
    rcases ((plainReach m).resolve (owner.length, name)
        (skeleton (plainReach m) owner name declared) []).1 with halt | t
    · rfl
    · cases t with
      | struct name' types => exact bind_congr_at (assigned ⟨name', types⟩ [] types) _
      | _ => rfl
  | _ => rfl

end Caller

/-- Evaluation is lexically scoped. Generic parameters that agree on the names in an expression
give the same result, whatever definitions mention. A call, from any two places where the function
is the same and the arguments have the same types, comes to the same, and so does a name that is
no generic parameter. -/
theorem lexically_scoped :
    (∀ (scope : Scope) (e : Expr) (generics generics' : Generics), AgreeOn e generics generics' →
      ∀ memo, scope.evaluateWith generics e memo = scope.evaluateWith generics' e memo) ∧
    ∀ (c c' : Caller) (name : String) (owner : Scope) (definition : Definition),
      c.scope.lookup name = some (owner, definition) →
      c'.scope.lookup name = some (owner, definition) →
      (∀ args args', Forall₂ (Caller.SameType c c') args args' →
        Caller.Alike c c' (.call name args) (.call name args')) ∧
      (valueAt? name c.generics = none → valueAt? name c'.generics = none →
        ∀ fields fields',
          Forall₂ (fun f f' => f.1 = f'.1 ∧ Caller.SameType c c' f.2 f'.2) fields fields' →
          Caller.Alike c c' (.named name fields) (.named name fields')) := by
  constructor
  · intro scope e generics generics' agree memo
    exact congrFun (level_congr agree (scope.size + maxCalls + 1)) memo
  · intro c c' name owner definition found found'
    constructor
    · exact fun args args' same => Caller.call_alike found found' same
    · exact fun free free' fields fields' same => Caller.named_alike found found' free free' same

namespace Sample

/-- A function and a struct that use an alias. -/
def library : Scope :=
  [⟨"library", [("word", .alias (.string (.literal "a"))),
    ("either", .function [("p", .string .all)] (.union [.named "p" [], .named "word" []])),
    ("pack", .struct [("first", .string .all), ("second", .named "word" [])])]⟩]

/-- A place in the library itself, where nothing is remembered. -/
def stranger : Caller where
  scope := library
  generics := []
  memo := []
  chain := library
  part := suffix_refl library
  reached := .fresh

/-- The alias has been resolved. -/
theorem reached_word (frame : Frame) :
    Reached (frame :: library) [((1, "word"), .resolved word)] := by
  have resolved : level 2 ⟨library, []⟩ (.named "word" []) [] =
      (.ok word, [((1, "word"), .resolved word)]) := rfl
  exact .call .fresh (suffix_cons frame library) resolved (by simp)

/-- A place where the names of the library mean other things, and the alias is remembered. -/
def neighbour : Caller where
  scope := ⟨"room", [("word", .variable .any)]⟩ :: library
  generics := [("word", .never), ("p", .never), ("x", .string (.literal "b"))]
  memo := [((1, "word"), .resolved word)]
  chain := ⟨"room", [("word", .variable .any)]⟩ :: library
  part := suffix_refl _
  reached := reached_word _

/-- The generic parameter of the neighbour has the type that the stranger writes out. -/
theorem sameType_x : Caller.SameType neighbour stranger (.named "x" []) (.string (.literal "b")) :=
  ⟨.string (.literal "b"), ⟨1, rfl⟩, ⟨1, rfl⟩⟩

theorem agreeOn_either : AgreeOn (.call "either" [.named "x" []]) neighbour.generics
    [("x", .string (.literal "b"))] := by
  intro name fields part
  simp only [Expr.parts, Expr.partsOfItems, Expr.partsOfFields, append_nil, mem_cons,
    reduceCtorEq, Expr.named.injEq, not_mem_nil, or_false, false_or] at part
  obtain ⟨rfl, -⟩ := part
  rfl

end Sample

open Sample

theorem lexically_scoped_library :
    neighbour.scope.evaluateWith neighbour.generics (.call "either" [.named "x" []]) =
      neighbour.scope.evaluateWith [("x", .string (.literal "b"))]
        (.call "either" [.named "x" []]) ∧
    stranger.Answers (.call "either" [.string (.literal "b")])
      (.ok (.union [word, .string (.literal "b")])) ∧
    stranger.Answers (.named "pack" [("first", .string (.literal "b"))])
      (.ok (.struct "pack" [("first", .string (.literal "b")), ("second", word)])) := by
  obtain ⟨generics, places⟩ := lexically_scoped
  have called : neighbour.Answers (.call "either" [.named "x" []])
      (.ok (.union [word, .string (.literal "b")])) := ⟨3, rfl⟩
  have packed : neighbour.Answers (.named "pack" [("first", .named "x" [])])
      (.ok (.struct "pack" [("first", .string (.literal "b")), ("second", word)])) := ⟨3, rfl⟩
  have calls := (places neighbour stranger "either" library _ rfl rfl).1 [.named "x" []]
    [.string (.literal "b")] (.cons sameType_x .nil)
  have names := (places neighbour stranger "pack" library _ rfl rfl).2 rfl rfl
    [("first", .named "x" [])] [("first", .string (.literal "b"))]
    (.cons ⟨rfl, sameType_x⟩ .nil)
  refine ⟨funext fun memo => generics _ _ _ _ agreeOn_either memo, ?_, ?_⟩
  · exact (calls.1 _ (by simp)).mp called
  · exact (names.1 _ (by simp)).mp packed

end Eval

end TypeFlow
