import TypeFlow.Proofs.Algebra.Comparable
import TypeFlow.Proofs.Eval.Recall

/-!
# Parameters within their bounds

A builder is asked to add definitions and to set parameters, and may refuse. Setting a parameter
checks the value against the bound; adding one that has a value already does not. As long as such
values are parts of their bounds, one request keeps every parameter within its bound, and so does
any sequence of requests, granted or refused.
-/

namespace TypeFlow

open List

namespace Builder

/-- What a builder can be asked for. -/
inductive Request where
  /-- To add a definition. -/
  | add (name : String) (definition : Definition)
  /-- To set a parameter. -/
  | assign (name : String) (value : Ty)

/-- The name that a request is about. -/
def Request.name : Request → String
  | add name _ | assign name _ => name

/-- The builder that a request leads to, if it is granted. -/
def Request.perform (b : Builder) : Request → Run EvalError Builder
  | add name definition => Run.mapError .definition (Run.ofExcept (b.add name definition))
  | assign name value => Run.mapError .assignment (b.assign name value)

/-- The builder after a request, which may have been refused. -/
def after (b : Builder) (request : Request) : Builder :=
  match request.perform b with
  | .ok b' => b'
  | .error _ => b

/-- The builder after requests in order. -/
def afterAll (b : Builder) (requests : List Request) : Builder := requests.foldl after b

/-- A parameter that has a value when it is added has a part of its bound. -/
def Request.Fits : Request → Prop
  | add _ (.parameter bound (some value)) => value.subset bound = .ok true
  | _ => True

variable {b : Builder} {request : Request}

theorem perform_add_eq_ok_iff {name : String} {definition : Definition} {b' : Builder} :
    (Request.add name definition).perform b = .ok b' ↔ b.add name definition = .ok b' := by
  rw [Request.perform, Run.mapError_eq_ok_iff, Run.ofExcept_eq_ok_iff]

theorem perform_assign_eq_ok_iff {name : String} {value : Ty} {b' : Builder} :
    (Request.assign name value).perform b = .ok b' ↔ b.assign name value = .ok b' := by
  rw [Request.perform, Run.mapError_eq_ok_iff]

theorem after_of_refused {h : Halt EvalError} (refused : request.perform b = .error h) :
    b.after request = b := by
  rw [after, refused]

/-- A request changes nothing, adds a definition at the end, or sets a parameter to a part of its
bound. -/
theorem after_cases (b : Builder) (request : Request) :
    b.after request = b ∨
    (∃ name definition, request = .add name definition ∧ name ∉ b.entries.map (·.1) ∧
      b.after request = { b with entries := b.entries ++ [(name, definition)] }) ∨
    ∃ name value bound old, request = .assign name value ∧
      valueAt? name b.entries = some (.parameter bound old) ∧ value.subset bound = .ok true ∧
      b.after request =
        { b with entries := setEntry name (.parameter bound (some value)) b.entries } := by
  cases granted : request.perform b with
  | error h => exact .inl (after_of_refused granted)
  | ok b' =>
    have next : b.after request = b' := by rw [after, granted]
    rw [next]
    cases request with
    | add name definition =>
      obtain ⟨-, free, same⟩ := add_eq_ok_iff.mp (perform_add_eq_ok_iff.mp granted)
      exact .inr (.inl ⟨name, definition, rfl, free, same⟩)
    | assign name value =>
      obtain ⟨bound, old, found, inside, same⟩ :=
        assign_eq_ok_iff.mp (perform_assign_eq_ok_iff.mp granted)
      exact .inr (.inr ⟨name, value, bound, old, rfl, found, inside, same⟩)

/-- A request is about nothing but the definition that it names. -/
theorem local?_after_of_ne {name : String} (other : name ≠ request.name) :
    (b.after request).build.local? name = b.build.local? name := by
  rcases after_cases b request with same | ⟨own, definition, rfl, -, same⟩ |
    ⟨own, value, bound, old, rfl, -, -, same⟩
  · rw [same]
  · have apart : own ≠ name := Ne.symm other
    rw [same]
    show valueAt? name (b.entries ++ [(own, definition)]) = valueAt? name b.entries
    rw [valueAt?_concat, if_neg apart, Option.or_none]
  · have apart : own ≠ name := Ne.symm other
    rw [same]
    exact valueAt?_setEntry_of_ne apart _ b.entries

/-- What is refused may be left out: the requests that are granted are granted without the others
and lead to the same builder. -/
theorem exists_granted (b : Builder) (requests : List Request) :
    ∃ granted : List Request, granted.Sublist requests ∧
      granted.foldlM Request.perform b = .ok (b.afterAll requests) := by
  induction requests generalizing b with
  | nil => exact ⟨[], .slnil, rfl⟩
  | cons request rest ih =>
    obtain ⟨granted, sublist, lead⟩ := ih (b.after request)
    have onwards : b.afterAll (request :: rest) = (b.after request).afterAll rest := rfl
    rw [onwards]
    cases outcome : request.perform b with
    | error h =>
      refine ⟨granted, sublist.cons request, ?_⟩
      rw [after_of_refused outcome] at lead ⊢
      exact lead
    | ok b' =>
      have next : b.after request = b' := by rw [after, outcome]
      refine ⟨request :: granted, sublist.cons_cons request, ?_⟩
      rw [next] at lead ⊢
      rw [foldlM_cons, outcome]
      exact lead

/-- A parameter was declared by one of the requests, and its value is a part of the bound. -/
structure Declared (requests : List Request) (name : String) (bound : Ty) (value : Option Ty) :
    Prop where
  request : ∃ first, Request.add name (.parameter bound first) ∈ requests
  inside : ∀ t, value = some t → t.subset bound = .ok true

/-- All parameters of the builder were declared by the requests. -/
def Follows (requests : List Request) (b : Builder) : Prop :=
  ∀ name bound value, valueAt? name b.entries = some (.parameter bound value) →
    Declared requests name bound value

theorem Declared.mono {requests requests' : List Request} (more : requests ⊆ requests')
    {name : String} {bound : Ty} {value : Option Ty}
    (declared : Declared requests name bound value) : Declared requests' name bound value :=
  ⟨declared.request.imp fun _ mem => more mem, declared.inside⟩

/-- After one more request that fits, all parameters were declared by the requests. -/
theorem Follows.after {requests : List Request} (follows : Follows requests b)
    (fits : request.Fits) : Follows (requests ++ [request]) (b.after request) := by
  have before (name : String) (bound : Ty) (value : Option Ty)
      (found : valueAt? name b.entries = some (.parameter bound value)) :
      Declared (requests ++ [request]) name bound value :=
    (follows name bound value found).mono (subset_append_left _ _)
  rcases after_cases b request with same | ⟨name, definition, rfl, free, same⟩ |
    ⟨name, value, bound, old, rfl, known, inside, same⟩
  · rw [same]
    exact before
  · rw [same]
    intro other bound value found
    rw [valueAt?_concat, Option.or_eq_some_iff] at found
    rcases found with old | ⟨-, here⟩
    · exact before other bound value old
    · obtain ⟨rfl, added⟩ := Option.ite_none_right_eq_some.mp here
      obtain rfl := Option.some.inj added
      refine ⟨⟨value, by simp⟩, fun t own => ?_⟩
      subst own
      exact fits
  · rw [same]
    intro other bound' value' found
    by_cases own : name = other
    · subst own
      rw [valueAt?_setEntry_self] at found
      obtain ⟨rfl, rfl⟩ := Definition.parameter.inj (Option.some.inj found)
      refine ⟨(before name bound old known).request, fun t here => ?_⟩
      rw [← Option.some.inj here]
      exact inside
    · rw [valueAt?_setEntry_of_ne own] at found
      exact before other bound' value' found

theorem follows_new (name : String) (outer : Scope) : Follows [] (new name outer) :=
  fun _ _ _ found => by cases found

/-- After any requests that fit, all parameters were declared by them. -/
theorem Follows.afterAll {sofar requests : List Request} (follows : Follows sofar b)
    (fit : ∀ r ∈ requests, r.Fits) : Follows (sofar ++ requests) (b.afterAll requests) := by
  induction requests generalizing b sofar with
  | nil => simpa [Builder.afterAll] using follows
  | cons request rest ih =>
    obtain ⟨fits, fitRest⟩ := forall_mem_cons.mp fit
    rw [append_cons]
    exact ih (follows.after fits) fitRest

theorem afterAll_outer (requests : List Request) : (b.afterAll requests).outer = b.outer := by
  induction requests generalizing b with
  | nil => rfl
  | cons request rest ih =>
    have step : (b.after request).outer = b.outer := by
      rcases after_cases b request with same | ⟨_, _, _, _, same⟩ | ⟨_, _, _, _, _, _, _, same⟩ <;>
        rw [same]
    exact ih.trans step

end Builder

open Builder

namespace Scope

/-- Scopes of frames that come about by requests that fit, one inside the other. -/
inductive Assembled : Scope → Prop
  | outermost : Assembled []
  | frame {outer : Scope} (around : Assembled outer) (name : String) {requests : List Request}
      (fit : ∀ r ∈ requests, r.Fits) : Assembled ((Builder.new name outer).afterAll requests).build

variable {scope owner : Scope} {name : String} {bound : Ty} {value : Option Ty}

theorem Assembled.inside (assembled : Assembled scope)
    (found : scope.lookup name = some (owner, .parameter bound value)) {t : Ty}
    (own : value = some t) : t.subset bound = .ok true := by
  induction assembled with
  | outermost => cases found
  | @frame outer around level requests fit ih =>
    have follows := (follows_new level outer).afterAll fit
    cases here : valueAt? name ((Builder.new level outer).afterAll requests).entries with
    | some d =>
      simp only [build, lookup, Frame.get?, here, Option.some.injEq, Prod.mk.injEq] at found
      obtain ⟨-, rfl⟩ := found
      exact (follows name bound value here).inside t own
    | none =>
      simp only [build, lookup, Frame.get?, here, afterAll_outer] at found
      exact ih found

theorem evaluateWith_parameter (found : scope.lookup name = some (owner, .parameter bound value))
    (memo : Memo) :
    scope.evaluateWith [] (.named name []) memo = (.ok (value.getD bound), memo) := by
  have resolved : scope.resolve name = .ok (owner, .parameter bound value) := by
    rw [resolve, found]
  rw [Eval.evaluateWith_eq_expr, Eval.expr]
  simp only [valueAt?, resolved]
  rfl

/-- In a scope that comes about by any requests, granted or refused, a name that means a parameter
has a type within the bound of the parameter, if values that come with their definitions have. The
bound is the one that the parameter was declared with. A request that is refused changes nothing,
none changes a definition that it does not name, and what was granted leads to the scope by itself.
A bound that is the type of its parameter itself is one that the algebra makes, with doubles for
its numbers. -/
theorem parameters_within_bounds {outer : Scope} (around : outer.Assembled) (level : String)
    {requests : List Request} (fit : ∀ r ∈ requests, r.Fits) :
    let b := (Builder.new level outer).afterAll requests
    (∀ name owner bound value, b.build.lookup name = some (owner, .parameter bound value) →
      (value = none → bound.Comparable ∧ bound.Held) → ∀ memo,
        ∃ t, b.build.evaluateWith [] (.named name []) memo = (.ok t, memo) ∧
          t.subset bound = .ok true) ∧
    (∀ name bound value, b.build.local? name = some (.parameter bound value) →
      ∃ first, Request.add name (.parameter bound first) ∈ requests) ∧
    (∀ request, (∀ h, request.perform b = .error h → b.after request = b) ∧
      ∀ name, name ≠ request.name → (b.after request).build.local? name = b.build.local? name) ∧
    ∃ granted : List Request, granted.Sublist requests ∧
      granted.foldlM Request.perform (Builder.new level outer) = .ok b := by
  intro b
  refine ⟨fun name owner bound value found made memo => ?_, fun name bound value found => ?_,
    fun request => ⟨fun h refused => after_of_refused refused, fun name => local?_after_of_ne⟩,
    exists_granted _ requests⟩
  · refine ⟨value.getD bound, evaluateWith_parameter found memo, ?_⟩
    cases own : value with
    | none => exact Ty.subset_self (made own).1 (made own).2
    | some t => exact (Assembled.frame around level fit).inside found own
  · exact (((follows_new level outer).afterAll fit) name bound value found).request

namespace Sample

/-- Digits, or a word for no size at all. -/
def extent : Ty := .union [.number (.ints 0 9), .text "auto"]

/-- A parameter that is not set. -/
def page : List Request := [.add "depth" (.parameter extent none), .assign "depth" .any]

/-- Requests of all kinds, more than half of which are refused. -/
def column : List Request :=
  [.add "width" (.parameter extent none), .assign "width" (.literal 3), .assign "width" .numbers,
    .add "width" (.parameter .any none), .add "max height" (.parameter extent none),
    .assign "depth" (.literal 4), .add "height" (.parameter extent (some (.text "auto")))]

/-- What comes of them. -/
def columns : Scope :=
  [⟨"column", [("width", .parameter extent (some (.literal 3))),
      ("height", .parameter extent (some (.text "auto")))]⟩,
    ⟨"page", [("depth", .parameter extent none)]⟩]

end Sample

open Sample

theorem parameters_within_bounds_columns :
    let b := (Builder.new "column" ((Builder.new "page" []).afterAll page).build).afterAll column
    (∀ r ∈ page ++ column, r.Fits) ∧ extent.Comparable ∧ extent.Held ∧ b.build = columns ∧
    (∃ t, columns.evaluateWith [] (.named "width" []) [] = (.ok t, []) ∧
      t.subset extent = .ok true) ∧
    (∃ t, columns.evaluateWith [] (.named "depth" []) [] = (.ok t, []) ∧
      t.subset extent = .ok true) ∧
    b.after (.assign "width" .numbers) = b ∧
    (b.after (.assign "width" .any)).build.local? "height" = b.build.local? "height" ∧
    ∃ granted : List Request, granted.Sublist column ∧ granted.foldlM Request.perform
      (Builder.new "column" ((Builder.new "page" []).afterAll page).build) = .ok b := by
  intro b
  have fit : ∀ r ∈ page ++ column, r.Fits := by
    simp only [page, column, cons_append, nil_append, forall_mem_cons, Request.Fits]
    exact ⟨trivial, trivial, trivial, trivial, trivial, trivial, trivial, trivial, rfl, by simp⟩
  have around : ((Builder.new "page" []).afterAll page).build.Assembled :=
    .frame .outermost "page" fun r mem => fit r (mem_append_left _ mem)
  have united : Ty.unionOf [.number (.ints 0 9), .text "auto"] = .ok extent := rfl
  have comparable : extent.Comparable := Ty.comparable_unionOf (by simp [Ty.text]) united
  have held : extent.Held := by decide +kernel
  have built : b.build = columns := rfl
  obtain ⟨inside, -, step, granted⟩ := parameters_within_bounds around "column"
    fun r mem => fit r (mem_append_right _ mem)
  change ∀ name owner bound value, b.build.lookup name = _ → _ at inside
  rw [built] at inside
  exact ⟨fit, comparable, held, built, inside "width" _ _ _ rfl (by simp) [],
    inside "depth" _ _ _ rfl (fun _ => ⟨comparable, held⟩) [], (step _).1 _ rfl,
    (step _).2 "height" (by decide), granted⟩

/-- A value that comes with the definition of a parameter need not be a part of the bound. -/
theorem parameter_outside_bound :
    let b := (Builder.new "sizes" []).afterAll [.add "width" (.parameter .numbers (some .strings))]
    b.build.local? "width" = some (.parameter .numbers (some .strings)) ∧
    b.build.evaluateWith [] (.named "width" []) [] = (.ok .strings, []) ∧
    Ty.strings.subset .numbers = .ok false :=
  ⟨rfl, rfl, rfl⟩

end Scope

end TypeFlow
