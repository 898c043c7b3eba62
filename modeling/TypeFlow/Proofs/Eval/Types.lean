import TypeFlow.Proofs.Eval.Lexical
import TypeFlow.Proofs.Eval.Recall

/-!
# Types as expressions

A type written as an expression evaluates to itself again where the scope knows its structs. A
struct becomes a name with an assignment for every field, which replaces what the definition says
about the field. A union comes back if it is in the form that the union of types has.
-/

namespace TypeFlow

open List

namespace Ty

/-- The union of its members gives the type back. -/
def Stable (t : Ty) : Prop := unionOf t.members = .ok t

instance (t : Ty) : Decidable t.Stable :=
  decidable_of_iff ((unionOf t.members).toOption = some t)
    ⟨eq_ok_of_toOption, fun same => congrArg Except.toOption same⟩

/-- The types of the fields are stable. -/
def StableFields : Ty → Prop
  | struct _ fields => ∀ f ∈ fields, f.2.Stable
  | _ => True

instance (t : Ty) : Decidable t.StableFields := by
  rcases t <;> dsimp only [StableFields] <;> infer_instance

/-- The type is stable, and so are the types of all fields inside it. -/
def StableThroughout (t : Ty) : Prop := t.Stable ∧ t.Everywhere StableFields
deriving Decidable

end Ty

namespace Scope

/-- The name is that of a struct with these fields in order, and each type is part of the type
that the field has by its definition. -/
def Declares (scope : Scope) (name : String) (fields : List (String × Ty)) : Prop :=
  ∃ owner declared skeleton, scope.lookup name = some (owner, .struct declared) ∧
    fields.map (·.1) = declared.map (·.1) ∧
    scope.evaluate [] (.named name []) = .ok (.struct name skeleton) ∧
    Forall₂ (fun f g => f.1 = g.1 ∧ f.2.subset g.2 = .ok true) fields skeleton

end Scope

namespace Ty

/-- A struct type is declared in the scope. -/
def DeclaredHere (scope : Scope) : Ty → Prop
  | struct name fields => scope.Declares name fields
  | _ => True

/-- Every struct in the type is declared in the scope. -/
def DeclaredIn (t : Ty) (scope : Scope) : Prop := t.Everywhere (DeclaredHere scope)

end Ty

theorem Record.field?_eq (r : Record) (name : String) : r.field? name = valueAt? name r.fields := by
  unfold Record.field?
  induction r.fields with
  | nil => rfl
  | cons f rest ih => by_cases same : f.1 = name <;> simp [valueAt?, same, ih]

theorem Record.build_of_proper {name : String} {fields : List (String × Ty)}
    (proper : ∀ f ∈ fields, f.2 ≠ .never) : Record.build name fields = .struct name fields := by
  rcases Record.build_cases name fields with ⟨-, f, mem, empty⟩ | ⟨same, -⟩
  · exact absurd empty (proper f mem)
  · exact same

namespace Eval

open TypeFlow.Expr

section Evaluation

variable {chain scope : Scope} {n : Nat}

/-- After any calls, evaluation comes to the type. -/
def ComesTo (chain scope : Scope) (n : Nat) (e : Expr) (t : Ty) : Prop :=
  ∀ memo, Reached chain memo →
    ∃ memo', expr (levelReach n) ⟨scope, []⟩ e memo = (.ok t, memo') ∧ Reached chain memo'

theorem comesTo_pure {e : Expr} {t : Ty}
    (constant : expr (levelReach n) ⟨scope, []⟩ e = pure t) : ComesTo chain scope n e t :=
  fun memo reached => ⟨memo, by rw [constant]; rfl, reached⟩

theorem exprs_ofItems {items : List Ty} (each : ∀ t ∈ items, ComesTo chain scope n (ofTy t) t)
    {memo : Memo} (reached : Reached chain memo) :
    ∃ memo', exprs (levelReach n) ⟨scope, []⟩ (ofItems items) memo = (.ok items, memo') ∧
      Reached chain memo' := by
  induction items generalizing memo with
  | nil => exact ⟨memo, rfl, reached⟩
  | cons t rest ih =>
    obtain ⟨head, tail⟩ := forall_mem_cons.mp each
    obtain ⟨memo₁, first, reached₁⟩ := head memo reached
    obtain ⟨memo₂, later, reached₂⟩ := ih tail reached₁
    refine ⟨memo₂, ?_, reached₂⟩
    rw [ofItems, exprs, bind_of_ok first, bind_of_ok later]
    rfl

theorem comesTo_union {items : List Ty} (stable : (Ty.union items).Stable)
    (each : ∀ t ∈ items, ComesTo chain scope n (ofTy t) t) :
    ComesTo chain scope n (ofTy (.union items)) (.union items) := by
  intro memo reached
  obtain ⟨memo', ran, reached'⟩ := exprs_ofItems each reached
  refine ⟨memo', ?_, reached'⟩
  have merged : Ty.unionOf items = .ok (.union items) := stable
  rw [ofTy, expr, bind_of_ok ran, merged]
  rfl

/-- Assignments of the expressions of types, in the order of the fields, come to these types. The
fields before are done, and those that are left still have their declared types. -/
theorem assignments_ofFields {name : String} {skeleton : List (String × Ty)}
    (distinct : (skeleton.map (·.1)).Nodup) {rest declared : List (String × Ty)}
    (fit : Forall₂ (fun f g => f.1 = g.1 ∧ f.2.subset g.2 = .ok true) rest declared)
    (part : declared ⊆ skeleton) (done : List (String × Ty))
    (nodup : ((done ++ declared).map (·.1)).Nodup) (seen : List String)
    (before : seen ⊆ done.map (·.1))
    (each : ∀ f ∈ rest, ComesTo chain scope n (ofTy f.2) f.2) {memo : Memo}
    (reached : Reached chain memo) :
    ∃ memo', assignments (levelReach n) ⟨scope, []⟩ ⟨name, skeleton⟩ seen (done ++ declared)
      (ofFields rest) memo = (.ok (done ++ rest), memo') ∧ Reached chain memo' := by
  induction fit generalizing done seen memo with
  | nil => exact ⟨memo, rfl, reached⟩
  | @cons f g rest declared here later ih =>
    obtain ⟨field, value⟩ := f
    obtain ⟨field', type⟩ := g
    obtain ⟨rfl, inside⟩ := here
    have found : (Record.mk name skeleton).field? field = some type := by
      rw [Record.field?_eq]
      exact valueAt?_of_mem distinct (part mem_cons_self)
    have fresh : field ∉ done.map (·.1) := by
      rw [map_append, map_cons] at nodup
      intro mem
      exact disjoint_of_nodup_append nodup mem mem_cons_self
    have unseen : field ∉ seen := fun mem => fresh (before mem)
    obtain ⟨head, tail⟩ := forall_mem_cons.mp each
    obtain ⟨memo₁, ran, reached₁⟩ := head memo reached
    have nodup' : ((done ++ [(field, value)] ++ declared).map (·.1)).Nodup := by
      simpa using nodup
    have before' : field :: seen ⊆ (done ++ [(field, value)]).map (·.1) := by
      intro other mem
      rcases mem_cons.mp mem with rfl | mem
      · simp
      · rw [map_append]
        exact mem_append_left _ (before mem)
    obtain ⟨memo₂, rest', reached₂⟩ :=
      ih (subset_of_cons_subset part) _ nodup' _ before' tail reached₁
    refine ⟨memo₂, ?_, reached₂⟩
    have accepted : EvalM.checked (value.subset type) memo₁ = (.ok true, memo₁) := by
      rw [inside]
      rfl
    rw [ofFields, assignments, found]
    simp only [unseen, if_false]
    rw [bind_of_ok ran, bind_of_ok accepted, setEntry_append_cons fresh]
    simpa using rest'

section Naming

/-- The type of a struct, or an empty one, after assignments. -/
def narrowed (reach : Reach) (context : Context) (fields : List (String × Expr)) : Ty → EvalM Ty
  | .struct name types => do
    return Record.build name (← assignments reach context ⟨name, types⟩ [] types fields)
  | t => return t

variable {reach : Reach} {context : Context} {owner : Scope} {name : String}
  {declared : List (String × Expr)}
  (found : context.scope.lookup name = some (owner, .struct declared))
  (free : valueAt? name context.generics = none)
include found free

/-- What a name that means a struct comes to: the declared fields with assignments. -/
theorem named_struct_eq (fields : List (String × Expr)) (memo : Memo) :
    expr reach context (.named name fields) memo =
      (reach.resolve (owner.length, name) (skeleton reach owner name declared) >>=
        narrowed reach context fields) memo := by
  rw [expr, free]
  simp only
  rw [bind_of_ok (resolve_eq found memo)]
  rfl

/-- If a struct has a type without assignments, its definition resolves to that type. -/
theorem skeleton_of_named {memo memo' : Memo} {types : List (String × Ty)}
    (ran : expr reach context (.named name []) memo = (.ok (.struct name types), memo')) :
    reach.resolve (owner.length, name) (skeleton reach owner name declared) memo =
      (.ok (.struct name types), memo') := by
  rw [named_struct_eq found free] at ran
  obtain ⟨t, memo₁, resolved, same⟩ := bind_eq_ok (congrArg Prod.fst ran)
  rw [same] at ran
  cases t with
  | struct name' types' =>
    obtain ⟨same, rfl⟩ := Prod.mk.inj ran
    rcases Record.build_cases name' types' with ⟨empty, -⟩ | ⟨built, -⟩
    · rw [empty] at same
      cases same
    · rw [built] at same
      cases same
      exact resolved
  | _ => cases (Prod.mk.inj ran).1

end Naming

theorem comesTo_struct (part : scope <:+ chain) (built : scope.Built) {name : String}
    {owner : Scope} {declared : List (String × Expr)}
    (found : scope.lookup name = some (owner, .struct declared))
    {fields skeleton : List (String × Ty)} (names : fields.map (·.1) = declared.map (·.1))
    (evaluated : (level (n + 1) ⟨scope, []⟩ (.named name []) []).1 = .ok (.struct name skeleton))
    (fit : Forall₂ (fun f g => f.1 = g.1 ∧ f.2.subset g.2 = .ok true) fields skeleton)
    (proper : ∀ f ∈ fields, f.2 ≠ .never)
    (each : ∀ f ∈ fields, ComesTo chain scope n (ofTy f.2) f.2) :
    ComesTo chain scope n (ofTy (.struct name fields)) (.struct name fields) := by
  intro memo reached
  -- After any calls the definition resolves to what it does at first.
  have answer := reached.level_eq part (by rw [evaluated]; simp)
  rw [evaluated] at answer
  cases outcome : level (n + 1) ⟨scope, []⟩ (.named name []) memo with
  | mk answer₁ memo₁ =>
    rw [outcome] at answer
    obtain rfl : answer₁ = .ok (.struct name skeleton) := answer
    have reached₁ : Reached chain memo₁ := reached.call part outcome (by simp)
    rw [level_succ] at outcome
    have distinct : (skeleton.map (·.1)).Nodup := by
      have same : fields.map (·.1) = skeleton.map (·.1) :=
        keys_eq_of_forall₂ fit fun _ _ both => both.1
      rw [← same, names]
      exact (built.acceptable found).2
    obtain ⟨memo₂, assigned, reached₂⟩ := assignments_ofFields distinct fit
      (List.Subset.refl skeleton) [] distinct [] (nil_subset _) each reached₁
    refine ⟨memo₂, ?_, reached₂⟩
    rw [ofTy, named_struct_eq found rfl, bind_of_ok (skeleton_of_named found rfl outcome)]
    exact (bind_of_ok assigned).trans (by rw [nil_append, Record.build_of_proper proper]; rfl)

/-- A type comes back from its expression if the scope declares its structs and the unions in it
are stable, which is asked of the type itself unless it is a member of a union. -/
theorem comesTo_ofTy (part : scope <:+ chain) (built : scope.Built) {t : Ty}
    (wellFormed : t.WellFormed) (declared : t.DeclaredIn scope)
    (stable : t.Everywhere Ty.StableFields) (whole : t.isValue = true ∨ t.Stable) :
    ComesTo chain scope (scope.size + maxCalls) (ofTy t) t := by
  induction t using Ty.induction with
  | never => exact comesTo_pure rfl
  | any => exact comesTo_pure rfl
  | number m => exact comesTo_pure rfl
  | string s => exact comesTo_pure rfl
  | struct name fields ih =>
    obtain ⟨proper, wellFormedEach⟩ := Ty.everywhere_struct.mp wellFormed
    obtain ⟨⟨owner, entries, skeleton, found, names, evaluated, fit⟩, declaredEach⟩ :=
      Ty.everywhere_struct.mp declared
    obtain ⟨stableHere, stableEach⟩ := Ty.everywhere_struct.mp stable
    rw [Scope.evaluate_eq, Scope.evaluateWith] at evaluated
    refine comesTo_struct part built found names evaluated fit proper fun f mem => ?_
    exact ih f mem (wellFormedEach f mem) (declaredEach f mem) (stableEach f mem)
      (.inr (stableHere f mem))
  | union items ih =>
    obtain ⟨⟨-, values, -⟩, wellFormedEach⟩ := Ty.everywhere_union.mp wellFormed
    obtain ⟨-, declaredEach⟩ := Ty.everywhere_union.mp declared
    obtain ⟨-, stableEach⟩ := Ty.everywhere_union.mp stable
    refine comesTo_union (whole.resolve_left (by simp [Ty.isValue, Ty.kind?])) fun t mem => ?_
    exact ih t mem (wellFormedEach t mem) (declaredEach t mem) (stableEach t mem)
      (.inl (values t mem))

end Evaluation

end Eval

namespace Expr

theorem textFields_ofFields {fields : List (String × Ty)}
    (each : ∀ f ∈ fields, (ofTy f.2).text = f.2.id) :
    textFields (ofFields fields) = Ty.idFields fields := by
  induction fields with
  | nil => rfl
  | cons f rest ih =>
    obtain ⟨head, tail⟩ := forall_mem_cons.mp each
    rw [ofFields, textFields, Ty.idFields, head, ih tail]

/-- Members of a union need no parentheses. -/
theorem textOperands_ofItems {items : List Ty} (values : ∀ t ∈ items, t.isValue = true)
    (each : ∀ t ∈ items, (ofTy t).text = t.id) :
    textOperands (ofItems items) = Ty.idItems items := by
  induction items with
  | nil => rfl
  | cons t rest ih =>
    obtain ⟨head, tail⟩ := forall_mem_cons.mp each
    obtain ⟨value, others⟩ := forall_mem_cons.mp values
    have simple : (ofTy t).isCompound = false := by
      cases t with
      | union items => cases value
      | _ => rfl
    rw [ofItems, textOperands, Ty.idItems, simple, head, ih others tail]
    rfl

theorem text_ofTy {t : Ty} (wellFormed : t.WellFormed) : (ofTy t).text = t.id := by
  induction t using Ty.induction with
  | never => rfl
  | any => rfl
  | number m => rfl
  | string s => rfl
  | struct name fields ih =>
    obtain ⟨-, each⟩ := Ty.everywhere_struct.mp wellFormed
    have texts := textFields_ofFields fun f mem => ih f mem (each f mem)
    cases fields with
    | nil => simp [ofTy, ofFields, text, Ty.id, Ty.idFields, Ty.fieldList]
    | cons f rest =>
      rw [ofFields] at texts
      rw [ofTy, ofFields, text, texts, Ty.id, Ty.idFields, Ty.fieldList]
      · simp only [String.append_assoc]
      · simp
  | union items ih =>
    obtain ⟨⟨several, values, -⟩, each⟩ := Ty.everywhere_union.mp wellFormed
    have texts := textOperands_ofItems values fun t mem => ih t mem (each t mem)
    cases items with
    | nil => cases several
    | cons t rest =>
      rw [ofItems] at texts
      rw [ofTy, ofItems, text, texts, Ty.id]

/-- A type as an expression has the id of the type for a text, and evaluates to the type again,
also after other calls, in every scope that declares the structs in the type with its fields, if
the type and the types of all fields in it are stable. -/
theorem ofTy_faithful {t : Ty} (wellFormed : t.WellFormed) :
    (ofTy t).text = t.id ∧
      ∀ scope : Scope, scope.Built → t.DeclaredIn scope → t.StableThroughout →
        scope.evaluate [] (ofTy t) = .ok t ∧
        ∀ chain memo, scope <:+ chain → Eval.Reached chain memo →
          (scope.evaluateWith [] (ofTy t) memo).1 = .ok t := by
  refine ⟨text_ofTy wellFormed, fun scope built declared stable => ?_⟩
  have after (chain : Scope) (memo : Memo) (part : scope <:+ chain)
      (reached : Eval.Reached chain memo) : (scope.evaluateWith [] (ofTy t) memo).1 = .ok t := by
    obtain ⟨memo', ran, -⟩ :=
      Eval.comesTo_ofTy part built wellFormed declared stable.2 (.inr stable.1) memo reached
    rw [Scope.evaluateWith, Eval.level_succ, ran]
  refine ⟨?_, after⟩
  rw [Scope.evaluate_eq]
  exact after scope [] (suffix_refl scope) .fresh

namespace Sample

/-- Points with a mark, and boxes that may have one inside. -/
def shapes : List (String × Definition) :=
  [("box", .struct [("content", .union [.named "null" [], .named "point" []])]),
    ("point", .struct [("x", .number (.ints (.fin 0) (.fin 9))), ("mark", .named "bool" [])])]

/-- The scope with these structs on top of the prelude. -/
def drawing : Scope := ⟨"shapes", shapes⟩ :: Prelude.scope

def truth (name : String) : Ty := .struct name []

/-- Points at a place, with a mark of some kind. -/
def point (x : NumberTy) (mark : Ty) : Ty := .struct "point" [("x", .number x), ("mark", mark)]

def box (content : Ty) : Ty := .struct "box" [("content", content)]

/-- A text, or a box that has one of two points or nothing inside. -/
def boxed : Ty :=
  .union [.string .all, box (.union [Prelude.null, point (.literal (.fin 3)) (truth "false"),
    point (.ints (.fin 5) (.fin 7)) (truth "true")])]

theorem declaredIn_point {x : NumberTy} {mark : String}
    (within : (Ty.number x).subset (.number (.ints (.fin 0) (.fin 9))) = .ok true)
    (known : (truth mark).subset (.union [truth "false", truth "true"]) = .ok true)
    (declared : drawing.Declares mark []) : (point x (truth mark)).DeclaredIn drawing := by
  have here : drawing.Declares "point" [("x", .number x), ("mark", truth mark)] :=
    ⟨drawing, _, _, rfl, rfl, rfl, .cons ⟨rfl, within⟩ (.cons ⟨rfl, known⟩ .nil)⟩
  refine Ty.everywhere_struct.mpr ⟨here, ?_⟩
  simp only [forall_mem_cons]
  exact ⟨Ty.everywhere_number.mpr trivial, Ty.everywhere_struct.mpr ⟨declared, by simp⟩, by simp⟩

theorem declaredIn_boxed : boxed.DeclaredIn drawing := by
  have empty : ∀ name ∈ ["null", "false", "true"], drawing.Declares name [] := by
    simp only [forall_mem_cons]
    exact ⟨⟨_, _, _, rfl, rfl, rfl, .nil⟩, ⟨_, _, _, rfl, rfl, rfl, .nil⟩,
      ⟨_, _, _, rfl, rfl, rfl, .nil⟩, by simp⟩
  have inside : ∀ s ∈ [Prelude.null, point (.literal (.fin 3)) (truth "false"),
      point (.ints (.fin 5) (.fin 7)) (truth "true")], s.DeclaredIn drawing := by
    simp only [forall_mem_cons]
    refine ⟨?_, ?_, ?_, by simp⟩
    · exact Ty.everywhere_struct.mpr ⟨empty Prelude.nullName (by decide), by simp⟩
    · exact declaredIn_point rfl rfl (empty _ (by simp))
    · exact declaredIn_point rfl rfl (empty _ (by simp))
  refine Ty.everywhere_union.mpr ⟨trivial, ?_⟩
  simp only [forall_mem_cons]
  refine ⟨Ty.everywhere_string.mpr trivial, ?_, by simp⟩
  refine Ty.everywhere_struct.mpr ⟨⟨drawing, _, _, rfl, rfl, rfl, .cons ⟨rfl, rfl⟩ .nil⟩, ?_⟩
  simp only [forall_mem_cons]
  exact ⟨Ty.everywhere_union.mpr ⟨trivial, inside⟩, by simp⟩

end Sample

open Sample

theorem ofTy_faithful_boxed : boxed.WellFormed ∧ drawing.Built ∧ boxed.DeclaredIn drawing ∧
    boxed.StableThroughout ∧ (ofTy boxed).text = boxed.id ∧
      drawing.evaluate [] (ofTy boxed) = .ok boxed := by
  have wellFormed : boxed.WellFormed := by decide
  have built : drawing.Built := Scope.built_cons.mpr ⟨Prelude.built, by decide⟩
  have stable : boxed.StableThroughout := by decide +kernel
  obtain ⟨same, back⟩ := ofTy_faithful wellFormed
  exact ⟨wellFormed, built, declaredIn_boxed, stable, same,
    (back _ built declaredIn_boxed stable).1⟩

end Expr

end TypeFlow
