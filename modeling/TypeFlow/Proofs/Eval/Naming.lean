import TypeFlow.Proofs.Algebra.Comparable
import TypeFlow.Proofs.Eval.Types
import TypeFlow.Proofs.Eval.Unfolding

/-!
# Structs with assignments

A struct that is named with assignments is part of the struct that is named without them. Fields
that nothing is assigned to are compared with themselves. That such a comparison succeeds is known
of types that the algebra makes, and evaluation gives no others.
-/

namespace TypeFlow

open List Ty

/-- Types that the algebra makes. Their comparison may clash. -/
def Kept.comparable : Kept where
  Holds := Comparable
  Names _ _ := True
  clashes := True
  never := comparable_never
  any := comparable_any
  number _ := comparable_number
  string _ := comparable_string
  numbers := comparable_ofNumbers
  struct := by simp only [comparable_struct, true_and, implies_true]
  member comparable mem := comparable.of_mem_members mem
  union each := .of_eq_ok trivial fun _ made => comparable_unionOf each made
  intersection each := .of_eq_ok trivial fun _ made => comparable_intersectionOf each made
  without left right := .of_eq_ok trivial fun _ made => comparable_without left right made
  subset _ _ := .of_eq_ok trivial fun _ _ => trivial

namespace Eval

theorem Keeps.afresh {kept : Kept} {x : EvalM Ty} (keeps : Keeps kept kept.Holds x)
    (key : EntryKey) : Keeps kept kept.Holds (afresh key x) := by
  intro memo keptMemo
  refine ⟨?_, by rwa [afresh_snd]⟩
  unfold Eval.afresh
  cases known : valueAt? key memo with
  | some cell =>
    cases cell with
    | resolved t => exact .ok (keptMemo key t known)
    | resolving => exact .error _
  | none => exact (keeps _ (keptMemo.set key .resolving (by simp))).1

/-- Where definitions keep a property, a type that an expression has in their scope has it. -/
theorem holds_of_plain {kept : Kept} {scope : Scope} (frames : KeptFrames kept scope) {n : Nat}
    {e : Expr} {t : Ty} (answer : (plain n ⟨scope, []⟩ e []).1 = .ok t) : kept.Holds t := by
  have keeps : Keeps kept kept.Holds (plain n ⟨scope, []⟩ e) :=
    levelBy_keeps (fun key _ keeps => keeps.afresh key) n frames keptGenerics_nil e
  exact (keeps [] keptMemo_nil).1.of_eq_ok answer

section Results

variable {α β : Type} {memo : Memo}

theorem pure_ok_iff {a b : α} : ((pure a : EvalM α) memo).1 = .ok b ↔ b = a :=
  ⟨fun same => (Except.ok.inj same).symm, fun same => congrArg Except.ok same.symm⟩

theorem bind_ok_iff_of_restored {x : EvalM α} {f : α → EvalM β} (restored : (x memo).2 = memo)
    {b : β} : ((x >>= f) memo).1 = .ok b ↔ ∃ a, (x memo).1 = .ok a ∧ (f a memo).1 = .ok b := by
  rw [bind_of_restored restored]
  cases (x memo).1 with
  | ok a => simp
  | error h => simp

/-- The last step of a computation only puts its result into shape. -/
theorem bind_pure_ok_iff {x : EvalM α} {f : α → β} {b : β} :
    ((x >>= fun a => pure (f a)) memo).1 = .ok b ↔ ∃ a, (x memo).1 = .ok a ∧ b = f a := by
  rw [show (x >>= fun a => pure (f a)) = x >>= fun a => EvalM.lift (.ok (f a)) from rfl,
    fst_bind_lift, bind_eq_ok_iff]
  simp [eq_comm]

theorem mapM_ok_iff_of_restored {f : α → EvalM β} (restored : ∀ a, (f a memo).2 = memo)
    {items : List α} {results : List β} : (items.mapM f memo).1 = .ok results ↔
      Forall₂ (fun a b => (f a memo).1 = .ok b) items results := by
  induction items generalizing results with
  | nil =>
    rw [forall₂_nil_left_iff]
    exact pure_ok_iff
  | cons a rest ih =>
    rw [mapM_cons, bind_ok_iff_of_restored (restored a), forall₂_cons_left_iff]
    apply exists_congr
    intro b
    rw [bind_pure_ok_iff]
    simp only [ih]
    constructor
    · rintro ⟨first, bs, others, same⟩
      exact ⟨bs, first, others, same⟩
    · rintro ⟨bs, first, others, same⟩
      exact ⟨first, bs, others, same⟩

end Results

/-- The types that the expressions of declared fields have while some definitions are resolved. -/
def Declared (reach : Reach) (owner : Scope) (memo : Memo) :
    List (String × Expr) → List (String × Ty) → Prop :=
  Forall₂ fun d f => d.1 = f.1 ∧ (reach.enter owner d.2 memo).1 = .ok f.2

theorem skeleton_ok_iff {reach : Reach} {owner : Scope} {memo : Memo}
    (restored : ∀ e, (reach.enter owner e memo).2 = memo) {name : String}
    {declared : List (String × Expr)} {t : Ty} :
    (skeleton reach owner name declared memo).1 = .ok t ↔
      ∃ types, Declared reach owner memo declared types ∧ t = Record.build name types := by
  have answers (d : String × Expr) (f : String × Ty) :
      ((do return (d.1, ← reach.enter owner d.2) : EvalM (String × Ty)) memo).1 = .ok f ↔
        d.1 = f.1 ∧ (reach.enter owner d.2 memo).1 = .ok f.2 := by
    rw [bind_pure_ok_iff]
    constructor
    · rintro ⟨t, answer, rfl⟩
      exact ⟨rfl, answer⟩
    · rintro ⟨same, answer⟩
      exact ⟨f.2, answer, Prod.ext same.symm rfl⟩
  have restoredEach (d : String × Expr) :
      ((do return (d.1, ← reach.enter owner d.2) : EvalM (String × Ty)) memo).2 = memo := by
    rw [bind_of_restored (restored d.2)]
    cases (reach.enter owner d.2 memo).1 with
    | ok t => rfl
    | error h => rfl
  unfold skeleton
  rw [bind_pure_ok_iff]
  simp only [mapM_ok_iff_of_restored restoredEach, answers]
  rfl

/-- Fields with the types that are assigned to them. -/
def overwrite (values types : List (String × Ty)) : List (String × Ty) :=
  types.map fun f => (f.1, (valueAt? f.1 values).getD f.2)

section Overwrite

variable {values types : List (String × Ty)}

theorem overwrite_nil : overwrite [] types = types := map_id types

theorem keys_overwrite : (overwrite values types).map (·.1) = types.map (·.1) := by
  rw [overwrite, map_map]
  rfl

/-- The first type may be assigned before the others. -/
theorem overwrite_cons {field : String} {value : Ty} (distinct : (types.map (·.1)).Nodup)
    (known : field ∈ types.map (·.1)) (fresh : field ∉ values.map (·.1)) :
    overwrite ((field, value) :: values) types =
      overwrite values (setEntry field value types) := by
  rw [overwrite, overwrite, setEntry_eq_map distinct known, map_map]
  apply map_congr_left
  intro f _
  by_cases same : f.1 = field
  · have last : valueAt? field values = none := valueAt?_eq_none_iff.mpr fresh
    simp only [Function.comp, valueAt?, same, if_true, last, Option.getD_some, Option.getD_none]
  · have differ : ¬ field = f.1 := fun h => same h.symm
    simp only [Function.comp, valueAt?, same, differ, if_false]

theorem overwrite_perm {values' : List (String × Ty)} (distinct : (values.map (·.1)).Nodup)
    (perm : values'.Perm values) : overwrite values' types = overwrite values types := by
  apply map_congr_left
  intro f _
  rw [valueAt?_perm distinct perm]

end Overwrite

/-- An assignment to a declared field comes to a type that is part of the declared one. -/
def Assigns (reach : Reach) (context : Context) (types : List (String × Ty)) (memo : Memo)
    (a : String × Expr) (v : String × Ty) : Prop :=
  a.1 = v.1 ∧ (expr reach context a.2 memo).1 = .ok v.2 ∧
    ∃ type, (v.1, type) ∈ types ∧ v.2.subset type = .ok true

section Assignments

variable {reach : Reach} {context : Context} {memo : Memo} {name : String}
  {types : List (String × Ty)}

variable {seen : List String} {fields final : List (String × Ty)}

/-- One assignment. -/
theorem assignments_cons_iff (restored : ∀ e, (expr reach context e memo).2 = memo)
    (distinct : (types.map (·.1)).Nodup) {a : String × Expr} {rest : List (String × Expr)} :
    (assignments reach context ⟨name, types⟩ seen fields (a :: rest) memo).1 = .ok final ↔
      a.1 ∉ seen ∧ ∃ v, Assigns reach context types memo a v ∧
        (assignments reach context ⟨name, types⟩ (a.1 :: seen) (setEntry v.1 v.2 fields) rest
          memo).1 = .ok final := by
  obtain ⟨field, e⟩ := a
  simp only [assignments, Record.field?_eq]
  cases found : valueAt? field types with
  | none =>
    have unknown : ∀ type, (field, type) ∉ types := by
      intro type mem
      rw [valueAt?_of_mem distinct mem] at found
      cases found
    constructor
    · intro ran
      cases ran
    · rintro ⟨-, ⟨_, value⟩, ⟨rfl, -, type, mem, -⟩, -⟩
      exact absurd mem (unknown type)
  | some type =>
    by_cases repeated : field ∈ seen
    · simp only [repeated, if_true, not_true_eq_false, false_and, iff_false]
      intro ran
      cases ran
    · simp only [repeated, if_false, not_false_eq_true, true_and]
      rw [bind_ok_iff_of_restored (restored e)]
      constructor
      · rintro ⟨value, answer, ran⟩
        obtain ⟨inside, fit, ran⟩ := (bind_ok_iff_of_restored rfl).mp ran
        cases inside with
        | false => cases ran
        | true =>
          have within : value.subset type = .ok true := Run.ofChecked_eq_ok_iff.mp fit
          exact ⟨(field, value), ⟨rfl, answer, type, mem_of_valueAt? found, within⟩, ran⟩
      · rintro ⟨⟨_, value⟩, ⟨rfl, answer, type', mem, within⟩, ran⟩
        obtain rfl : type = type' :=
          Option.some.inj (found.symm.trans (valueAt?_of_mem distinct mem))
        refine ⟨value, answer, (bind_ok_iff_of_restored rfl).mpr ⟨true, ?_, ran⟩⟩
        rw [within]
        rfl

/-- All assignments: each field at most once, and every type where its field is declared. -/
theorem assignments_iff (restored : ∀ e, (expr reach context e memo).2 = memo)
    (distinct : (types.map (·.1)).Nodup) {items : List (String × Expr)}
    (names : fields.map (·.1) = types.map (·.1)) :
    (assignments reach context ⟨name, types⟩ seen fields items memo).1 = .ok final ↔
      ((items.map (·.1)).Nodup ∧ ∀ field ∈ items.map (·.1), field ∉ seen) ∧
        ∃ values, Forall₂ (Assigns reach context types memo) items values ∧
          final = overwrite values fields := by
  induction items generalizing seen fields with
  | nil =>
    simp only [map_nil, nodup_nil, not_mem_nil, false_implies, implies_true,
      and_self, true_and, forall₂_nil_left_iff, exists_eq_left, overwrite_nil, assignments]
    exact pure_ok_iff
  | cons a rest ih =>
    -- an assigned field keeps its place, so the names are declared throughout
    have step {v : String × Ty} (assigns : Assigns reach context types memo a v) :
        v.1 ∈ fields.map (·.1) ∧ (setEntry v.1 v.2 fields).map (·.1) = types.map (·.1) := by
      obtain ⟨-, -, type, mem, -⟩ := assigns
      have known : v.1 ∈ fields.map (·.1) := names ▸ mem_map.mpr ⟨_, mem, rfl⟩
      exact ⟨known, by rw [keys_setEntry, if_pos known, names]⟩
    have last {v : String × Ty} {values : List (String × Ty)}
        (assigns : Assigns reach context types memo a v)
        (each : Forall₂ (Assigns reach context types memo) rest values)
        (fresh : a.1 ∉ rest.map (·.1)) :
        overwrite (v :: values) fields = overwrite values (setEntry v.1 v.2 fields) := by
      rw [keys_eq_of_forall₂ each fun _ _ assigns => assigns.1, assigns.1] at fresh
      exact overwrite_cons (names ▸ distinct) (step assigns).1 fresh
    rw [assignments_cons_iff restored distinct]
    simp only [map_cons, nodup_cons, forall_mem_cons]
    constructor
    · rintro ⟨unseen, v, assigns, ran⟩
      obtain ⟨⟨nodup, apart⟩, values, each, rfl⟩ := (ih (step assigns).2).mp ran
      have fresh : a.1 ∉ rest.map (·.1) := fun mem => apart a.1 mem mem_cons_self
      have later : ∀ field ∈ rest.map (·.1), field ∉ seen :=
        fun field mem before => apart field mem (mem_cons_of_mem _ before)
      exact ⟨⟨⟨fresh, nodup⟩, unseen, later⟩, v :: values, .cons assigns each,
        (last assigns each fresh).symm⟩
    · rintro ⟨⟨⟨fresh, nodup⟩, unseen, apart⟩, _, each, rfl⟩
      cases each with
      | @cons _ v _ values assigns each =>
        have later : ∀ field ∈ rest.map (·.1), field ∉ a.1 :: seen := by
          intro field mem before
          rcases mem_cons.mp before with rfl | before
          · exact fresh mem
          · exact apart field mem before
        refine ⟨unseen, v, assigns, (ih (step assigns).2).mpr ?_⟩
        exact ⟨⟨nodup, later⟩, values, each, last assigns each fresh⟩

end Assignments

/-- What a struct with the declared types comes to with assignments. -/
def Narrows (reach : Reach) (context : Context) (memo : Memo) (name : String)
    (types : List (String × Ty)) (fields : List (String × Expr)) (t : Ty) : Prop :=
  Record.build name types = .never ∧ t = .never ∨
  Record.build name types = .struct name types ∧ (fields.map (·.1)).Nodup ∧
    ∃ values, Forall₂ (Assigns reach context types memo) fields values ∧
      t = Record.build name (overwrite values types)

namespace Narrows

variable {reach : Reach} {context : Context} {memo : Memo} {name : String}
  {types : List (String × Ty)} {fields : List (String × Expr)} {t : Ty}

theorem nil : Narrows reach context memo name types [] (Record.build name types) := by
  rcases Record.build_cases name types with ⟨empty, -⟩ | ⟨same, -⟩
  · exact .inl ⟨empty, empty⟩
  · exact .inr ⟨same, nodup_nil, [], .nil, by rw [overwrite_nil]⟩

theorem perm (narrows : Narrows reach context memo name types fields t)
    {fields' : List (String × Expr)} (perm : fields'.Perm fields) :
    Narrows reach context memo name types fields' t := by
  rcases narrows with empty | ⟨same, nodup, values, each, rfl⟩
  · exact .inl empty
  · obtain ⟨values', each', perm'⟩ := perm_comp_forall₂ perm each
    have distinct : (values.map (·.1)).Nodup := by
      rw [← keys_eq_of_forall₂ each fun _ _ assigns => assigns.1]
      exact nodup
    exact .inr ⟨same, (perm.map _).nodup_iff.mpr nodup, values', each',
      by rw [overwrite_perm distinct perm']⟩

/-- A struct with assignments is part of the struct as declared. -/
theorem subset (narrows : Narrows reach context memo name types fields t)
    (distinct : (types.map (·.1)).Nodup) (made : ∀ f ∈ types, f.2.Comparable)
    (held : (Record.build name types).Held) : t.subset (Record.build name types) = .ok true := by
  rcases narrows with ⟨empty, rfl⟩ | ⟨same, -, values, each, rfl⟩
  · rw [empty]
    rfl
  · rw [same] at held ⊢
    rcases Record.build_cases name (overwrite values types) with ⟨empty, -⟩ | ⟨same', -⟩
    · rw [empty]
      rfl
    · rw [same']
      apply subset_struct
      rw [overwrite, forall₂_map_left_iff, forall₂_same]
      intro f mem
      refine ⟨rfl, ?_⟩
      -- what is assigned was compared when it was; the rest is compared with itself
      cases assigned : valueAt? f.1 values with
      | none => exact subset_self (made f mem) (held_struct.mp held f mem)
      | some value =>
        obtain ⟨a, -, -, -, type, known, within⟩ :=
          exists_left_of_forall₂ each (mem_of_valueAt? assigned)
        obtain rfl : type = f.2 := by
          apply Option.some.inj
          rw [← valueAt?_of_mem distinct known, ← valueAt?_of_mem distinct mem]
        exact within

/-- A struct with assignments has the declared fields, each with its type or the one assigned. -/
theorem eq_struct (narrows : Narrows reach context memo name types fields t) (proper : t ≠ .never) :
    ∃ own, t = .struct name own ∧ own.map (·.1) = types.map (·.1) ∧
      (∀ f ∈ own, f.1 ∉ fields.map (·.1) → f ∈ types) ∧
      ∀ a ∈ fields, ∃ value, (a.1, value) ∈ own ∧ (expr reach context a.2 memo).1 = .ok value := by
  rcases narrows with ⟨-, empty⟩ | ⟨-, nodup, values, each, rfl⟩
  · exact absurd empty proper
  · have keys := keys_eq_of_forall₂ each fun _ _ assigns => assigns.1
    rcases Record.build_cases name (overwrite values types) with ⟨empty, -⟩ | ⟨same, -⟩
    · exact absurd empty proper
    · refine ⟨overwrite values types, same, keys_overwrite, fun f mem unassigned => ?_,
        fun a mem => ?_⟩
      · obtain ⟨g, known, rfl⟩ := mem_map.mp mem
        rw [keys] at unassigned
        rw [valueAt?_eq_none_iff.mpr unassigned]
        exact known
      · obtain ⟨v, mem', assigns⟩ := exists_right_of_forall₂ each mem
        obtain ⟨named, answer, type, known, -⟩ := assigns
        have assigned : valueAt? v.1 values = some v.2 := valueAt?_of_mem (keys ▸ nodup) mem'
        refine ⟨v.2, mem_map.mpr ⟨_, known, ?_⟩, answer⟩
        rw [assigned, named]
        rfl

end Narrows

section Named

variable {context : Context} {name : String} {owner : Scope} {declared : List (String × Expr)}
  (found : context.scope.lookup name = some (owner, .struct declared))
  (free : valueAt? name context.generics = none) {fields : List (String × Expr)} {t : Ty} {n : Nat}

/-- The definition of the name is being resolved. -/
def resolvingOnly (owner : Scope) (name : String) : Memo := [((owner.length, name), .resolving)]

theorem not_resolved_resolvingOnly (key : EntryKey) (t : Ty) :
    ¬ Resolved (resolvingOnly owner name) key t := by
  intro resolved
  unfold Resolved resolvingOnly valueAt? at resolved
  split at resolved <;> cases resolved

theorem resolve_skeleton (n : Nat) (owner : Scope) (name : String)
    (declared : List (String × Expr)) :
    (plainReach n).resolve (owner.length, name) (skeleton (plainReach n) owner name declared) [] =
      ((skeleton (plainReach n) owner name declared (resolvingOnly owner name)).1, []) := by
  have unmarked : valueAt? (owner.length, name) ([] : Memo) = none := rfl
  exact afresh_of_none unmarked

include found free

/-- A name that means a struct has a type only if all declared fields have. -/
theorem exists_declared
    (ran : (expr (plainReach n) context (.named name fields) []).1 = .ok t) :
    ∃ types, Declared (plainReach n) owner (resolvingOnly owner name) declared types := by
  have resolved := resolve_skeleton n owner name declared
  have restored : ((plainReach n).resolve (owner.length, name)
      (skeleton (plainReach n) owner name declared) []).2 = [] := by rw [resolved]
  rw [named_struct_eq found free, bind_ok_iff_of_restored restored, resolved] at ran
  obtain ⟨s, inside, -⟩ := ran
  obtain ⟨types, each, -⟩ := (skeleton_ok_iff fun e => plain_restores n ⟨owner, []⟩ e _).mp inside
  exact ⟨types, each⟩

/-- A name that means a struct comes to its declared types, narrowed by the assignments. -/
theorem named_ok_iff (distinct : (declared.map (·.1)).Nodup) {types : List (String × Ty)}
    (each : Declared (plainReach n) owner (resolvingOnly owner name) declared types) :
    (expr (plainReach n) context (.named name fields) []).1 = .ok t ↔
      Narrows (plainReach n) context [] name types fields t := by
  have resolved : (plainReach n).resolve (owner.length, name)
      (skeleton (plainReach n) owner name declared) [] = (.ok (Record.build name types), []) := by
    have inside : (skeleton (plainReach n) owner name declared (resolvingOnly owner name)).1 =
        .ok (Record.build name types) :=
      (skeleton_ok_iff fun e => plain_restores n ⟨owner, []⟩ e _).mpr ⟨types, each, rfl⟩
    rw [resolve_skeleton, inside]
  have distinctTypes : (types.map (·.1)).Nodup := by
    rw [← keys_eq_of_forall₂ each fun _ _ both => both.1]
    exact distinct
  have restored (e : Expr) : (expr (plainReach n) context e []).2 = [] :=
    plain_restores (n + 1) context e []
  rw [named_struct_eq found free, bind_of_ok resolved]
  unfold Narrows
  rcases Record.build_cases name types with ⟨empty, -⟩ | ⟨same, -⟩
  · rw [empty]
    simp only [reduceCtorEq, false_and, or_false, true_and]
    exact pure_ok_iff
  · rw [same]
    simp only [reduceCtorEq, false_and, false_or, true_and, narrowed, bind_pure_ok_iff,
      assignments_iff restored distinctTypes rfl]
    constructor
    · rintro ⟨final, ⟨⟨nodup, -⟩, values, assigned, rfl⟩, rfl⟩
      exact ⟨nodup, values, assigned, rfl⟩
    · rintro ⟨nodup, values, assigned, rfl⟩
      exact ⟨_, ⟨⟨nodup, fun _ _ => not_mem_nil⟩, values, assigned, rfl⟩, rfl⟩

end Named

namespace Caller

/-- The declared fields of a struct with the types that their expressions have where the struct is
defined. -/
def DeclaredTypes (c : Caller) (owner : Scope) : List (String × Expr) → List (String × Ty) → Prop :=
  Forall₂ fun d f => d.1 = f.1 ∧
    ∃ levels, (level levels ⟨owner, []⟩ d.2 c.memo).1 = .ok f.2

variable {c : Caller}

/-- The types of declared fields do not depend on what is being resolved or remembered. -/
theorem declaredTypes_of_declared {owner : Scope} (part : owner <:+ c.scope) {n : Nat}
    {name : String} {declared : List (String × Expr)} {types : List (String × Ty)}
    (each : Declared (plainReach n) owner (resolvingOnly owner name) declared types) :
    c.DeclaredTypes owner declared types := by
  apply each.imp
  rintro d f ⟨same, answer⟩
  refine ⟨same, (c.reached.answers_iff (part.trans c.part) [] d.2 (by simp)).mpr ⟨n, ?_⟩⟩
  exact plain_unmark not_resolved_resolvingOnly answer

end Caller

/-- Declared fields have types that the algebra makes. -/
theorem Declared.comparable {owner : Scope} (frames : KeptFrames .comparable owner) {n : Nat}
    {name : String} {declared : List (String × Expr)} {types : List (String × Ty)}
    (each : Declared (plainReach n) owner (resolvingOnly owner name) declared types) :
    ∀ f ∈ types, f.2.Comparable := by
  intro f mem
  obtain ⟨d, -, -, answer⟩ := exists_left_of_forall₂ each mem
  exact holds_of_plain frames (plain_unmark not_resolved_resolvingOnly answer)

/-- A struct that is named with assignments is narrowed by them. It is part of the struct as
declared. Unless it is empty it has the declared fields in their order: one that something is
assigned to has the type of what is assigned, and the others have their declared types. The order
of the assignments does not matter, whatever is remembered.

The types that definitions hold come from the algebra, like all types, and where types are compared
their bounds are doubles. -/
theorem named_narrows (c : Caller) (built : c.scope.Built)
    (comparable : KeptFrames .comparable c.scope) {name : String} {owner : Scope}
    {declared : List (String × Expr)}
    (found : c.scope.lookup name = some (owner, .struct declared))
    (free : valueAt? name c.generics = none) {fields : List (String × Expr)} {t : Ty}
    (answers : c.Answers (.named name fields) (.ok t)) :
    ∃ types, c.DeclaredTypes owner declared types ∧
      c.Answers (.named name []) (.ok (Record.build name types)) ∧
      ((Record.build name types).Held → t.subset (Record.build name types) = .ok true) ∧
      (t ≠ .never → ∃ own, t = .struct name own ∧ own.map (·.1) = declared.map (·.1) ∧
        (∀ f ∈ own, f.1 ∉ fields.map (·.1) → f ∈ types) ∧
        ∀ a ∈ fields, ∃ value, (a.1, value) ∈ own ∧ c.Answers a.2 (.ok value)) ∧
      ∀ (c' : Caller) fields', c'.toContext = c.toContext → fields'.Perm fields →
        c'.Answers (.named name fields') (.ok t) ∧
        ((c'.evaluate (.named name fields')).1 ≠ exhausted →
          (c'.evaluate (.named name fields')).1 = .ok t) := by
  have distinct : (declared.map (·.1)).Nodup := (built.acceptable found).2
  have part : owner <:+ c.scope := (Scope.lookup_cases found).1
  -- all answers are read off one number of levels, where nothing is remembered
  obtain ⟨n, eventually⟩ := answers.eventually (by simp)
  have ran : (expr (plainReach n) c.toContext (.named name fields) []).1 = .ok t :=
    congrArg Prod.fst (eventually (n + 1) (Nat.le_succ n))
  obtain ⟨types, each⟩ := exists_declared found free ran
  have narrows := (named_ok_iff found free distinct each).mp ran
  have names : declared.map (·.1) = types.map (·.1) :=
    keys_eq_of_forall₂ each fun _ _ both => both.1
  have back {c' : Caller} (same : c'.toContext = c.toContext) {fields' : List (String × Expr)}
      {t' : Ty} (narrows : Narrows (plainReach n) c.toContext [] name types fields' t') :
      c'.Answers (.named name fields') (.ok t') := by
    refine (Caller.answers_iff (by simp)).mpr ⟨n + 1, ?_⟩
    rw [same]
    exact (named_ok_iff found free distinct each).mpr narrows
  refine ⟨types, Caller.declaredTypes_of_declared part each, back rfl .nil, fun held => ?_,
    fun proper => ?_, fun c' fields' same perm => ?_⟩
  · have owned : KeptFrames .comparable owner := fun frame mem => comparable frame (part.subset mem)
    exact narrows.subset (names ▸ distinct) (Declared.comparable owned each) held
  · obtain ⟨own, rfl, keys, rest, assigned⟩ := narrows.eq_struct proper
    refine ⟨own, rfl, keys.trans names.symm, rest, fun a mem => ?_⟩
    obtain ⟨value, here, answer⟩ := assigned a mem
    exact ⟨value, here, (Caller.answers_iff (by simp)).mpr ⟨n + 1, answer⟩⟩
  · have answered := back same (narrows.perm perm)
    exact ⟨answered, fun ended => (c'.answers_evaluate _).unique ended answered (by simp)⟩

theorem comparable_prelude : KeptFrames .comparable Prelude.scope := by
  rw [KeptFrames, Prelude.scope, forall_mem_singleton]
  intro name definition found
  exact Kept.defines_prelude (name, definition) (mem_of_valueAt? found) fun _ _ => trivial

namespace Sample

open Expr.Sample

/-- Lines between points, on top of these. -/
def lines : Scope :=
  ⟨"lines", [("line", .struct [("start", .named "point" []), ("stop", .named "point" []),
    ("label", .string .all)])]⟩ :: drawing

/-- A place among lines where a name is given to some numbers. -/
def artist : Caller where
  scope := lines
  generics := [("near", .number (.ints (.fin 2) (.fin 3)))]
  memo := []
  chain := lines
  part := suffix_refl lines
  reached := .fresh

/-- Lines from some points to others. -/
def line (start stop : Ty) : Ty :=
  .struct "line" [("start", start), ("stop", stop), ("label", .string .all)]

/-- Points with any mark. -/
def pointAt (x : NumberTy) : Ty := point x (.union [truth "false", truth "true"])

/-- Lines from marked points to near ones. -/
def marked : Ty :=
  line (point (.ints (.fin 0) (.fin 9)) (truth "true")) (pointAt (.ints (.fin 2) (.fin 3)))

def atStart : String × Expr := ("start", .named "point" [("mark", .named "true" [])])

def atStop : String × Expr := ("stop", .named "point" [("x", .named "near" [])])

theorem comparable_lines : KeptFrames .comparable lines := by
  have structs : ∀ frame ∈ lines.take 2, ∀ entry ∈ frame.entries,
      ∃ fields, entry.2 = .struct fields := by
    simp only [lines, drawing, shapes, List.take, forall_mem_cons]
    simp
  intro frame mem name definition found
  have split : frame ∈ lines.take 2 ++ Prelude.scope := mem
  rcases mem_append.mp split with own | below
  · obtain ⟨fields, same⟩ := structs frame own _ (mem_of_valueAt? found)
    cases same
    trivial
  · exact comparable_prelude frame below name definition found

end Sample

open Sample Expr.Sample

theorem named_narrows_line :
    lines.Built ∧ KeptFrames .comparable lines ∧
    artist.Answers (.named "line" [atStop, atStart]) (.ok marked) ∧
    marked.subset (line (pointAt (.ints (.fin 0) (.fin 9))) (pointAt (.ints (.fin 0) (.fin 9)))) =
      .ok true ∧
    artist.Answers (.named "line" [atStart, atStop]) (.ok marked) := by
  have built : lines.Built :=
    Scope.built_cons.mpr ⟨Scope.built_cons.mpr ⟨Prelude.built, by decide⟩, by decide⟩
  have answers : artist.Answers (.named "line" [atStop, atStart]) (.ok marked) := ⟨5, rfl⟩
  have bare : artist.Answers (.named "line" [])
      (.ok (line (pointAt (.ints (.fin 0) (.fin 9))) (pointAt (.ints (.fin 0) (.fin 9))))) :=
    ⟨5, rfl⟩
  obtain ⟨types, -, skeleton, subset, -, permuted⟩ :=
    named_narrows artist built comparable_lines rfl rfl answers
  have same := Except.ok.inj (skeleton.unique (by simp) bare (by simp))
  rw [same] at subset
  exact ⟨built, comparable_lines, answers, subset (by decide +kernel),
    (permuted artist _ rfl (List.Perm.swap _ _ [])).1⟩

end Eval

end TypeFlow
