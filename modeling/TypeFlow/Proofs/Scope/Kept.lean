import TypeFlow.Proofs.Checked
import TypeFlow.Proofs.Scope.Built
import TypeFlow.Proofs.Values

/-!
# Properties that types keep

A property of types is kept when the operations on types lead from types with the property to such
types again, and a struct has it if its fields do. Some properties also keep structs from clashing,
others hold whether or not there is a clash. Definitions keep a property if all types in them have
it, and so does a frame in the making when parameters with such types are added.
-/

namespace TypeFlow

open List

variable {ε δ α β : Type}

namespace Run

/-- A computation does not end in a clash, unless clashes are allowed, and its result has a
property. -/
inductive UnclashedUnless (clashes : Prop) (P : α → Prop) : Run ε α → Prop
  | ok {a : α} (holds : P a) : UnclashedUnless clashes P (.ok a)
  | error (e : ε) : UnclashedUnless clashes P (.error (.error e))
  | exhausted : UnclashedUnless clashes P (.error (.fatal .exhausted))
  | clash (allowed : clashes) (c : Clash) : UnclashedUnless clashes P (.error (.fatal (.clash c)))

/-- A computation does not end in a clash, and its result has a property. -/
abbrev Unclashed (P : α → Prop) (run : Run ε α) : Prop := run.UnclashedUnless False P

namespace UnclashedUnless

variable {clashes : Prop} {P : α → Prop} {Q : β → Prop} {run : Run ε α}

/-- Where clashes are not allowed, there is none. -/
theorem ne_clash (unclashed : run.Unclashed P) (c : Clash) : run ≠ .error (.fatal (.clash c)) := by
  cases unclashed with
  | clash allowed => exact allowed.elim
  | _ => simp

/-- The result has the property. -/
theorem of_eq_ok (unclashed : run.UnclashedUnless clashes P) {a : α} (same : run = .ok a) :
    P a := by
  subst same
  cases unclashed with
  | ok holds => exact holds

/-- A weaker property of the result. -/
theorem mono {P' : α → Prop} (unclashed : run.UnclashedUnless clashes P)
    (weaker : ∀ a, run = .ok a → P a → P' a) : run.UnclashedUnless clashes P' := by
  cases unclashed with
  | ok holds => exact .ok (weaker _ rfl holds)
  | error e => exact .error e
  | exhausted => exact .exhausted
  | clash allowed c => exact .clash allowed c

/-- One computation after the other. -/
theorem bind {next : α → Run ε β} (first : run.UnclashedUnless clashes P)
    (then' : ∀ a, P a → (next a).UnclashedUnless clashes Q) :
    UnclashedUnless clashes Q (run >>= next) := by
  cases first with
  | ok holds => exact then' _ holds
  | error e => exact .error e
  | exhausted => exact .exhausted
  | clash allowed c => exact .clash allowed c

/-- Another form of the error changes nothing else. -/
theorem mapError {f : ε → δ} (unclashed : run.UnclashedUnless clashes P) :
    (run.mapError f).UnclashedUnless clashes P := by
  cases unclashed with
  | ok holds => exact .ok holds
  | error e => exact .error (f e)
  | exhausted => exact .exhausted
  | clash allowed c => exact .clash allowed c

/-- A result or an error is no clash. -/
theorem ofExcept {x : Except ε α} (each : ∀ a, x = .ok a → P a) :
    (Run.ofExcept x).UnclashedUnless clashes P := by
  cases x with
  | ok a => exact .ok (each a rfl)
  | error e => exact .error e

/-- A computation on types clashes here where it clashes by itself. -/
theorem ofChecked {x : Checked α} (yields : YieldsUnless clashes x P) :
    (Run.ofChecked x : Run ε α).UnclashedUnless clashes P := by
  rcases yields with ⟨a, rfl, holds⟩ | ⟨allowed, c, rfl⟩
  · exact .ok holds
  · exact .clash allowed c

/-- One computation for each item, and a property of each result. -/
theorem mapM {f : α → Run ε β} {items : List α}
    (each : ∀ a ∈ items, (f a).UnclashedUnless clashes Q) :
    (items.mapM f).UnclashedUnless clashes fun results => ∀ b ∈ results, Q b := by
  induction items with
  | nil => exact .ok (by simp)
  | cons a rest ih =>
    rw [mapM_cons]
    refine (each a mem_cons_self).bind fun b holds => ?_
    refine (ih fun a' mem => each a' (mem_cons_of_mem a mem)).bind fun bs all => ?_
    exact .ok (forall_mem_cons.mpr ⟨holds, all⟩)

/-- One step for each item, and a property that each step keeps. -/
theorem foldlM {f : β → α → Run ε β} {items : List α} {start : β} (first : Q start)
    (step : ∀ b, Q b → ∀ a ∈ items, (f b a).UnclashedUnless clashes Q) :
    (items.foldlM f start).UnclashedUnless clashes Q := by
  induction items generalizing start with
  | nil => exact .ok first
  | cons a rest ih =>
    rw [foldlM_cons]
    refine (step start first a mem_cons_self).bind fun b holds => ?_
    exact ih holds fun b' holds' a' mem => step b' holds' a' (mem_cons_of_mem a mem)

end UnclashedUnless

end Run

/-- Resolving a definition enters the expression. -/
def Definition.Enters (e : Expr) : Definition → Prop
  | .alias type => e = type
  | .struct fields => ∃ f ∈ fields, e = f.2
  | _ => False

open Ty

/-- A property of types that the operations keep. -/
structure Kept where
  /-- The property. -/
  Holds : Ty → Prop
  /-- The field names that a struct of a name has. -/
  Names : String → List String → Prop
  /-- Whether types with the property may clash. -/
  clashes : Prop
  never : Holds never
  any : Holds any
  number : ∀ n, Holds (number n)
  string : ∀ s, Holds (string s)
  numbers : ∀ items, Holds (ofNumbers items)
  struct : ∀ {name fields}, Holds (struct name fields) ↔
    Names name (fields.map (·.1)) ∧ ∀ f ∈ fields, Holds f.2
  member : ∀ {t m}, Holds t → m ∈ t.members → Holds m
  union : ∀ {items}, (∀ t ∈ items, Holds t) → YieldsUnless clashes (unionOf items) Holds
  intersection : ∀ {items}, (∀ t ∈ items, Holds t) →
    YieldsUnless clashes (intersectionOf items) Holds
  without : ∀ {a b}, Holds a → Holds b → YieldsUnless clashes (a.without b) Holds
  subset : ∀ {a b}, Holds a → Holds b → YieldsUnless clashes (a.subset b) fun _ => True

namespace Kept

variable (kept : Kept)

/-- A definition keeps the property for its name, as far as that can be said without a scope. -/
def Defines (name : String) : Definition → Prop
  | .struct fields => kept.Names name (fields.map (·.1))
  | .variable value => kept.Holds value
  | .builtin parameters varargs run => (∀ p ∈ parameters, kept.Holds p.2) ∧
    (∀ t, varargs = some t → kept.Holds t) ∧
    ∀ args, (∀ t ∈ args, kept.Holds t) → YieldsUnless kept.clashes (run args) kept.Holds
  | .parameter bound value => kept.Holds bound ∧ ∀ t, value = some t → kept.Holds t
  | .alias _ | .function _ _ => True

/-- The definitions of all names keep the property. -/
def DefinesAll (entries : List (String × Definition)) : Prop :=
  ∀ name definition, valueAt? name entries = some definition → kept.Defines name definition

/-- The property of all types. -/
def anything : Kept where
  Holds _ := True
  Names _ _ := True
  clashes := True
  never := trivial
  any := trivial
  number _ := trivial
  string _ := trivial
  numbers _ := trivial
  struct := by simp
  member _ _ := trivial
  union _ := .of_eq_ok trivial fun _ _ => trivial
  intersection _ := .of_eq_ok trivial fun _ _ => trivial
  without _ _ := .of_eq_ok trivial fun _ _ => trivial
  subset _ _ := .of_eq_ok trivial fun _ _ => trivial

/-- Every definition keeps it. -/
theorem defines_anything (name : String) (definition : Definition) :
    anything.Defines name definition := by
  cases definition with
  | builtin parameters varargs run =>
    exact ⟨fun _ _ => trivial, fun _ _ => trivial, fun _ _ => .of_eq_ok trivial fun _ _ => trivial⟩
  | parameter bound value => exact ⟨trivial, fun _ _ => trivial⟩
  | _ => trivial

/-- A frame in the making inside the owner, whose definitions keep the property so far. -/
def Fills (owner : Scope) (b : Builder) : Prop := b.outer = owner ∧ kept.DefinesAll b.entries

variable {kept}

/-- A struct in the making has the property if its fields do. -/
theorem holds_build {name : String} {fields : List (String × Ty)}
    (names : kept.Names name (fields.map (·.1))) (each : ∀ f ∈ fields, kept.Holds f.2) :
    kept.Holds (Record.build name fields) := by
  rcases Record.build_cases name fields with ⟨empty, -⟩ | ⟨same, -⟩
  · rw [empty]
    exact kept.never
  · rw [same]
    exact kept.struct.mpr ⟨names, each⟩

/-- A new frame has no definitions yet. -/
theorem fills_new (name : String) (owner : Scope) : kept.Fills owner (Builder.new name owner) :=
  ⟨rfl, fun _ _ found => by cases found⟩

variable {owner : Scope} {b b' : Builder} {name : String} {definition : Definition}

/-- Adding a definition that keeps the property. -/
theorem Fills.add (fills : kept.Fills owner b) (own : kept.Defines name definition)
    (added : b.add name definition = .ok b') : kept.Fills owner b' := by
  obtain ⟨-, -, rfl⟩ := Builder.add_eq_ok_iff.mp added
  refine ⟨fills.1, fun other d found => ?_⟩
  rw [valueAt?_concat, Option.or_eq_some_iff] at found
  rcases found with before | ⟨-, here⟩
  · exact fills.2 other d before
  · rw [Option.ite_none_right_eq_some] at here
    obtain ⟨rfl, same⟩ := here
    exact Option.some.inj same ▸ own

/-- Setting a parameter to a type with the property clashes only where that is allowed. -/
theorem Fills.assign (fills : kept.Fills owner b) {value : Ty} (own : kept.Holds value) :
    (b.assign name value).UnclashedUnless kept.clashes (kept.Fills owner) := by
  unfold Builder.assign
  cases here : valueAt? name b.entries with
  | none => exact .error _
  | some d =>
    have said := fills.2 name d here
    cases d with
    | parameter bound sofar =>
      refine (Run.UnclashedUnless.ofChecked (kept.subset own said.1)).bind fun inside _ => ?_
      cases inside with
      | false => exact .error _
      | true =>
        refine .ok ⟨fills.1, fun other d found => ?_⟩
        by_cases same : name = other
        · subst same
          rw [valueAt?_setEntry_self] at found
          obtain rfl := Option.some.inj found
          exact ⟨said.1, fun t set => Option.some.inj set ▸ own⟩
        · rw [valueAt?_setEntry_of_ne same] at found
          exact fills.2 other d found
    | _ => exact .error _

/-- So does what an operation makes of all arguments, from left to right. -/
theorem holds_leftFold {op : Ty → Ty → Ty} (results : ∀ a b, kept.Holds (op a b))
    {args : List Ty} (holds : ∀ t ∈ args, kept.Holds t) :
    kept.Holds (Prelude.leftFold op args) := by
  cases args with
  | nil => exact kept.never
  | cons first rest =>
    have step : ∀ (items : List Ty) (start : Ty), kept.Holds start →
        kept.Holds (items.foldl op start) := by
      intro items
      induction items with
      | nil => exact fun start holds => holds
      | cons t items ih => exact fun start _ => ih (op start t) (results start t)
    exact step rest first (holds first mem_cons_self)

/-- An operation on numbers with any number of arguments keeps it. -/
theorem defines_variadic {op : Ty → Ty → Ty} (results : ∀ a b, kept.Holds (op a b)) :
    kept.Defines name (Prelude.variadic op) := by
  refine ⟨by simp [Ty.numbers, kept.number], by simp [Ty.numbers, kept.number], ?_⟩
  exact fun args holds => .inl ⟨_, rfl, holds_leftFold results holds⟩

/-- An operation on one number keeps it. -/
theorem defines_unary {op : Ty → Ty} (results : ∀ a, kept.Holds (op a)) :
    kept.Defines name (Prelude.unary op) := by
  refine ⟨by simp [Ty.numbers, kept.number], by simp, fun args _ => .inl ?_⟩
  match args with
  | [a] => exact ⟨_, rfl, results a⟩
  | [] | _ :: _ :: _ => exact ⟨_, rfl, kept.never⟩

/-- An operation on two numbers keeps it. -/
theorem defines_binary {op : Ty → Ty → Ty} (results : ∀ a b, kept.Holds (op a b)) :
    kept.Defines name (Prelude.binary op) := by
  refine ⟨by simp [Ty.numbers, kept.number], by simp, fun args _ => .inl ?_⟩
  match args with
  | [a, b] => exact ⟨_, rfl, results a b⟩
  | [] | [_] | _ :: _ :: _ :: _ => exact ⟨_, rfl, kept.never⟩

/-- Texts in a row are a text. -/
theorem holds_concat (args : List Ty) : kept.Holds (Prelude.concat args) := by
  unfold Prelude.concat
  simp only
  split
  · exact kept.string _
  · exact kept.string _

/-- The definitions of the prelude keep the property if its structs do. -/
theorem defines_prelude : ∀ entry ∈ Prelude.entries,
    (∀ fields, entry.2 = .struct fields → kept.Names entry.1 (fields.map (·.1))) →
    kept.Defines entry.1 entry.2 := by
  have numeric : ∀ f (a b : Ty), kept.Holds (Arithmetic.lift₂ f a b) := fun _ _ _ => kept.numbers _
  have numeric₁ : ∀ f (a : Ty), kept.Holds (Arithmetic.lift₁ f a) := fun _ _ => kept.numbers _
  simp only [Prelude.entries, forall_mem_cons]
  refine ⟨fun struct => struct _ rfl, fun struct => struct _ rfl, fun struct => struct _ rfl,
    fun struct => struct _ rfl, fun _ => trivial, fun _ => trivial, fun _ => trivial,
    fun _ => trivial, fun _ => defines_variadic (numeric _), fun _ => defines_variadic (numeric _),
    fun _ => defines_variadic (numeric _), fun _ => defines_variadic (numeric _),
    fun _ => defines_unary (numeric₁ _), fun _ => defines_unary (numeric₁ _),
    fun _ => defines_unary (numeric₁ _), fun _ => defines_binary fun a b => numeric _ a b.negate,
    fun _ => defines_binary (numeric _), fun _ => ?_, by simp⟩
  have texts : kept.Holds Ty.strings := kept.string _
  exact ⟨by simp, by simpa using texts, fun args _ => .inl ⟨_, rfl, holds_concat args⟩⟩

end Kept

end TypeFlow
