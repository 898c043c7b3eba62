import TypeFlow.Ty.Basic

/-!
# Type expressions

An expression is a type together with the forms that a scope gives meaning to:
names with or without field assignments, unions and intersections of
expressions, field access, calls, and a choice between arms by pattern. Every
type is an expression: `Expr.ofTy`.
-/

namespace TypeFlow

/-- An arm of a choice. -/
structure Arm (ε : Type) where
  /-- The values that take this arm. -/
  pattern : ε
  /-- The name of the matched part in the body. -/
  binding : Option String
  /-- The result of this arm. -/
  body : ε

/-- A type expression. -/
inductive Expr where
  | never
  | any
  | number (n : NumberTy)
  | string (s : StringTy)
  /-- What a name stands for, with types assigned to its fields. -/
  | named (name : String) (fields : List (String × Expr))
  /-- The values of any item. -/
  | union (items : List Expr)
  /-- The values of all items. -/
  | intersection (items : List Expr)
  /-- The values of a field. -/
  | access (of : Expr) (field : String)
  /-- The result of a function. -/
  | call (name : String) (args : List Expr)
  /-- A choice between arms. -/
  | choose (of : Expr) (arms : List (Arm Expr))

namespace Expr

instance : Inhabited Expr := ⟨never⟩

/-- Proof by induction over an expression and its parts. -/
theorem induction {motive : Expr → Prop} (never : motive never) (any : motive any)
    (number : ∀ n, motive (number n)) (string : ∀ s, motive (string s))
    (named : ∀ name fields, (∀ f ∈ fields, motive f.2) → motive (named name fields))
    (union : ∀ items, (∀ e ∈ items, motive e) → motive (union items))
    (intersection : ∀ items, (∀ e ∈ items, motive e) → motive (intersection items))
    (access : ∀ of field, motive of → motive (access of field))
    (call : ∀ name args, (∀ e ∈ args, motive e) → motive (call name args))
    (choose : ∀ of arms, motive of → (∀ a ∈ arms, motive a.pattern ∧ motive a.body) →
      motive (choose of arms))
    (e : Expr) : motive e :=
  @Expr.rec motive (fun fields => ∀ f ∈ fields, motive f.2)
    (fun items => ∀ e ∈ items, motive e)
    (fun arms => ∀ a ∈ arms, motive a.pattern ∧ motive a.body)
    (fun f => motive f.2) (fun a => motive a.pattern ∧ motive a.body)
    never any number string named union intersection access call choose
    (fun _ h => absurd h List.not_mem_nil)
    (fun _ _ head tail _ h => (List.mem_cons.mp h).elim (fun e => e ▸ head) (tail _))
    (fun _ h => absurd h List.not_mem_nil)
    (fun _ _ head tail _ h => (List.mem_cons.mp h).elim (fun e => e ▸ head) (tail _))
    (fun _ h => absurd h List.not_mem_nil)
    (fun _ _ head tail _ h => (List.mem_cons.mp h).elim (fun e => e ▸ head) (tail _))
    (fun _ _ h => h) (fun _ _ _ h h' => ⟨h, h'⟩) e

mutual
/-- Whether two expressions are the same. -/
def beq : Expr → Expr → Bool
  | .never, .never => true
  | .any, .any => true
  | .number a, .number b => decide (a = b)
  | .string a, .string b => decide (a = b)
  | .named n fs, .named m gs => decide (n = m) && beqFields fs gs
  | .union xs, .union ys => beqItems xs ys
  | .intersection xs, .intersection ys => beqItems xs ys
  | .access a f, .access b g => beq a b && decide (f = g)
  | .call n xs, .call m ys => decide (n = m) && beqItems xs ys
  | .choose a xs, .choose b ys => beq a b && beqArms xs ys
  | _, _ => false
/-- `beq` on fields. -/
def beqFields : List (String × Expr) → List (String × Expr) → Bool
  | [], [] => true
  | (n, a) :: fs, (m, b) :: gs => decide (n = m) && beq a b && beqFields fs gs
  | _, _ => false
/-- `beq` on items. -/
def beqItems : List Expr → List Expr → Bool
  | [], [] => true
  | a :: xs, b :: ys => beq a b && beqItems xs ys
  | _, _ => false
/-- `beq` on arms. -/
def beqArms : List (Arm Expr) → List (Arm Expr) → Bool
  | [], [] => true
  | ⟨p, n, a⟩ :: xs, ⟨q, m, b⟩ :: ys =>
    beq p q && decide (n = m) && beq a b && beqArms xs ys
  | _, _ => false
end

/-- `beqFields` is equality when `beq` is, on every field. -/
theorem beqFields_iff (fs gs : List (String × Expr))
    (each : ∀ f ∈ fs, ∀ e, beq f.2 e = true ↔ f.2 = e) : beqFields fs gs = true ↔ fs = gs := by
  induction fs generalizing gs with
  | nil => cases gs <;> simp [beqFields]
  | cons f fs ih =>
    cases gs with
    | nil => simp [beqFields]
    | cons g gs =>
      obtain ⟨n, a⟩ := f
      obtain ⟨m, b⟩ := g
      have tail := ih gs (fun f' hf => each f' (List.mem_cons_of_mem _ hf))
      have head := each (n, a) List.mem_cons_self b
      simp only at head
      simp [beqFields, tail, head]

/-- `beqItems` is equality when `beq` is, on every item. -/
theorem beqItems_iff (xs ys : List Expr)
    (each : ∀ x ∈ xs, ∀ e, beq x e = true ↔ x = e) : beqItems xs ys = true ↔ xs = ys := by
  induction xs generalizing ys with
  | nil => cases ys <;> simp [beqItems]
  | cons x xs ih =>
    cases ys with
    | nil => simp [beqItems]
    | cons y ys =>
      have tail := ih ys (fun x' hx => each x' (List.mem_cons_of_mem _ hx))
      have head := each x List.mem_cons_self y
      simp [beqItems, tail, head]

/-- `beqArms` is equality when `beq` is, on every pattern and body. -/
theorem beqArms_iff (xs ys : List (Arm Expr))
    (each : ∀ x ∈ xs, (∀ e, beq x.pattern e = true ↔ x.pattern = e) ∧
      ∀ e, beq x.body e = true ↔ x.body = e) : beqArms xs ys = true ↔ xs = ys := by
  induction xs generalizing ys with
  | nil => cases ys <;> simp [beqArms]
  | cons x xs ih =>
    cases ys with
    | nil => simp [beqArms]
    | cons y ys =>
      obtain ⟨p, n, a⟩ := x
      obtain ⟨q, m, b⟩ := y
      have tail := ih ys (fun x' hx => each x' (List.mem_cons_of_mem _ hx))
      obtain ⟨pattern, body⟩ := each _ List.mem_cons_self
      simp only at pattern body
      simp [beqArms, tail, pattern, body, and_assoc]

/-- `beq` is equality. -/
theorem beq_iff (a b : Expr) : beq a b = true ↔ a = b := by
  induction a using induction generalizing b with
  | never => cases b <;> simp [beq]
  | any => cases b <;> simp [beq]
  | number n => cases b <;> simp [beq]
  | string s => cases b <;> simp [beq]
  | named name fields each =>
    cases b with
    | named m gs => simp [beq, beqFields_iff fields gs each]
    | _ => simp [beq]
  | union items each =>
    cases b with
    | union ys => simp [beq, beqItems_iff items ys each]
    | _ => simp [beq]
  | intersection items each =>
    cases b with
    | intersection ys => simp [beq, beqItems_iff items ys each]
    | _ => simp [beq]
  | access of field each => cases b <;> simp [beq, each]
  | call name args each =>
    cases b with
    | call m ys => simp [beq, beqItems_iff args ys each]
    | _ => simp [beq]
  | choose of arms each eachArm =>
    cases b with
    | choose b ys => simp [beq, each, beqArms_iff arms ys eachArm]
    | _ => simp [beq]

instance : DecidableEq Expr := fun a b => decidable_of_iff _ (beq_iff a b)

mutual
/-- The expression of a type. -/
def ofTy : Ty → Expr
  | .never => .never
  | .any => .any
  | .number n => .number n
  | .string s => .string s
  | .struct name fields => .named name (ofFields fields)
  | .union items => .union (ofItems items)
/-- The expressions of fields. -/
def ofFields : List (String × Ty) → List (String × Expr)
  | [] => []
  | (name, t) :: rest => (name, ofTy t) :: ofFields rest
/-- The expressions of items. -/
def ofItems : List Ty → List Expr
  | [] => []
  | t :: rest => ofTy t :: ofItems rest
end

/-- Whether an expression is put in parentheses inside another one. -/
def isCompound : Expr → Bool
  | union _ | intersection _ | choose _ _ => true
  | _ => false

end Expr
end TypeFlow
