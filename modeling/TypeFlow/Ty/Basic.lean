import TypeFlow.Ty.Number

/-!
# Types

A type is a set of values: numbers, texts, and records, which have a name and
named fields. `union` stands for the values of its items together. The algebra
only builds unions in canonical form; the data type itself leaves that open.

Functions on types recurse through the lists of fields and items with a helper
for each; `Ty.induction` is the matching principle of proof.
-/

namespace TypeFlow

/-- A set of texts. The constructors are in canonical order. -/
inductive StringTy where
  | literal (value : String)
  | all
  deriving DecidableEq

/-- A set of values. -/
inductive Ty where
  | never
  | number (n : NumberTy)
  | string (s : StringTy)
  /-- The records of a name whose fields have values of the given types. -/
  | struct (name : String) (fields : List (String × Ty))
  /-- The values of all items together. -/
  | union (items : List Ty)
  | any

/-- A struct type by itself. -/
structure Record where
  name : String
  fields : List (String × Ty)

/-- The three kinds of value. -/
inductive Kind where
  | number
  | string
  | struct
  deriving DecidableEq

namespace Ty

instance : Inhabited Ty := ⟨never⟩

/-- Proof by induction over a type, its fields and its items. -/
theorem induction {motive : Ty → Prop} (never : motive never)
    (number : ∀ n, motive (number n)) (string : ∀ s, motive (string s))
    (struct : ∀ name fields, (∀ f ∈ fields, motive f.2) → motive (struct name fields))
    (union : ∀ items, (∀ t ∈ items, motive t) → motive (union items))
    (any : motive any) (t : Ty) : motive t :=
  @Ty.rec motive (fun fields => ∀ f ∈ fields, motive f.2)
    (fun items => ∀ t ∈ items, motive t) (fun f => motive f.2)
    never number string struct union any
    (fun _ h => absurd h List.not_mem_nil)
    (fun _ _ head tail _ h => (List.mem_cons.mp h).elim (fun e => e ▸ head) (tail _))
    (fun _ h => absurd h List.not_mem_nil)
    (fun _ _ head tail _ h => (List.mem_cons.mp h).elim (fun e => e ▸ head) (tail _))
    (fun _ _ h => h) t

mutual
/-- Whether two types are the same expression. -/
def beq : Ty → Ty → Bool
  | .never, .never => true
  | .number a, .number b => decide (a = b)
  | .string a, .string b => decide (a = b)
  | .struct n fs, .struct m gs => decide (n = m) && beqFields fs gs
  | .union xs, .union ys => beqItems xs ys
  | .any, .any => true
  | _, _ => false
/-- `beq` on fields. -/
def beqFields : List (String × Ty) → List (String × Ty) → Bool
  | [], [] => true
  | (n, a) :: fs, (m, b) :: gs => decide (n = m) && beq a b && beqFields fs gs
  | _, _ => false
/-- `beq` on items. -/
def beqItems : List Ty → List Ty → Bool
  | [], [] => true
  | a :: xs, b :: ys => beq a b && beqItems xs ys
  | _, _ => false
end

/-- `beqFields` is equality when `beq` is, on every field. -/
theorem beqFields_iff (fs gs : List (String × Ty))
    (each : ∀ f ∈ fs, ∀ t, beq f.2 t = true ↔ f.2 = t) : beqFields fs gs = true ↔ fs = gs := by
  induction fs generalizing gs with
  | nil => cases gs <;> simp [beqFields]
  | cons f fs ih =>
    cases gs with
    | nil => simp [beqFields]
    | cons g gs =>
      have tail := ih gs (fun f' hf => each f' (List.mem_cons_of_mem _ hf))
      have head := each f List.mem_cons_self g.2
      simp [beqFields, tail, head, Prod.ext_iff]

/-- `beqItems` is equality when `beq` is, on every item. -/
theorem beqItems_iff (xs ys : List Ty)
    (each : ∀ x ∈ xs, ∀ t, beq x t = true ↔ x = t) : beqItems xs ys = true ↔ xs = ys := by
  induction xs generalizing ys with
  | nil => cases ys <;> simp [beqItems]
  | cons x xs ih =>
    cases ys with
    | nil => simp [beqItems]
    | cons y ys =>
      have tail := ih ys (fun x' hx => each x' (List.mem_cons_of_mem _ hx))
      have head := each x List.mem_cons_self y
      simp [beqItems, tail, head]

/-- `beq` is equality. -/
theorem beq_iff (a b : Ty) : beq a b = true ↔ a = b := by
  induction a using induction generalizing b with
  | never => cases b <;> simp [beq]
  | number n => cases b <;> simp [beq]
  | string s => cases b <;> simp [beq]
  | struct name fields each =>
    cases b with
    | struct m gs => simp [beq, beqFields_iff fields gs each]
    | _ => simp [beq]
  | union items each =>
    cases b with
    | union ys => simp [beq, beqItems_iff items ys each]
    | _ => simp [beq]
  | any => cases b <;> simp [beq]

instance : DecidableEq Ty := fun a b => decidable_of_iff _ (beq_iff a b)

/-- The type of all numbers. -/
def numbers : Ty := number .all

/-- The type of all texts. -/
def strings : Ty := string .all

/-- The type of one number. -/
def literal (v : Num) : Ty := number (.literal v)

/-- The type of one text. -/
def text (s : String) : Ty := string (.literal s)

/-- Whether this is the empty type. -/
def isNever : Ty → Bool
  | never => true
  | _ => false

/-- Whether this is the type of every value. -/
def isAny : Ty → Bool
  | any => true
  | _ => false

/-- The kind of the values, for types that are neither unions nor extreme. -/
def kind? : Ty → Option Kind
  | number _ => some .number
  | string _ => some .string
  | struct _ _ => some .struct
  | _ => none

/-- Whether this is a number, string or struct type. -/
def isValue (t : Ty) : Bool := t.kind?.isSome

/-- Items of a union, nothing for `never`, and the type itself otherwise. -/
def members : Ty → List Ty
  | never => []
  | union items => items
  | t => [t]

/-- The number type, if it is one. -/
def number? : Ty → Option NumberTy
  | number n => some n
  | _ => none

/-- The string type, if it is one. -/
def string? : Ty → Option StringTy
  | string s => some s
  | _ => none

/-- The struct type, if it is one. -/
def record? : Ty → Option Record
  | struct name fields => some ⟨name, fields⟩
  | _ => none

mutual
/-- How deep structs are nested in a type. -/
def nesting : Ty → Nat
  | .struct _ fields => nestingFields fields + 1
  | .union items => nestingItems items
  | _ => 0
/-- `nesting` of the deepest field. -/
def nestingFields : List (String × Ty) → Nat
  | [] => 0
  | (_, t) :: rest => max (nesting t) (nestingFields rest)
/-- `nesting` of the deepest item. -/
def nestingItems : List Ty → Nat
  | [] => 0
  | t :: rest => max (nesting t) (nestingItems rest)
end

end Ty

namespace Record

/-- The struct type as a type. -/
def toTy (r : Record) : Ty := .struct r.name r.fields

/-- The type of the fields of a name; empty as soon as one field is. -/
def build (name : String) (fields : List (String × Ty)) : Ty :=
  if fields.any fun f => f.2.isNever then .never else .struct name fields

/-- Type of a field. -/
def field? (r : Record) (name : String) : Option Ty :=
  (r.fields.find? fun f => f.1 = name).map (·.2)

/-- The fields with the type at one position replaced. -/
def setField (fields : List (String × Ty)) (index : Nat) (t : Ty) : List (String × Ty) :=
  fields.modify index fun f => (f.1, t)

/-- The struct type with the type of one field replaced. -/
def withField (r : Record) (index : Nat) (t : Ty) : Ty :=
  build r.name (setField r.fields index t)

/-- Whether two struct types have the same field names in the same order. -/
def sameShape (a b : Record) : Bool :=
  decide (a.fields.map (·.1) = b.fields.map (·.1))

instance : DecidableEq Record := fun a b =>
  decidable_of_iff (a.toTy = b.toTy) (by cases a; cases b; simp [toTy])

end Record
end TypeFlow
