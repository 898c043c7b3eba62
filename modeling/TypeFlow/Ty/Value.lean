import TypeFlow.Ty.Basic

/-!
# Values and membership

The values that types are about, and when a value belongs to a type. This is
the meaning of types: what the algebra computes is stated in these terms.
-/

namespace TypeFlow

/-- A number, a text, or a record with a name and named values. -/
inductive Value where
  | number (v : Num)
  | string (s : String)
  | record (name : String) (fields : List (String × Value))

namespace StringTy

/-- Whether a text is in the set. -/
def has : StringTy → String → Bool
  | .literal x, s => decide (s = x)
  | .all, _ => true

end StringTy

namespace Ty

mutual
/-- Whether a value belongs to a type. -/
def has : Ty → Value → Bool
  | .never, _ => false
  | .number n, .number v => n.has v
  | .string s, .string t => s.has t
  | .struct name fields, .record n values => decide (n = name) && hasFields fields values
  | .union items, v => hasItem items v
  | .any, _ => true
  | _, _ => false
/-- Whether the values of a record belong to the fields one by one. -/
def hasFields : List (String × Ty) → List (String × Value) → Bool
  | [], [] => true
  | (name, t) :: rest, (n, v) :: values => decide (n = name) && has t v && hasFields rest values
  | _, _ => false
/-- Whether a value belongs to one of the items. -/
def hasItem : List Ty → Value → Bool
  | [], _ => false
  | t :: rest, v => has t v || hasItem rest v
end

instance : Membership Value Ty := ⟨fun t v => t.has v = true⟩

/-- Membership is decided by `has`. -/
theorem mem_iff (t : Ty) (v : Value) : v ∈ t ↔ t.has v = true := Iff.rfl

instance (t : Ty) (v : Value) : Decidable (v ∈ t) := inferInstanceAs (Decidable (t.has v = true))

/-- `never` has no values. -/
theorem not_mem_never (v : Value) : ¬ v ∈ never := by simp [mem_iff, has]

/-- `any` has every value. -/
theorem mem_any (v : Value) : v ∈ any := by simp [mem_iff, has]

/-- A value is in one of the items exactly when it is in some item. -/
theorem hasItem_iff (items : List Ty) (v : Value) :
    hasItem items v = true ↔ ∃ t ∈ items, v ∈ t := by
  induction items with
  | nil => simp [hasItem]
  | cons t rest ih => simp [hasItem, ih, mem_iff]

/-- A value is in a union exactly when it is in one of its items. -/
theorem mem_union_iff (items : List Ty) (v : Value) : v ∈ union items ↔ ∃ t ∈ items, v ∈ t := by
  simp [mem_iff, has, hasItem_iff]

/-- A value is in a type exactly when it is in one of its members. -/
theorem mem_iff_members (t : Ty) (v : Value) : v ∈ t ↔ ∃ m ∈ t.members, v ∈ m := by
  cases t <;> simp [members, mem_union_iff, not_mem_never]

end Ty
end TypeFlow
