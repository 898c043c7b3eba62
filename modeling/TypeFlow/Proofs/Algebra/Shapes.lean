import TypeFlow.Proofs.Algebra.Closure

/-!
# Shapes of structs

Two structs of one name meet without a clash when they have the same field names. Whether they
have does not depend on anything else in the types, neither on bounds of numbers nor on canonical
forms. So the algebra never clashes on types in which the field names of a struct are a function
of its name, and its results are such types again.
-/

namespace TypeFlow

namespace Ty

/-- A struct has the field names that belong to its name. -/
def ShapedHere (shape : String → List String) : Ty → Prop
  | struct name fields => fields.map (·.1) = shape name
  | _ => True

/-- All structs in a type have the field names that belong to their names. -/
def Shaped (shape : String → List String) (t : Ty) : Prop := t.Everywhere (ShapedHere shape)

variable {shape : String → List String}

@[simp] theorem shaped_never : Shaped shape never := by simp [Shaped, ShapedHere]

@[simp] theorem shaped_any : Shaped shape any := by simp [Shaped, ShapedHere]

@[simp] theorem shaped_number {n : NumberTy} : Shaped shape (number n) := by
  simp [Shaped, ShapedHere]

@[simp] theorem shaped_string {s : StringTy} : Shaped shape (string s) := by
  simp [Shaped, ShapedHere]

theorem shaped_struct {name : String} {fields : List (String × Ty)} :
    Shaped shape (struct name fields) ↔
      fields.map (·.1) = shape name ∧ ∀ f ∈ fields, Shaped shape f.2 :=
  everywhere_struct

theorem shaped_union {items : List Ty} :
    Shaped shape (union items) ↔ ∀ t ∈ items, Shaped shape t := by
  simp [Shaped, everywhere_union, ShapedHere]

theorem Shaped.of_mem_members {t m : Ty} (shaped : Shaped shape t) (mem : m ∈ t.members) :
    Shaped shape m :=
  Everywhere.of_mem_members shaped mem

theorem shaped_ofMembers {items : List Ty} (each : ∀ t ∈ items, Shaped shape t) :
    Shaped shape (ofMembers items) := by
  rcases ofMembers_cases items with ⟨empty, _⟩ | ⟨t, single, mem, _⟩ | ⟨several, _⟩
  · rw [empty]
    exact shaped_never
  · rw [single]
    exact each t mem
  · rw [several, shaped_union]
    exact fun t mem => each t (Sorted.mem_ofList.mp mem)

theorem shaped_ofNumbers (items : List NumberTy) : Shaped shape (ofNumbers items) := by
  apply shaped_ofMembers
  intro t mem
  obtain ⟨n, _, rfl⟩ := List.mem_map.mp mem
  exact shaped_number

end Ty

open Ty

variable {shape : String → List String}

/-- Shaped structs of one name have the same field names. -/
theorem Structs.sameNames {a b : Record} (shapedA : Shaped shape a.toTy)
    (shapedB : Shaped shape b.toTy) (name : a.name = b.name) :
    a.fields.map (·.1) = b.fields.map (·.1) := by
  rw [(shaped_struct.mp shapedA).1, (shaped_struct.mp shapedB).1, name]

namespace Algebra

theorem shapedTier {lower : Algebra} (below : lower.Keeps False (Shaped shape)) :
    Tier False lower (Shaped shape) (Shaped shape) where
  below := below
  never := shaped_never
  any := shaped_any
  string _ := shaped_string
  member shaped mem := shaped.of_mem_members mem
  part shaped mem := shaped.of_mem_members mem
  field shaped := (shaped_struct.mp shaped).2
  build := by
    intro r fields shaped names each
    rcases Record.build_cases r.name fields with ⟨empty, _⟩ | ⟨same, _⟩
    · rw [empty]
      exact shaped_never
    · rw [same]
      exact shaped_struct.mpr ⟨names.trans (shaped_struct.mp shaped).1, each⟩
  agree shapedA shapedB name _ := Structs.sameNames shapedA shapedB name
  numbers _ _ _ := shaped_number
  intersect _ _ _ := shaped_number
  without _ _ := shaped_ofNumbers _
  union := by
    intro numbers strings records structs _ each _
    refine shaped_ofMembers fun t mem => ?_
    rcases mem_merged.mp mem with ⟨n, _, rfl⟩ | ⟨s, _, rfl⟩ | ⟨r, memR, rfl⟩
    · exact shaped_number
    · exact shaped_string
    · exact each r memR

/-- No level clashes on shaped types, and all results are shaped. -/
theorem level_keeps_shaped (n : Nat) : (level n).Keeps False (Shaped shape) := by
  induction n with
  | zero =>
    exact ⟨fun _ _ => .pure shaped_never, fun _ _ => .pure shaped_never,
      fun _ _ => .pure shaped_never, fun _ _ => .pure trivial⟩
  | succ n ih => exact (shapedTier ih).keeps

end Algebra

namespace Ty

open TypeFlow.Algebra

theorem unionOf_shaped {items : List Ty} (shaped : ∀ t ∈ items, Shaped shape t) :
    Yields (unionOf items) (Shaped shape) :=
  (unionOver_kept (shapedTier (level_keeps_shaped _)) shaped).yields not_false

theorem intersectionOf_shaped {items : List Ty} (shaped : ∀ t ∈ items, Shaped shape t) :
    Yields (intersectionOf items) (Shaped shape) :=
  (intersectOver_kept (shapedTier (level_keeps_shaped _)) shaped).yields not_false

section Pair

variable {a b : Ty} (shapedA : Shaped shape a) (shapedB : Shaped shape b)
include shapedA shapedB

theorem without_shaped : Yields (a.without b) (Shaped shape) :=
  ((level_keeps_shaped _).without shapedA shapedB).yields not_false

theorem subset_shaped : Yields (a.subset b) fun _ => True :=
  ((level_keeps_shaped _).subset shapedA shapedB).yields not_false

theorem disjoint_shaped : Yields (a.disjoint b) fun _ => True := by
  have both : ∀ t ∈ [a, b], Shaped shape t := by simp [shapedA, shapedB]
  exact (intersectionOf_shaped both).bind fun _ _ => Yields.pure trivial

end Pair

end Ty

end TypeFlow
