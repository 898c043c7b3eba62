import TypeFlow.Json.Basic
import TypeFlow.Proofs.Num.Doubles

/-!
# Values inside a value

What a JSON value in memory can be: integers have 64 bits, other numbers are finite doubles, and
an object has each key once.
-/

namespace TypeFlow.Json

open List

/-- The values right inside a value. -/
def children : Json → List Json
  | array items => items
  | object entries => entries.map (·.2)
  | _ => []

mutual
/-- A value and all values inside it. -/
def parts : Json → List Json
  | .array items => .array items :: partsOfItems items
  | .object entries => .object entries :: partsOfEntries entries
  | j => [j]
/-- `parts` of all items. -/
def partsOfItems : List Json → List Json
  | [] => []
  | j :: rest => parts j ++ partsOfItems rest
/-- `parts` of all entries. -/
def partsOfEntries : List (String × Json) → List Json
  | [] => []
  | (_, j) :: rest => parts j ++ partsOfEntries rest
end

theorem partsOfItems_eq (items : List Json) : partsOfItems items = items.flatMap parts := by
  induction items with
  | nil => rfl
  | cons j rest ih => simp [partsOfItems, ih]

theorem partsOfEntries_eq (entries : List (String × Json)) :
    partsOfEntries entries = (entries.map (·.2)).flatMap parts := by
  induction entries with
  | nil => rfl
  | cons entry rest ih => simp [partsOfEntries, ih]

theorem parts_eq (j : Json) : j.parts = j :: j.children.flatMap parts := by
  cases j <;> simp [parts, children, partsOfItems_eq, partsOfEntries_eq]

/-- A property holds of a value and of all values inside it. -/
def Everywhere (P : Json → Prop) (j : Json) : Prop := ∀ part ∈ j.parts, P part

instance (P : Json → Prop) [DecidablePred P] (j : Json) : Decidable (j.Everywhere P) :=
  inferInstanceAs (Decidable (∀ part ∈ j.parts, P part))

variable {j : Json} {items : List Json} {entries : List (String × Json)}

theorem everywhere_iff {P : Json → Prop} :
    j.Everywhere P ↔ P j ∧ ∀ child ∈ j.children, child.Everywhere P := by
  simp only [Everywhere, parts_eq j, forall_mem_cons, mem_flatMap, forall_exists_index, and_imp]
  exact and_congr_right fun _ =>
    ⟨fun each child mem part inside => each part child mem inside,
      fun each part child mem inside => each child mem part inside⟩

theorem Everywhere.mono {P Q : Json → Prop} (each : j.Everywhere P)
    (weaker : ∀ part, P part → Q part) : j.Everywhere Q :=
  fun part inside => weaker part (each part inside)

/-- Integers have 64 bits, and other numbers are finite doubles. -/
def ExactHere : Json → Prop
  | int n => -2 ^ 63 ≤ n ∧ n < 2 ^ 64
  | float w => w.value.isFinite = true ∧ w.value.IsDouble
  | _ => True

/-- All integers in a value have 64 bits, and all other numbers are finite doubles. -/
def Exact (j : Json) : Prop := j.Everywhere ExactHere

theorem exact_scalar (plain : j.children = []) (here : j.ExactHere) : j.Exact :=
  everywhere_iff.mpr ⟨here, by simp [plain]⟩

theorem exact_array : (array items).Exact ↔ ∀ j ∈ items, j.Exact := by
  rw [Exact, everywhere_iff]
  exact and_iff_right trivial

theorem exact_object : (object entries).Exact ↔ ∀ entry ∈ entries, entry.2.Exact := by
  rw [Exact, everywhere_iff]
  exact (and_iff_right trivial).trans forall_mem_map

/-- Integers have 64 bits, other numbers are finite doubles, and no key is repeated. -/
def StorableHere : Json → Prop
  | object entries => (entries.map (·.1)).Nodup
  | j => j.ExactHere

/-- A value that can be in memory. -/
def Storable (j : Json) : Prop := j.Everywhere StorableHere

instance : DecidablePred ExactHere := fun j => by
  rcases j <;> dsimp only [ExactHere] <;> infer_instance

instance : DecidablePred StorableHere := fun j => by
  rcases j <;> dsimp only [StorableHere] <;> infer_instance

instance (j : Json) : Decidable j.Storable :=
  inferInstanceAs (Decidable (j.Everywhere StorableHere))

theorem Storable.exact (storable : j.Storable) : j.Exact := by
  refine Everywhere.mono storable fun part here => ?_
  cases part with
  | object _ => trivial
  | _ => exact here

theorem storable_scalar (plain : j.children = []) (here : j.StorableHere) : j.Storable :=
  everywhere_iff.mpr ⟨here, by simp [plain]⟩

@[simp] theorem storable_string (s : String) : (string s).Storable := storable_scalar rfl trivial

@[simp] theorem storable_bool (b : Bool) : (bool b).Storable := storable_scalar rfl trivial

theorem storable_natCast {n : Nat} (small : n < 2 ^ 32) : (int n).Storable :=
  storable_scalar rfl ⟨by omega, by omega⟩

theorem storable_array : (array items).Storable ↔ ∀ j ∈ items, j.Storable := by
  rw [Storable, everywhere_iff]
  exact and_iff_right trivial

theorem storable_object : (object entries).Storable ↔
      (entries.map (·.1)).Nodup ∧ ∀ entry ∈ entries, entry.2.Storable := by
  rw [Storable, everywhere_iff]
  exact and_congr_right fun _ => forall_mem_map

theorem depthItems_ge (mem : j ∈ items) : j.depth ≤ depthItems items := by
  induction items with
  | nil => cases mem
  | cons first rest ih =>
    rcases mem_cons.mp mem with rfl | later
    · exact le_max_left _ _
    · exact (ih later).trans (le_max_right _ _)

theorem depthEntries_ge {entry : String × Json}
    (mem : entry ∈ entries) : entry.2.depth ≤ depthEntries entries := by
  induction entries with
  | nil => cases mem
  | cons first rest ih =>
    rcases mem_cons.mp mem with rfl | later
    · exact le_max_left _ _
    · exact (ih later).trans (le_max_right _ _)

theorem depth_lt_of_mem_children {j child : Json} (mem : child ∈ j.children) :
    child.depth < j.depth := by
  cases j with
  | array items => exact Nat.lt_succ_of_le (depthItems_ge mem)
  | object entries =>
    obtain ⟨entry, inside, rfl⟩ := mem_map.mp mem
    exact Nat.lt_succ_of_le (depthEntries_ge inside)
  | _ => cases mem

end TypeFlow.Json
