import TypeFlow.Proofs.Algebra.Intersection
import TypeFlow.Proofs.Algebra.Subset

/-!
# All levels of the algebra

The lowest level is lawful because no type is nested less than not at all, and a level above a
lawful one is lawful. So every level is, and an operation on types runs at a level above their
nesting: what holds of one level holds of the operations themselves.
-/

namespace TypeFlow

open Ty

namespace Algebra

variable {inv : Invariant}

theorem lawful_ground : inv.Lawful 0 ground where
  union items nonempty fits := by
    obtain ⟨t, mem⟩ := List.exists_mem_of_ne_nil items nonempty
    exact absurd (fits t mem).pos (Nat.lt_irrefl 0)
  intersect _ _ fits _ := absurd fits.pos (Nat.lt_irrefl 0)
  without _ _ fits _ := absurd fits.pos (Nat.lt_irrefl 0)
  subset _ _ fits _ := absurd fits.pos (Nat.lt_irrefl 0)

theorem lawful_above {n : Nat} {lower : Algebra} (lawful : inv.Lawful n lower) :
    inv.Lawful (n + 1) (above lower) where
  union _ _ fits := unionOver_exact lawful fits
  intersect a b fitsA fitsB := by
    have fits : ∀ t ∈ [a, b], inv.Fits (n + 1) t := by simpa using ⟨fitsA, fitsB⟩
    refine (intersectOver_exact lawful fits).mono fun u ⟨fitsU, values⟩ => ⟨fitsU, fun v => ?_⟩
    simpa using values v
  without _ _ fitsA fitsB := withoutOver_exact lawful fitsA fitsB
  subset _ _ fitsA fitsB := subsetOver_decides lawful fitsA fitsB

theorem lawful_level (n : Nat) : inv.Lawful n (level n) := by
  induction n with
  | zero => exact lawful_ground
  | succ n ih => exact lawful_above ih

end Algebra

namespace Invariant

variable (inv : Invariant)

/-- A type keeps the invariant, however deep it is nested. -/
def Keeps (t : Ty) : Prop := Sound inv.shape t ∧ inv.Extra t

variable {inv}

theorem Keeps.fits {t : Ty} (keeps : inv.Keeps t) {n : Nat} (nested : t.nesting < n) :
    inv.Fits n t :=
  ⟨keeps.1, keeps.2, nested⟩

theorem Fits.keeps {n : Nat} {t : Ty} (fits : inv.Fits n t) : inv.Keeps t := ⟨fits.1, fits.2.1⟩

theorem fits_nestingItems {items : List Ty} (keeps : ∀ t ∈ items, inv.Keeps t) :
    ∀ t ∈ items, inv.Fits (nestingItems items + 1) t :=
  fun t mem => (keeps t mem).fits ((nestingItems_lt.mp (Nat.lt_succ_self _)).2 t mem)

theorem unionOf_yields {items : List Ty} (keeps : ∀ t ∈ items, inv.Keeps t) :
    Yields (unionOf items) fun u => inv.Keeps u ∧ ∀ v, v ∈ u ↔ ∃ t ∈ items, v ∈ t :=
  (Algebra.unionOver_exact (Algebra.lawful_level _) (fits_nestingItems keeps)).mono
    fun _ ⟨fits, values⟩ => ⟨fits.keeps, values⟩

theorem intersectionOf_yields {items : List Ty} (keeps : ∀ t ∈ items, inv.Keeps t) :
    Yields (intersectionOf items) fun u => inv.Keeps u ∧ ∀ v, v ∈ u ↔ ∀ t ∈ items, v ∈ t :=
  (Algebra.intersectOver_exact (Algebra.lawful_level _) (fits_nestingItems keeps)).mono
    fun _ ⟨fits, values⟩ => ⟨fits.keeps, values⟩

section Pair

variable {a b : Ty} (keepsA : inv.Keeps a) (keepsB : inv.Keeps b)
include keepsA keepsB

theorem fits_pair : inv.Fits (max a.nesting b.nesting + 1) a ∧
    inv.Fits (max a.nesting b.nesting + 1) b :=
  ⟨keepsA.fits (Nat.lt_succ_of_le (Nat.le_max_left _ _)),
    keepsB.fits (Nat.lt_succ_of_le (Nat.le_max_right _ _))⟩

/-- The difference of types that keep the invariant is between the two bounds and keeps it. -/
theorem without_yields : Yields (a.without b) fun u => inv.Keeps u ∧
    ∀ v, (v ∈ u → v ∈ a) ∧ (v ∈ a → ¬ v ∈ b → v ∈ u) := by
  obtain ⟨fitsA, fitsB⟩ := fits_pair keepsA keepsB
  exact ((Algebra.lawful_level _).without a b fitsA fitsB).mono
    fun _ ⟨fits, values⟩ => ⟨fits.keeps, values⟩

/-- Nothing is left of numbers that are all of the other type. -/
theorem without_eq_never (numeric : Numeric a) (inside : ∀ v, v ∈ a → v ∈ b) :
    Yields (a.without b) (· = never) := by
  obtain ⟨fitsA, fitsB⟩ := fits_pair keepsA keepsB
  exact Algebra.withoutOver_eq_never (Algebra.lawful_level _) fitsA fitsB numeric inside

theorem subset_decides : Decides (a.subset b) (Inside a b) := by
  obtain ⟨fitsA, fitsB⟩ := fits_pair keepsA keepsB
  exact (Algebra.lawful_level _).subset a b fitsA fitsB

theorem disjoint_decides : Decides (a.disjoint b) (∀ v, ¬ (v ∈ a ∧ v ∈ b)) := by
  have keeps : ∀ t ∈ [a, b], inv.Keeps t := by simpa using ⟨keepsA, keepsB⟩
  refine Yields.bind (intersectionOf_yields keeps) fun u ⟨keepsU, values⟩ => Decides.pure ?_
  have both (v : Value) : v ∈ u ↔ v ∈ a ∧ v ∈ b := by simpa using values v
  simp only [isNever_iff, eq_never_iff keepsU.1, both]

end Pair

end Invariant

end TypeFlow
