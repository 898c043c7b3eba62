import Mathlib.Data.Set.Finite.List
import TypeFlow.Algebra.Strings
import TypeFlow.Proofs.Order
import TypeFlow.Ty.Value

/-!
# The algebra of string types

Union, intersection and subset of string types are exact, and difference takes texts out only when
none are left. No finite number of texts makes up all texts.
-/

namespace TypeFlow.Strings

open List hiding all
open StringTy

theorem mem_unionMembers {items : List StringTy} {s : StringTy} (mem : s ∈ unionMembers items) :
    s ∈ items := by
  unfold unionMembers at mem
  split at mem
  · next every =>
    rw [mem_singleton.mp mem]
    exact contains_iff_mem.mp every
  · exact Sorted.mem_ofList.mp mem

theorem has_unionMembers (items : List StringTy) (x : String) :
    (∃ s ∈ unionMembers items, s.has x = true) ↔ ∃ s ∈ items, s.has x = true := by
  constructor
  · rintro ⟨s, mem, has⟩
    exact ⟨s, mem_unionMembers mem, has⟩
  · rintro ⟨s, mem, has⟩
    unfold unionMembers
    split
    · exact ⟨all, mem_singleton_self _, rfl⟩
    · exact ⟨s, Sorted.mem_ofList.mpr mem, has⟩

/-- The type of all texts stands alone. -/
theorem eq_of_mem_unionMembers {items : List StringTy} {s t : StringTy}
    (memS : s ∈ unionMembers items) (memT : t ∈ unionMembers items) (every : s = all ∨ t = all) :
    s = t := by
  have all_mem : all ∈ items := by
    rcases every with rfl | rfl
    · exact mem_unionMembers memS
    · exact mem_unionMembers memT
  rw [unionMembers, if_pos (contains_iff_mem.mpr all_mem), mem_singleton] at memS memT
  rw [memS, memT]

theorem has_intersect (a b : StringTy) (x : String) :
    (∃ c ∈ intersect a b, c.has x = true) ↔ a.has x = true ∧ b.has x = true := by
  cases a with
  | all => cases b <;> simp [intersect, StringTy.has]
  | literal y =>
    cases b with
    | all => simp [intersect, StringTy.has]
    | literal z =>
      by_cases same : y = z
      · simp [intersect, StringTy.has, same]
      · simp only [intersect, if_neg same, StringTy.has, decide_eq_true_eq]
        simp only [Option.mem_def, reduceCtorEq, false_and, exists_false, false_iff]
        rintro ⟨rfl, other⟩
        exact same other

/-- String types that have all texts together have the type of all texts among them. -/
theorem all_mem_of_covered {items : List StringTy} (covered : ∀ x, ∃ s ∈ items, s.has x = true) :
    all ∈ items := by
  by_contra proper
  have literals (x : String) : literal x ∈ items := by
    obtain ⟨s, mem, has⟩ := covered x
    cases s with
    | all => exact absurd mem proper
    | literal y =>
      obtain rfl : x = y := by simpa [StringTy.has] using has
      exact mem
  let text (n : Nat) : StringTy := literal (String.ofList (List.replicate n 'a'))
  have injective : Function.Injective text := by
    intro n m same
    have lengths := congrArg String.length (literal.inj same)
    simpa using lengths
  exact Set.infinite_of_injective_forall_mem injective (fun n => literals _)
    (finite_toSet items)

theorem subset_iff {a b : StringTy} :
    subset a b = true ↔ ∀ x, a.has x = true → b.has x = true := by
  cases b with
  | all => simp [subset, StringTy.has]
  | literal y =>
    cases a with
    | literal x => simp [subset, StringTy.has]
    | all =>
      refine iff_of_false (by simp [subset]) fun every => ?_
      have mem : all ∈ [literal y] :=
        all_mem_of_covered fun x => ⟨literal y, mem_singleton_self _, every x rfl⟩
      cases mem_singleton.mp mem

/-- Texts are taken out only when none are left. -/
theorem without_cases (a b : StringTy) :
    (without a b = none ∧ ∀ x, a.has x = true → b.has x = true) ∨ without a b = some a := by
  unfold without
  split
  · next inside => exact .inl ⟨rfl, subset_iff.mp inside⟩
  · exact .inr rfl

end TypeFlow.Strings
