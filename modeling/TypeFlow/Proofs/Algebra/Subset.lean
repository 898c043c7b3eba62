import TypeFlow.Proofs.Algebra.Exhaustion

/-!
# Subset of types

Over a lawful level, the subset test decides `Inside`. Texts and structs are compared with the
members of the other type one by one. Numbers may be covered by several members together: these
are taken out in canonical order, and if they cover all numbers, nothing is left in the end.
-/

namespace TypeFlow

open Ty

namespace Ty

/-- All values of the type are numbers. -/
def Numeric (t : Ty) : Prop := ∀ v, v ∈ t → ∃ x, v = .number x

theorem Numeric.ne_any {t : Ty} (numeric : Numeric t) : t ≠ any := by
  rintro rfl
  obtain ⟨x, same⟩ := numeric (.string "") (mem_any _)
  cases same

theorem inside_union_of_struct {name : String} {fields : List (String × Ty)} {items : List Ty}
    (values : ∀ t ∈ items, t.isValue = true) :
    (∃ t ∈ items, Inside (struct name fields) t) ↔
      Inside (struct name fields) (union items) := by
  constructor
  · rintro ⟨t, mem, rfl | ⟨fields', found, fieldwise⟩⟩
    · cases values any mem
    · rw [members_of_isValue (values t mem), List.mem_singleton] at found
      exact .inr ⟨fields', found ▸ mem, fieldwise⟩
  · rintro (same | ⟨fields', found, fieldwise⟩)
    · cases same
    · exact ⟨_, found, .inr ⟨fields', List.mem_singleton_self _, fieldwise⟩⟩

end Ty

namespace Algebra

variable {inv : Invariant} {n : Nat} {lower : Algebra} (lawful : inv.Lawful n lower)
include lawful

theorem withoutOver_eq_never {a b : Ty} (fitsA : inv.Fits (n + 1) a) (fitsB : inv.Fits (n + 1) b)
    (numeric : Numeric a) (inside : ∀ v, v ∈ a → v ∈ b) :
    Yields (withoutOver lower a b) (· = never) := by
  have records := withoutOver_leaves_records lawful fitsA fitsB numeric.ne_any
    fun v member => .inl (inside v member)
  refine ((withoutOver_exact lawful fitsA fitsB).and records).mono ?_
  rintro u ⟨⟨fits, values⟩, records⟩
  refine (eq_never_iff fits.1).mpr fun v member => ?_
  obtain ⟨x, rfl⟩ := numeric v ((values v).1 member)
  obtain ⟨name, fields, same⟩ := records _ member
  cases same

/-- Numbers are inside a union when nothing is left of them without it. -/
theorem subset_numbers {x : NumberTy} {b : Ty} (fitsX : inv.Fits (n + 1) (number x))
    (fitsB : inv.Fits (n + 1) b) :
    Decides (do return (← withoutOver lower (number x) b).isNever) (Inside (number x) b) := by
  obtain ⟨u, same, fitsU, values⟩ := withoutOver_exact lawful fitsX fitsB
  rw [same]
  refine Decides.pure ?_
  rw [isNever_iff]
  constructor
  · intro empty y member
    by_contra outside
    have left := (values (.number y)).2 (mem_number_iff.mpr member) outside
    exact not_mem_never _ (empty ▸ left)
  · intro inside
    have numeric : Numeric (number x) := fun v member => by
      obtain ⟨y, same, _⟩ := exists_number_of_mem member
      exact ⟨y, same⟩
    -- The difference was computed above; here is what else is known of its result.
    obtain ⟨w, same', empty⟩ := withoutOver_eq_never lawful fitsX fitsB numeric inside.mem
    rw [same] at same'
    cases same'
    exact empty

/-- Numbers, texts and structs are compared by what they have. -/
theorem subsetValue_decides {a b : Ty} (fitsA : inv.Fits (n + 1) a) (fitsB : inv.Fits (n + 1) b)
    (valueA : a.isValue = true) (valueB : b.isValue = true) :
    Decides (subsetValue lower a b) (Inside a b) := by
  have apart (differ : a.kind? ≠ b.kind?) : Decides (return false) (Inside a b) := by
    refine Decides.pure (iff_of_false Bool.false_ne_true fun inside => differ ?_)
    exact inside.kind?_eq fitsA.1.wellFormed valueA valueB
  cases a with
  | number x =>
    cases b with
    | number y =>
      have validX := (sound_number.mp fitsA.1).valid
      have validY := (sound_number.mp fitsB.1).valid
      refine Decides.pure ⟨fun inside z member => ?_, fun inside => ?_⟩
      · exact mem_number_iff.mpr (Numbers.has_of_subset inside member)
      · exact Numbers.subset_of_has validX validY fun z member =>
          mem_number_iff.mp (inside z member)
    | string y => exact apart (by simp [kind?])
    | struct name fields => exact apart (by simp [kind?])
    | _ => cases valueB
  | string x =>
    cases b with
    | number y => exact apart (by simp [kind?])
    | string y =>
      refine Decides.pure (Strings.subset_iff.trans (forall₂_congr fun z _ => ?_))
      rw [mem_string_iff]
    | struct name fields => exact apart (by simp [kind?])
    | _ => cases valueB
  | struct name fields =>
    cases b with
    | number y => exact apart (by simp [kind?])
    | string y => exact apart (by simp [kind?])
    | struct name' fields' =>
      exact Structs.subset_decides (a := ⟨name, fields⟩) (b := ⟨name', fields'⟩) lawful fitsA fitsB
    | _ => cases valueB
  | _ => cases valueA

/-- A type that is not a union is compared with all or with each of the members. -/
theorem subsetMember_decides {a b : Ty} (fitsA : inv.Fits (n + 1) a) (fitsB : inv.Fits (n + 1) b)
    (valueA : a.isValue = true) (properB : b ≠ never ∧ b ≠ any) :
    Decides (subsetMember lower a b) (Inside a b) := by
  cases b with
  | never => exact absurd rfl properB.1
  | any => exact absurd rfl properB.2
  | union items =>
    have values := (sound_union.mp fitsB.1).1.2.1
    have each : Decides (items.anyM fun m => subsetValue lower a m) (∃ m ∈ items, Inside a m) :=
      Decides.anyM fun m mem => subsetValue_decides lawful fitsA (fitsB.of_mem_members mem) valueA
        (values m mem)
    cases a with
    | number x => exact subset_numbers lawful fitsA fitsB
    | string x => exact each.congr (inside_union_of_string values)
    | struct name fields => exact each.congr (inside_union_of_struct values)
    | _ => cases valueA
  | _ => cases a <;> exact subsetValue_decides lawful fitsA fitsB valueA rfl

theorem subsetOver_decides {a b : Ty} (fitsA : inv.Fits (n + 1) a) (fitsB : inv.Fits (n + 1) b) :
    Decides (subsetOver lower a b) (Inside a b) := by
  have every : b = any → Decides (return true) (Inside a b) := by
    rintro rfl
    exact Decides.pure (iff_of_true rfl (inside_any a))
  have empty (proper : a ≠ never) : b = never → Decides (return false) (Inside a b) := by
    rintro rfl
    refine Decides.pure (iff_of_false Bool.false_ne_true fun inside => ?_)
    obtain ⟨v, member⟩ := exists_mem a fitsA.1.wellFormed proper
    exact not_mem_never v (inside.mem v member)
  cases a with
  | never => exact Decides.pure (iff_of_true rfl trivial)
  | any =>
    cases b with
    | any => exact every rfl
    | _ => exact Decides.pure (iff_of_false Bool.false_ne_true Ty.noConfusion)
  | union items =>
    cases b with
    | any => exact every rfl
    | never => exact empty Ty.noConfusion rfl
    | _ =>
      refine Decides.congr (Decides.allM fun m mem => ?_) inside_union.symm
      exact subsetMember_decides lawful (fitsA.of_mem_members mem) fitsB
        ((sound_union.mp fitsA.1).1.2.1 m mem) ⟨Ty.noConfusion, Ty.noConfusion⟩
  | _ =>
    cases b with
    | any => exact every rfl
    | never => exact empty Ty.noConfusion rfl
    | _ => exact subsetMember_decides lawful fitsA fitsB rfl ⟨Ty.noConfusion, Ty.noConfusion⟩

end Algebra

end TypeFlow
