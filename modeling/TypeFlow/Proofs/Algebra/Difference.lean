import TypeFlow.Proofs.Algebra.Union

/-!
# Difference of types

Over a lawful level, what is left of a type when another one is taken out has only values of the
first type and all of them that the second one lacks. Some values of both may stay: no type has all
texts but one, and a struct keeps its fields unless only one of them differs. Of the numbers
in particular no more is left than the difference of the number types says.
-/

namespace TypeFlow

open List hiding any
open Ty

namespace Algebra

/-- What is left of one type when another one is taken out. -/
structure Leaves (inv : Invariant) (n : Nat) (a b u : Ty) : Prop where
  fits : inv.Fits n u
  of_mem : ∀ v, v ∈ u → v ∈ a
  mem : ∀ v, v ∈ a → ¬ v ∈ b → v ∈ u
  numbers : ∀ x y, b = number y → Value.number x ∈ u →
    a = any ∨ ∃ p, number p ∈ a.members ∧ ∃ c ∈ Numbers.without p y, c.has x = true

namespace Leaves

variable {inv : Invariant} {n : Nat} {a b : Ty}

/-- Nothing is left of a type inside the other one. -/
theorem never (pos : 0 < n) (every : ∀ v, v ∈ a → v ∈ b) : Leaves inv n a b never where
  fits := Invariant.fits_never pos
  of_mem v left := absurd left (not_mem_never v)
  mem v member outside := absurd (every v member) outside
  numbers _ _ _ left := absurd left (not_mem_never _)

/-- All is left, unless a number is taken out of numbers. -/
theorem self (fits : inv.Fits n a) (single : Single a)
    (apart : ∀ x y, a = number x → b ≠ number y) : Leaves inv n a b a where
  fits := fits
  of_mem _ left := left
  mem _ member _ := member
  numbers x y same left := by
    cases a with
    | number z => exact absurd same (apart z y rfl)
    | any => exact .inl rfl
    | union items => exact absurd rfl (single items)
    | _ => simp [mem_iff, has] at left

end Leaves

variable {inv : Invariant} {n : Nat} {lower : Algebra}

section Numbers

variable {items : List NumberTy} (tame : ∀ m ∈ items, m.Tame)
include tame

theorem mem_ofNumbers (v : Value) : v ∈ ofNumbers items ↔ ∃ m ∈ items, v ∈ number m := by
  rw [ofNumbers, mem_ofMembers, ← mem_numbers_congr (Numbers.has_unionMembers tame) v]
  simp only [mem_map, exists_exists_and_eq_and]

theorem fits_ofNumbers : inv.Fits (n + 1) (ofNumbers items) := by
  have fits : inv.Fits (n + 1)
      (ofMembers (merged (Numbers.unionMembers items) (Strings.unionMembers []) [])) :=
    fits_merged tame (by simp) (by simp [Structs.Settled])
  simpa [merged, ofNumbers, Strings.unionMembers, Sorted.ofList] using fits

end Numbers

theorem leaves_numbers {x y : NumberTy} (tameX : x.Tame) (tameY : y.Tame) :
    Leaves inv (n + 1) (number x) (number y) (ofNumbers (Numbers.without x y)) := by
  have tame : ∀ c ∈ Numbers.without x y, c.Tame := fun c => Numbers.tame_without tameX tameY
  constructor
  case fits => exact fits_ofNumbers tame
  case of_mem =>
    intro v left
    obtain ⟨c, piece, member⟩ := (mem_ofNumbers tame v).mp left
    obtain ⟨z, rfl, member⟩ := exists_number_of_mem member
    exact mem_number_iff.mpr (Numbers.has_of_has_without tameX.valid tameY.outward piece member)
  case mem =>
    intro v member outside
    obtain ⟨z, rfl, member⟩ := exists_number_of_mem member
    rw [mem_number_iff] at outside
    obtain ⟨c, piece, member⟩ := Numbers.exists_has_without tameX tameY member outside
    exact (mem_ofNumbers tame _).mpr ⟨c, piece, mem_number_iff.mpr member⟩
  case numbers =>
    rintro z _ ⟨⟩ left
    obtain ⟨c, piece, member⟩ := (mem_ofNumbers tame _).mp left
    exact .inr ⟨x, mem_singleton_self _, c, piece, mem_number_iff.mp member⟩

theorem leaves_strings (x y : StringTy) :
    Leaves inv (n + 1) (string x) (string y) ((Strings.without x y).elim never string) := by
  have pos := Nat.succ_pos n
  rcases Strings.without_cases x y with ⟨none, every⟩ | some
  · rw [none]
    refine Leaves.never pos fun v member => ?_
    obtain ⟨z, rfl, member⟩ := exists_string_of_mem member
    exact mem_string_iff.mpr (every z member)
  · rw [some]
    exact Leaves.self (Invariant.fits_string pos) (fun _ => Ty.noConfusion) (by simp)

section Difference

variable (lawful : inv.Lawful n lower)
include lawful

variable {a b : Ty} {items : List Ty}

theorem withoutValue_leaves (fitsA : inv.Fits (n + 1) a) (fitsB : inv.Fits (n + 1) b)
    (single : Single a) : Yields (withoutValue lower a b) (Leaves inv (n + 1) a b) := by
  have whole (apart : ∀ x y, a = number x → b ≠ number y) :
      Yields (return a) (Leaves inv (n + 1) a b) :=
    Yields.pure (Leaves.self fitsA single apart)
  cases a with
  | number x =>
    cases b with
    | number y =>
      exact Yields.pure (leaves_numbers (sound_number.mp fitsA.1) (sound_number.mp fitsB.1))
    | _ => exact whole (by simp)
  | string x =>
    cases b with
    | string y => exact Yields.pure (leaves_strings x y)
    | _ => exact whole (by simp)
  | struct name fields =>
    cases b with
    | struct name' fields' =>
      have exact := Structs.without_exact (a := ⟨name, fields⟩) (b := ⟨name', fields'⟩) lawful
        fitsA fitsB
      refine exact.mono fun u ⟨fits, values⟩ => ?_
      exact ⟨fits, fun v => (values v).1, fun v => (values v).2, fun _ _ => Ty.noConfusion⟩
    | _ => exact whole (by simp)
  | _ => exact whole (by simp)

theorem withoutValue_of_inside (fitsA : inv.Fits (n + 1) a) (fitsB : inv.Fits (n + 1) b)
    (valueA : a.isValue = true) (valueB : b.isValue = true)
    (inside : Inside a b) : Yields (withoutValue lower a b) (· = never) := by
  have kinds := inside.kind?_eq fitsA.1.wellFormed valueA valueB
  cases a with
  | number x =>
    obtain ⟨y, rfl⟩ : ∃ y, b = number y := by cases b <;> simp_all [kind?]
    have subset : Numbers.subset x y = true :=
      Numbers.subset_of_has (sound_number.mp fitsA.1).valid (sound_number.mp fitsB.1).valid
        fun z member => mem_number_iff.mp (inside z member)
    refine Yields.pure ?_
    rw [Numbers.without_of_subset subset]
    rfl
  | string x =>
    obtain ⟨y, rfl⟩ : ∃ y, b = string y := by cases b <;> simp_all [kind?]
    have subset : Strings.subset x y = true :=
      Strings.subset_iff.mpr fun z member => mem_string_iff.mp (inside z member)
    refine Yields.pure ?_
    rw [Strings.without, if_pos subset]
    rfl
  | struct name fields =>
    obtain ⟨name', fields', rfl⟩ : ∃ name' fields', b = struct name' fields' := by
      cases b <;> simp_all [kind?]
    exact Structs.without_of_inside (a := ⟨name, fields⟩) (b := ⟨name', fields'⟩) lawful fitsA
      fitsB inside
  | _ => cases valueA

/-- What is left of a number, text or struct type is left because it is not inside the other. -/
theorem withoutValue_escapes (fitsA : inv.Fits (n + 1) a) (fitsB : inv.Fits (n + 1) b)
    (valueA : a.isValue = true) (valueB : b.isValue = true) :
    Yields (withoutValue lower a b) fun u =>
      inv.Fits (n + 1) u ∧ ∀ v, v ∈ u → v ∈ a ∧ ¬ Inside a b := by
  by_cases inside : Inside a b
  · refine (withoutValue_of_inside lawful fitsA fitsB valueA valueB inside).mono ?_
    rintro _ rfl
    exact ⟨Invariant.fits_never (Nat.succ_pos n), fun v left => absurd left (not_mem_never v)⟩
  · refine (withoutValue_leaves lawful fitsA fitsB (single_of_isValue valueA)).mono ?_
    exact fun u leaves => ⟨leaves.fits, fun v left => ⟨leaves.of_mem v left, inside⟩⟩

theorem withoutItems_leaves (fitsA : inv.Fits (n + 1) (Ty.union items))
    (fitsB : inv.Fits (n + 1) b) :
    Yields (do unionOver lower (← items.mapM fun m => withoutValue lower m b))
      (Leaves inv (n + 1) (Ty.union items) b) := by
  have values := (sound_union.mp fitsA.1).1.2.1
  have step : Yields (items.mapM fun m => withoutValue lower m b)
      (Forall₂ (Leaves inv (n + 1) · b) items) :=
    Yields.mapM fun m mem => withoutValue_leaves lawful (fitsA.of_mem_members mem) fitsB
      (single_of_isValue (values m mem))
  refine Yields.bind step fun parts leaves => ?_
  have fits : ∀ p ∈ parts, inv.Fits (n + 1) p := by
    intro p mem
    obtain ⟨m, _, left⟩ := exists_left_of_forall₂ leaves mem
    exact left.fits
  refine (unionOver_exact lawful fits).mono fun u ⟨fitsU, valuesU⟩ => ?_
  constructor
  case fits => exact fitsU
  case of_mem =>
    intro v member
    obtain ⟨p, memP, member⟩ := (valuesU v).mp member
    obtain ⟨m, memM, left⟩ := exists_left_of_forall₂ leaves memP
    exact (mem_union_iff items v).mpr ⟨m, memM, left.of_mem v member⟩
  case mem =>
    intro v member outside
    obtain ⟨m, memM, member⟩ := (mem_union_iff items v).mp member
    obtain ⟨p, memP, left⟩ := exists_right_of_forall₂ leaves memM
    exact (valuesU v).mpr ⟨p, memP, left.mem v member outside⟩
  case numbers =>
    intro x y same member
    obtain ⟨p, memP, member⟩ := (valuesU _).mp member
    obtain ⟨m, memM, left⟩ := exists_left_of_forall₂ leaves memP
    rcases left.numbers x y same member with rfl | ⟨q, memQ, piece⟩
    · cases values any memM
    · rw [members_of_isValue (values m memM), mem_singleton] at memQ
      exact .inr ⟨q, memQ ▸ memM, piece⟩

/-- What is left of a union comes from items that are not inside the other type. -/
theorem withoutItems_escapes (fitsA : inv.Fits (n + 1) (Ty.union items))
    (fitsB : inv.Fits (n + 1) b) (valueB : b.isValue = true) :
    Yields (do unionOver lower (← items.mapM fun m => withoutValue lower m b)) fun u =>
      ∀ v, v ∈ u → ∃ m ∈ items, v ∈ m ∧ ¬ Inside m b := by
  have values := (sound_union.mp fitsA.1).1.2.1
  have step : Yields (items.mapM fun m => withoutValue lower m b) (Forall₂
      (fun m u => inv.Fits (n + 1) u ∧ ∀ v, v ∈ u → v ∈ m ∧ ¬ Inside m b) items) :=
    Yields.mapM fun m mem => withoutValue_escapes lawful (fitsA.of_mem_members mem) fitsB
      (values m mem) valueB
  refine Yields.bind step fun parts each => ?_
  have fits : ∀ p ∈ parts, inv.Fits (n + 1) p := by
    intro p mem
    obtain ⟨m, _, fits, _⟩ := exists_left_of_forall₂ each mem
    exact fits
  refine (unionOver_exact lawful fits).mono fun u ⟨_, valuesU⟩ v left => ?_
  obtain ⟨p, memP, left⟩ := (valuesU v).mp left
  obtain ⟨m, memM, _, escapes⟩ := exists_left_of_forall₂ each memP
  exact ⟨m, memM, escapes v left⟩

theorem withoutMember_leaves (fitsA : inv.Fits (n + 1) a)
    (fitsB : inv.Fits (n + 1) b) : Yields (withoutMember lower a b) (Leaves inv (n + 1) a b) := by
  have pos := Nat.succ_pos n
  have none : b = any → Yields (return never) (Leaves inv (n + 1) a b) := by
    rintro rfl
    exact Yields.pure (Leaves.never pos fun v _ => mem_any v)
  have all (empty : b = never) : Yields (return a) (Leaves inv (n + 1) a b) := by
    refine Yields.pure ⟨fitsA, fun _ => id, fun _ member _ => member, fun x y same => ?_⟩
    rw [empty] at same
    cases same
  cases a with
  | never => exact Yields.pure (Leaves.never pos fun v member => absurd member (not_mem_never v))
  | any =>
    cases b with
    | any => exact none rfl
    | never => exact all rfl
    | _ => exact Yields.pure (Leaves.self fitsA (fun _ => Ty.noConfusion) (by simp))
  | union items =>
    cases b with
    | any => exact none rfl
    | never => exact all rfl
    | _ => exact withoutItems_leaves lawful fitsA fitsB
  | _ =>
    cases b with
    | any => exact none rfl
    | never => exact all rfl
    | _ => exact withoutValue_leaves lawful fitsA fitsB fun _ => Ty.noConfusion

/-- What is left comes from members that are not inside the other type. -/
theorem withoutMember_escapes (fitsA : inv.Fits (n + 1) a) (fitsB : inv.Fits (n + 1) b)
    (valueB : b.isValue = true) :
    Yields (withoutMember lower a b) fun u =>
      ∀ v, v ∈ u → ∃ m ∈ a.members, v ∈ m ∧ ¬ Inside m b := by
  have single (value : a.isValue = true) : Yields (withoutValue lower a b) fun u =>
      ∀ v, v ∈ u → ∃ m ∈ a.members, v ∈ m ∧ ¬ Inside m b := by
    refine (withoutValue_escapes lawful fitsA fitsB value valueB).mono fun u escapes v left => ?_
    rw [members_of_isValue value]
    exact ⟨a, mem_singleton_self a, escapes.2 v left⟩
  cases b with
  | never => cases valueB
  | union items => cases valueB
  | any => cases valueB
  | _ =>
    cases a with
    | never => exact Yields.pure fun v left => absurd left (not_mem_never v)
    | any =>
      exact Yields.pure fun v _ => ⟨any, mem_singleton_self any, mem_any v, Ty.noConfusion⟩
    | union items => exact withoutItems_escapes lawful fitsA fitsB valueB
    | _ => exact single rfl

theorem withoutEach_exact (fitsA : inv.Fits (n + 1) a) (each : ∀ t ∈ items, inv.Fits (n + 1) t) :
    Yields (withoutEach lower a items) fun u => inv.Fits (n + 1) u ∧
      ∀ v, (v ∈ u → v ∈ a) ∧ (v ∈ a → (∀ t ∈ items, ¬ v ∈ t) → v ∈ u) := by
  induction items generalizing a with
  | nil => exact Yields.pure ⟨fitsA, fun v => ⟨id, fun member _ => member⟩⟩
  | cons b rest ih =>
    refine Yields.bind (withoutMember_leaves lawful fitsA (each b mem_cons_self))
      fun left leaves => ?_
    split
    · refine Yields.pure ⟨leaves.fits, fun v => ⟨leaves.of_mem v, fun member outside => ?_⟩⟩
      exact leaves.mem v member (outside b mem_cons_self)
    · have next := ih leaves.fits fun t mem => each t (mem_cons_of_mem b mem)
      refine next.mono fun u ⟨fits, values⟩ => ⟨fits, fun v => ⟨fun member => ?_, ?_⟩⟩
      · exact leaves.of_mem v ((values v).1 member)
      · intro member outside
        exact (values v).2 (leaves.mem v member (outside b mem_cons_self))
          fun t mem => outside t (mem_cons_of_mem b mem)

/-- The difference has only values of the first type, and those that the second one lacks. -/
theorem withoutOver_exact (fitsA : inv.Fits (n + 1) a) (fitsB : inv.Fits (n + 1) b) :
    Yields (withoutOver lower a b) fun u => inv.Fits (n + 1) u ∧
      ∀ v, (v ∈ u → v ∈ a) ∧ (v ∈ a → ¬ v ∈ b → v ∈ u) := by
  have member : Yields (withoutMember lower a b) fun u => inv.Fits (n + 1) u ∧
      ∀ v, (v ∈ u → v ∈ a) ∧ (v ∈ a → ¬ v ∈ b → v ∈ u) :=
    (withoutMember_leaves lawful fitsA fitsB).mono fun u leaves =>
      ⟨leaves.fits, fun v => ⟨leaves.of_mem v, leaves.mem v⟩⟩
  cases b with
  | union items =>
    have each : Yields (withoutEach lower a items) fun u => inv.Fits (n + 1) u ∧
        ∀ v, (v ∈ u → v ∈ a) ∧ (v ∈ a → ¬ v ∈ Ty.union items → v ∈ u) := by
      refine (withoutEach_exact lawful fitsA fun t mem => fitsB.of_mem_members mem).mono
        fun u ⟨fits, values⟩ => ⟨fits, fun v => ⟨(values v).1, fun member outside => ?_⟩⟩
      exact (values v).2 member fun t mem has =>
        outside ((mem_union_iff items v).mpr ⟨t, mem, has⟩)
    cases a with
    | never => exact Yields.pure ⟨fitsA, fun v => ⟨id, fun member _ => member⟩⟩
    | any => exact Yields.pure ⟨fitsA, fun v => ⟨id, fun member _ => member⟩⟩
    | _ => exact each
  | _ =>
    cases a with
    | never => exact Yields.pure ⟨fitsA, fun v => ⟨id, fun member _ => member⟩⟩
    | _ => exact member

end Difference

end Algebra

end TypeFlow
