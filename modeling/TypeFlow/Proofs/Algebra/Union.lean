import TypeFlow.Proofs.Algebra.Merging
import TypeFlow.Proofs.Algebra.Strings

/-!
# Union of types

Over a lawful level, union sorts the members of all types by kind, merges each kind, and ends in
the type of what is left: it has exactly the values of the given types, and no two of its members
could be merged.
-/

namespace TypeFlow

open List Ty

namespace Ty

theorem number?_eq_some_iff {t : Ty} {n : NumberTy} : t.number? = some n ↔ t = number n := by
  cases t <;> simp [number?]

theorem string?_eq_some_iff {t : Ty} {s : StringTy} : t.string? = some s ↔ t = string s := by
  cases t <;> simp [string?]

theorem isAny_iff {t : Ty} : t.isAny = true ↔ t = any := by cases t <;> simp [isAny]

/-- The members of a sound type are numbers, texts and structs, or it is `any`. -/
theorem isValue_of_mem_members {shape : String → List String} {t m : Ty} (sound : Sound shape t)
    (proper : t ≠ any) (mem : m ∈ t.members) : m.isValue = true := by
  cases t with
  | never => cases mem
  | union items => exact (sound_union.mp sound).1.2.1 m mem
  | any => exact absurd rfl proper
  | _ =>
    rw [mem_singleton.mp mem]
    rfl

theorem exists_mem_flatMap_members {items : List Ty} {v : Value} :
    (∃ m ∈ items.flatMap members, v ∈ m) ↔ ∃ t ∈ items, v ∈ t := by
  constructor
  · rintro ⟨m, mem, has⟩
    obtain ⟨t, memT, mem⟩ := mem_flatMap.mp mem
    exact ⟨t, memT, (mem_iff_members t v).mpr ⟨m, mem, has⟩⟩
  · rintro ⟨t, memT, has⟩
    obtain ⟨m, mem, has⟩ := (mem_iff_members t v).mp has
    exact ⟨m, mem_flatMap.mpr ⟨t, memT, mem⟩, has⟩

/-- A value of one of several numbers, texts and structs belongs to one of these kinds. -/
theorem mem_by_kind {members : List Ty} (values : ∀ m ∈ members, m.isValue = true) {v : Value} :
    (∃ m ∈ members, v ∈ m) ↔
      (∃ n ∈ members.filterMap number?, v ∈ number n) ∨
      (∃ s ∈ members.filterMap string?, v ∈ string s) ∨
      Structs.Covers (members.filterMap record?) v := by
  simp only [Structs.Covers, mem_filterMap, number?_eq_some_iff, string?_eq_some_iff,
    Structs.record?_eq_some_iff]
  constructor
  · rintro ⟨m, mem, has⟩
    have value := values m mem
    cases m with
    | number n => exact .inl ⟨n, ⟨_, mem, rfl⟩, has⟩
    | string s => exact .inr (.inl ⟨s, ⟨_, mem, rfl⟩, has⟩)
    | struct name fields => exact .inr (.inr ⟨⟨name, fields⟩, ⟨_, mem, rfl⟩, has⟩)
    | _ => cases value
  · rintro (⟨n, ⟨_, mem, rfl⟩, has⟩ | ⟨s, ⟨_, mem, rfl⟩, has⟩ | ⟨r, ⟨_, mem, rfl⟩, has⟩)
    · exact ⟨_, mem, has⟩
    · exact ⟨_, mem, has⟩
    · exact ⟨_, mem, has⟩

theorem mem_numbers_congr {ns ms : List NumberTy}
    (same : ∀ x, (∃ n ∈ ns, n.has x = true) ↔ ∃ n ∈ ms, n.has x = true) (v : Value) :
    (∃ n ∈ ns, v ∈ number n) ↔ ∃ n ∈ ms, v ∈ number n := by
  cases v with
  | number x => simpa using same x
  | _ => simp [mem_iff, has]

theorem mem_strings_congr {ss ts : List StringTy}
    (same : ∀ x, (∃ s ∈ ss, s.has x = true) ↔ ∃ s ∈ ts, s.has x = true) (v : Value) :
    (∃ s ∈ ss, v ∈ string s) ↔ ∃ s ∈ ts, v ∈ string s := by
  cases v with
  | string x => simpa using same x
  | _ => simp [mem_iff, has]

end Ty

namespace Algebra

/-- The members of a union, kind by kind. -/
def merged (numbers : List NumberTy) (strings : List StringTy) (structs : List Record) : List Ty :=
  numbers.map number ++ strings.map string ++ structs.map Record.toTy

variable {numbers : List NumberTy} {strings : List StringTy} {structs : List Record}
  {inv : Invariant}

theorem mem_merged {t : Ty} : t ∈ merged numbers strings structs ↔
      (∃ n ∈ numbers, t = number n) ∨ (∃ s ∈ strings, t = string s) ∨
        ∃ r ∈ structs, t = r.toTy := by
  simp only [merged, mem_append, mem_map, or_assoc, eq_comm (a := t)]

theorem mem_numbers_merged {n : NumberTy} :
    n ∈ (merged numbers strings structs).filterMap number? ↔ n ∈ numbers := by
  simp only [mem_filterMap, number?_eq_some_iff, exists_eq_right, mem_merged]
  simp [Record.toTy]

theorem exists_mem_merged {v : Value} :
    (∃ t ∈ merged numbers strings structs, v ∈ t) ↔
      (∃ n ∈ numbers, v ∈ number n) ∨ (∃ s ∈ strings, v ∈ string s) ∨
        Structs.Covers structs v := by
  simp only [mem_merged, Structs.Covers]
  constructor
  · rintro ⟨_, ⟨n, mem, rfl⟩ | ⟨s, mem, rfl⟩ | ⟨r, mem, rfl⟩, has⟩
    · exact .inl ⟨n, mem, has⟩
    · exact .inr (.inl ⟨s, mem, has⟩)
    · exact .inr (.inr ⟨r, mem, has⟩)
  · rintro (⟨n, mem, has⟩ | ⟨s, mem, has⟩ | ⟨r, mem, has⟩)
    · exact ⟨_, .inl ⟨n, mem, rfl⟩, has⟩
    · exact ⟨_, .inr (.inl ⟨s, mem, rfl⟩), has⟩
    · exact ⟨_, .inr (.inr ⟨r, mem, rfl⟩), has⟩

/-- Settled struct types of one shape could not be merged. -/
theorem not_mergeable_structs {n : Nat} (fits : ∀ r ∈ structs, inv.Fits n r.toTy)
    (settled : Structs.Settled structs) {a b : Record} (memA : a ∈ structs) (memB : b ∈ structs)
    (differ : a ≠ b) :
    ¬ MergeableBy Inside a.toTy b.toTy := by
  rintro ⟨name, forth | back | few⟩
  · exact (settled a memA b memB differ).1 forth
  · exact (settled b memB a memA differ.symm).1 back
  · have names : a.fields.map (·.1) = b.fields.map (·.1) := by
      rw [(sound_struct.mp (fits a memA).1).1, (sound_struct.mp (fits b memB).1).1, name]
    rcases Structs.eq_or_agree_of_differing names few with same | ⟨index, bound, agree⟩
    · exact differ (Record.toTy_injective (by rw [Record.toTy, Record.toTy, name, same]))
    · exact (settled a memA b memB differ).2 index ⟨name, names, bound, agree⟩

/-- What is left after merging each kind could not be merged any further. -/
theorem irreducible_merged {n : Nat} (tame : ∀ m ∈ numbers, m.Tame)
    (fits : ∀ r ∈ structs, inv.Fits n r.toTy) (settled : Structs.Settled structs) :
    IrreducibleBy Inside
      (merged (Numbers.unionMembers numbers) (Strings.unionMembers strings) structs) := by
  intro a memA b memB differ mergeable
  rcases mem_merged.mp memA with ⟨m, memM, rfl⟩ | ⟨s, memS, rfl⟩ | ⟨r, memR, rfl⟩ <;>
    rcases mem_merged.mp memB with ⟨m', memM', rfl⟩ | ⟨s', memS', rfl⟩ | ⟨r', memR', rfl⟩
  case inl.inl =>
    have apart : m ≠ m' := fun same => differ (congrArg number same)
    exact mergeable (Numbers.join_of_mem_unionMembers tame memM memM' apart)
  case inr.inl.inr.inl =>
    exact differ (congrArg string (Strings.eq_of_mem_unionMembers memS memS' mergeable))
  case inr.inr.inr.inr =>
    have apart : r ≠ r' := fun same => differ (congrArg Record.toTy same)
    exact not_mergeable_structs fits settled memR memR' apart mergeable
  all_goals exact mergeable

theorem fits_merged {n : Nat} (tame : ∀ m ∈ numbers, m.Tame)
    (fits : ∀ r ∈ structs, inv.Fits (n + 1) r.toTy) (settled : Structs.Settled structs) :
    inv.Fits (n + 1) (ofMembers
      (merged (Numbers.unionMembers numbers) (Strings.unionMembers strings) structs)) := by
  have pos := Nat.succ_pos n
  refine Invariant.fits_ofMembers pos (fun t mem => ?_) (fun t mem => ?_)
    (irreducible_merged tame fits settled)
    ((Numbers.normal_unionMembers tame).of_subset fun m => mem_numbers_merged.mp)
  · rcases mem_merged.mp mem with ⟨m, _, rfl⟩ | ⟨s, _, rfl⟩ | ⟨r, _, rfl⟩ <;> rfl
  · rcases mem_merged.mp mem with ⟨m, memM, rfl⟩ | ⟨s, _, rfl⟩ | ⟨r, memR, rfl⟩
    · exact Invariant.fits_number pos (Numbers.tame_of_mem_unionMembers tame memM)
    · exact Invariant.fits_string pos
    · exact fits r memR

section Union

variable {inv : Invariant} {n : Nat} {lower : Algebra} (lawful : inv.Lawful n lower)
include lawful

theorem unionOver_exact {items : List Ty} (fits : ∀ t ∈ items, inv.Fits (n + 1) t) :
    Yields (unionOver lower items) fun u =>
      inv.Fits (n + 1) u ∧ ∀ v, v ∈ u ↔ ∃ t ∈ items, v ∈ t := by
  have fitsMembers : ∀ m ∈ items.flatMap members, inv.Fits (n + 1) m := by
    intro m mem
    obtain ⟨t, memT, mem⟩ := mem_flatMap.mp mem
    exact (fits t memT).of_mem_members mem
  unfold unionOver
  dsimp only
  split
  · next every =>
    obtain ⟨m, mem, isAny⟩ := any_eq_true.mp every
    refine Yields.pure ⟨Invariant.fits_any (Nat.succ_pos n), fun v => iff_of_true (mem_any v) ?_⟩
    exact exists_mem_flatMap_members.mp ⟨m, mem, isAny_iff.mp isAny ▸ mem_any v⟩
  · next proper =>
    have values : ∀ m ∈ items.flatMap members, m.isValue = true := by
      intro m mem
      obtain ⟨t, memT, memM⟩ := mem_flatMap.mp mem
      refine isValue_of_mem_members (fits t memT).1 ?_ memM
      rintro rfl
      rw [mem_singleton.mp memM] at mem
      exact proper (any_eq_true.mpr ⟨any, mem, rfl⟩)
    have tame : ∀ m ∈ (items.flatMap members).filterMap number?, m.Tame := by
      intro m mem
      obtain ⟨t, memT, found⟩ := mem_filterMap.mp mem
      have fitsT := fitsMembers t memT
      rw [number?_eq_some_iff.mp found] at fitsT
      exact sound_number.mp fitsT.1
    have fitsStructs : ∀ r ∈ (items.flatMap members).filterMap record?,
        inv.Fits (n + 1) r.toTy := by
      intro r mem
      obtain ⟨t, memT, found⟩ := mem_filterMap.mp mem
      exact Structs.record?_eq_some_iff.mp found ▸ fitsMembers t memT
    refine Yields.bind (Structs.unionMembers_exact lawful fitsStructs)
      fun structs ⟨fitsResult, covers, settled⟩ =>
        Yields.pure ⟨fits_merged tame fitsResult settled, fun v => ?_⟩
    calc v ∈ ofMembers (merged _ _ structs)
      _ ↔ ∃ t ∈ merged _ _ structs, v ∈ t := mem_ofMembers
      _ ↔ _ := exists_mem_merged
      _ ↔ (∃ n ∈ (items.flatMap members).filterMap number?, v ∈ number n) ∨
          (∃ s ∈ (items.flatMap members).filterMap string?, v ∈ string s) ∨
          Structs.Covers ((items.flatMap members).filterMap record?) v :=
        or_congr (mem_numbers_congr (Numbers.has_unionMembers tame) v)
          (or_congr (mem_strings_congr (Strings.has_unionMembers _) v) (covers v))
      _ ↔ ∃ m ∈ items.flatMap members, v ∈ m := (mem_by_kind values).symm
      _ ↔ ∃ t ∈ items, v ∈ t := exists_mem_flatMap_members

end Union

end Algebra

end TypeFlow
