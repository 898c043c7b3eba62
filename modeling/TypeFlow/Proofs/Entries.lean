import Mathlib.Data.List.Forall2
import Mathlib.Data.List.Nodup
import TypeFlow.Entries

/-!
# Keys of entries

Entries that are set one after the other have each key once, and then the value of a key is that
of the entry with the key. Two lists with the same keys and related values stay so when related
values are set.
-/

namespace TypeFlow

open List

variable {α β : Type} [DecidableEq α] {key : α} {value : β} {entries : List (α × β)}

theorem keys_setEntry : (setEntry key value entries).map (·.1) =
    if key ∈ entries.map (·.1) then entries.map (·.1) else entries.map (·.1) ++ [key] := by
  induction entries with
  | nil => rfl
  | cons entry rest ih =>
    by_cases same : entry.1 = key
    · simp [setEntry, same]
    · have differ : ¬ key = entry.1 := fun h => same h.symm
      simp only [setEntry, same, if_false, map_cons, ih, mem_cons, differ, false_or]
      split <;> rfl

theorem nodup_keys_setEntry (nodup : (entries.map (·.1)).Nodup) :
    ((setEntry key value entries).map (·.1)).Nodup := by
  rw [keys_setEntry]
  split
  · exact nodup
  · next absent =>
    rw [← concat_eq_append]
    exact nodup.concat absent

theorem eq_or_mem_of_mem_setEntry {entry : α × β} (mem : entry ∈ setEntry key value entries) :
    entry = (key, value) ∨ entry ∈ entries := by
  induction entries with
  | nil => exact .inl (mem_singleton.mp mem)
  | cons first rest ih =>
    by_cases same : first.1 = key
    · simp only [setEntry, same, if_true, mem_cons] at mem
      exact mem.imp id fun later => mem_cons_of_mem first later
    · simp only [setEntry, same, if_false, mem_cons] at mem
      rcases mem with rfl | later
      · exact .inr mem_cons_self
      · exact (ih later).imp id fun old => mem_cons_of_mem first old

theorem setEntry_of_not_mem (absent : key ∉ entries.map (·.1)) :
    setEntry key value entries = entries ++ [(key, value)] := by
  induction entries with
  | nil => rfl
  | cons entry rest ih =>
    obtain ⟨other, absent⟩ := not_or.mp fun mem => absent (mem_cons.mpr mem)
    simp only [setEntry, if_neg (Ne.symm other), ih absent, cons_append]

theorem setEntry_append_cons {old : β} {before : List (α × β)} (absent : key ∉ before.map (·.1)) :
    setEntry key value (before ++ (key, old) :: entries) = before ++ (key, value) :: entries := by
  induction before with
  | nil => simp [setEntry]
  | cons entry rest ih =>
    rw [map_cons, mem_cons, not_or] at absent
    have differ : ¬ entry.1 = key := fun same => absent.1 same.symm
    simp [setEntry, differ, ih absent.2]

theorem mem_of_valueAt? (found : valueAt? key entries = some value) : (key, value) ∈ entries := by
  induction entries with
  | nil => cases found
  | cons entry rest ih =>
    by_cases same : entry.1 = key
    · have first : entry.2 = value := by simpa [valueAt?, same] using found
      rw [← same, ← first]
      exact mem_cons_self
    · have later : valueAt? key rest = some value := by simpa [valueAt?, same] using found
      exact mem_cons_of_mem entry (ih later)

theorem exists_valueAt? (mem : key ∈ entries.map (·.1)) :
    ∃ value, valueAt? key entries = some value := by
  induction entries with
  | nil => cases mem
  | cons entry rest ih =>
    by_cases same : entry.1 = key
    · exact ⟨entry.2, by simp [valueAt?, same]⟩
    · rw [map_cons, mem_cons] at mem
      obtain ⟨value, found⟩ := ih (mem.resolve_left fun h => same h.symm)
      exact ⟨value, by simpa [valueAt?, same] using found⟩

theorem valueAt?_eq_none_iff : valueAt? key entries = none ↔ key ∉ entries.map (·.1) := by
  constructor
  · intro missing mem
    obtain ⟨value, found⟩ := exists_valueAt? mem
    rw [missing] at found
    cases found
  · intro absent
    cases found : valueAt? key entries with
    | none => rfl
    | some value => exact absurd (mem_map_of_mem (mem_of_valueAt? found)) absent

theorem valueAt?_of_mem (nodup : (entries.map (·.1)).Nodup) (mem : (key, value) ∈ entries) :
    valueAt? key entries = some value := by
  induction entries with
  | nil => cases mem
  | cons entry rest ih =>
    rw [map_cons, nodup_cons] at nodup
    rcases mem_cons.mp mem with rfl | later
    · simp [valueAt?]
    · have differ : ¬ entry.1 = key := fun same => nodup.1 (same ▸ mem_map_of_mem later)
      simpa [valueAt?, differ] using ih nodup.2 later

/-- A key that is there once keeps its place, and the other entries stay. -/
theorem setEntry_eq_map (nodup : (entries.map (·.1)).Nodup) (mem : key ∈ entries.map (·.1)) :
    setEntry key value entries =
      entries.map fun entry => if entry.1 = key then (entry.1, value) else entry := by
  induction entries with
  | nil => cases mem
  | cons entry rest ih =>
    rw [map_cons, nodup_cons] at nodup
    by_cases same : entry.1 = key
    · have others : ∀ other ∈ rest,
          (if other.1 = key then (other.1, value) else other) = id other := by
        intro other later
        have differ : ¬ other.1 = key := by
          intro again
          apply nodup.1
          rw [same, ← again]
          exact mem_map_of_mem later
        simp only [differ, if_false, id]
      rw [map_cons, map_congr_left others, map_id]
      simp only [setEntry, same, if_true]
    · have later : key ∈ rest.map (·.1) :=
        (mem_cons.mp mem).resolve_left fun h => same h.symm
      simp only [setEntry, map_cons, same, if_false, ih nodup.2 later]

/-- Where each key is there once, the order of the entries does not matter. -/
theorem valueAt?_perm {entries' : List (α × β)} (nodup : (entries.map (·.1)).Nodup)
    (perm : entries'.Perm entries) (key : α) : valueAt? key entries' = valueAt? key entries := by
  cases found : valueAt? key entries with
  | some value =>
    have nodup' : (entries'.map (·.1)).Nodup := (perm.map _).nodup_iff.mpr nodup
    exact valueAt?_of_mem nodup' (perm.mem_iff.mpr (mem_of_valueAt? found))
  | none =>
    rw [valueAt?_eq_none_iff] at found ⊢
    rwa [(perm.map _).mem_iff]

omit [DecidableEq α] in
theorem keys_eq_of_forall₂ {γ : Type} {R : α × β → α × γ → Prop} {others : List (α × γ)}
    (each : Forall₂ R entries others) (keys : ∀ a b, R a b → a.1 = b.1) :
    entries.map (·.1) = others.map (·.1) := by
  rw [← forall₂_eq_eq_eq, forall₂_map_left_iff, forall₂_map_right_iff]
  exact each.imp keys

/-- The same keys in the same order, with related values. -/
def RelatedEntries (R : β → β → Prop) : List (α × β) → List (α × β) → Prop :=
  Forall₂ fun entry entry' => entry.1 = entry'.1 ∧ R entry.2 entry'.2

variable {R : β → β → Prop} {entries' : List (α × β)}

theorem RelatedEntries.valueAt? (related : RelatedEntries R entries entries') (key : α) :
    Option.Rel R (valueAt? key entries) (valueAt? key entries') := by
  induction related with
  | nil => exact .none
  | @cons entry entry' rest rest' head tail ih =>
    obtain ⟨same, values⟩ := head
    by_cases here : entry.1 = key
    · simp only [TypeFlow.valueAt?, ← same, here, if_true]
      exact .some values
    · simp only [TypeFlow.valueAt?, ← same, here, if_false]
      exact ih

theorem RelatedEntries.setEntry (related : RelatedEntries R entries entries') (key : α)
    {value value' : β} (values : R value value') :
    RelatedEntries R (setEntry key value entries) (setEntry key value' entries') := by
  induction related with
  | nil => exact .cons ⟨rfl, values⟩ .nil
  | @cons entry entry' rest rest' head tail ih =>
    by_cases here : entry.1 = key
    · simp only [TypeFlow.setEntry, ← head.1, here, if_true]
      exact .cons ⟨rfl, values⟩ tail
    · simp only [TypeFlow.setEntry, ← head.1, here, if_false]
      exact .cons ⟨rfl, head.2⟩ ih

omit [DecidableEq α] in
theorem RelatedEntries.keys_eq (related : RelatedEntries R entries entries') :
    entries.map (·.1) = entries'.map (·.1) :=
  keys_eq_of_forall₂ related fun _ _ both => both.1

theorem RelatedEntries.of_valueAt? (related : RelatedEntries R entries entries') {value' : β}
    (found : TypeFlow.valueAt? key entries = some value)
    (found' : TypeFlow.valueAt? key entries' = some value') : R value value' := by
  have here := related.valueAt? key
  rw [found, found'] at here
  cases here with
  | some values => exact values

end TypeFlow
