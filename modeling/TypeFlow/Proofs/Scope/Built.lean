import Mathlib.Data.List.Induction
import TypeFlow.Proofs.Entries
import TypeFlow.Proofs.Results
import TypeFlow.Scope.Builder
import TypeFlow.Scope.Prelude

/-!
# Scopes that can be built

Frames come from builders, which check what they are given. A frame therefore has each name once,
all names are identifiers, and no struct has a field twice. Nothing else is asked of a frame:
whatever is proper in this sense can be built.
-/

namespace TypeFlow

open List

theorem firstRepeated_eq_none_iff {seen names : List String} :
    firstRepeated seen names = none ↔ names.Nodup ∧ ∀ name ∈ names, name ∉ seen := by
  induction names generalizing seen with
  | nil => simp [firstRepeated]
  | cons name rest ih =>
    by_cases again : name ∈ seen
    · simp [firstRepeated, again]
    · rw [firstRepeated, if_neg again, ih, nodup_cons, forall_mem_cons]
      simp only [mem_cons, not_or]
      constructor
      · rintro ⟨nodup, fresh⟩
        exact ⟨⟨fun mem => (fresh name mem).1 rfl, nodup⟩, again, fun n mem => (fresh n mem).2⟩
      · rintro ⟨⟨first, nodup⟩, -, fresh⟩
        exact ⟨nodup, fun n mem => ⟨fun same => first (same ▸ mem), fresh n mem⟩⟩

namespace Builder

variable {b b' : Builder} {name : String} {definition : Definition}

/-- A definition is accepted under its name: the name is an identifier, and names inside the
definition differ. -/
def Acceptable (entry : String × Definition) : Prop :=
  isIdentifier entry.1 = true ∧ (inner entry.1 entry.2).1.Nodup
deriving Decidable

theorem add_eq_ok_iff : b.add name definition = .ok b' ↔
    Acceptable (name, definition) ∧ name ∉ b.entries.map (·.1) ∧
      b' = { b with entries := b.entries ++ [(name, definition)] } := by
  have inside : (inner name definition).1.Nodup ↔
      firstRepeated [] (inner name definition).1 = none := by
    simp [firstRepeated_eq_none_iff]
  rw [Acceptable, inside, ← valueAt?_eq_none_iff]
  cases named : isIdentifier name with
  | false => simp [add, named]
  | true =>
    cases found : valueAt? name b.entries with
    | some d => simp [add, named, found]
    | none =>
      cases again : firstRepeated [] (inner name definition).1 with
      | some n => simp [add, named, found, again]
      | none => simp [add, named, found, again, eq_comm]

theorem assign_eq_ok_iff {value : Ty} : b.assign name value = .ok b' ↔
    ∃ bound old, valueAt? name b.entries = some (.parameter bound old) ∧
      value.subset bound = .ok true ∧
      b' = { b with entries := setEntry name (.parameter bound (some value)) b.entries } := by
  constructor
  · intro assigned
    unfold assign at assigned
    split at assigned
    · cases assigned
    · next bound old found =>
      obtain ⟨inside, answer, assigned⟩ := bind_eq_ok_iff.mp assigned
      cases inside with
      | false => cases assigned
      | true =>
        exact ⟨bound, old, found, Run.ofChecked_eq_ok_iff.mp answer, (Except.ok.inj assigned).symm⟩
    · cases assigned
  · rintro ⟨bound, old, found, inside, rfl⟩
    simp only [assign, found, inside]
    rfl

/-- Builders that come about by operations that succeed. -/
inductive Made (outer : Scope) : Builder → Prop
  | new (name : String) : Made outer (Builder.new name outer)
  | add {b b' : Builder} {name : String} {definition : Definition} (before : Made outer b)
      (added : b.add name definition = .ok b') : Made outer b'
  | assign {b b' : Builder} {name : String} {value : Ty} (before : Made outer b)
      (assigned : b.assign name value = .ok b') : Made outer b'

end Builder

/-- Each name is there once, and every definition is accepted under its name. -/
def ProperEntries (entries : List (String × Definition)) : Prop :=
  (entries.map (·.1)).Nodup ∧ ∀ entry ∈ entries, Builder.Acceptable entry
deriving Decidable

theorem properEntries_concat {entries : List (String × Definition)}
    {entry : String × Definition} : ProperEntries (entries ++ [entry]) ↔
      ProperEntries entries ∧ Builder.Acceptable entry ∧ entry.1 ∉ entries.map (·.1) := by
  rw [ProperEntries, ProperEntries, map_append, map_singleton, ← concat_eq_append,
    nodup_concat, forall_mem_append, forall_mem_singleton]
  tauto

theorem properEntries_perm {entries entries' : List (String × Definition)}
    (perm : entries.Perm entries') : ProperEntries entries ↔ ProperEntries entries' := by
  rw [ProperEntries, ProperEntries, (perm.map _).nodup_iff]
  simp only [perm.mem_iff]

namespace Builder

variable {outer : Scope} {b : Builder}

theorem Made.proper (made : Made outer b) : b.outer = outer ∧ ProperEntries b.entries := by
  induction made with
  | new name => exact ⟨rfl, nodup_nil, by simp [Builder.new]⟩
  | add before added ih =>
    obtain ⟨acceptable, free, rfl⟩ := add_eq_ok_iff.mp added
    exact ⟨ih.1, properEntries_concat.mpr ⟨ih.2, acceptable, free⟩⟩
  | assign before assigned ih =>
    obtain ⟨around, nodup, each⟩ := ih
    obtain ⟨bound, old, found, -, rfl⟩ := assign_eq_ok_iff.mp assigned
    refine ⟨around, nodup_keys_setEntry nodup, fun entry mem => ?_⟩
    rcases eq_or_mem_of_mem_setEntry mem with rfl | before
    · exact ⟨(each _ (mem_of_valueAt? found)).1, nodup_nil⟩
    · exact each entry before

theorem foldlM_add_eq_ok_iff {name : String} {entries : List (String × Definition)} :
    entries.foldlM (fun b entry => b.add entry.1 entry.2) (new name outer) = .ok b ↔
      ProperEntries entries ∧ b = ⟨name, outer, entries⟩ := by
  induction entries using List.reverseRecOn generalizing b with
  | nil =>
    have proper : ProperEntries [] := ⟨nodup_nil, by simp⟩
    rw [foldlM_nil]
    exact ⟨fun same => ⟨proper, (Except.ok.inj same).symm⟩, fun same => congrArg _ same.2.symm⟩
  | append_singleton entries entry ih =>
    rw [foldlM_append, bind_eq_ok_iff, properEntries_concat]
    simp only [ih, foldlM_cons, foldlM_nil, bind_pure]
    constructor
    · rintro ⟨_, ⟨proper, rfl⟩, added⟩
      obtain ⟨acceptable, free, rfl⟩ := add_eq_ok_iff.mp added
      exact ⟨⟨proper, acceptable, free⟩, rfl⟩
    · rintro ⟨⟨proper, acceptable, free⟩, rfl⟩
      exact ⟨_, ⟨proper, rfl⟩, add_eq_ok_iff.mpr ⟨acceptable, free, rfl⟩⟩

theorem made_of_proper (outer : Scope) (name : String) {entries : List (String × Definition)}
    (proper : ProperEntries entries) : Made outer ⟨name, outer, entries⟩ := by
  have added : entries.foldlM (fun b entry => b.add entry.1 entry.2) (new name outer) =
      .ok ⟨name, outer, entries⟩ := foldlM_add_eq_ok_iff.mpr ⟨proper, rfl⟩
  exact foldlM_keeps added (Made.new name) fun b before entry _ b' same => before.add same

end Builder

namespace Scope

/-- Scopes of frames that can be built, one inside the other. -/
inductive Built : Scope → Prop
  | outermost : Built []
  | frame {outer : Scope} {b : Builder} (around : Built outer) (made : b.Made outer) :
      Built b.build

theorem built_cons {frame : Frame} {outer : Scope} :
    Built (frame :: outer) ↔ Built outer ∧ ProperEntries frame.entries := by
  constructor
  · intro built
    generalize same : frame :: outer = scope at built
    cases built with
    | outermost => cases same
    | @frame around' b around made =>
      obtain ⟨rfl, proper⟩ := made.proper
      obtain ⟨rfl, rfl⟩ := List.cons.inj same
      exact ⟨around, proper⟩
  · rintro ⟨around, proper⟩
    exact .frame around (Builder.made_of_proper outer frame.name proper)

/-- What is found in a scope that was built was accepted. -/
theorem Built.acceptable {scope owner : Scope} {name : String} {definition : Definition}
    (built : Built scope) (found : scope.lookup name = some (owner, definition)) :
    Builder.Acceptable (name, definition) := by
  induction scope with
  | nil => cases found
  | cons frame outer ih =>
    obtain ⟨around, proper⟩ := built_cons.mp built
    cases here : frame.get? name with
    | some d =>
      simp only [lookup, here, Option.some.injEq, Prod.mk.injEq] at found
      obtain ⟨-, rfl⟩ := found
      exact proper.2 _ (mem_of_valueAt? here)
    | none =>
      simp only [lookup, here] at found
      exact ih around found

end Scope

theorem Prelude.built : Prelude.scope.Built := by
  refine Scope.built_cons.mpr ⟨.outermost, ?_⟩
  show ProperEntries Prelude.entries
  decide +kernel

end TypeFlow
