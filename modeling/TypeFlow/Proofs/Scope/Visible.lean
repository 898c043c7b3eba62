import Mathlib.Data.List.Infix
import TypeFlow.Proofs.Entries
import TypeFlow.Scope.Basic

/-!
# Names that can be seen

A name is looked up frame by frame outwards, and the names that can be seen are collected frame by
frame as well, each where it comes first. So the names that can be seen are those that are found,
and they come in the order in which their owners lie inside each other.
-/

namespace TypeFlow

open List

/-- The names that a frame defines. -/
def Frame.names (frame : Frame) : List String := frame.entries.map (·.1)

namespace Scope

variable {scope owner : Scope} {name : String}

/-- A definition is found in the innermost frame of its owner, which is a part of the scope. -/
theorem lookup_cases {definition : Definition}
    (found : scope.lookup name = some (owner, definition)) :
    owner <:+ scope ∧ owner.local? name = some definition := by
  induction scope with
  | nil => cases found
  | cons frame outer ih =>
    cases here : frame.get? name with
    | some d =>
      simp only [lookup, here, Option.some.injEq, Prod.mk.injEq] at found
      obtain ⟨rfl, rfl⟩ := found
      exact ⟨suffix_refl _, here⟩
    | none =>
      simp only [lookup, here] at found
      obtain ⟨suffix, same⟩ := ih found
      exact ⟨suffix.trans (suffix_cons frame outer), same⟩

/-- The owner of the definition of a name. -/
def owner? (scope : Scope) (name : String) : Option Scope := (scope.lookup name).map (·.1)

theorem suffix_of_owner? (found : owner ∈ scope.owner? name) : owner <:+ scope := by
  obtain ⟨pair, there, rfl⟩ := Option.map_eq_some_iff.mp found
  exact (lookup_cases there).1

section Frames

variable {frame : Frame} {outer : Scope}

theorem owner?_of_mem (mem : name ∈ frame.names) :
    owner? (frame :: outer) name = some (frame :: outer) := by
  obtain ⟨definition, here⟩ := exists_valueAt? mem
  rw [owner?, lookup, Frame.get?, here, Option.map_some]

theorem owner?_of_not_mem (absent : name ∉ frame.names) :
    owner? (frame :: outer) name = outer.owner? name := by
  rw [owner?, lookup, Frame.get?, valueAt?_eq_none_iff.mpr absent, owner?]

end Frames

section Collecting

variable {seen names : List String}

theorem mem_addNames : name ∈ addNames seen names ↔ name ∈ seen ∨ name ∈ names := by
  induction names generalizing seen with
  | nil => simp [addNames]
  | cons first rest ih =>
    rw [addNames, ih, mem_cons]
    split
    · next mem =>
      constructor
      · exact fun either => either.imp_right .inr
      · rintro (before | rfl | later)
        · exact .inl before
        · exact .inl mem
        · exact .inr later
    · rw [mem_append, mem_singleton, or_assoc]

theorem nodup_addNames (nodup : seen.Nodup) : (addNames seen names).Nodup := by
  induction names generalizing seen with
  | nil => exact nodup
  | cons first rest ih =>
    rw [addNames]
    split
    · exact ih nodup
    · next absent =>
      rw [← concat_eq_append]
      exact ih (nodup.concat absent)

theorem addNames_append (names' : List String) :
    addNames seen (names ++ names') = addNames (addNames seen names) names' := by
  induction names generalizing seen with
  | nil => rfl
  | cons first rest ih => rw [cons_append, addNames, ih, addNames]

/-- What is added after some names is what would be there without them, less these names. -/
theorem addNames_eq : addNames seen names = seen ++ (addNames [] names).filter (· ∉ seen) := by
  induction names generalizing seen with
  | nil => simp [addNames]
  | cons first rest ih =>
    have alone : addNames [] (first :: rest) = first :: (addNames [] rest).filter (· ≠ first) := by
      rw [addNames, if_neg not_mem_nil, nil_append, ih]
      simp
    rw [addNames, ih, alone]
    by_cases mem : first ∈ seen
    · rw [if_pos mem, filter_cons_of_neg (by simpa using mem), filter_filter]
      congr 1
      refine filter_congr fun name _ => ?_
      have other : name ∉ seen → name ≠ first := fun absent same => absent (same ▸ mem)
      rw [← Bool.decide_and, decide_eq_decide, and_iff_left_of_imp other]
    · rw [if_neg mem, filter_cons_of_pos (by simpa using mem), filter_filter]
      simp

end Collecting

/-- The names that can be seen are those of the innermost frame, and then those that can be seen
around it and are not among them. -/
theorem visibleNames_cons (frame : Frame) (outer : Scope) :
    visibleNames (frame :: outer) =
      addNames [] frame.names ++ outer.visibleNames.filter (· ∉ frame.names) := by
  rw [visibleNames, flatMap_cons, addNames_append, addNames_eq, ← visibleNames, Frame.names]
  simp only [mem_addNames, not_mem_nil, false_or]

theorem mem_visibleNames_iff_owner : name ∈ scope.visibleNames ↔ scope.owner? name ≠ none := by
  induction scope with
  | nil => simp [visibleNames, addNames, owner?, lookup]
  | cons frame outer ih =>
    rw [visibleNames_cons, mem_append, mem_addNames, mem_filter, ih]
    by_cases mem : name ∈ frame.names
    · simp [mem, owner?_of_mem mem]
    · simp [mem, owner?_of_not_mem mem]

theorem mem_visibleNames : name ∈ scope.visibleNames ↔ scope.lookup name ≠ none := by
  rw [mem_visibleNames_iff_owner, owner?, ne_eq, Option.map_eq_none_iff]

/-- Earlier names are owned further inside. -/
theorem pairwise_visibleNames (scope : Scope) :
    scope.visibleNames.Pairwise fun earlier later =>
      ∀ owner ∈ scope.owner? earlier, ∀ owner' ∈ scope.owner? later, owner' <:+ owner := by
  induction scope with
  | nil => exact .nil
  | cons frame outer ih =>
    have own {earlier : String} (mem : earlier ∈ addNames [] frame.names) (later : String) :
        ∀ owner ∈ owner? (frame :: outer) earlier, ∀ owner' ∈ owner? (frame :: outer) later,
          owner' <:+ owner := by
      intro owner found owner' found'
      rw [owner?_of_mem (by simpa [mem_addNames] using mem), Option.mem_some] at found
      exact found ▸ suffix_of_owner? found'
    rw [visibleNames_cons, pairwise_append]
    refine ⟨pairwise_of_forall_mem_list fun a mem b _ => own mem b, ?_,
      fun a mem b _ => own mem b⟩
    refine (ih.filter _).imp_of_mem fun {a b} memA memB ordered => ?_
    rw [owner?_of_not_mem (by simpa using (mem_filter.mp memA).2),
      owner?_of_not_mem (by simpa using (mem_filter.mp memB).2)]
    exact ordered

/-- One scope lies around another, which has more frames inside. -/
def Encloses (outer inner : Scope) : Prop := ∃ frames, frames ≠ [] ∧ inner = frames ++ outer

theorem not_encloses_of_suffix (suffix : owner <:+ scope) : ¬ scope.Encloses owner := by
  rintro ⟨frames, nonempty, rfl⟩
  have shorter := suffix.length_le
  rw [length_append] at shorter
  exact nonempty (length_eq_zero_iff.mp (by omega))

/-- The names that can be seen are the names that are found, each once; and none comes before a
name whose owner lies further inside. -/
theorem visibleNames_agree (scope : Scope) :
    scope.visibleNames.Nodup ∧
    (∀ name, name ∈ scope.visibleNames ↔ (scope.lookup name).isSome = true) ∧
    scope.visibleNames.Pairwise fun earlier later => ∀ owner owner' definition definition',
      scope.lookup earlier = some (owner, definition) →
      scope.lookup later = some (owner', definition') → ¬ owner.Encloses owner' := by
  refine ⟨nodup_addNames .nil, fun name => ?_, (pairwise_visibleNames scope).imp ?_⟩
  · rw [mem_visibleNames, Option.isSome_iff_ne_none]
  · intro earlier later ordered owner owner' definition definition' found found'
    exact not_encloses_of_suffix (ordered owner (by simp [owner?, found]) owner'
      (by simp [owner?, found']))

end Scope
end TypeFlow
