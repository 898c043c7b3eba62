import TypeFlow.Proofs.Algebra.Splitting

/-!
# Merging struct types on a field

Struct types that agree outside one field are merged into one, which keeps the records. A pass
over all fields that merges nothing only rewrites field types one by one, so no two struct types
of the list agree outside a single field: what the loop returns cannot be merged any further.
-/

namespace TypeFlow.Structs

open List Ty

/-- The groups of the struct types that have a field at the position. -/
def grouping (items : List Record) (index : Nat) : List Group :=
  items.foldl (fun groups r =>
    match r.fields[index]? with
    | some field => addToGroup (r.withField index .any) r field.2 groups
    | none => groups) []

/-- The group of a single struct type. -/
def alone? (index : Nat) (r : Record) : Option Group :=
  r.fields[index]?.map fun f => ⟨r.withField index any, r, [f.2]⟩

variable {index : Nat} {r : Record} {f : String × Ty} {items : List Record} {groups : List Group}

theorem alone?_eq_some (found : r.fields[index]? = some f) :
    alone? index r = some ⟨r.withField index any, r, [f.2]⟩ := by
  simp [alone?, found]

/-- A struct type joins the group of its key, or starts a group at the end. -/
theorem addToGroup_cases (key : Ty) (r : Record) (t : Ty) (groups : List Group) :
    (∃ before g after, groups = before ++ g :: after ∧ g.key = key ∧
      addToGroup key r t groups = before ++ { g with types := g.types ++ [t] } :: after) ∨
    ((∀ g ∈ groups, g.key ≠ key) ∧ addToGroup key r t groups = groups ++ [⟨key, r, [t]⟩]) := by
  induction groups with
  | nil => exact .inr ⟨by simp, rfl⟩
  | cons g rest ih =>
    by_cases same : g.key = key
    · exact .inl ⟨[], g, rest, rfl, same, by simp [addToGroup, same]⟩
    · rcases ih with ⟨before, g', after, split, found, result⟩ | ⟨other, result⟩
      · refine .inl ⟨g :: before, g', after, by simp [split], found, ?_⟩
        simp [addToGroup, same, result]
      · exact .inr ⟨by simpa [same] using other, by simp [addToGroup, same, result]⟩

/-- What the groups of struct types are. -/
structure Grouped (index : Nat) (items : List Record) (groups : List Group) : Prop where
  /-- The first struct type of a group is of the list and has its key. -/
  first : ∀ g ∈ groups, g.first ∈ items ∧ index < g.first.fields.length ∧
    g.key = g.first.withField index any ∧ g.types ≠ []
  /-- Every type of a group comes from a struct type with its key. -/
  type : ∀ g ∈ groups, ∀ t ∈ g.types, ∃ r ∈ items, ∃ f, r.fields[index]? = some f ∧
    g.key = r.withField index any ∧ t = f.2
  /-- Every struct type has put its type into a group. -/
  item : ∀ r ∈ items, ∀ f, r.fields[index]? = some f →
    ∃ g ∈ groups, g.key = r.withField index any ∧ f.2 ∈ g.types
  /-- There are as many groups as struct types only if every one is alone. -/
  count : groups.length < (items.filterMap (alone? index)).length ∨
    groups = items.filterMap (alone? index) ∧ groups.Pairwise (·.key ≠ ·.key)

theorem Grouped.skip (grouped : Grouped index items groups) (short : r.fields[index]? = none) :
    Grouped index (items ++ [r]) groups where
  first g mem := by
    obtain ⟨memItems, rest⟩ := grouped.first g mem
    exact ⟨mem_append_left _ memItems, rest⟩
  type g mem t memT := by
    obtain ⟨s, memS, rest⟩ := grouped.type g mem t memT
    exact ⟨s, mem_append_left _ memS, rest⟩
  item s mem f found := by
    rcases mem_append.mp mem with mem | mem
    · exact grouped.item s mem f found
    · rw [mem_singleton.mp mem, short] at found
      cases found
  count := by simpa [alone?, short] using grouped.count

theorem Grouped.length_le (grouped : Grouped index items groups) :
    groups.length ≤ (items.filterMap (alone? index)).length := by
  rcases grouped.count with less | ⟨same, _⟩
  · exact less.le
  · exact (congrArg List.length same).le

theorem mem_of_mem_replaced {α : Type} {before after : List α} {x y z : α}
    (mem : x ∈ before ++ y :: after) : x = y ∨ x ∈ before ++ z :: after := by
  simp only [mem_append, mem_cons] at mem ⊢
  tauto

theorem Grouped.join {before after : List Group} {g : Group}
    (grouped : Grouped index items (before ++ g :: after)) (found : r.fields[index]? = some f)
    (key : g.key = r.withField index any) :
    Grouped index (items ++ [r]) (before ++ { g with types := g.types ++ [f.2] } :: after) where
  first x mem := by
    rcases mem_of_mem_replaced (z := g) mem with rfl | mem
    · obtain ⟨memItems, long, same, _⟩ := grouped.first g (by simp)
      exact ⟨mem_append_left _ memItems, long, same, by simp⟩
    · obtain ⟨memItems, rest⟩ := grouped.first x mem
      exact ⟨mem_append_left _ memItems, rest⟩
  type x mem t memT := by
    rcases mem_of_mem_replaced (z := g) mem with rfl | mem
    · rcases mem_append.mp memT with memT | memT
      · obtain ⟨s, memS, rest⟩ := grouped.type g (by simp) t memT
        exact ⟨s, mem_append_left _ memS, rest⟩
      · exact ⟨r, by simp, f, found, key, mem_singleton.mp memT⟩
    · obtain ⟨s, memS, rest⟩ := grouped.type x mem t memT
      exact ⟨s, mem_append_left _ memS, rest⟩
  item s mem f' found' := by
    rcases mem_append.mp mem with mem | mem
    · obtain ⟨x, memX, same, memT⟩ := grouped.item s mem f' found'
      rcases mem_of_mem_replaced (z := { g with types := g.types ++ [f.2] }) memX with rfl | memX
      · exact ⟨_, mem_append_right _ mem_cons_self, same, mem_append_left _ memT⟩
      · exact ⟨x, memX, same, memT⟩
    · obtain rfl := mem_singleton.mp mem
      obtain rfl := Option.some.inj (found.symm.trans found')
      exact ⟨_, mem_append_right _ mem_cons_self, key, by simp⟩
  count := by
    left
    have bound := grouped.length_le
    simp [alone?, found] at bound ⊢
    omega

theorem Grouped.start (grouped : Grouped index items groups) (found : r.fields[index]? = some f)
    (fresh : ∀ g ∈ groups, g.key ≠ r.withField index any) :
    Grouped index (items ++ [r]) (groups ++ [⟨r.withField index any, r, [f.2]⟩]) where
  first x mem := by
    rcases mem_append.mp mem with mem | mem
    · obtain ⟨memItems, rest⟩ := grouped.first x mem
      exact ⟨mem_append_left _ memItems, rest⟩
    · obtain rfl := mem_singleton.mp mem
      exact ⟨by simp, (List.getElem?_eq_some_iff.mp found).1, rfl, by simp⟩
  type x mem t memT := by
    rcases mem_append.mp mem with mem | mem
    · obtain ⟨s, memS, rest⟩ := grouped.type x mem t memT
      exact ⟨s, mem_append_left _ memS, rest⟩
    · obtain rfl := mem_singleton.mp mem
      exact ⟨r, by simp, f, found, rfl, mem_singleton.mp memT⟩
  item s mem f' found' := by
    rcases mem_append.mp mem with mem | mem
    · obtain ⟨g, memG, rest⟩ := grouped.item s mem f' found'
      exact ⟨g, mem_append_left _ memG, rest⟩
    · obtain rfl := mem_singleton.mp mem
      obtain rfl := Option.some.inj (found.symm.trans found')
      exact ⟨_, mem_append_right _ (mem_singleton_self _), rfl, by simp⟩
  count := by
    rcases grouped.count with less | ⟨same, distinct⟩
    · left
      simpa [alone?, found] using less
    · right
      refine ⟨by simp [alone?, found, ← same], pairwise_append.mpr ⟨distinct, by simp, ?_⟩⟩
      intro g mem x memX
      rw [mem_singleton.mp memX]
      exact fresh g mem

theorem grouping_append (items : List Record) (r : Record) (index : Nat) :
    grouping (items ++ [r]) index =
      match r.fields[index]? with
      | some f => addToGroup (r.withField index any) r f.2 (grouping items index)
      | none => grouping items index := by
  simp [grouping]

theorem grouped_grouping (items : List Record) (index : Nat) :
    Grouped index items (grouping items index) := by
  induction items using List.reverseRecOn with
  | nil => exact ⟨by simp [grouping], by simp [grouping], by simp, .inr ⟨rfl, by simp [grouping]⟩⟩
  | append_singleton items r ih =>
    rw [grouping_append]
    cases found : r.fields[index]? with
    | none => exact ih.skip found
    | some f =>
      dsimp only
      rcases addToGroup_cases (r.withField index any) r f.2 (grouping items index) with
        ⟨before, g, after, split, key, result⟩ | ⟨fresh, result⟩
      · rw [result]
        rw [split] at ih
        exact ih.join found key
      · rw [result]
        exact ih.start found fresh

/-- The struct type with one field replaced by the union of that field alone. -/
def rewriteField (lower : Algebra) (index : Nat) (r : Record) : Record :=
  match r.fields[index]? with
  | some f =>
    match lower.union [f.2] with
    | .ok u => ⟨r.name, Record.setField r.fields index u⟩
    | .error _ => r
  | none => r

/-- A type is what a group merges to. -/
def MergesTo (inv : Invariant) (n : Nat) (lower : Algebra) (index : Nat) (g : Group) (t : Ty) :
    Prop :=
  ∃ u, t = g.first.withField index u ∧ lower.union g.types = .ok u ∧ inv.Fits n u ∧
    ∀ v, v ∈ u ↔ ∃ s ∈ g.types, v ∈ s

section Merge

variable {inv : Invariant} {n : Nat} {lower : Algebra} {index : Nat} {items : List Record}
  {groups : List Group} {merged : List Ty} (fits : ∀ r ∈ items, inv.Fits (n + 1) r.toTy)
  (grouped : Grouped index items groups)

include fits in
theorem fits_of_getElem? {r : Record} (mem : r ∈ items) {f : String × Ty}
    (found : r.fields[index]? = some f) : f.2 ≠ never ∧ inv.Fits n f.2 :=
  (Invariant.fits_struct.mp (fits r mem)).2.2 f (mem_of_getElem? found)

include fits grouped in
theorem groups_yield (lawful : inv.Lawful n lower) :
    Yields (groups.mapM fun g => do return g.first.withField index (← lower.union g.types))
      (Forall₂ (MergesTo inv n lower index) groups) := by
  refine Yields.mapM fun g mem => ?_
  obtain ⟨_, _, _, nonempty⟩ := grouped.first g mem
  have fitsTypes : ∀ t ∈ g.types, inv.Fits n t := by
    intro t memT
    obtain ⟨r, memR, f, found, _, rfl⟩ := grouped.type g mem t memT
    exact (fits_of_getElem? fits memR found).2
  obtain ⟨u, result, fitsU, values⟩ := lawful.union g.types nonempty fitsTypes
  exact ⟨g.first.withField index u, by rw [result]; rfl, u, rfl, result, fitsU, values⟩

variable (results : Forall₂ (MergesTo inv n lower index) groups merged)

include grouped results in
/-- The merged groups have the records of the struct types in them. -/
theorem covers_merged {v : Value} :
    (∃ t ∈ merged, v ∈ t) ↔ ∃ r ∈ items, index < r.fields.length ∧ v ∈ r.toTy := by
  constructor
  · rintro ⟨t, mem, has⟩
    obtain ⟨g, memG, u, rfl, _, _, values⟩ := exists_left_of_forall₂ results mem
    obtain ⟨_, bound, key, _⟩ := grouped.first g memG
    obtain ⟨others, w, value, inside⟩ := (Record.mem_withField bound).mp has
    obtain ⟨s, memS, inside⟩ := (values w).mp inside
    obtain ⟨r, memR, f, found, same, rfl⟩ := grouped.type g memG s memS
    rw [← key, same] at others
    exact ⟨r, memR, (List.getElem?_eq_some_iff.mp found).1,
      (Record.mem_toTy_iff found).mpr ⟨others, w, value, inside⟩⟩
  · rintro ⟨r, mem, bound, has⟩
    have found : r.fields[index]? = some r.fields[index] := getElem?_eq_getElem bound
    obtain ⟨others, w, value, inside⟩ := (Record.mem_toTy_iff found).mp has
    obtain ⟨g, memG, same, memT⟩ := grouped.item r mem _ found
    obtain ⟨t, memMerged, u, rfl, _, _, values⟩ := exists_right_of_forall₂ results memG
    obtain ⟨_, boundG, key, _⟩ := grouped.first g memG
    rw [← same, key] at others
    exact ⟨_, memMerged, (Record.mem_withField boundG).mpr
      ⟨others, w, value, (values w).mpr ⟨_, memT, inside⟩⟩⟩

omit grouped in
/-- A struct type with a field replaced by a type that is not empty is a struct type. -/
theorem record?_withField_of_ne {r : Record} (fitsR : inv.Fits (n + 1) r.toTy) {u : Ty}
    (proper : u ≠ never) :
    (r.withField index u).record? = some ⟨r.name, Record.setField r.fields index u⟩ := by
  rcases Record.build_cases r.name (Record.setField r.fields index u) with
    ⟨_, f, mem, empty⟩ | ⟨same, _⟩
  · rcases Record.mem_setField mem with replaced | mem
    · exact absurd (replaced.symm.trans empty) proper
    · exact absurd empty ((Invariant.fits_struct.mp fitsR).2.2 f mem).1
  · rw [Record.withField, same]
    rfl

include fits in
theorem ne_never_of_values {r : Record} (mem : r ∈ items) {f : String × Ty}
    (found : r.fields[index]? = some f) {types : List Ty} (memF : f.2 ∈ types) {u : Ty}
    (values : ∀ v, v ∈ u ↔ ∃ s ∈ types, v ∈ s) : u ≠ never := by
  rintro rfl
  obtain ⟨proper, fitsF⟩ := fits_of_getElem? fits mem found
  obtain ⟨v, has⟩ := exists_mem f.2 fitsF.1.wellFormed proper
  exact not_mem_never v ((values v).mpr ⟨f.2, memF, has⟩)

include fits grouped results in
theorem record?_of_mem_merged {t : Ty} (mem : t ∈ merged) :
    inv.Fits (n + 1) t ∧ t.record?.isSome = true := by
  obtain ⟨g, memG, u, rfl, _, fitsU, values⟩ := exists_left_of_forall₂ results mem
  obtain ⟨memFirst, _, _, nonempty⟩ := grouped.first g memG
  obtain ⟨s, memS⟩ := exists_mem_of_ne_nil g.types nonempty
  obtain ⟨r, memR, f, found, _, rfl⟩ := grouped.type g memG s memS
  have fitsFirst := fits g.first memFirst
  refine ⟨fitsFirst.withField fitsU, ?_⟩
  rw [record?_withField_of_ne fitsFirst (ne_never_of_values fits memR found memS values)]
  rfl

include fits grouped results in
/-- The struct types without the field and the merged groups have the records of all. -/
theorem covers_short_and_merged {v : Value} :
    Covers ((items.filter fun r => decide (r.fields.length ≤ index)) ++
      merged.filterMap record?) v ↔ Covers items v := by
  constructor
  · rintro ⟨r, mem, has⟩
    rcases mem_append.mp mem with mem | mem
    · exact ⟨r, mem_of_mem_filter mem, has⟩
    · obtain ⟨t, memT, found⟩ := mem_filterMap.mp mem
      rw [← record?_eq_some_iff.mp found] at has
      obtain ⟨s, memS, _, has⟩ := (covers_merged grouped results).mp ⟨t, memT, has⟩
      exact ⟨s, memS, has⟩
  · rintro ⟨r, mem, has⟩
    by_cases short : r.fields.length ≤ index
    · exact ⟨r, mem_append_left _ (mem_filter.mpr ⟨mem, by simpa using short⟩), has⟩
    · obtain ⟨t, memT, has⟩ := (covers_merged grouped results).mpr ⟨r, mem, by omega, has⟩
      have isRecord := (record?_of_mem_merged fits grouped results memT).2
      obtain ⟨s, found⟩ := Option.isSome_iff_exists.mp isRecord
      rw [record?_eq_some_iff.mp found] at has
      exact ⟨s, mem_append_right _ (mem_filterMap.mpr ⟨t, memT, found⟩), has⟩

include fits in
theorem merged_of_alone
    (results : Forall₂ (MergesTo inv n lower index) (items.filterMap (alone? index)) merged) :
    merged.filterMap record? =
      (items.filter fun r => index < r.fields.length).map (rewriteField lower index) := by
  induction items generalizing merged with
  | nil =>
    cases results
    rfl
  | cons r rest ih =>
    have fitsRest : ∀ s ∈ rest, inv.Fits (n + 1) s.toTy :=
      fun s mem => fits s (mem_cons_of_mem r mem)
    cases found : r.fields[index]? with
    | none =>
      have short : ¬ index < r.fields.length := by simpa using found
      rw [filterMap_cons_none (by simp [alone?, found])] at results
      simpa [filter_cons, short] using ih fitsRest results
    | some f =>
      have long : index < r.fields.length := (List.getElem?_eq_some_iff.mp found).1
      rw [filterMap_cons_some (alone?_eq_some found)] at results
      cases results with
      | @cons _ t _ tail head others =>
        obtain ⟨u, rfl, result, _, values⟩ := head
        have notNever : u ≠ never := ne_never_of_values fits mem_cons_self found
          (mem_singleton_self _) values
        have rewritten : rewriteField lower index r =
            ⟨r.name, Record.setField r.fields index u⟩ := by
          simp only [rewriteField, found]
          rw [show lower.union [f.2] = .ok u from result]
        have record : (r.withField index u).record? = some _ :=
          record?_withField_of_ne (fits r mem_cons_self) notNever
        rw [filterMap_cons_some record, filter_cons_of_pos (by simpa using long),
          map_cons, rewritten, ih fitsRest others]

end Merge

/-- Struct types have a field at a position or not. -/
theorem length_short_add_alone (items : List Record) (index : Nat) :
    (items.filter fun r => decide (r.fields.length ≤ index)).length +
      (items.filterMap (alone? index)).length = items.length := by
  induction items with
  | nil => rfl
  | cons r rest ih =>
    by_cases short : r.fields.length ≤ index
    · have none : alone? index r = none := by simp [alone?, short]
      rw [filter_cons_of_pos (by simpa using short), filterMap_cons_none none]
      simp only [length_cons]
      omega
    · have found : r.fields[index]? = some r.fields[index] :=
        getElem?_eq_getElem (by omega)
      rw [filter_cons_of_neg (by simpa using short),
        filterMap_cons_some (alone?_eq_some found)]
      simp only [length_cons]
      omega

/-- Rewriting the field of all struct types, those without the field first. -/
theorem rewritten_perm (lower : Algebra) (items : List Record) (index : Nat) :
    ((items.filter fun r => decide (r.fields.length ≤ index)) ++
      (items.filter fun r => decide (index < r.fields.length)).map
        (rewriteField lower index)).Perm (items.map (rewriteField lower index)) := by
  have unchanged : (items.filter fun r => decide (r.fields.length ≤ index)) =
      (items.filter fun r => decide (r.fields.length ≤ index)).map (rewriteField lower index) := by
    refine (map_id _).symm.trans (map_congr_left fun r mem => ?_)
    have short : r.fields.length ≤ index := by simpa using (mem_filter.mp mem).2
    simp [rewriteField, short]
  have long : (fun r : Record => decide (index < r.fields.length)) =
      fun r => !decide (r.fields.length ≤ index) := by
    funext r
    simp [← decide_not]
  rw [unchanged, ← map_append, long]
  exact (filter_append_perm _ items).map _

theorem mergeOnField_eq (lower : Algebra) (items : List Record) (index : Nat) :
    mergeOnField lower items index = (do
      let merged ← (grouping items index).mapM fun g => do
        return g.first.withField index (← lower.union g.types)
      return (items.filter fun r => decide (r.fields.length ≤ index)) ++
        merged.filterMap (·.record?)) := rfl

variable {lower : Algebra} {a b : Record} {fields fields' : List (String × Ty)}

/-- Merging on a field keeps the records. If it merges nothing, no two struct types agree outside
the field, and each is rewritten by itself. -/
theorem mergeOnField_exact {inv : Invariant} {n : Nat} (lawful : inv.Lawful n lower)
    {items : List Record} (fits : ∀ r ∈ items, inv.Fits (n + 1) r.toTy) (index : Nat) :
    Yields (mergeOnField lower items index) fun result =>
      (∀ r ∈ result, inv.Fits (n + 1) r.toTy) ∧ (∀ v, Covers result v ↔ Covers items v) ∧
      result.length ≤ items.length ∧
      (result.length = items.length →
        result.Perm (items.map (rewriteField lower index)) ∧
        items.Pairwise fun a b => index < a.fields.length → index < b.fields.length →
          a.withField index any ≠ b.withField index any) := by
  have grouped := grouped_grouping items index
  rw [mergeOnField_eq]
  refine Yields.bind (groups_yield fits grouped lawful) fun merged results => Yields.pure ?_
  have isRecord : ∀ t ∈ merged, inv.Fits (n + 1) t ∧ t.record?.isSome = true :=
    fun t => record?_of_mem_merged fits grouped results
  have total : (merged.filterMap record?).length = (grouping items index).length := by
    rw [results.length_eq, filterMap_length_eq_length]
    exact fun t mem => (isRecord t mem).2
  have parts := length_short_add_alone items index
  have atMost := grouped.length_le
  refine ⟨?_, fun v => covers_short_and_merged fits grouped results, ?_, fun same => ?_⟩
  · intro r mem
    rcases mem_append.mp mem with mem | mem
    · exact fits r (mem_of_mem_filter mem)
    · obtain ⟨t, memT, found⟩ := mem_filterMap.mp mem
      rw [← record?_eq_some_iff.mp found]
      exact (isRecord t memT).1
  · rw [length_append, total]
    omega
  · rw [length_append, total] at same
    obtain ⟨alone, distinct⟩ := grouped.count.resolve_left (by omega)
    rw [alone] at results distinct
    constructor
    · rw [merged_of_alone fits results]
      exact rewritten_perm lower items index
    · rw [pairwise_filterMap] at distinct
      refine distinct.imp fun {a b} differ longA longB => ?_
      exact differ _ (alone?_eq_some (getElem?_eq_getElem longA)) _
        (alone?_eq_some (getElem?_eq_getElem longB))

/-- Struct types of one name and shape that agree on every field but one. -/
def AgreeExcept (index : Nat) (a b : Record) : Prop :=
  a.name = b.name ∧ a.fields.map (·.1) = b.fields.map (·.1) ∧ index < a.fields.length ∧
    ∀ j, j ≠ index → a.fields[j]? = b.fields[j]?

/-- Struct types that agree outside a field have the same key. -/
theorem AgreeExcept.withField_eq {index : Nat} (agree : AgreeExcept index a b) :
    a.withField index any = b.withField index any := by
  obtain ⟨name, names, _, same⟩ := agree
  have fields : Record.setField a.fields index any = Record.setField b.fields index any := by
    refine ext_getElem? fun j => ?_
    by_cases here : j = index
    · subst here
      have found := congrArg (·[j]?) names
      simp only [getElem?_map] at found
      rw [Record.getElem?_setField_self, Record.getElem?_setField_self]
      cases left : a.fields[j]? <;> cases right : b.fields[j]? <;> simp_all
    · rw [Record.getElem?_setField_of_ne here, Record.getElem?_setField_of_ne here, same j here]
  rw [Record.withField, Record.withField, name, fields]

/-- A map of struct types that works field by field. -/
structure Fieldwise (f : Record → Record) : Prop where
  name : ∀ a, (f a).name = a.name
  names : ∀ a, (f a).fields.map (·.1) = a.fields.map (·.1)
  field : ∀ (a b : Record) (j : Nat), a.fields[j]? = b.fields[j]? →
    (f a).fields[j]? = (f b).fields[j]?

theorem Fieldwise.id : Fieldwise fun r => r := ⟨fun _ => rfl, fun _ => rfl, fun _ _ _ same => same⟩

theorem Fieldwise.comp {f g : Record → Record} (first : Fieldwise f) (second : Fieldwise g) :
    Fieldwise (g ∘ f) where
  name a := (second.name (f a)).trans (first.name a)
  names a := (second.names (f a)).trans (first.names a)
  field a b j same := second.field (f a) (f b) j (first.field a b j same)

theorem getElem?_rewriteField_of_ne {index j : Nat} (other : j ≠ index)
    {r : Record} : (rewriteField lower index r).fields[j]? = r.fields[j]? := by
  unfold rewriteField
  split
  · split
    · exact Record.getElem?_setField_of_ne other
    · rfl
  · rfl

theorem fieldwise_rewriteField (lower : Algebra) (index : Nat) :
    Fieldwise (rewriteField lower index) where
  name a := by
    unfold rewriteField
    split
    · split <;> rfl
    · rfl
  names a := by
    unfold rewriteField
    split
    · split
      · exact Record.map_fst_setField
      · rfl
    · rfl
  field a b j same := by
    by_cases here : j = index
    · subst here
      unfold rewriteField
      rw [← same]
      cases found : a.fields[j]? with
      | none => simpa [found] using same
      | some f =>
        dsimp only
        cases lower.union [f.2] with
        | ok u => simp only [Record.getElem?_setField_self, same]
        | error clash => exact same
    · rw [getElem?_rewriteField_of_ne here, getElem?_rewriteField_of_ne here, same]

/-- A map that works field by field keeps struct types that agree outside a field. -/
theorem Fieldwise.agreeExcept {f : Record → Record} (fieldwise : Fieldwise f) {index : Nat}
    (agree : AgreeExcept index a b) : AgreeExcept index (f a) (f b) := by
  obtain ⟨name, names, bound, same⟩ := agree
  refine ⟨?_, ?_, ?_, fun j other => fieldwise.field a b j (same j other)⟩
  · rw [fieldwise.name, fieldwise.name, name]
  · rw [fieldwise.names, fieldwise.names, names]
  · have length := congrArg List.length (fieldwise.names a)
    simp only [length_map] at length
    omega

theorem eq_of_differing_eq_zero (names : Forall₂ (fun f f' => f.1 = f'.1) fields fields')
    (none : differing fields fields' = 0) : fields = fields' := by
  induction names with
  | nil => rfl
  | @cons f f' rest rest' name _ ih =>
    by_cases same : f.2 = f'.2
    · have fewer : differing rest rest' = 0 := by simpa [differing, same] using none
      rw [Prod.ext name same, ih fewer]
    · simp [differing, same] at none

/-- Fields of the same names with at most one difference are equal or agree outside one. -/
theorem eq_or_agree_of_differing (names : fields.map (·.1) = fields'.map (·.1))
    (few : differing fields fields' ≤ 1) :
    fields = fields' ∨ ∃ index < fields.length, ∀ j, j ≠ index → fields[j]? = fields'[j]? := by
  replace names := forall₂_names names
  induction names with
  | nil => exact .inl rfl
  | @cons f f' rest rest' name names ih =>
    by_cases same : f.2 = f'.2
    · have head : f = f' := Prod.ext name same
      have fewer : differing rest rest' ≤ 1 := by simpa [differing, same] using few
      rcases ih fewer with tail | ⟨index, bound, agree⟩
      · exact .inl (by rw [head, tail])
      · refine .inr ⟨index + 1, by simpa using bound, fun j other => ?_⟩
        cases j with
        | zero => simp [head]
        | succ j => simpa using agree j (by omega)
    · have none : differing rest rest' = 0 := by simpa [differing, same] using few
      have tail := eq_of_differing_eq_zero names none
      refine .inr ⟨0, by simp, fun j other => ?_⟩
      cases j with
      | zero => exact absurd rfl other
      | succ j => simp [tail]

/-- No struct type is inside another one, and no two agree outside a single field. -/
def Settled (items : List Record) : Prop :=
  ∀ a ∈ items, ∀ b ∈ items, a ≠ b → ¬ Inside a.toTy b.toTy ∧ ∀ index, ¬ AgreeExcept index a b

theorem length_le_width {items : List Record} {r : Record} (mem : r ∈ items) :
    r.fields.length ≤ width items := by
  suffices ∀ start, start ≤ items.foldl (fun w r => max w r.fields.length) start ∧
      ∀ r ∈ items, r.fields.length ≤ items.foldl (fun w r => max w r.fields.length) start from
    (this 0).2 r mem
  clear mem
  induction items with
  | nil => simp
  | cons s rest ih =>
    intro start
    obtain ⟨from_, each⟩ := ih (max start s.fields.length)
    rw [foldl_cons, forall_mem_cons]
    exact ⟨by omega, by omega, each⟩

section Loop

variable {inv : Invariant} {n : Nat} {lower : Algebra} (lawful : inv.Lawful n lower)
include lawful

/-- What holds after merging on some fields: the list has the records it had, is no longer than
before, and if it is as long as before, its struct types were rewritten field by field and no two
of them agree outside one of these fields. -/
structure Passed (inv : Invariant) (n : Nat) (kept : List Record) (index : Nat)
    (items : List Record) : Prop where
  fits : ∀ r ∈ items, inv.Fits (n + 1) r.toTy
  covers : ∀ v, Covers items v ↔ Covers kept v
  shorter : items.length ≤ kept.length
  rewritten : items.length = kept.length → ∃ f, Fieldwise f ∧ items.Perm (kept.map f)
  apart : items.length = kept.length → ∀ j < index, ∀ a ∈ kept, ∀ b ∈ kept, a ≠ b →
    ¬ AgreeExcept j a b

theorem Passed.step {kept items : List Record} {index : Nat}
    (passed : Passed inv n kept index items) :
    Yields (mergeOnField lower items index) (Passed inv n kept (index + 1)) := by
  refine (mergeOnField_exact lawful passed.fits index).mono
    fun result ⟨fits, covers, shorter, unmerged⟩ => ?_
  have before := passed.shorter
  refine ⟨fits, fun v => (covers v).trans (passed.covers v), shorter.trans before, fun same => ?_,
    fun same => ?_⟩
  · obtain ⟨f, fieldwise, perm⟩ := passed.rewritten (by omega)
    obtain ⟨rewritten, _⟩ := unmerged (by omega)
    refine ⟨rewriteField lower index ∘ f, fieldwise.comp (fieldwise_rewriteField lower index), ?_⟩
    rw [← map_map]
    exact rewritten.trans (perm.map _)
  · intro j less a memA b memB differ agree
    rcases Nat.lt_succ_iff_lt_or_eq.mp less with less | rfl
    · exact passed.apart (by omega) j less a memA b memB differ agree
    · obtain ⟨f, fieldwise, perm⟩ := passed.rewritten (by omega)
      obtain ⟨_, distinct⟩ := unmerged (by omega)
      -- The keys are distinct in the rewritten list, hence for any two of the original one.
      have symm : Std.Symm fun a b : Record => j < a.fields.length → j < b.fields.length →
          a.withField j any ≠ b.withField j any :=
        ⟨fun a b apart longB longA same => apart longA longB same.symm⟩
      rw [perm.pairwise_iff (symm.symm _ _), pairwise_map] at distinct
      have symm' : Std.Symm fun a b : Record => j < (f a).fields.length → j < (f b).fields.length →
          (f a).withField j any ≠ (f b).withField j any :=
        ⟨fun a b => symm.symm (f a) (f b)⟩
      have rewritten := fieldwise.agreeExcept agree
      have long : j < (f b).fields.length := by
        have length := congrArg List.length rewritten.2.1
        have bound := rewritten.2.2.1
        simp only [length_map] at length
        omega
      exact distinct.forall memA memB differ rewritten.2.2.1 long rewritten.withField_eq

theorem pass_yields {kept : List Record} (fits : ∀ r ∈ kept, inv.Fits (n + 1) r.toTy)
    (count : Nat) :
    Yields ((List.range count).foldlM (mergeOnField lower) kept) (Passed inv n kept count) := by
  refine Yields.foldlM_range count ?_ fun index _ items passed => passed.step lawful
  exact ⟨fits, fun v => Iff.rfl, le_refl _, fun _ => ⟨_, Fieldwise.id, by simp⟩,
    fun _ j less => by omega⟩

/-- The loop keeps the records, and with enough steps it ends in a settled list. -/
theorem settle_exact {items : List Record} (fits : ∀ r ∈ items, inv.Fits (n + 1) r.toTy)
    (steps : Nat) :
    Yields (settle lower steps items) fun result =>
      (∀ r ∈ result, inv.Fits (n + 1) r.toTy) ∧ (∀ v, Covers result v ↔ Covers items v) ∧
      (items.length < steps → Settled result) := by
  induction steps generalizing items with
  | zero => exact Yields.pure ⟨fits, fun v => Iff.rfl, fun less => absurd less (Nat.not_lt_zero _)⟩
  | succ steps ih =>
    have fitsSorted : ∀ r ∈ Sorted.ofList Record.compare items, inv.Fits (n + 1) r.toTy :=
      fun r mem => fits r (Sorted.mem_ofList.mp mem)
    refine Yields.bind (dropSubsumed_exact lawful fitsSorted)
      fun kept ⟨sublist, covers, outside⟩ => ?_
    have fitsKept : ∀ r ∈ kept, inv.Fits (n + 1) r.toTy :=
      fun r mem => fitsSorted r (sublist.subset mem)
    have same : ∀ v, Covers kept v ↔ Covers items v := by
      intro v
      rw [covers v]
      simp only [Covers, Sorted.mem_ofList]
    refine Yields.bind (pass_yields lawful fitsKept (width kept)) fun merged passed => ?_
    split
    · next unmerged =>
      -- The list from before the pass is returned; the pass has shown that it is settled.
      refine Yields.pure ⟨fitsKept, same, fun _ a memA b memB differ => ?_⟩
      refine ⟨outside a memA b memB differ, fun index agree => ?_⟩
      exact passed.apart unmerged index (agree.2.2.1.trans_le (length_le_width memA)) a memA b memB
        differ agree
    · next fewer =>
      refine (ih passed.fits).mono fun result ⟨fitsResult, coversResult, settled⟩ => ?_
      refine ⟨fitsResult, fun v => ?_, fun less => settled ?_⟩
      · rw [coversResult, passed.covers, same]
      · have shorter := passed.shorter
        have keptLength := sublist.length_le
        have sortedLength := Sorted.length_ofList_le Record.compare items
        omega

theorem unionMembers_exact {items : List Record} (fits : ∀ r ∈ items, inv.Fits (n + 1) r.toTy) :
    Yields (unionMembers lower items) fun result =>
      (∀ r ∈ result, inv.Fits (n + 1) r.toTy) ∧ (∀ v, Covers result v ↔ Covers items v) ∧
      Settled result := by
  have fitsAtoms : ∀ s ∈ items.flatMap atoms, inv.Fits (n + 1) s.toTy := by
    intro s mem
    obtain ⟨r, memR, mem⟩ := mem_flatMap.mp mem
    exact (atoms_exact hereditary_fits (fits r memR)).1 s mem
  have covers : ∀ v, Covers (items.flatMap atoms) v ↔ Covers items v := by
    intro v
    constructor
    · rintro ⟨s, mem, has⟩
      obtain ⟨r, memR, mem⟩ := mem_flatMap.mp mem
      exact ⟨r, memR, ((atoms_exact hereditary_fits (fits r memR)).2 v).mp ⟨s, mem, has⟩⟩
    · rintro ⟨r, memR, has⟩
      obtain ⟨s, mem, has⟩ := ((atoms_exact hereditary_fits (fits r memR)).2 v).mpr has
      exact ⟨s, mem_flatMap.mpr ⟨r, memR, mem⟩, has⟩
  refine (settle_exact lawful fitsAtoms _).mono fun result ⟨fitsResult, same, settled⟩ => ?_
  exact ⟨fitsResult, fun v => (same v).trans (covers v), settled (Nat.lt_succ_self _)⟩

end Loop

end TypeFlow.Structs
