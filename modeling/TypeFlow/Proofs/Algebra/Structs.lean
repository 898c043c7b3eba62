import TypeFlow.Proofs.Algebra.Lawful

/-!
# Subset, intersection and difference of struct types

Over a lawful level, the operations on two struct types go field by field and end without a
clash: the test for subsets decides `Inside`, intersection is exact, and difference keeps what the
other type lacks.
-/

namespace TypeFlow.Structs

open List Ty

theorem inside_toTy_iff {a b : Record} :
    Inside a.toTy b.toTy ↔ a.name = b.name ∧ InsideFields a.fields b.fields := by
  simp [Record.toTy, Inside, members]

variable {fields fields' : List (String × Ty)}

section Names

variable (names : fields.map (·.1) = fields'.map (·.1))
include names

theorem forall₂_names : Forall₂ (fun f f' => f.1 = f'.1) fields fields' := by
  rwa [← forall₂_eq_eq_eq, forall₂_map_left_iff, forall₂_map_right_iff] at names

/-- Fields with the same names are inside each other when their types are, pair by pair. -/
theorem insideFields_iff :
    InsideFields fields fields' ↔ ∀ p ∈ fields.zip fields', Inside p.1.2 p.2.2 := by
  replace names := forall₂_names names
  induction names with
  | nil => simp [InsideFields]
  | cons name _ ih => simp [InsideFields, name, ih]

theorem hasFields_intersections {types : List Ty}
    (each : Forall₂ (fun p t => ∀ v, v ∈ t ↔ v ∈ p.1.2 ∧ v ∈ p.2.2) (fields.zip fields') types)
    {values : List (String × Value)} :
    hasFields ((fields.map (·.1)).zip types) values = true ↔
      hasFields fields values = true ∧ hasFields fields' values = true := by
  replace names := forall₂_names names
  induction names generalizing types values with
  | nil => simp
  | cons name _ ih =>
    rw [zip_cons_cons] at each
    cases each with
    | cons head tail =>
      cases values with
      | nil => simp
      | cons w values =>
        simp only [map_cons, zip_cons_cons, hasFields_cons_cons, head, ih tail, ← name]
        tauto

/-- Values that fit only one of two lists of fields fail at some field of the other. -/
theorem exists_field_outside {values : List (String × Value)}
    (holds : hasFields fields values = true) (fails : ¬ hasFields fields' values = true) :
    ∃ (index : Nat) (f f' : String × Ty) (w : Value),
      fields[index]? = some f ∧ fields'[index]? = some f' ∧
      values[index]?.map (·.2) = some w ∧ w ∈ f.2 ∧ ¬ w ∈ f'.2 := by
  replace names := forall₂_names names
  induction names generalizing values with
  | nil => exact absurd holds fails
  | @cons f f' rest rest' name _ ih =>
    cases values with
    | nil => exact absurd holds hasFields_cons_nil
    | cons w values =>
      rw [hasFields_cons_cons] at holds fails
      by_cases head : w.2 ∈ f'.2
      · have tail : ¬ hasFields rest' values = true :=
          fun tail => fails ⟨holds.1.trans name, head, tail⟩
        obtain ⟨index, g, g', u, found⟩ := ih holds.2.2 tail
        exact ⟨index + 1, g, g', u, by simpa using found⟩
      · exact ⟨0, f, f', w.2, rfl, rfl, rfl, holds.2.1, head⟩

end Names

section Pairs

variable {inv : Invariant} {n : Nat} {lower : Algebra} {a b : Record}
  (fitsA : inv.Fits (n + 1) a.toTy) (fitsB : inv.Fits (n + 1) b.toTy)
include fitsA fitsB

theorem names_eq (name : a.name = b.name) : a.fields.map (·.1) = b.fields.map (·.1) := by
  have left := (Invariant.fits_struct.mp fitsA).2.1
  have right := (Invariant.fits_struct.mp fitsB).2.1
  rw [left, right, name]

theorem agree_yields (name : a.name = b.name) : Yields (agree a b) fun _ => True := by
  have shape : a.sameShape b = true := decide_eq_true (names_eq fitsA fitsB name)
  rw [agree, if_pos shape]
  exact Yields.pure trivial

theorem fits_of_mem_pairs {p : Ty × Ty} (mem : p ∈ pairs a b) :
    inv.Fits n p.1 ∧ inv.Fits n p.2 := by
  obtain ⟨⟨f, g⟩, both, rfl⟩ := mem_map.mp mem
  have left := (Invariant.fits_struct.mp fitsA).2.2 f (of_mem_zip both).1
  have right := (Invariant.fits_struct.mp fitsB).2.2 g (of_mem_zip both).2
  exact ⟨left.2, right.2⟩

end Pairs

section Lawful

variable {inv : Invariant} {n : Nat} {lower : Algebra} (lawful : inv.Lawful n lower) {a b : Record}
  (fitsA : inv.Fits (n + 1) a.toTy) (fitsB : inv.Fits (n + 1) b.toTy)
include lawful fitsA fitsB

theorem subset_decides : Decides (subset lower a b) (Inside a.toTy b.toTy) := by
  unfold subset
  split
  · next name =>
    refine Yields.bind (agree_yields fitsA fitsB name) fun _ _ => ?_
    have each : Decides ((pairs a b).allM fun p => lower.subset p.1 p.2)
        (∀ p ∈ pairs a b, Inside p.1 p.2) := by
      refine Decides.allM fun p mem => ?_
      obtain ⟨left, right⟩ := fits_of_mem_pairs fitsA fitsB mem
      exact lawful.subset p.1 p.2 left right
    refine each.congr ?_
    rw [inside_toTy_iff, insideFields_iff (names_eq fitsA fitsB name)]
    simp only [pairs, forall_mem_map, name, true_and]
  · next name =>
    exact Decides.pure (by simp [inside_toTy_iff, name])

theorem intersect_exact : Yields (intersect lower a b) fun u =>
    inv.Fits (n + 1) u ∧ Single u ∧ ∀ v, v ∈ u ↔ v ∈ a.toTy ∧ v ∈ b.toTy := by
  unfold intersect
  split
  · next name =>
    have names := names_eq fitsA fitsB name
    obtain ⟨pos, shape, _⟩ := Invariant.fits_struct.mp fitsA
    refine Yields.bind (agree_yields fitsA fitsB name) fun _ _ => ?_
    have types : Yields ((pairs a b).mapM fun p => lower.intersect [p.1, p.2])
        (Forall₂ (fun p t => inv.Fits n t ∧ ∀ v, v ∈ t ↔ v ∈ p.1 ∧ v ∈ p.2) (pairs a b)) := by
      refine Yields.mapM fun p mem => ?_
      obtain ⟨left, right⟩ := fits_of_mem_pairs fitsA fitsB mem
      exact lawful.intersect p.1 p.2 left right
    refine Yields.bind types fun types each => Yields.pure ⟨?_, Record.single_build, fun v => ?_⟩
    · have length : (a.fields.map (·.1)).length ≤ types.length := by
        have sameLength := congrArg List.length names
        have all := each.length_eq
        simp only [pairs, length_map, length_zip] at sameLength all ⊢
        omega
      refine Invariant.fits_build pos ?_ fun f mem => ?_
      · exact (map_fst_zip length).trans shape
      · obtain ⟨p, _, fits, _⟩ := exists_left_of_forall₂ each (of_mem_zip mem).2
        exact fits
    · rw [pairs, forall₂_map_left_iff] at each
      have values := each.imp fun _ _ holds => holds.2
      rw [Record.mem_build]
      cases v with
      | record name' fields' =>
        simp only [Record.toTy, record_mem_iff, hasFields_intersections names values, ← name]
        tauto
      | _ => simp [Record.toTy, mem_iff, has]
  · next name =>
    refine Yields.pure ⟨Invariant.fits_never (Nat.succ_pos n), fun _ => Ty.noConfusion, fun v => ?_⟩
    refine ⟨fun has => absurd has (not_mem_never v), fun both => ?_⟩
    obtain ⟨values, rfl, _⟩ := exists_record_of_mem both.1
    exact absurd (record_mem_iff.mp both.2).1 name

end Lawful

section Escaping

variable {inv : Invariant} {n : Nat} {lower : Algebra} (lawful : inv.Lawful n lower)
include lawful

theorem disjoint_decides {x y : Ty} (fitsX : inv.Fits n x) (fitsY : inv.Fits n y) :
    Decides (lower.disjoint x y) (∀ v, ¬ (v ∈ x ∧ v ∈ y)) := by
  refine Yields.bind (lawful.intersect x y fitsX fitsY) fun u ⟨fits, values⟩ => Decides.pure ?_
  simp only [isNever_iff, eq_never_iff fits.1, values]

open Classical in
/-- The search for fields that are not inside their counterpart finds the first ones. -/
theorem escaping_eq {types : List (Ty × Ty)}
    (each : ∀ p ∈ types, inv.Fits n p.1 ∧ inv.Fits n p.2) (limit index : Nat) :
    Yields (escaping lower limit index types) fun found => found =
      (((types.zipIdx index).filter fun p => ¬ Inside p.1.1 p.1.2).take limit).map
        fun p => (p.2, p.1) := by
  induction types generalizing limit index with
  | nil => cases limit <;> exact Yields.pure (by simp)
  | cons p rest ih =>
    cases limit with
    | zero => exact Yields.pure (by simp)
    | succ limit =>
      obtain ⟨fitsX, fitsY⟩ := each p mem_cons_self
      have others := ih fun q mem => each q (mem_cons_of_mem p mem)
      refine Decides.ite (lawful.subset p.1 p.2 fitsX fitsY) (fun inside => ?_) fun outside => ?_
      · refine (others (limit + 1) (index + 1)).mono fun found same => ?_
        simp [same, inside]
      · refine (others limit (index + 1)).bind fun found same => Yields.pure ?_
        simp [same, outside]

/-- Without such fields all are inside their counterpart; a single one is the only exception. -/
theorem escaping_two {types : List (Ty × Ty)}
    (each : ∀ p ∈ types, inv.Fits n p.1 ∧ inv.Fits n p.2) :
    Yields (escaping lower 2 0 types) fun found =>
      (found = [] → ∀ p ∈ types, Inside p.1 p.2) ∧
      ∀ i x y, found = [(i, x, y)] → types[i]? = some (x, y) ∧
        ∀ j p, types[j]? = some p → ¬ Inside p.1 p.2 → j = i := by
  classical
  refine (escaping_eq lawful each 2 0).mono fun found same => ?_
  generalize filtered : (types.zipIdx 0).filter (fun p => ¬ Inside p.1.1 p.1.2) = escaped at same
  have member (p : Ty × Ty) (j : Nat) :
      (p, j) ∈ escaped ↔ types[j]? = some p ∧ ¬ Inside p.1 p.2 := by
    rw [← filtered, mem_filter, mem_zipIdx_iff_getElem?, decide_eq_true_eq]
  constructor
  · rintro rfl p mem
    obtain rfl : escaped = [] := by simpa using same.symm
    obtain ⟨j, position⟩ := mem_iff_getElem?.mp mem
    by_contra outside
    cases (member p j).mpr ⟨position, outside⟩
  · rintro i x y rfl
    obtain rfl : escaped = [((x, y), i)] := by
      match escaped with
      | [] => simp at same
      | [e] => simp_all
      | e :: e' :: rest => simp at same
    simp only [mem_singleton, Prod.mk.injEq] at member
    exact ⟨((member (x, y) i).mp ⟨rfl, rfl⟩).1,
      fun j p position outside => ((member p j).mpr ⟨position, outside⟩).2⟩

end Escaping

theorem getElem?_pairs {a b : Record} {index : Nat} {x y : Ty} :
    (pairs a b)[index]? = some (x, y) ↔
      ∃ f f', a.fields[index]? = some f ∧ b.fields[index]? = some f' ∧ f.2 = x ∧ f'.2 = y := by
  simp only [pairs, getElem?_map, Option.map_eq_some_iff, getElem?_zip_eq_some]
  constructor
  · rintro ⟨⟨f, f'⟩, found, same⟩
    exact ⟨f, f', found.1, found.2, Prod.mk.inj same⟩
  · rintro ⟨f, f', left, right, rfl, rfl⟩
    exact ⟨(f, f'), ⟨left, right⟩, rfl⟩

/-- When a single field reaches outside the other type, the difference is in that field. -/
theorem mem_withField_difference {a b : Record} (name : a.name = b.name)
    (names : a.fields.map (·.1) = b.fields.map (·.1)) {index : Nat} {x y u : Ty}
    (position : (pairs a b)[index]? = some (x, y))
    (only : ∀ j p, (pairs a b)[j]? = some p → ¬ Inside p.1 p.2 → j = index)
    (difference : ∀ w, (w ∈ u → w ∈ x) ∧ (w ∈ x → ¬ w ∈ y → w ∈ u)) (v : Value) :
    (v ∈ a.withField index u → v ∈ a.toTy) ∧
      (v ∈ a.toTy → ¬ v ∈ b.toTy → v ∈ a.withField index u) := by
  obtain ⟨f, f', left, right, rfl, rfl⟩ := getElem?_pairs.mp position
  have bound : index < a.fields.length := (List.getElem?_eq_some_iff.mp left).1
  constructor
  · intro has
    obtain ⟨others, w, value, inside⟩ := (Record.mem_withField bound).mp has
    exact (Record.mem_toTy_iff left).mpr ⟨others, w, value, (difference w).1 inside⟩
  · intro has outside
    have others := ((Record.mem_toTy_iff left).mp has).1
    obtain ⟨values, rfl, holds⟩ := exists_record_of_mem has
    have fails : ¬ hasFields b.fields values = true :=
      fun holds => outside (record_mem_iff.mpr ⟨name, holds⟩)
    obtain ⟨j, g, g', w, leftJ, rightJ, value, inside, escapes⟩ :=
      exists_field_outside names holds fails
    have paired := getElem?_pairs.mpr ⟨g, g', leftJ, rightJ, rfl, rfl⟩
    obtain rfl : j = index :=
      only j (g.2, g'.2) paired fun within => escapes (within.mem w inside)
    obtain rfl : f = g := Option.some.inj (left.symm.trans leftJ)
    obtain rfl : f' = g' := Option.some.inj (right.symm.trans rightJ)
    exact (Record.mem_withField bound).mpr ⟨others, w, value, (difference w).2 inside escapes⟩

section Without

variable {inv : Invariant} {n : Nat} {lower : Algebra} (lawful : inv.Lawful n lower) {a b : Record}
  (fitsA : inv.Fits (n + 1) a.toTy) (fitsB : inv.Fits (n + 1) b.toTy)
include lawful fitsA fitsB

theorem anyDisjoint_decides : Decides ((pairs a b).anyM fun p => lower.disjoint p.1 p.2)
    (∃ p ∈ pairs a b, ∀ v, ¬ (v ∈ p.1 ∧ v ∈ p.2)) := by
  refine Decides.anyM fun p mem => ?_
  obtain ⟨left, right⟩ := fits_of_mem_pairs fitsA fitsB mem
  exact disjoint_decides lawful left right

/-- The difference is inside the first type and keeps what the second one lacks. -/
theorem without_exact : Yields (without lower a b) fun u => inv.Fits (n + 1) u ∧
    ∀ v, (v ∈ u → v ∈ a.toTy) ∧ (v ∈ a.toTy → ¬ v ∈ b.toTy → v ∈ u) := by
  have whole : Yields (return a.toTy) fun u => inv.Fits (n + 1) u ∧
      ∀ v, (v ∈ u → v ∈ a.toTy) ∧ (v ∈ a.toTy → ¬ v ∈ b.toTy → v ∈ u) :=
    Yields.pure ⟨fitsA, fun v => ⟨id, fun has _ => has⟩⟩
  unfold without
  split
  · next name =>
    refine Yields.bind (agree_yields fitsA fitsB name) fun _ _ => ?_
    refine Yields.bind (anyDisjoint_decides lawful fitsA fitsB) fun apart _ => ?_
    split
    · exact whole
    · refine Yields.bind (escaping_two lawful fun p => fits_of_mem_pairs fitsA fitsB)
        fun found escapes => ?_
      obtain ⟨nothing, single⟩ := escapes
      split
      · refine Yields.pure ⟨Invariant.fits_never (Nat.succ_pos n), fun v => ⟨?_, ?_⟩⟩
        · exact fun has => absurd has (not_mem_never v)
        · intro has outside
          have inside : Inside a.toTy b.toTy := by
            rw [inside_toTy_iff, insideFields_iff (names_eq fitsA fitsB name)]
            simpa only [pairs, forall_mem_map, name, true_and] using nothing rfl
          exact absurd (inside.mem v has) outside
      · next index x y =>
        obtain ⟨position, only⟩ := single index x y rfl
        obtain ⟨fitsX, fitsY⟩ := fits_of_mem_pairs fitsA fitsB (mem_of_getElem? position)
        refine Yields.bind (lawful.without x y fitsX fitsY) fun u left => ?_
        exact Yields.pure ⟨fitsA.withField left.1,
          mem_withField_difference name (names_eq fitsA fitsB name) position only left.2⟩
      · exact whole
  · exact whole

theorem without_of_inside (inside : Inside a.toTy b.toTy) :
    Yields (without lower a b) (· = never) := by
  obtain ⟨name, fieldwise⟩ := inside_toTy_iff.mp inside
  have each : ∀ p ∈ pairs a b, Inside p.1 p.2 := by
    rw [insideFields_iff (names_eq fitsA fitsB name)] at fieldwise
    simpa only [pairs, forall_mem_map] using fieldwise
  rw [without, if_pos name]
  refine Yields.bind (agree_yields fitsA fitsB name) fun _ _ => ?_
  -- No field is empty, so a field inside its counterpart has a value in common with it.
  have meets : ¬ ∃ p ∈ pairs a b, ∀ v, ¬ (v ∈ p.1 ∧ v ∈ p.2) := by
    rintro ⟨p, mem, apart⟩
    obtain ⟨⟨f, g⟩, both, rfl⟩ := mem_map.mp mem
    obtain ⟨proper, fits⟩ := (Invariant.fits_struct.mp fitsA).2.2 f (of_mem_zip both).1
    obtain ⟨v, has⟩ := exists_mem f.2 fits.1.wellFormed proper
    exact apart v ⟨has, (each _ mem).mem v has⟩
  refine Decides.ite (anyDisjoint_decides lawful fitsA fitsB)
    (fun apart => absurd apart meets) fun _ => ?_
  refine Yields.bind (escaping_eq lawful (fun p => fits_of_mem_pairs fitsA fitsB) 2 0)
    fun found same => ?_
  have none : found = [] := by
    rw [same, map_eq_nil_iff, take_eq_nil_iff]
    refine .inr (filter_eq_nil_iff.mpr fun p mem => ?_)
    have paired := mem_of_getElem? (mem_zipIdx_iff_getElem?.mp mem)
    simpa using each _ paired
  rw [none]
  exact Yields.pure rfl

end Without

end TypeFlow.Structs
