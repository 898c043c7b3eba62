import TypeFlow.Proofs.Num.Enclosure

/-!
# Unions that bring in no double

Where a step of one from a large bound is rounded, two whole ranges with a gap between them can be
joined. No double is in such a gap: the next whole double after a bound is not before the rounded
step. So a union of sets with doubles for bounds has no other doubles than these sets, whatever
their size, and intersection and trimming never bring in any number.
-/

namespace TypeFlow

open List
open scoped Num.Linear

namespace Num

/-- A whole double below a whole bound is up to the rounded step down. -/
theorem IsDouble.le_sub_one {x v : Num} (double : v.IsDouble) (wholeX : x.isWhole = true)
    (whole : v.isWhole = true) (less : v < x) : v ≤ x.sub 1 := by
  simpa only [before, if_pos wholeX] using double.le_before whole less

/-- A whole double above a whole bound is from the rounded step up. -/
theorem IsDouble.add_one_le {x v : Num} (double : v.IsDouble) (wholeX : x.isWhole = true)
    (whole : v.isWhole = true) (less : x < v) : x.add 1 ≤ v := by
  simpa only [after, if_pos wholeX] using double.after_le whole less

theorem before_le_of_isDouble {x : Num} (number : x ≠ nan) (double : x.IsDouble) :
    x.before ≤ x := by
  unfold before
  split
  · next whole => exact sub_one_le_of_isDouble whole double
  · exact (le_floor_iff (isWhole_floor number)).mp (le_refl _)

theorem le_after_of_isDouble {x : Num} (number : x ≠ nan) (double : x.IsDouble) :
    x ≤ x.after := by
  unfold after
  split
  · next whole => exact le_add_one_of_isDouble whole double
  · exact (ceil_le_iff (isWhole_ceil number)).mp (le_refl _)

end Num

theorem NumberTy.Held.outward {n : NumberTy} (held : n.Held) : n.Outward where
  valid := held.valid
  down number := Num.before_le_of_isDouble number held.min
  up number := Num.le_after_of_isDouble number held.max

namespace Numbers

open NumberTy (literal ints reals all real range? intRange? Held has_ints has_literal)

theorem ints_gains {lo hi lo' hi' : Num} (valid : (ints lo hi).Valid)
    (valid' : (ints lo' hi').Valid) (first : lo ≤ hi'.add 1) (second : lo' ≤ hi.add 1) {v : Num}
    (double : v.IsDouble) (has : (ints (min lo lo') (max hi hi')).has v = true) :
    (ints lo hi).has v = true ∨ (ints lo' hi').has v = true := by
  simp only [has_ints, min_le_iff, le_max_iff] at has ⊢
  obtain ⟨whole, low | low, high | high⟩ := has
  · exact .inl ⟨whole, low, high⟩
  · by_cases inside : v ≤ hi
    · exact .inl ⟨whole, low, inside⟩
    · have next := double.add_one_le valid.2.1 whole (not_le.mp inside)
      exact .inr ⟨whole, second.trans next, high⟩
  · by_cases inside : v ≤ hi'
    · exact .inr ⟨whole, low, inside⟩
    · have next := double.add_one_le valid'.2.1 whole (not_le.mp inside)
      exact .inl ⟨whole, first.trans next, high⟩
  · exact .inr ⟨whole, low, high⟩

variable {a b c : NumberTy} {items : List NumberTy}

theorem Joins.gains (joins : Joins a b c) (validA : a.Valid) (validB : b.Valid) {v : Num}
    (double : v.IsDouble) (has : c.has v = true) : a.has v = true ∨ b.has v = true := by
  cases joins with
  | same | all => exact .inl has
  | nan =>
    rw [has_literal, has_real_iff]
    exact em _
  | member | within => exact .inr has
  | neighbours n =>
    obtain ⟨whole, low, high⟩ := has_ints.mp has
    obtain rfl | rfl | ⟨m, rfl⟩ := Num.isWhole_iff.mp whole
    · simp at low
    · simp at high
    · simp only [Num.fin_le_fin, Int.cast_le, has_literal, Num.fin.injEq,
        Int.cast_inj] at low high ⊢
      omega
  | @below x lo hi _ _ step =>
    obtain ⟨whole, low, high⟩ := has_ints.mp has
    rw [has_literal, has_ints]
    by_cases inside : lo ≤ v
    · exact .inr ⟨whole, inside, high⟩
    · have reached := double.le_sub_one validB.1 whole (not_le.mp inside)
      exact .inl (le_antisymm (step ▸ reached) low)
  | @above x lo hi _ _ step =>
    obtain ⟨whole, low, high⟩ := has_ints.mp has
    rw [has_literal, has_ints]
    by_cases inside : v ≤ hi
    · exact .inr ⟨whole, low, inside⟩
    · have reached := double.add_one_le validB.2.1 whole (not_le.mp inside)
      exact .inl (le_antisymm high (step ▸ reached))
  | ints first second => exact ints_gains validA validB first second double has
  | reals first second => exact (has_reals_union first second v).mp has

theorem join_gains (validA : a.Valid) (validB : b.Valid) (joined : join a b = some c) {v : Num}
    (double : v.IsDouble) (has : c.has v = true) : a.has v = true ∨ b.has v = true := by
  rcases joins_of_join joined with joins | joins
  · exact joins.gains validA validB double has
  · exact (joins.gains validB validA double has).symm

theorem mergeAll_gains (held : ∀ n ∈ items, n.Held) {v : Num} (double : v.IsDouble)
    (covers : Covers (mergeAll join items) v) : Covers items v := by
  suffices run : (∀ m ∈ mergeAll join items, m.Held) ∧
      (Covers (mergeAll join items) v → Covers items v) from run.2 covers
  refine mergeAll_induction
    (motive := fun merged : List NumberTy => (∀ m ∈ merged, m.Held) ∧
      (Covers merged v → Covers items v))
    (fun perm => by simp only [Covers, perm.mem_iff, imp_self]) ?_ ⟨held, id⟩
  simp only [Covers, forall_mem_cons, exists_mem_cons_iff]
  rintro x y c others joined ⟨⟨heldX, heldY, heldOthers⟩, back⟩
  refine ⟨⟨(join_keeps heldX heldY joined).1, heldOthers⟩, fun covers => back ?_⟩
  rw [← or_assoc]
  exact covers.imp_left (join_gains heldX.valid heldY.valid joined double)

theorem held_intersect (heldA : a.Held) (heldB : b.Held)
    (both : intersect a b = some c) : c.Held := by
  obtain rfl | rfl | range | ⟨lo, hi, lo', hi', rfl, rfl, range⟩ := intersect_cases both
  · exact heldA
  · exact heldB
  · exact NumberTy.held_of_intRange? (max_cases heldA.min heldB.min)
      (min_cases heldA.max heldB.max) range
  · exact NumberTy.held_of_range? (max_cases heldA.min heldB.min)
      (min_cases heldA.max heldB.max) range

theorem trim_gains {n : NumberTy} {ranges : List NumberTy} (held : n.Held)
    (each : ∀ r ∈ ranges, isReals r = true ∧ r.Held) {v : Num}
    (covers : Covers (trim ranges n) v) : n.has v = true := by
  have unchanged : Covers [n] v → n.has v = true := fun ⟨m, mem, has⟩ =>
    mem_singleton.mp mem ▸ has
  cases n with
  | ints lo hi =>
    induction ranges using List.reverseRecOn with
    | nil => exact unchanged (by simpa [trim, isInts] using covers)
    | append_singleton ranges r ih =>
      obtain ⟨before, last⟩ := forall_mem_append.mp each
      obtain ⟨range, heldR⟩ := last r (mem_singleton_self r)
      rw [trim_append] at covers
      obtain ⟨p, piece, has⟩ := covers
      obtain ⟨q, mem, piece⟩ := mem_flatMap.mp piece
      obtain ⟨heldQ, wholeQ⟩ := held_of_mem_trim held before q mem
      cases r with
      | reals a b =>
        exact ih before ⟨q, mem, has_of_has_without heldQ.valid heldR.outward piece has⟩
      | _ => cases range
  | _ => exact unchanged (by simpa [trim, isInts] using covers)

/-- A union brings in no double. -/
theorem covers_of_covers_union (held : ∀ n ∈ items, n.Held) {v : Num} (double : v.IsDouble)
    (covers : Covers (unionMembers items) v) : Covers items v := by
  unfold unionMembers at covers
  split at covers
  · next every =>
    exact ⟨all, by simpa using every, rfl⟩
  · obtain ⟨heldMerged, -⟩ := merged_keeps held
    obtain ⟨p, piece, has⟩ := covers
    obtain ⟨m, memM, piece⟩ := mem_flatMap.mp piece
    have each : ∀ r ∈ (mergeAll join (Sorted.ofList NumberTy.compare items)).filter isReals,
        isReals r = true ∧ r.Held := by
      intro r range
      obtain ⟨memR, reals⟩ := mem_filter.mp range
      exact ⟨reals, heldMerged r memR⟩
    have sorted : ∀ n ∈ Sorted.ofList NumberTy.compare items, n.Held := by simpa using held
    obtain ⟨n, mem, hasN⟩ := mergeAll_gains sorted double
      ⟨m, memM, trim_gains (heldMerged m memM) each ⟨p, piece, has⟩⟩
    exact ⟨n, Sorted.mem_ofList.mp mem, hasN⟩

end Numbers

end TypeFlow
