import TypeFlow.Proofs.Num.Monotone
import TypeFlow.Proofs.Num.Union

/-!
# Unions of ranges between doubles

Sets whose bounds are doubles of any size. A step of one from a large bound is rounded, so a union
of such sets can lose an integer that is no double. It loses no double, and each range is inside
one member of the union as a whole.
-/

namespace TypeFlow

open List hiding all
open scoped Num.Linear

namespace Num

variable {x v : Num}

theorem sub_one_le_of_isDouble (whole : x.isWhole = true) (double : x.IsDouble) : x.sub 1 ≤ x := by
  obtain rfl | rfl | ⟨n, rfl⟩ := isWhole_iff.mp whole
  · exact negInf_le _
  · exact le_refl _
  · exact double.ofRat_le (by push_cast; linarith)

theorem le_add_one_of_isDouble (whole : x.isWhole = true) (double : x.IsDouble) : x ≤ x.add 1 := by
  obtain rfl | rfl | ⟨n, rfl⟩ := isWhole_iff.mp whole
  · exact negInf_le _
  · exact le_refl _
  · exact double.le_ofRat (by push_cast; linarith)

theorem IsDouble.le_before (double : v.IsDouble) (whole : v.isWhole = true)
    (less : v < x) : v ≤ x.before := by
  unfold before
  split
  · next wholeX =>
    obtain rfl | rfl | ⟨n, rfl⟩ := isWhole_iff.mp wholeX
    · exact absurd less (not_lt_negInf v)
    · exact le_posInf_iff.mpr (ne_nan_of_isWhole whole)
    · obtain rfl | rfl | ⟨m, rfl⟩ := isWhole_iff.mp whole
      · exact negInf_le _
      · simp at less
      · rw [fin_lt_fin, Int.cast_lt] at less
        have step : (m : ℚ) ≤ n - 1 := by exact_mod_cast Int.le_sub_one_of_lt less
        exact double.le_ofRat (by push_cast; linarith)
  · exact (le_floor_iff whole).mpr less.le

theorem IsDouble.after_le (double : v.IsDouble) (whole : v.isWhole = true)
    (less : x < v) : x.after ≤ v := by
  unfold after
  split
  · next wholeX =>
    obtain rfl | rfl | ⟨n, rfl⟩ := isWhole_iff.mp wholeX
    · exact negInf_le v
    · rw [posInf_lt_iff] at less
      exact absurd less (ne_nan_of_isWhole whole)
    · obtain rfl | rfl | ⟨m, rfl⟩ := isWhole_iff.mp whole
      · exact absurd less (not_lt_negInf _)
      · exact le_posInf_iff.mpr (ofRat_ne_nan _)
      · rw [fin_lt_fin, Int.cast_lt] at less
        have step : (n : ℚ) + 1 ≤ m := by exact_mod_cast Int.add_one_le_of_lt less
        exact double.ofRat_le (by push_cast; linarith)
  · exact (ceil_le_iff whole).mpr less.le

theorem isDouble_before (double : x.IsDouble) : x.before.IsDouble := by
  unfold before
  split
  · exact isDouble_add _ _
  · exact isDouble_floor double

theorem isDouble_after (double : x.IsDouble) : x.after.IsDouble := by
  unfold after
  split
  · exact isDouble_add _ _
  · exact isDouble_ceil double

end Num

namespace NumberTy

/-- A valid set whose bounds are doubles. -/
structure Held (n : NumberTy) : Prop where
  valid : n.Valid
  min : n.min.IsDouble
  max : n.max.IsDouble

instance (n : NumberTy) : Decidable n.Held :=
  decidable_of_iff (n.Valid ∧ n.min.IsDouble ∧ n.max.IsDouble)
    ⟨fun held => ⟨held.1, held.2.1, held.2.2⟩, fun held => ⟨held.valid, held.min, held.max⟩⟩

/-- The finite bounds of whole ranges are small. -/
def SmallInts : NumberTy → Prop
  | ints min max => min.Small ∧ max.Small
  | _ => True

instance (n : NumberTy) : Decidable n.SmallInts := by
  rcases n <;> dsimp only [SmallInts] <;> infer_instance

theorem held_literal {v : Num} : (literal v).Held ↔ v.IsDouble :=
  ⟨fun held => held.min, fun double => ⟨trivial, double, double⟩⟩

theorem held_all : all.Held := ⟨trivial, trivial, trivial⟩

theorem held_of_range? {a b : Num} {c : NumberTy} (doubleA : a.IsDouble) (doubleB : b.IsDouble)
    (range : range? a b = some c) : c.Held := by
  obtain ⟨number, rfl | ⟨order, rfl⟩⟩ := range?_cases range
  · exact held_literal.mpr doubleA
  · exact ⟨⟨number, order⟩, doubleA, doubleB⟩

theorem held_of_intRange? {a b : Num} {c : NumberTy} (doubleA : a.IsDouble) (doubleB : b.IsDouble)
    (range : intRange? a b = some c) : c.Held := by
  obtain ⟨numberA, numberB, ⟨-, rfl⟩ | ⟨order, rfl⟩⟩ := intRange?_cases range
  · exact held_literal.mpr (Num.isDouble_ceil doubleA)
  · exact ⟨⟨Num.isWhole_ceil numberA, Num.isWhole_floor numberB, order⟩,
      Num.isDouble_ceil doubleA, Num.isDouble_floor doubleB⟩

end NumberTy

namespace Numbers

open NumberTy (literal ints reals all range? intRange? Held has_ints has_literal held_all)

/-- One of the sets has the number. -/
def Covers (sets : List NumberTy) (v : Num) : Prop := ∃ n ∈ sets, n.has v = true

theorem Covers.mono {sets sets' : List NumberTy} {v : Num} (covers : Covers sets v)
    (part : sets ⊆ sets') : Covers sets' v := by
  obtain ⟨n, mem, has⟩ := covers
  exact ⟨n, part mem, has⟩

variable {ranges : List NumberTy} {lo hi : Num} {a b c n : NumberTy}

theorem Joins.keeps (joins : Joins a b c) (heldA : a.Held) (heldB : b.Held) :
    c.Held ∧ (∀ v, a.has v = true → c.has v = true) ∧ ∀ v, b.has v = true → c.has v = true := by
  cases joins with
  | same => exact ⟨heldA, fun _ has => has, fun _ has => has⟩
  | all | nan => exact ⟨held_all, fun _ _ => rfl, fun _ _ => rfl⟩
  | member has =>
    exact ⟨heldB, fun v same => has_literal.mp same ▸ has, fun _ has => has⟩
  | neighbours n =>
    have order : Num.fin n < Num.fin ((n + 1 : ℤ) : ℚ) := by simp
    simp only [has_literal, forall_eq, has_ints]
    exact ⟨⟨⟨Num.isWhole_intCast n, Num.isWhole_intCast _, order⟩, heldA.min, heldB.min⟩,
      ⟨Num.isWhole_intCast n, le_refl _, order.le⟩, Num.isWhole_intCast _, order.le, le_refl _⟩
  | @below x lo hi whole outside step =>
    obtain ⟨⟨wholeLo, wholeHi, order⟩, doubleLo, doubleHi⟩ := heldB
    have lower : x ≤ lo := step ▸ Num.sub_one_le_of_isDouble wholeLo doubleLo
    simp only [has_literal, forall_eq, has_ints]
    exact ⟨⟨⟨whole, wholeHi, lower.trans_lt order⟩, heldA.min, doubleHi⟩,
      ⟨whole, le_refl x, lower.trans order.le⟩, fun v has => ⟨has.1, lower.trans has.2.1, has.2.2⟩⟩
  | @above x lo hi whole outside step =>
    obtain ⟨⟨wholeLo, wholeHi, order⟩, doubleLo, doubleHi⟩ := heldB
    have upper : hi ≤ x := step ▸ Num.le_add_one_of_isDouble wholeHi doubleHi
    simp only [has_literal, forall_eq, has_ints]
    exact ⟨⟨⟨wholeLo, whole, order.trans_le upper⟩, doubleLo, heldA.min⟩,
      ⟨whole, order.le.trans upper, le_refl x⟩, fun v has => ⟨has.1, has.2.1, has.2.2.trans upper⟩⟩
  | ints first second =>
    obtain ⟨⟨wholeLo, wholeHi, order⟩, doubleLo, doubleHi⟩ := heldA
    obtain ⟨⟨wholeLo', wholeHi', _⟩, doubleLo', doubleHi'⟩ := heldB
    refine ⟨⟨⟨min_cases (motive := fun x => x.isWhole = true) wholeLo wholeLo',
      max_cases (motive := fun x => x.isWhole = true) wholeHi wholeHi',
      (min_le_left _ _).trans_lt (order.trans_le (le_max_left _ _))⟩,
      min_cases doubleLo doubleLo', max_cases doubleHi doubleHi'⟩, ?_⟩
    simp only [has_ints, min_le_iff, le_max_iff]
    exact ⟨fun v has => ⟨has.1, .inl has.2.1, .inl has.2.2⟩,
      fun v has => ⟨has.1, .inr has.2.1, .inr has.2.2⟩⟩
  | within bounds => exact ⟨heldB, fun _ => has_reals_of_ints bounds, fun _ has => has⟩
  | reals first second =>
    obtain ⟨⟨number, order⟩, doubleLo, doubleHi⟩ := heldA
    obtain ⟨⟨number', _⟩, doubleLo', doubleHi'⟩ := heldB
    have members := has_reals_union first second
    exact ⟨⟨⟨max_cases (motive := (· ≠ .nan)) number number',
      (min_le_left _ _).trans_lt (order.trans_le (le_max_left _ _))⟩,
      min_cases doubleLo doubleLo', max_cases doubleHi doubleHi'⟩,
      fun v has => (members v).mpr (.inl has), fun v has => (members v).mpr (.inr has)⟩

/-- Two sets that join are inside the set that replaces them. -/
theorem join_keeps (heldA : a.Held) (heldB : b.Held) (joined : join a b = some c) :
    c.Held ∧ (∀ v, a.has v = true → c.has v = true) ∧ ∀ v, b.has v = true → c.has v = true := by
  rcases joins_of_join joined with joins | joins
  · exact joins.keeps heldA heldB
  · exact (joins.keeps heldB heldA).imp_right And.symm

theorem mergeAll_keeps {items : List NumberTy} (held : ∀ n ∈ items, n.Held) :
    (∀ m ∈ mergeAll join items, m.Held) ∧
      ∀ n ∈ items, ∃ m ∈ mergeAll join items, ∀ v, n.has v = true → m.has v = true := by
  refine mergeAll_induction
    (motive := fun merged : List NumberTy => (∀ m ∈ merged, m.Held) ∧
      ∀ n ∈ items, ∃ m ∈ merged, ∀ v, n.has v = true → m.has v = true)
    (fun perm => by simp only [perm.mem_iff, imp_self]) ?_
    ⟨held, fun n mem => ⟨n, mem, fun _ => id⟩⟩
  simp only [forall_mem_cons, exists_mem_cons_iff]
  rintro x y c others joined ⟨⟨heldX, heldY, heldOthers⟩, inside⟩
  obtain ⟨heldC, fromX, fromY⟩ := join_keeps heldX heldY joined
  refine ⟨⟨heldC, heldOthers⟩, fun n mem => ?_⟩
  rcases inside n mem with within | within | within
  · exact .inl fun v has => fromX v (within v has)
  · exact .inl fun v has => fromY v (within v has)
  · exact .inr within

/-- Whole ranges between two bounds are held sets of whole numbers. -/
theorem held_whole_of_intRange? {a b : Num} (doubleA : a.IsDouble) (doubleB : b.IsDouble)
    (numberA : a ≠ .nan) (numberB : b ≠ .nan)
    (range : intRange? a b = some c) : c.Held ∧ c.isWhole = true := by
  have held := NumberTy.held_of_intRange? doubleA doubleB range
  refine ⟨held, isWhole_of_forall held.valid fun v has => ?_⟩
  exact ((NumberTy.has_intRange? numberA numberB v).mp ⟨c, range, has⟩).1

/-- What is outside a range of a whole range is made of whole ranges, and every double outside is
in one of them. -/
theorem intsOutside_keeps {l h lo hi : Num} (held : (ints l h).Held)
    (held' : (reals lo hi).Held) :
    (∀ p ∈ intsOutside l h lo hi, p.Held ∧ p.isWhole = true) ∧
      ∀ v : Num, v.IsDouble → (ints l h).has v = true → ¬ (reals lo hi).has v = true →
        Covers (intsOutside l h lo hi) v := by
  obtain ⟨⟨wholeL, wholeH, _⟩, doubleL, doubleH⟩ := held
  obtain ⟨⟨number, order⟩, doubleLo, doubleHi⟩ := held'
  have numberLo := NumberTy.ne_nan_of_le number order.le
  have numberL := Num.ne_nan_of_isWhole wholeL
  have numberH := Num.ne_nan_of_isWhole wholeH
  constructor
  · intro p piece
    rw [intsOutside_eq, mem_append, Option.mem_toList, Option.mem_toList,
      Option.ite_none_left_eq_some, Option.ite_none_left_eq_some] at piece
    rcases piece with ⟨-, range⟩ | ⟨-, range⟩
    · exact held_whole_of_intRange? doubleL (Num.isDouble_before doubleLo) numberL
        (Num.ne_nan_of_isWhole (Num.isWhole_before numberLo)) range
    · exact held_whole_of_intRange? (Num.isDouble_after doubleHi) doubleH
        (Num.ne_nan_of_isWhole (Num.isWhole_after number)) numberH range
  · intro v double has outside
    obtain ⟨wholeV, lower, upper⟩ := has_ints.mp has
    refine (has_intsOutside ⟨numberL, numberH⟩ numberLo number v).mpr ⟨wholeV, ?_⟩
    rw [NumberTy.has_reals, not_and_or, not_le, not_le] at outside
    rcases outside with less | greater
    · refine .inl ⟨?_, lower, double.le_before wholeV less⟩
      rintro rfl
      exact Num.not_lt_negInf v less
    · refine .inr ⟨?_, double.after_le wholeV greater, upper⟩
      rintro rfl
      exact Num.ne_nan_of_isWhole wholeV (Num.posInf_lt_iff.mp greater)

/-- A set of whole numbers without a range is made of sets of whole numbers, and loses no double
outside the range. -/
theorem without_reals_keeps (held : n.Held) (whole : n.isWhole = true)
    (held' : (reals lo hi).Held) :
    (∀ p ∈ without n (reals lo hi), p.Held ∧ p.isWhole = true) ∧
      ∀ v : Num, v.IsDouble → n.has v = true → ¬ (reals lo hi).has v = true →
        Covers (without n (reals lo hi)) v := by
  have unchanged : (∀ p ∈ [n], p.Held ∧ p.isWhole = true) ∧
      ∀ v : Num, v.IsDouble → n.has v = true → ¬ (reals lo hi).has v = true → Covers [n] v :=
    ⟨by simpa using ⟨held, whole⟩, fun v _ has _ => ⟨n, mem_singleton_self n, has⟩⟩
  have proper : without n (reals lo hi) = withoutProper n (reals lo hi) := by
    cases n with
    | all => cases whole
    | _ => rfl
  rw [proper, withoutProper]
  split
  · next inside =>
    exact ⟨by simp, fun v _ has outside => absurd (has_of_subset inside has) outside⟩
  · split
    · exact unchanged
    · cases n with
      | literal x => exact unchanged
      | ints l h => exact intsOutside_keeps held held'
      | _ => cases whole

theorem trim_append (ranges : List NumberTy) (r : NumberTy) : trim (ranges ++ [r]) (ints lo hi) =
      (trim ranges (ints lo hi)).flatMap fun piece => without piece r := by
  simp [trim, isInts, foldl_append]

theorem held_of_mem_trim (held : (ints lo hi).Held)
    (each : ∀ r ∈ ranges, isReals r = true ∧ r.Held) :
    ∀ p ∈ trim ranges (ints lo hi), p.Held ∧ p.isWhole = true := by
  induction ranges using List.reverseRecOn with
  | nil => simpa [trim, isInts] using ⟨held, rfl⟩
  | append_singleton ranges r ih =>
    obtain ⟨before, last⟩ := forall_mem_append.mp each
    obtain ⟨range, heldR⟩ := last r (mem_singleton_self r)
    rw [trim_append]
    intro p piece
    obtain ⟨q, mem, piece⟩ := mem_flatMap.mp piece
    obtain ⟨heldQ, wholeQ⟩ := ih before q mem
    cases r with
    | reals a b => exact (without_reals_keeps heldQ wholeQ heldR).1 p piece
    | _ => cases range

/-- Taking ranges out of a set of whole numbers loses no double outside of them. -/
theorem trim_keeps (held : n.Held) (each : ∀ r ∈ ranges, isReals r = true ∧ r.Held) :
    (∀ p ∈ trim ranges n, p.Held) ∧
      ∀ v : Num, v.IsDouble → n.has v = true → (∀ r ∈ ranges, ¬ r.has v = true) →
        Covers (trim ranges n) v := by
  cases n with
  | ints lo hi =>
    refine ⟨fun p piece => (held_of_mem_trim held each p piece).1, ?_⟩
    induction ranges using List.reverseRecOn with
    | nil => exact fun v _ has _ => ⟨_, by simp [trim, isInts], has⟩
    | append_singleton ranges r ih =>
      obtain ⟨before, last⟩ := forall_mem_append.mp each
      obtain ⟨range, heldR⟩ := last r (mem_singleton_self r)
      rw [trim_append]
      intro v double has outside
      obtain ⟨outsideBefore, outsideLast⟩ := forall_mem_append.mp outside
      obtain ⟨q, mem, hasQ⟩ := ih before v double has outsideBefore
      obtain ⟨heldQ, wholeQ⟩ := held_of_mem_trim held before q mem
      cases r with
      | reals a b =>
        obtain ⟨p, piece, hasP⟩ := (without_reals_keeps heldQ wholeQ heldR).2 v double hasQ
          (outsideLast _ (mem_singleton_self _))
        exact ⟨p, mem_flatMap.mpr ⟨q, mem, piece⟩, hasP⟩
      | _ => cases range
  | _ =>
    exact ⟨by simpa [trim, isInts] using held,
      fun v _ has _ => ⟨_, by simp [trim, isInts], has⟩⟩

section Union

variable {items : List NumberTy} (held : ∀ n ∈ items, n.Held)
include held

/-- The sorted items are merged, each inside one of the results. -/
theorem merged_keeps :
    (∀ m ∈ mergeAll join (Sorted.ofList NumberTy.compare items), m.Held) ∧
      ∀ n ∈ items, ∃ m ∈ mergeAll join (Sorted.ofList NumberTy.compare items),
        ∀ v, n.has v = true → m.has v = true := by
  have sorted : ∀ n ∈ Sorted.ofList NumberTy.compare items, n.Held := by simpa using held
  obtain ⟨heldMerged, inside⟩ := mergeAll_keeps sorted
  exact ⟨heldMerged, fun n mem => inside n (Sorted.mem_ofList.mpr mem)⟩

theorem held_of_mem_union {p : NumberTy} (mem : p ∈ union items) : p.Held := by
  rw [union, Sorted.mem_ofList, unionMembers] at mem
  split at mem
  · rw [mem_singleton.mp mem]
    exact held_all
  · obtain ⟨n, memN, piece⟩ := mem_flatMap.mp mem
    obtain ⟨heldMerged, -⟩ := merged_keeps held
    refine (trim_keeps (heldMerged n memN) fun r range => ?_).1 p piece
    obtain ⟨memR, reals⟩ := mem_filter.mp range
    exact ⟨reals, heldMerged r memR⟩

/-- A range is inside one member of the union. -/
theorem exists_superset_of_reals {lo hi : Num} (mem : reals lo hi ∈ items) :
    ∃ p ∈ union items, ∀ v, (reals lo hi).has v = true → p.has v = true := by
  simp only [union, Sorted.mem_ofList, unionMembers]
  split
  · exact ⟨all, mem_singleton_self all, fun _ _ => rfl⟩
  · obtain ⟨heldMerged, inside⟩ := merged_keeps held
    obtain ⟨m, memM, within⟩ := inside _ mem
    refine ⟨m, mem_flatMap.mpr ⟨m, memM, ?_⟩, within⟩
    -- the range holds a fraction, so what it is in is no whole range and is not trimmed
    obtain ⟨v, has, fraction⟩ := exists_fraction_in_reals (held _ mem).valid
    cases m with
    | ints l h => exact absurd (has_ints.mp (within v has)).1 fraction
    | _ => simp [trim, isInts]

theorem covers_union {v : Num} (double : v.IsDouble) (covers : Covers items v) :
    Covers (union items) v := by
  obtain ⟨n, mem, has⟩ := covers
  simp only [Covers, union, Sorted.mem_ofList, unionMembers]
  split
  · exact ⟨all, mem_singleton_self all, rfl⟩
  · obtain ⟨heldMerged, inside⟩ := merged_keeps held
    obtain ⟨m, memM, within⟩ := inside n mem
    set ranges := (mergeAll join (Sorted.ofList NumberTy.compare items)).filter isReals
    have each : ∀ r ∈ ranges, isReals r = true ∧ r.Held := by
      intro r range
      obtain ⟨memR, reals⟩ := mem_filter.mp range
      exact ⟨reals, heldMerged r memR⟩
    by_cases covered : ∃ r ∈ ranges, r.has v = true
    · obtain ⟨r, range, hasR⟩ := covered
      obtain ⟨memR, reals⟩ := mem_filter.mp range
      have whole : trim ranges r = [r] := by
        cases r with
        | reals lo hi => rfl
        | _ => cases reals
      exact ⟨r, mem_flatMap.mpr ⟨r, memR, by simp [whole]⟩, hasR⟩
    · have outside : ∀ r ∈ ranges, ¬ r.has v = true := fun r range hasR => covered ⟨r, range, hasR⟩
      obtain ⟨p, piece, hasP⟩ :=
        (trim_keeps (heldMerged m memM) each).2 v double (within v has) outside
      exact ⟨p, mem_flatMap.mpr ⟨m, memM, piece⟩, hasP⟩

/-- Nor does it lose any number of what is not a whole range. -/
theorem covers_union_of_not_ints {p : NumberTy} (mem : p ∈ items) (range : isInts p = false)
    {v : Num} (has : p.has v = true) : Covers (union items) v := by
  cases p with
  | literal x =>
    obtain rfl := has_literal.mp has
    exact covers_union held (NumberTy.held_literal.mp (held _ mem)) ⟨_, mem, has⟩
  | ints lo hi => cases range
  | reals lo hi =>
    obtain ⟨p, found, inside⟩ := exists_superset_of_reals held mem
    exact ⟨p, found, inside v has⟩
  | all =>
    refine ⟨all, ?_, rfl⟩
    simp [union, unionMembers, Sorted.mem_ofList, mem]

end Union

end Numbers

end TypeFlow
