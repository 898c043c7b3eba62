import TypeFlow.Proofs.Num.Join
import TypeFlow.Proofs.Order

/-!
# Unions of number types

Merging pairs changes neither the numbers that a list of sets covers nor the tameness of the
sets, and leaves no pair that joins. Taking whole numbers out of the ranges that hold them
already keeps all of this: every piece is inside a whole range, outside all other ranges, and a
whole number away from every other piece.
-/

namespace TypeFlow

open List
open scoped Num.Linear

namespace Numbers

open NumberTy (literal ints reals all real range? intRange? Tame Valid has_intRange? has_ints
  has_literal has_min has_reals)

/-- A whole number lies strictly between all numbers of the two sets. -/
def Apart (p q : NumberTy) : Prop :=
  ∃ z : Num, z.isWhole = true ∧
    ((∀ v, p.has v = true → v < z) ∧ (∀ v, q.has v = true → z < v) ∨
      (∀ v, q.has v = true → v < z) ∧ (∀ v, p.has v = true → z < v))

variable {p q n : NumberTy} {lo hi x : Num}

theorem Apart.symm (apart : Apart p q) : Apart q p := by
  obtain ⟨z, whole, sides⟩ := apart
  exact ⟨z, whole, sides.symm⟩

/-- Parts of sets that are apart are apart. -/
theorem Apart.mono {p q p' q' : NumberTy} (apart : Apart p q)
    (left : ∀ v, p'.has v = true → p.has v = true)
    (right : ∀ v, q'.has v = true → q.has v = true) : Apart p' q' := by
  obtain ⟨z, whole, ⟨below, above⟩ | ⟨below, above⟩⟩ := apart
  · exact ⟨z, whole, .inl ⟨fun v has => below v (left v has), fun v has => above v (right v has)⟩⟩
  · exact ⟨z, whole, .inr ⟨fun v has => below v (right v has), fun v has => above v (left v has)⟩⟩

theorem isWhole_of_has (whole : n.isWhole = true) {v : Num}
    (has : n.has v = true) : v.isWhole = true := by
  cases n with
  | literal x => exact has_literal.mp has ▸ whole
  | ints lo hi => exact (has_ints.mp has).1
  | _ => cases whole

theorem isWhole_of_forall (valid : n.Valid)
    (whole : ∀ v, n.has v = true → v.isWhole = true) : n.isWhole = true := by
  cases n with
  | literal x => exact whole x (has_literal.mpr rfl)
  | ints lo hi => rfl
  | reals lo hi =>
    obtain ⟨v, has, fraction⟩ := exists_fraction_in_reals valid
    exact absurd (whole v has) fraction
  | all => cases whole .nan rfl

theorem has_of_between (whole : n.isWhole = true) {a b z : Num} (hasA : n.has a = true)
    (hasB : n.has b = true) (wholeZ : z.isWhole = true) (low : a ≤ z)
    (high : z ≤ b) : n.has z = true := by
  cases n with
  | literal x =>
    rw [has_literal] at hasA hasB ⊢
    exact le_antisymm (hasB ▸ high) (hasA ▸ low)
  | ints lo hi =>
    rw [has_ints] at hasA hasB ⊢
    exact ⟨wholeZ, hasA.2.1.trans low, high.trans hasB.2.2⟩
  | _ => cases whole

theorem join_eq_none_of_apart (tameP : p.Tame) (tameQ : q.Tame) (wholeP : p.isWhole = true)
    (wholeQ : q.isWhole = true) (apart : Apart p q) : join p q = none := by
  rw [Option.eq_none_iff_forall_ne_some]
  intro c joined
  obtain ⟨tame, members⟩ := join_exact tameP tameQ joined
  have whole : c.isWhole = true := by
    refine isWhole_of_forall tame.valid fun v has => ?_
    rcases (members v).mp has with has | has
    · exact isWhole_of_has wholeP has
    · exact isWhole_of_has wholeQ has
  have hasP := has_min tameP.valid
  have hasQ := has_min tameQ.valid
  have inP := (members p.min).mpr (.inl hasP)
  have inQ := (members q.min).mpr (.inr hasQ)
  -- The number in between would have to be in the joined set, but is in neither part of it.
  obtain ⟨z, wholeZ, ⟨below, above⟩ | ⟨below, above⟩⟩ := apart
  · have between := has_of_between whole inP inQ wholeZ (below _ hasP).le (above _ hasQ).le
    rcases (members z).mp between with has | has
    · exact lt_irrefl z (below z has)
    · exact lt_irrefl z (above z has)
  · have between := has_of_between whole inQ inP wholeZ (below _ hasQ).le (above _ hasP).le
    rcases (members z).mp between with has | has
    · exact lt_irrefl z (above z has)
    · exact lt_irrefl z (below z has)

/-- A whole range ends with an integer that is below a number. -/
theorem exists_fin_of_between {a x b : Num} (low : a < x) (high : x < b) (number : b ≠ .nan) :
    ∃ q, x = .fin q := by
  cases x with
  | negInf => exact absurd low (Num.not_lt_negInf a)
  | fin q => exact ⟨q, rfl⟩
  | posInf => exact absurd (Num.posInf_lt_iff.mp high) number
  | nan => exact absurd high (Num.not_nan_lt b)

/-- Sets are apart when one ends more than a step before the other one. -/
theorem apart_of_gap {first : Num} (tame : (ints lo hi).Tame)
    (start : ∀ v, q.has v = true → first ≤ v) (number : first ≠ .nan) (gap : hi.add 1 < first) :
    Apart (ints lo hi) q := by
  obtain ⟨_, whole, order, _, up⟩ := tame
  have next : hi.after = hi.add 1 := if_pos whole
  have beyond : hi < first := (Num.le_add_one whole up).trans_lt gap
  obtain ⟨b, rfl⟩ := exists_fin_of_between order beyond number
  refine ⟨Num.after (.fin b), Num.isWhole_after (by simp),
    .inl ⟨fun v has => ?_, fun v has => ?_⟩⟩
  · exact (has_ints.mp has).2.2.trans_lt (Num.lt_after up)
  · exact (next ▸ gap).trans_le (start v has)

theorem apart_of_join_ints {lo hi lo' hi' : Num} (tame : (ints lo hi).Tame)
    (tame' : (ints lo' hi').Tame) (separate : join (ints lo hi) (ints lo' hi') = none) :
    Apart (ints lo hi) (ints lo' hi') := by
  unfold join at separate
  split at separate
  · cases separate
  · simp only [ite_eq_right_iff, reduceCtorEq, imp_false, not_and_or, not_le] at separate
    rcases separate with gap | gap
    · refine (apart_of_gap tame' (fun v has => ?_) (Num.ne_nan_of_isWhole tame.1) gap).symm
      exact (has_ints.mp has).2.1
    · refine apart_of_gap tame (fun v has => ?_) (Num.ne_nan_of_isWhole tame'.1) gap
      exact (has_ints.mp has).2.1

/-- A whole number that does not join a whole range is not in it and not next to it. -/
theorem not_next_of_joinLiteral (whole : x.isWhole = true)
    (separate : joinLiteral x (ints lo hi) = none) :
    ¬ (ints lo hi).has x = true ∧ (x.isFinite = true → x ≠ lo.sub 1 ∧ x ≠ hi.add 1) := by
  have number : ¬ x.isNan = true := by
    rw [Num.isNan_eq_true_iff]
    exact Num.ne_nan_of_isWhole whole
  unfold joinLiteral at separate
  rw [if_neg number] at separate
  split at separate
  · cases separate
  · next outside =>
    refine ⟨outside, fun finite => ?_⟩
    simp only [finite, whole, Bool.and_self, if_true, ite_eq_iff, reduceCtorEq, and_false,
      false_or, and_true] at separate
    exact separate

theorem apart_of_join_literal (tame : (ints lo hi).Tame) (whole : x.isWhole = true)
    (separate : join (ints lo hi) (literal x) = none) : Apart (ints lo hi) (literal x) := by
  obtain ⟨outside, notNext⟩ := not_next_of_joinLiteral whole separate
  obtain ⟨wholeLo, wholeHi, order, down, up⟩ := id tame
  have number := Num.ne_nan_of_isWhole whole
  rcases lt_min_or_max_lt (by simp) whole outside with below | above
  · have reached := Num.le_sub_one_of_lt wholeLo whole down below
    have next : lo.before = lo.sub 1 := if_pos wholeLo
    obtain ⟨a, rfl⟩ := exists_fin_of_between below order (Num.ne_nan_of_isWhole wholeHi)
    obtain ⟨n, rfl⟩ := Num.isWhole_fin_iff.mp wholeLo
    have apart : x ≠ (Num.fin n).sub 1 := by
      intro same
      have finite : x.isFinite = true := by
        rw [same, Num.sub_one_intCast down]
        rfl
      exact (notNext finite).1 same
    refine ⟨(Num.fin n).before, Num.isWhole_before (by simp),
      .inr ⟨fun v has => ?_, fun v has => ?_⟩⟩
    · rw [has_literal.mp has, next]
      exact lt_of_le_of_ne reached apart
    · exact (Num.before_lt down).trans_le (has_ints.mp has).2.1
  · have reached := Num.add_one_le_of_lt wholeHi whole up above
    obtain ⟨b, rfl⟩ := exists_fin_of_between order above number
    obtain ⟨n, rfl⟩ := Num.isWhole_fin_iff.mp wholeHi
    refine apart_of_gap tame (fun v has => (has_literal.mp has).ge) number ?_
    refine lt_of_le_of_ne reached fun same => ?_
    have finite : x.isFinite = true := by
      rw [← same, Num.add_one_intCast up]
      rfl
    exact (notNext finite).2 same.symm

/-- A set of whole numbers does not join a number that is not whole. -/
theorem join_fraction (wholeP : p.isWhole = true)
    (fraction : ¬ x.isWhole = true) : join p (literal x) = none := by
  rw [Option.eq_none_iff_forall_ne_some]
  intro c joined
  rcases joins_of_join joined with joins | joins
  · cases joins with
    | same => exact fraction wholeP
    | all => cases wholeP
    | member has => exact fraction (has_literal.mp has ▸ wholeP)
    | neighbours n => exact fraction (Num.isWhole_intCast _)
  · cases joins with
    | same => exact fraction wholeP
    | nan => cases wholeP
    | member has => exact fraction (isWhole_of_has wholeP has)
    | neighbours n => exact fraction (Num.isWhole_intCast n)
    | below whole | above whole => exact fraction whole

/-- A set of whole numbers does not join a range that has none of them. -/
theorem join_outside (tame : p.Tame) (wholeP : p.isWhole = true)
    (outside : ∀ v, p.has v = true → ¬ (reals lo hi).has v = true) :
    join p (reals lo hi) = none := by
  cases p with
  | literal y =>
    have number : ¬ y.isNan = true := by
      rw [Num.isNan_eq_true_iff]
      exact Num.ne_nan_of_isWhole wholeP
    have away := outside y (has_literal.mpr rfl)
    simp only [join, joinLiteral, reduceCtorEq, if_false, if_neg number, if_neg away]
  | ints l h =>
    have away := outside l (has_min tame.valid)
    simp only [join, reduceCtorEq, if_false, Bool.and_eq_true, away, false_and]
  | _ => cases wholeP

theorem lesser_comm (x y : Num) : x.lesser y = y.lesser x := by
  cases x <;> cases y <;> simp [Num.lesser, Num.isNan, min_comm]

theorem greater_comm (x y : Num) : x.greater y = y.greater x := by
  cases x <;> cases y <;> simp [Num.greater, Num.isNan, max_comm]

theorem join_comm (a b : NumberTy) : join a b = join b a := by
  by_cases same : a = b
  · rw [same]
  · have other : ¬ b = a := fun eq => same eq.symm
    unfold join
    rw [if_neg same, if_neg other]
    cases a <;> cases b <;> simp only [min_comm, max_comm, and_comm, lesser_comm, greater_comm]

/-- A range cuts a whole range into a piece below it and a piece above it. -/
theorem cut_eq_append {l h lo hi : Num} (tame : (ints l h).Tame) (tame' : (reals lo hi).Tame) :
    ∃ left right : Option NumberTy, cut (ints l h) (reals lo hi) = left.toList ++ right.toList ∧
      (∀ d ∈ left, ∀ v, d.has v = true → v < lo) ∧ (∀ d ∈ right, ∀ v, d.has v = true → hi < v) := by
  obtain ⟨wholeL, wholeH, _, _, _⟩ := tame
  have down := tame'.stepsDown_min
  have up := tame'.stepsUp_max
  obtain ⟨number, order, _, _⟩ := tame'
  have numberLo := NumberTy.ne_nan_of_le number order.le
  refine ⟨_, _, intsOutside_eq l h lo hi, fun d found v has => ?_, fun d found v has => ?_⟩
  · simp only [Option.mem_def, Option.ite_none_left_eq_some] at found
    obtain ⟨a, rfl⟩ := exists_fin_of_between (Num.negInf_lt_iff.mpr found.1) order number
    have last := Num.isWhole_before numberLo
    have inside := (has_intRange? (Num.ne_nan_of_isWhole wholeL)
      (Num.ne_nan_of_isWhole last) v).mp ⟨d, found.2, has⟩
    exact inside.2.2.trans_lt (Num.before_lt down)
  · simp only [Option.mem_def, Option.ite_none_left_eq_some] at found
    have below : hi < .posInf := lt_of_le_of_ne (Num.le_posInf_iff.mpr number) found.1
    obtain ⟨b, rfl⟩ := exists_fin_of_between order below (by simp)
    have first := Num.isWhole_after number
    have inside := (has_intRange? (Num.ne_nan_of_isWhole first)
      (Num.ne_nan_of_isWhole wholeH) v).mp ⟨d, found.2, has⟩
    exact (Num.lt_after up).trans_le inside.2.1

section Trimming

variable {c : NumberTy} {lo hi : Num} (tame : c.Tame) (whole : c.isWhole = true)
  (tame' : (reals lo hi).Tame)
include tame whole tame'

/-- A set of whole numbers without a range is that set outside the range, or is cut by it. -/
theorem without_cases :
    (∀ d ∈ without c (reals lo hi), d = c ∧ ∀ v, c.has v = true → ¬ (reals lo hi).has v = true) ∨
      ∃ left right : Option NumberTy, without c (reals lo hi) = left.toList ++ right.toList ∧
        (∀ d ∈ left, ∀ v, d.has v = true → v < lo) ∧
        (∀ d ∈ right, ∀ v, d.has v = true → hi < v) ∧
        ∃ w, w.isWhole = true ∧ lo ≤ w ∧ w ≤ hi := by
  cases c with
  | literal x =>
    left
    intro d piece
    have outside : ¬ (reals lo hi).has x = true := by
      intro inside
      simp [without, withoutProper, subset, inside] at piece
    have single : d = literal x := by
      simpa [without, withoutProper, subset, outside, cut] using piece
    exact ⟨single, fun v has => has_literal.mp has ▸ outside⟩
  | ints l h =>
    simp only [without, withoutProper]
    split
    · left
      simp
    · split
      · next apart =>
        left
        intro d piece
        exact ⟨mem_singleton.mp piece,
          fun v => not_has_of_intersect_none tame.valid tame'.valid apart⟩
      · next meet =>
        right
        obtain ⟨w, hasC, hasB⟩ := exists_has_of_intersect tame.valid tame'.valid meet
        obtain ⟨left, right, pieces, below, above⟩ := cut_eq_append tame tame'
        exact ⟨left, right, pieces, below, above, w, (has_ints.mp hasC).1,
          has_reals.mp hasB⟩
  | _ => cases whole

theorem not_has_of_has_without {d : NumberTy} (piece : d ∈ without c (reals lo hi))
    {v : Num} (has : d.has v = true) : ¬ (reals lo hi).has v = true := by
  rcases without_cases tame whole tame' with same | ⟨left, right, pieces, below, above, _⟩
  · obtain ⟨rfl, outside⟩ := same d piece
    exact outside v has
  · rw [has_reals, not_and_or, not_le, not_le]
    rw [pieces, mem_append, Option.mem_toList, Option.mem_toList] at piece
    rcases piece with piece | piece
    · exact .inl (below d piece v has)
    · exact .inr (above d piece v has)

theorem apart_of_mem_without {d d' : NumberTy} (piece : d ∈ without c (reals lo hi))
    (piece' : d' ∈ without c (reals lo hi)) : d = d' ∨ Apart d d' := by
  rcases without_cases tame whole tame' with same | ⟨left, right, pieces, below, above, w, cut⟩
  · exact .inl ((same d piece).1.trans (same d' piece').1.symm)
  · obtain ⟨wholeW, low, high⟩ := cut
    rw [pieces, mem_append, Option.mem_toList, Option.mem_toList] at piece piece'
    have gap {p q : NumberTy} (left : p ∈ left) (right : q ∈ right) : Apart p q :=
      ⟨w, wholeW, .inl ⟨fun v has => (below p left v has).trans_le low,
        fun v has => high.trans_lt (above q right v has)⟩⟩
    rcases piece with piece | piece <;> rcases piece' with piece' | piece'
    · exact .inl (Option.some.inj (piece.symm.trans piece'))
    · exact .inr (gap piece piece')
    · exact .inr (gap piece' piece).symm
    · exact .inl (Option.some.inj (piece.symm.trans piece'))

theorem isWhole_of_mem_without {d : NumberTy} (piece : d ∈ without c (reals lo hi)) :
    d.isWhole = true :=
  isWhole_of_forall (tame_without tame tame' piece).valid fun _ has =>
    isWhole_of_has whole (has_of_has_without tame.valid tame'.outward piece has)

end Trimming

/-- What is left of a set of whole numbers after some ranges have been taken out of it. -/
structure Trimmed (n : NumberTy) (ranges pieces : List NumberTy) : Prop where
  tame : ∀ p ∈ pieces, p.Tame
  whole : ∀ p ∈ pieces, p.isWhole = true
  apart : ∀ p ∈ pieces, ∀ q ∈ pieces, p = q ∨ Apart p q
  exact : ∀ v, (∃ p ∈ pieces, p.has v = true) ↔
    n.has v = true ∧ ∀ r ∈ ranges, ¬ r.has v = true

/-- Taking out one more range. -/
theorem Trimmed.step {n : NumberTy} {ranges pieces : List NumberTy} {lo hi : Num}
    (trimmed : Trimmed n ranges pieces) (tame : (reals lo hi).Tame) :
    Trimmed n (ranges ++ [reals lo hi]) (pieces.flatMap (without · (reals lo hi))) where
  tame d piece := by
    obtain ⟨p, mem, piece⟩ := mem_flatMap.mp piece
    exact tame_without (trimmed.tame p mem) tame piece
  whole d piece := by
    obtain ⟨p, mem, piece⟩ := mem_flatMap.mp piece
    exact isWhole_of_mem_without (trimmed.tame p mem) (trimmed.whole p mem) tame piece
  apart d piece d' piece' := by
    obtain ⟨p, mem, piece⟩ := mem_flatMap.mp piece
    obtain ⟨p', mem', piece'⟩ := mem_flatMap.mp piece'
    rcases trimmed.apart p mem p' mem' with rfl | apart
    · exact apart_of_mem_without (trimmed.tame p mem) (trimmed.whole p mem) tame piece piece'
    · have validP := (trimmed.tame p mem).valid
      have validP' := (trimmed.tame p' mem').valid
      exact .inr (apart.mono (fun v => has_of_has_without validP tame.outward piece)
        (fun v => has_of_has_without validP' tame.outward piece'))
  exact v := by
    rw [forall_mem_append, forall_mem_singleton, ← and_assoc, ← trimmed.exact]
    constructor
    · rintro ⟨d, piece, has⟩
      obtain ⟨p, mem, piece⟩ := mem_flatMap.mp piece
      exact ⟨⟨p, mem, has_of_has_without (trimmed.tame p mem).valid tame.outward piece has⟩,
        not_has_of_has_without (trimmed.tame p mem) (trimmed.whole p mem) tame piece has⟩
    · rintro ⟨⟨p, mem, has⟩, outside⟩
      obtain ⟨d, piece, has⟩ := exists_has_without (trimmed.tame p mem) tame has outside
      exact ⟨d, mem_flatMap.mpr ⟨p, mem, piece⟩, has⟩

/-- Taking out all ranges, one after the other. -/
theorem trimmed_trim {n : NumberTy} {ranges : List NumberTy} (tame : n.Tame)
    (ints : isInts n = true) (each : ∀ r ∈ ranges, isReals r = true ∧ r.Tame) :
    Trimmed n ranges (trim ranges n) := by
  have whole : n.isWhole = true := by
    cases n with
    | ints lo hi => rfl
    | _ => cases ints
  rw [trim, if_pos ints]
  induction ranges using List.reverseRecOn with
  | nil => exact ⟨by simpa using tame, by simpa using whole, by simp, by simp⟩
  | append_singleton ranges r ih =>
    rw [foldl_append]
    obtain ⟨before, last⟩ := forall_mem_append.mp each
    obtain ⟨range, tameR⟩ := last r (mem_singleton_self r)
    cases r with
    | reals lo hi => exact (ih before).step tameR
    | _ => cases range

theorem mergeAll_exact {items : List NumberTy} (tame : ∀ n ∈ items, n.Tame) :
    (∀ n ∈ mergeAll join items, n.Tame) ∧
      ∀ v, (∃ n ∈ mergeAll join items, n.has v = true) ↔ ∃ n ∈ items, n.has v = true := by
  refine mergeAll_induction
    (motive := fun merged : List NumberTy => (∀ n ∈ merged, n.Tame) ∧
      ∀ v, (∃ n ∈ merged, n.has v = true) ↔ ∃ n ∈ items, n.has v = true)
    (fun perm => by simp only [perm.mem_iff, imp_self]) ?_ ⟨tame, fun v => Iff.rfl⟩
  simp only [forall_mem_cons, exists_mem_cons_iff]
  rintro x y c others joined ⟨⟨tameX, tameY, tameOthers⟩, same⟩
  obtain ⟨tameC, members⟩ := join_exact tameX tameY joined
  exact ⟨⟨tameC, tameOthers⟩, fun v => by rw [← same v, members v, or_assoc]⟩

section Settled

-- A list of sets no two of which join, to be trimmed by its own ranges.
variable {merged : List NumberTy} (tame : ∀ n ∈ merged, n.Tame)
include tame

theorem ranges_tame : ∀ r ∈ merged.filter isReals, isReals r = true ∧ r.Tame := by
  intro r mem
  obtain ⟨mem, range⟩ := mem_filter.mp mem
  exact ⟨range, tame r mem⟩

/-- Trimming a member gives the member itself, or what is left of it outside all ranges. -/
theorem trim_cases {n : NumberTy} (mem : n ∈ merged) :
    (¬ isInts n = true ∧ trim (merged.filter isReals) n = [n]) ∨
      (isInts n = true ∧ Trimmed n (merged.filter isReals) (trim (merged.filter isReals) n)) := by
  by_cases ints : isInts n = true
  · exact .inr ⟨ints, trimmed_trim (tame n mem) ints (ranges_tame tame)⟩
  · exact .inl ⟨ints, if_neg ints⟩

theorem tame_of_mem_trim {n p : NumberTy} (mem : n ∈ merged)
    (piece : p ∈ trim (merged.filter isReals) n) : p.Tame := by
  rcases trim_cases tame mem with ⟨_, single⟩ | ⟨_, trimmed⟩
  · rw [single, mem_singleton] at piece
    exact piece ▸ tame n mem
  · exact trimmed.tame p piece

/-- Trimming all members covers the same numbers: those taken out of one are in another. -/
theorem has_flatMap_trim (v : Num) :
    (∃ p ∈ merged.flatMap (trim (merged.filter isReals)), p.has v = true) ↔
      ∃ n ∈ merged, n.has v = true := by
  constructor
  · rintro ⟨p, piece, has⟩
    obtain ⟨n, mem, piece⟩ := mem_flatMap.mp piece
    refine ⟨n, mem, ?_⟩
    rcases trim_cases tame mem with ⟨_, single⟩ | ⟨_, trimmed⟩
    · rw [single, mem_singleton] at piece
      exact piece ▸ has
    · exact ((trimmed.exact v).mp ⟨p, piece, has⟩).1
  · rintro ⟨n, mem, has⟩
    rcases trim_cases tame mem with ⟨_, single⟩ | ⟨_, trimmed⟩
    · exact ⟨n, mem_flatMap.mpr ⟨n, mem, by simp [single]⟩, has⟩
    · by_cases covered : ∃ r ∈ merged.filter isReals, r.has v = true
      · obtain ⟨r, range, has⟩ := covered
        obtain ⟨memR, reals⟩ := mem_filter.mp range
        have whole : trim (merged.filter isReals) r = [r] := by
          cases r with
          | reals lo hi => rfl
          | _ => cases reals
        exact ⟨r, mem_flatMap.mpr ⟨r, memR, by simp [whole]⟩, has⟩
      · have outside : ∀ r ∈ merged.filter isReals, ¬ r.has v = true :=
          fun r mem has => covered ⟨r, mem, has⟩
        obtain ⟨p, piece, has⟩ := (trimmed.exact v).mpr ⟨has, outside⟩
        exact ⟨p, mem_flatMap.mpr ⟨n, mem, piece⟩, has⟩

/-- A piece of a whole range joins no other member. -/
theorem join_of_mem_trim_ints {m n p : NumberTy} (memN : n ∈ merged) (ints : isInts m = true)
    (trimmed : Trimmed m (merged.filter isReals) (trim (merged.filter isReals) m))
    (tameM : m.Tame) (piece : p ∈ trim (merged.filter isReals) m) (other : ¬ isInts n = true)
    (separate : join m n = none) : join p n = none := by
  have tameP := trimmed.tame p piece
  have wholeP := trimmed.whole p piece
  have within : ∀ v, p.has v = true →
      m.has v = true ∧ ∀ r ∈ merged.filter isReals, ¬ r.has v = true :=
    fun v has => (trimmed.exact v).mp ⟨p, piece, has⟩
  cases m with
  | ints lo hi =>
    cases n with
    | literal x =>
      by_cases whole : x.isWhole = true
      · have apart := apart_of_join_literal tameM whole separate
        exact join_eq_none_of_apart tameP (tame _ memN) wholeP whole
          (apart.mono (fun v has => (within v has).1) (fun v => id))
      · exact join_fraction wholeP whole
    | ints lo' hi' => exact absurd rfl other
    | reals lo' hi' =>
      exact join_outside tameP wholeP fun v has =>
        (within v has).2 _ (mem_filter.mpr ⟨memN, rfl⟩)
    | all => simp [join] at separate
  | _ => cases ints

/-- After trimming still no two members join. -/
theorem join_of_mem_trim (settled : merged.Pairwise fun m n => join m n = none) {p q : NumberTy}
    (mem : p ∈ merged.flatMap (trim (merged.filter isReals)))
    (mem' : q ∈ merged.flatMap (trim (merged.filter isReals))) (differ : p ≠ q) :
    join p q = none := by
  obtain ⟨m, memM, piece⟩ := mem_flatMap.mp mem
  obtain ⟨n, memN, piece'⟩ := mem_flatMap.mp mem'
  have separate : m ≠ n → join m n = none := by
    have : Std.Symm fun m n : NumberTy => join m n = none :=
      ⟨fun m n separate => (join_comm n m).trans separate⟩
    exact settled.forall memM memN
  rcases trim_cases tame memM with ⟨otherM, singleM⟩ | ⟨intsM, trimmedM⟩ <;>
    rcases trim_cases tame memN with ⟨otherN, singleN⟩ | ⟨intsN, trimmedN⟩
  · rw [singleM, mem_singleton] at piece
    rw [singleN, mem_singleton] at piece'
    subst piece piece'
    exact separate differ
  · have apart : m ≠ n := fun same => otherM (same ▸ intsN)
    rw [singleM, mem_singleton] at piece
    subst piece
    rw [join_comm]
    exact join_of_mem_trim_ints tame memM intsN trimmedN (tame n memN) piece' otherM
      (join_comm p n ▸ separate apart)
  · have apart : m ≠ n := fun same => otherN (same ▸ intsM)
    rw [singleN, mem_singleton] at piece'
    subst piece'
    exact join_of_mem_trim_ints tame memN intsM trimmedM (tame m memM) piece otherN
      (separate apart)
  · have apart : Apart p q := by
      by_cases same : m = n
      · subst same
        exact (trimmedM.apart p piece q piece').resolve_left differ
      · cases m with
        | ints lo hi =>
          cases n with
          | ints lo' hi' =>
            exact (apart_of_join_ints (tame _ memM) (tame _ memN) (separate same)).mono
              (fun v has => ((trimmedM.exact v).mp ⟨p, piece, has⟩).1)
              (fun v has => ((trimmedN.exact v).mp ⟨q, piece', has⟩).1)
          | _ => cases intsN
        | _ => cases intsM
    exact join_eq_none_of_apart (trimmedM.tame p piece) (trimmedN.tame q piece')
      (trimmedM.whole p piece) (trimmedN.whole q piece') apart

end Settled

section Members

variable {items : List NumberTy} (tame : ∀ n ∈ items, n.Tame)
include tame

/-- The sorted items are merged until no pair joins. -/
theorem merged_exact :
    (∀ n ∈ mergeAll join (Sorted.ofList NumberTy.compare items), n.Tame) ∧
      ∀ v, (∃ n ∈ mergeAll join (Sorted.ofList NumberTy.compare items), n.has v = true) ↔
        ∃ n ∈ items, n.has v = true := by
  have sorted : ∀ n ∈ Sorted.ofList NumberTy.compare items, n.Tame := by
    simpa using tame
  simpa only [Sorted.mem_ofList] using mergeAll_exact sorted

theorem tame_of_mem_unionMembers {p : NumberTy} (mem : p ∈ unionMembers items) : p.Tame := by
  unfold unionMembers at mem
  split at mem
  · rw [mem_singleton] at mem
    exact mem ▸ trivial
  · obtain ⟨n, memN, piece⟩ := mem_flatMap.mp mem
    exact tame_of_mem_trim (merged_exact tame).1 memN piece

theorem has_unionMembers (v : Num) :
    (∃ p ∈ unionMembers items, p.has v = true) ↔ ∃ n ∈ items, n.has v = true := by
  unfold unionMembers
  split
  · next all =>
    rw [contains_iff_mem] at all
    exact ⟨fun _ => ⟨_, all, rfl⟩, fun _ => ⟨_, mem_singleton_self _, rfl⟩⟩
  · obtain ⟨tameMerged, same⟩ := merged_exact tame
    exact (has_flatMap_trim tameMerged v).trans (same v)

theorem join_of_mem_unionMembers {p q : NumberTy} (mem : p ∈ unionMembers items)
    (mem' : q ∈ unionMembers items) (differ : p ≠ q) : join p q = none := by
  unfold unionMembers at mem mem'
  split at mem
  · next all =>
    rw [if_pos all, mem_singleton] at mem'
    rw [mem_singleton] at mem
    exact absurd (mem.trans mem'.symm) differ
  · next proper =>
    rw [if_neg proper] at mem'
    exact join_of_mem_trim (merged_exact tame).1
      (pairwise_of_mergeOnce (mergeOnce_mergeAll join _)) mem mem' differ

end Members

end Numbers
end TypeFlow
