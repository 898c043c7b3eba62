import TypeFlow.Proofs.Num.Cover
import TypeFlow.Proofs.Num.Union

/-!
# Normal forms of sets of numbers

A list of number types is in normal form when no two of them join and a set of whole numbers meets
only other sets of whole numbers. Such a list is determined by the numbers that it covers. A range
that is covered is inside a single member: a member that ended within the range would touch the one
that covers what comes next. The same goes for a run of whole numbers outside all ranges.
-/

namespace TypeFlow

open List hiding all
open scoped Num.Linear

namespace Numbers

open NumberTy (literal ints reals all real Tame Valid has_all has_ints has_literal has_max has_min
  has_reals ne_nan_of_le)

theorem eq_of_has_iff {m n : NumberTy} (validM : m.Valid) (validN : n.Valid)
    (same : ∀ v, m.has v = true ↔ n.has v = true) : m = n := by
  have forth := subset_of_has validM validN fun v => (same v).mp
  have back := subset_of_has validN validM fun v => (same v).mpr
  cases m <;> cases n <;> simp only [subset, Bool.false_eq_true, Bool.and_eq_true,
    decide_eq_true_eq] at forth back
  · rw [has_literal.mp forth]
  · rw [le_antisymm back.1 forth.1, le_antisymm forth.2 back.2]
  · rw [le_antisymm back.1 forth.1, le_antisymm forth.2 back.2]
  · rfl

/-- A set joins every set that it is inside of. -/
theorem join_ne_none_of_inside {m n : NumberTy} (tameM : m.Tame) (tameN : n.Tame)
    (inside : ∀ v, m.has v = true → n.has v = true) : join m n ≠ none := by
  have subset := subset_of_has tameM.valid tameN.valid inside
  by_cases same : m = n
  · simp [join, same]
  · unfold join
    rw [if_neg same]
    cases n with
    | all => cases m <;> simp
    | literal y =>
      cases m with
      | literal x => exact absurd (congrArg literal (has_literal.mp subset)) same
      | _ => cases subset
    | ints lo' hi' =>
      cases m with
      | literal x =>
        have number : ¬ x.isNan = true := by
          rw [Num.isNan_eq_true_iff]
          exact Num.ne_nan_of_isWhole (has_ints.mp subset).1
        have member : (ints lo' hi').has x = true := subset
        simp [joinLiteral, number, member]
      | ints lo hi =>
        obtain ⟨_, wholeHi, order, _, up⟩ := tameM
        obtain ⟨_, wholeHi', _, _, up'⟩ := tameN
        simp only [Numbers.subset, Bool.and_eq_true, decide_eq_true_eq] at subset
        have first : lo ≤ hi'.add 1 := calc
          lo ≤ hi := order.le
          _ ≤ hi' := subset.2
          _ ≤ hi'.add 1 := Num.le_add_one wholeHi' up'
        have second : lo' ≤ hi.add 1 := calc
          lo' ≤ lo := subset.1
          _ ≤ hi := order.le
          _ ≤ hi.add 1 := Num.le_add_one wholeHi up
        simp [first, second]
      | _ => cases subset
    | reals lo' hi' =>
      cases m with
      | literal x =>
        have member : (reals lo' hi').has x = true := subset
        have number : ¬ x.isNan = true := by
          rw [Num.isNan_eq_true_iff]
          exact ne_nan_of_le tameN.1 (has_reals.mp member).2
        simp [joinLiteral, number, member]
      | ints lo hi =>
        have low := inside lo (has_min tameM.valid)
        have high := inside hi (has_max tameM.valid)
        simp [low, high]
      | reals lo hi =>
        simp only [Numbers.subset, Bool.and_eq_true, decide_eq_true_eq] at subset
        have first : lo ≤ hi' := tameM.2.1.le.trans subset.2
        have second : lo' ≤ hi := subset.1.trans tameM.2.1.le
        simp [first, second]
      | all => cases subset

/-- Whole numbers that do not join have another one between them. -/
theorem exists_whole_between {x y : Num} (wholeX : x.isWhole = true) (wholeY : y.isWhole = true)
    (less : x < y) (separate : join (literal x) (literal y) = none) :
    ∃ z : Num, z.isWhole = true ∧ x < z ∧ z < y := by
  obtain rfl | rfl | ⟨n, rfl⟩ := Num.isWhole_iff.mp wholeX
  · obtain rfl | rfl | ⟨m, rfl⟩ := Num.isWhole_iff.mp wholeY
    · exact absurd less (lt_irrefl _)
    · exact ⟨.fin (0 : ℤ), Num.isWhole_intCast 0, by simp, by simp [← not_le]⟩
    · exact ⟨.fin ((m - 1 : ℤ) : ℚ), Num.isWhole_intCast _, by simp, by simp⟩
  · exact absurd (Num.posInf_lt_iff.mp less) (Num.ne_nan_of_isWhole wholeY)
  · refine ⟨.fin ((n + 1 : ℤ) : ℚ), Num.isWhole_intCast _, by simp, ?_⟩
    obtain rfl | rfl | ⟨m, rfl⟩ := Num.isWhole_iff.mp wholeY
    · exact absurd less (Num.not_lt_negInf _)
    · simp [← not_le]
    · rw [Num.fin_lt_fin, Int.cast_lt] at less ⊢
      have apart : m ≠ n + 1 := by
        intro next
        have step : (Num.fin (m : ℚ)).sub (.fin n) = 1 := Num.sub_intCast_eq_one_iff.mpr next
        have order : Num.fin (n : ℚ) ≤ .fin m := Num.fin_le_fin.mpr (Int.cast_le.mpr less.le)
        have differ : n ≠ m := less.ne
        simp [join, differ, Num.lesser, Num.greater, Num.isNan, Num.isFinite, min_eq_left order,
          max_eq_right order, Num.isWhole_intCast, step] at separate
      omega

/-- Sets of whole numbers that do not join are apart. -/
theorem apart_of_join {p q : NumberTy} (tameP : p.Tame) (tameQ : q.Tame)
    (wholeP : p.isWhole = true) (wholeQ : q.isWhole = true) (separate : join p q = none) :
    Apart p q := by
  cases p with
  | literal x =>
    cases q with
    | literal y =>
      have differ : x ≠ y := by
        rintro rfl
        simp [join] at separate
      rcases lt_or_gt_of_ne differ with less | greater
      · obtain ⟨z, whole, below, above⟩ := exists_whole_between wholeP wholeQ less separate
        refine ⟨z, whole, .inl ⟨fun v has => ?_, fun v has => ?_⟩⟩
        · exact has_literal.mp has ▸ below
        · exact has_literal.mp has ▸ above
      · rw [join_comm] at separate
        obtain ⟨z, whole, below, above⟩ := exists_whole_between wholeQ wholeP greater separate
        refine ⟨z, whole, .inr ⟨fun v has => ?_, fun v has => ?_⟩⟩
        · exact has_literal.mp has ▸ below
        · exact has_literal.mp has ▸ above
    | ints lo hi =>
      rw [join_comm] at separate
      exact (apart_of_join_literal tameQ wholeP separate).symm
    | _ => cases wholeQ
  | ints lo hi =>
    cases q with
    | literal y => exact apart_of_join_literal tameP wholeQ separate
    | ints lo' hi' => exact apart_of_join_ints tameP tameQ separate
    | _ => cases wholeQ
  | _ => cases wholeP

/-- No two sets join, and sets of whole numbers meet only each other. -/
structure Normal (sets : List NumberTy) : Prop where
  tame : ∀ n ∈ sets, n.Tame
  apart : ∀ m ∈ sets, ∀ n ∈ sets, m ≠ n → join m n = none
  whole : ∀ m ∈ sets, ∀ n ∈ sets, m.isWhole = true →
    ∀ v, m.has v = true → n.has v = true → n.isWhole = true

theorem Normal.of_subset {sets sets' : List NumberTy} (normal : Normal sets)
    (subset : ∀ n ∈ sets', n ∈ sets) : Normal sets' where
  tame n mem := normal.tame n (subset n mem)
  apart m memM n memN := normal.apart m (subset m memM) n (subset n memN)
  whole m memM n memN := normal.whole m (subset m memM) n (subset n memN)

theorem normal_unionMembers {items : List NumberTy} (tame : ∀ n ∈ items, n.Tame) :
    Normal (unionMembers items) where
  tame n mem := tame_of_mem_unionMembers tame mem
  apart m memM n memN differ := join_of_mem_unionMembers tame memM memN differ
  whole m memM n memN wholeM v hasM hasN := by
    have separate : m ≠ n → join m n = none := join_of_mem_unionMembers tame memM memN
    have tameM := tame_of_mem_unionMembers tame memM
    have tameN := tame_of_mem_unionMembers tame memN
    have wholeV := isWhole_of_has wholeM hasM
    cases n with
    | literal x => exact has_literal.mp hasN ▸ wholeV
    | ints lo hi => rfl
    | all =>
      have differ : m ≠ all := by
        rintro rfl
        cases wholeM
      exact absurd (separate differ) (join_ne_none_of_inside tameM tameN fun _ _ => rfl)
    | reals lo hi =>
      have differ : m ≠ reals lo hi := by
        rintro rfl
        cases wholeM
      unfold unionMembers at memM memN
      split at memM
      · rw [mem_singleton.mp memM] at wholeM
        cases wholeM
      · next proper =>
        rw [if_neg proper] at memN
        -- A range comes from a merged set as it is; a set of whole numbers may have been trimmed.
        have tameMerged := (merged_exact tame).1
        obtain ⟨m', memM', pieceM⟩ := mem_flatMap.mp memM
        obtain ⟨n', memN', pieceN⟩ := mem_flatMap.mp memN
        rcases trim_cases tameMerged memN' with ⟨_, singleN⟩ | ⟨_, trimmedN⟩
        · rw [singleN, mem_singleton] at pieceN
          subst pieceN
          rcases trim_cases tameMerged memM' with ⟨other, singleM⟩ | ⟨_, trimmedM⟩
          · rw [singleM, mem_singleton] at pieceM
            subst pieceM
            cases m with
            | literal x =>
              refine absurd (separate differ) (join_ne_none_of_inside tameM tameN fun w has => ?_)
              rw [has_literal.mp has, ← has_literal.mp hasM]
              exact hasN
            | ints lo' hi' => exact absurd rfl other
            | _ => cases wholeM
          · have outside := ((trimmedM.exact v).mp ⟨m, pieceM, hasM⟩).2
            exact absurd hasN (outside _ (mem_filter.mpr ⟨memN', rfl⟩))
        · cases trimmedN.whole _ pieceN

/-- Above a bound there is room that no set of a list starts in. -/
theorem exists_gap (sets : List NumberTy) {a b : Num} (order : a < b) :
    ∃ c, a < c ∧ c ≤ b ∧ ∀ n ∈ sets, n.min ≤ a ∨ c ≤ n.min := by
  induction sets with
  | nil => exact ⟨b, order, le_refl b, by simp⟩
  | cons n rest ih =>
    obtain ⟨c, above, bound, free⟩ := ih
    by_cases early : n.min ≤ a
    · refine ⟨c, above, bound, forall_mem_cons.mpr ⟨.inl early, free⟩⟩
    · refine ⟨min c n.min, lt_min above (not_le.mp early), (min_le_left _ _).trans bound, ?_⟩
      refine forall_mem_cons.mpr ⟨.inr (min_le_right _ _), fun m mem => ?_⟩
      exact (free m mem).imp_right ((min_le_left _ _).trans ·)

section Covered

variable {sets : List NumberTy} (normal : Normal sets) (proper : all ∉ sets)
include normal proper

omit normal in
/-- Just above a bound, what is covered is covered by a range that starts no later. -/
theorem exists_range_after {a b : Num} (order : a < b) (number : b ≠ .nan)
    (covers : ∀ v, a < v → v < b → v ∈ covered sets) :
    ∃ lo hi, reals lo hi ∈ sets ∧ lo ≤ a ∧ a < hi := by
  obtain ⟨c, above, bound, free⟩ := exists_gap sets order
  have numberC := ne_nan_of_le number bound
  obtain ⟨w, low, high, fraction, _⟩ := Num.exists_fraction_between above numberC 0
  obtain ⟨n, mem, has⟩ := covers w low (high.trans_le bound)
  have numberW := ne_nan_of_le numberC high.le
  have start : n.min ≤ a := by
    refine (free n mem).resolve_right fun late => ?_
    exact absurd (late.trans (min_le_and_le_max numberW has).1) (not_le.mpr high)
  cases n with
  | literal x =>
    have early : x ≤ a := start
    exact absurd (has_literal.mp has ▸ early) (not_le.mpr low)
  | ints lo hi => exact absurd (has_ints.mp has).1 fraction
  | reals lo hi => exact ⟨lo, hi, mem, start, low.trans_le (has_reals.mp has).2⟩
  | all => exact absurd mem proper

/-- A range that is covered is inside a range of the list. -/
theorem exists_range_of_covered {a b : Num} (order : a < b) (number : b ≠ .nan)
    (covers : ∀ v, a ≤ v → v ≤ b → v ∈ covered sets) :
    ∃ lo hi, reals lo hi ∈ sets ∧ lo ≤ a ∧ b ≤ hi := by
  obtain ⟨lo, hi, mem, start, reach⟩ := exists_range_after proper order number
    fun v low high => covers v low.le high.le
  refine ⟨lo, hi, mem, start, not_lt.mp fun short => ?_⟩
  -- Where this range ends, another one covers what comes next, and the two touch.
  obtain ⟨lo', hi', mem', start', reach'⟩ := exists_range_after proper short number
    fun v low high => covers v (reach.trans low).le high.le
  have differ : reals lo hi ≠ reals lo' hi' := by
    rintro same
    obtain ⟨_, rfl⟩ := NumberTy.reals.inj same
    exact lt_irrefl _ reach'
  have separate := normal.apart _ mem _ mem' differ
  have first : lo ≤ hi' := start.trans (reach.trans reach').le
  simp [join, differ, first, start'] at separate

omit normal proper in
/-- Below an upper bound there is an integer. -/
theorem exists_int_below {c : Num} (above : .negInf < c) : ∃ k : ℤ, .fin (k : ℚ) < c := by
  cases c with
  | negInf => exact absurd above (lt_irrefl _)
  | fin q =>
    refine ⟨q.floor - 1, Num.fin_lt_fin.mpr ?_⟩
    have below := Rat.floor_le q
    push_cast
    linarith
  | posInf => exact ⟨0, by simp [← not_le]⟩
  | nan => exact ⟨0, by simp [← not_le]⟩

omit normal proper in
/-- A run of whole numbers has an integer so early that sets with it start no later than the
run. -/
theorem exists_int_in_run (sets : List NumberTy) {a b : Num} (wholeA : a.isWhole = true)
    (order : a < b) (number : b ≠ .nan) :
    ∃ k : ℤ, a ≤ .fin (k : ℚ) ∧ .fin (k : ℚ) ≤ b ∧
      ∀ n ∈ sets, n.has (.fin (k : ℚ)) = true → n.min ≤ a := by
  have early {k : ℤ} {n : NumberTy} (has : n.has (.fin (k : ℚ)) = true) : n.min ≤ .fin (k : ℚ) :=
    (min_le_and_le_max (by simp) has).1
  obtain rfl | rfl | ⟨k, rfl⟩ := Num.isWhole_iff.mp wholeA
  · obtain ⟨c, above, bound, free⟩ := exists_gap sets order
    obtain ⟨k, below⟩ := exists_int_below above
    refine ⟨k, Num.negInf_le _, below.le.trans bound, fun n mem has => ?_⟩
    refine (free n mem).resolve_right fun late => ?_
    exact absurd (late.trans (early has)) (not_le.mpr below)
  · exact absurd (Num.posInf_lt_iff.mp order) number
  · exact ⟨k, le_refl _, order.le, fun n _ has => early has⟩

omit proper in
/-- A run of whole numbers that only sets of whole numbers cover is inside one of these. -/
theorem exists_run_of_covered {a b : Num} (wholeA : a.isWhole = true) (wholeB : b.isWhole = true)
    (order : a < b)
    (covers : ∀ v, v.isWhole = true → a ≤ v → v ≤ b → ∃ n ∈ sets, n.isWhole = true ∧
      n.has v = true) :
    ∃ n ∈ sets, n.isWhole = true ∧ n.has a = true ∧ n.has b = true := by
  have numberB := Num.ne_nan_of_isWhole wholeB
  obtain ⟨k, low, high, early⟩ := exists_int_in_run sets wholeA order numberB
  obtain ⟨n, mem, whole, has⟩ := covers _ (Num.isWhole_intCast k) low high
  have tame := normal.tame n mem
  have hasMin := has_min tame.valid
  have hasMax := has_max tame.valid
  have wholeMax := isWhole_of_has whole hasMax
  have reach : .fin (k : ℚ) ≤ n.max := (min_le_and_le_max (by simp) has).2
  have enough : b ≤ n.max := by
    refine not_lt.mp fun short => ?_
    -- The number after the last one of this set is in another set, which it would join.
    have up := tame.stepsUp_max
    have next := Num.add_one_le_of_lt wholeMax wholeB up short
    obtain ⟨m, last⟩ : ∃ m : ℤ, n.max = .fin m := by
      obtain same | same | found := Num.isWhole_iff.mp wholeMax
      · simp [same] at reach
      · exact absurd (Num.posInf_lt_iff.mp (same ▸ short)) numberB
      · exact found
    rw [last] at up
    rw [last, Num.add_one_intCast up] at next
    have beyond : n.max < .fin ((m + 1 : ℤ) : ℚ) := by simp [last]
    obtain ⟨n', mem', whole', has'⟩ := covers _ (Num.isWhole_intCast (m + 1))
      (low.trans (reach.trans beyond.le)) next
    have differ : n ≠ n' := by
      rintro rfl
      exact absurd (min_le_and_le_max (by simp) has').2 (not_le.mpr beyond)
    obtain ⟨z, wholeZ, ⟨below, above⟩ | ⟨below, above⟩⟩ :=
      apart_of_join tame (normal.tame n' mem') whole whole' (normal.apart n mem n' mem' differ)
    · have after := Num.add_one_le_of_lt wholeMax wholeZ tame.stepsUp_max (below _ hasMax)
      rw [last, Num.add_one_intCast up] at after
      exact absurd after (not_le.mpr (above _ has'))
    · exact absurd (beyond.trans (below _ has')) (not_lt.mpr (above _ hasMax).le)
  have start := early n mem has
  refine ⟨n, mem, whole, ?_, ?_⟩
  · exact has_of_between whole hasMin hasMax wholeA start (order.le.trans enough)
  · exact has_of_between whole hasMin hasMax wholeB (start.trans order.le) enough

end Covered

/-- A set that is covered, one of whole numbers by such sets only, is inside a single member. -/
theorem Normal.exists_superset {sets : List NumberTy} (normal : Normal sets) {n : NumberTy}
    (valid : n.Valid) (covers : n.toSet ⊆ covered sets)
    (whole : n.isWhole = true →
      ∀ m ∈ sets, ∀ v, n.has v = true → m.has v = true → m.isWhole = true) :
    ∃ m ∈ sets, ∀ v, n.has v = true → m.has v = true := by
  by_cases proper : all ∈ sets
  · exact ⟨all, proper, fun _ _ => rfl⟩
  · cases n with
    | literal x =>
      obtain ⟨m, mem, has⟩ := covers (has_literal.mpr rfl)
      exact ⟨m, mem, fun v same => has_literal.mp same ▸ has⟩
    | ints lo hi =>
      obtain ⟨wholeLo, wholeHi, order⟩ := valid
      obtain ⟨m, mem, wholeM, first, last⟩ :=
        exists_run_of_covered normal wholeLo wholeHi order fun v wholeV low high => by
          have member : (ints lo hi).has v = true := has_ints.mpr ⟨wholeV, low, high⟩
          obtain ⟨m, mem, has⟩ := covers member
          exact ⟨m, mem, whole rfl m mem v member has, has⟩
      refine ⟨m, mem, fun v has => ?_⟩
      obtain ⟨wholeV, low, high⟩ := has_ints.mp has
      exact has_of_between wholeM first last wholeV low high
    | reals lo hi =>
      obtain ⟨lo', hi', mem, start, reach⟩ :=
        exists_range_of_covered normal proper valid.2 valid.1 fun v low high =>
          covers (has_reals.mpr ⟨low, high⟩)
      refine ⟨_, mem, fun v has => ?_⟩
      obtain ⟨low, high⟩ := has_reals.mp has
      exact has_reals.mpr ⟨start.trans low, high.trans reach⟩
    | all =>
      -- The numbers proper are in one range, and `nan` would join it.
      obtain ⟨lo, hi, mem, start, reach⟩ :=
        exists_range_of_covered normal proper (a := .negInf) (b := .posInf) (by simp) (by simp)
          fun v _ _ => covers (has_all v)
      obtain ⟨m, memNan, has⟩ := covers (has_all .nan)
      have single := ((NumberTy.has_nan_iff (normal.tame m memNan).valid).mp has).resolve_left
        fun same => proper (same ▸ memNan)
      subst single
      obtain rfl := Num.le_negInf_iff.mp start
      obtain rfl := (Num.posInf_le_iff.mp reach).resolve_right (normal.tame _ mem).1
      have separate := normal.apart _ memNan _ mem (by simp)
      simp [join, joinLiteral, Num.isNan, real] at separate

/-- A set of one normal form is in every other one that covers the same numbers. -/
theorem Normal.mem_of_covered_eq {left right : List NumberTy} (normalL : Normal left)
    (normalR : Normal right) (same : covered left = covered right) {n : NumberTy}
    (mem : n ∈ left) : n ∈ right := by
  have inside {sets sets' : List NumberTy} (normal : Normal sets) (normal' : Normal sets')
      (same : covered sets = covered sets') {n : NumberTy} (mem : n ∈ sets) :
      ∃ m ∈ sets', ∀ v, n.has v = true → m.has v = true := by
    have covers {n : NumberTy} (mem : n ∈ sets) : n.toSet ⊆ covered sets' :=
      fun v has => same ▸ ⟨n, mem, has⟩
    refine normal'.exists_superset (normal.tame n mem).valid (covers mem)
      fun whole m mem' v has has' => ?_
    -- A set not of whole numbers would be inside one here that meets a set of whole numbers.
    by_contra other
    have covers' : m.toSet ⊆ covered sets := fun v has => same ▸ ⟨m, mem', has⟩
    obtain ⟨k, memK, within⟩ := normal.exists_superset (normal'.tame m mem').valid covers'
      fun whole => absurd whole other
    have wholeK := normal.whole n mem k memK whole v has (within v has')
    exact other (isWhole_of_forall (normal'.tame m mem').valid fun w has =>
      isWhole_of_has wholeK (within w has))
  obtain ⟨m, memM, forth⟩ := inside normalL normalR same mem
  obtain ⟨k, memK, back⟩ := inside normalR normalL same.symm memM
  have tameN := normalL.tame n mem
  have tameM := normalR.tame m memM
  have single : n = k := by
    by_contra differ
    exact join_ne_none_of_inside tameN (normalL.tame k memK) (fun v has => back v (forth v has))
      (normalL.apart n mem k memK differ)
  rw [eq_of_has_iff tameN.valid tameM.valid fun v => ⟨forth v, fun has => single ▸ back v has⟩]
  exact memM

end Numbers

end TypeFlow
