import Mathlib.Topology.Order.Basic
import TypeFlow.Proofs.Num.Difference
import TypeFlow.Proofs.Order

/-!
# Covering a set of numbers by several

A set of numbers is inside the union of others when nothing is left after all of them have been
taken out of it. A difference can keep more than the true one, so this needs an argument: number
types are closed in the order topology, and what is kept lies in the closure of the true
difference, except when a hole is cut into a range. In canonical order ranges come by increasing
lower bound, and a hole then leaves numbers that nothing later covers.
-/

namespace TypeFlow

open List hiding all

namespace Num.Linear

/-- The order topology. -/
scoped instance topology : TopologicalSpace Num := Preorder.topology Num

scoped instance : OrderTopology Num := ⟨rfl⟩

end Num.Linear

open scoped Num.Linear
open Set (Icc Ioo Ioi)

namespace Num

/-- The whole numbers are a closed set: between neighbours there is an open range. -/
theorem isClosed_whole : IsClosed {v : Num | v.isWhole = true} := by
  rw [← isOpen_compl_iff, isOpen_iff_forall_mem_open]
  intro v fraction
  cases v with
  | negInf => exact absurd rfl fraction
  | posInf => exact absurd rfl fraction
  | nan =>
    refine ⟨Ioi posInf, fun w above whole => ?_, isOpen_Ioi, by simp⟩
    exact ne_nan_of_isWhole whole (posInf_lt_iff.mp above)
  | fin q =>
    refine ⟨Ioo (fin (q.floor : ℚ)) (fin ((q.floor + 1 : ℤ) : ℚ)), ?_, isOpen_Ioo, ?_, ?_⟩
    · rintro w ⟨low, high⟩ whole
      obtain rfl | rfl | ⟨n, rfl⟩ := isWhole_iff.mp whole
      · exact not_lt_negInf _ low
      · cases posInf_lt_iff.mp high
      · rw [fin_lt_fin, Int.cast_lt] at low high
        omega
    · refine lt_of_le_of_ne (fin_le_fin.mpr (Rat.floor_le q)) fun same => fraction ?_
      exact same ▸ isWhole_intCast q.floor
    · exact fin_lt_fin.mpr (Rat.lt_floor_add_one q)

/-- Between two bounds there is a number that is not whole and not a given one. -/
theorem exists_fraction_between {a b : Num} (order : a < b) (number : b ≠ nan) (x : Num) :
    ∃ w, a < w ∧ w < b ∧ ¬ w.isWhole = true ∧ w ≠ x := by
  obtain ⟨r, s, between, low, high⟩ := Numbers.exists_rat_between order number
  obtain ⟨y, other⟩ : ∃ y : ℚ, ∀ q, q ≠ y → fin q ≠ x := by
    cases x with
    | fin y => exact ⟨y, fun q differ same => differ (fin.inj same)⟩
    | _ => exact ⟨0, fun q _ => by simp⟩
  obtain ⟨q, above, below, fraction, differ⟩ := Numbers.exists_fraction_between between y
  exact ⟨fin q, low.trans_lt (fin_lt_fin.mpr above), (fin_lt_fin.mpr below).trans_le high,
    by simpa [isWhole] using fraction, other q differ⟩

/-- A set that has the fractions of a range, a single one apart, comes close to all of it. -/
theorem Icc_subset_closure {a b : Num} (order : a < b) (number : b ≠ nan) (x : Num) {s : Set Num}
    (fractions : ∀ w, a < w → w < b → ¬ w.isWhole = true → w ≠ x → w ∈ s) :
    Icc a b ⊆ closure s := by
  rintro v ⟨low, high⟩
  rw [mem_closure_iff_nhds]
  intro near mem
  rcases eq_or_lt_of_le high with rfl | less
  · obtain ⟨l, below, covered⟩ := exists_Ioc_subset_of_mem_nhds mem ⟨a, order⟩
    obtain ⟨w, above, under, fraction, differ⟩ :=
      exists_fraction_between (max_lt below order) number x
    rw [max_lt_iff] at above
    exact ⟨w, covered ⟨above.1, under.le⟩, fractions w above.2 under fraction differ⟩
  · obtain ⟨u, above, covered⟩ := exists_Ico_subset_of_mem_nhds mem ⟨b, less⟩
    have bound : min u b ≠ nan := NumberTy.ne_nan_of_le number (min_le_right u b)
    obtain ⟨w, beyond, under, fraction, differ⟩ :=
      exists_fraction_between (lt_min above less) bound x
    rw [lt_min_iff] at under
    exact ⟨w, covered ⟨beyond.le, under.1⟩,
      fractions w (low.trans_lt beyond) under.2 fraction differ⟩

end Num

namespace NumberTy

/-- The numbers in the set. -/
def toSet (n : NumberTy) : Set Num := {v | n.has v = true}

@[simp] theorem mem_toSet {n : NumberTy} {v : Num} : v ∈ n.toSet ↔ n.has v = true := Iff.rfl

theorem toSet_reals (lo hi : Num) : (reals lo hi).toSet = Icc lo hi := by
  ext v
  simp

theorem isClosed_toSet (n : NumberTy) : IsClosed n.toSet := by
  cases n with
  | literal x =>
    have single : (literal x).toSet = {x} := by
      ext v
      simp
    rw [single]
    exact isClosed_singleton
  | ints lo hi =>
    have clipped : (ints lo hi).toSet = {v | v.isWhole = true} ∩ Icc lo hi := by
      ext v
      simp
    rw [clipped]
    exact Num.isClosed_whole.inter isClosed_Icc
  | reals lo hi =>
    rw [toSet_reals]
    exact isClosed_Icc
  | all =>
    have every : all.toSet = Set.univ := Set.eq_univ_of_forall fun v => has_all v
    rw [every]
    exact isClosed_univ

end NumberTy

namespace Numbers

open NumberTy (literal ints reals all real range? intRange? Tame Valid toSet_reals has_ints
  has_literal has_min has_range? has_reals ne_nan_of_le)

variable {lo hi x : Num} {b c a : NumberTy} {missing : Set Num} {rest left : List NumberTy}

theorem posInf_mem_closure (order : lo < .posInf) {s : Set Num}
    (integers : ∀ n : ℤ, lo < .fin n → .fin n ∈ s) : Num.posInf ∈ closure s := by
  rw [mem_closure_iff_nhds]
  intro near mem
  obtain ⟨l, below, covered⟩ := exists_Ioc_subset_of_mem_nhds mem ⟨lo, order⟩
  obtain ⟨q, _, _, above, _⟩ := exists_rat_between (max_lt below order) (by simp)
  have beyond : max l lo < .fin ((q.floor + 1 : ℤ) : ℚ) :=
    above.trans_lt (Num.fin_lt_fin.mpr (Rat.lt_floor_add_one q))
  rw [max_lt_iff] at beyond
  exact ⟨_, covered ⟨beyond.1, by simp⟩, integers _ beyond.2⟩

theorem negInf_mem_closure (order : .negInf < hi) (number : hi ≠ .nan) {s : Set Num}
    (integers : ∀ n : ℤ, .fin n < hi → .fin n ∈ s) : Num.negInf ∈ closure s := by
  rw [mem_closure_iff_nhds]
  intro near mem
  obtain ⟨u, above, covered⟩ := exists_Ico_subset_of_mem_nhds mem ⟨hi, order⟩
  have bound : min u hi ≠ .nan := ne_nan_of_le number (min_le_right u hi)
  obtain ⟨_, q, _, _, below⟩ := exists_rat_between (lt_min above order) bound
  have under : .fin ((q.ceil - 1 : ℤ) : ℚ) < min u hi := by
    refine lt_of_lt_of_le (Num.fin_lt_fin.mpr ?_) below
    have step : (q.ceil : ℚ) < q + 1 := Rat.ceil_lt
    push_cast
    linarith
  rw [lt_min_iff] at under
  exact ⟨_, covered ⟨by simp, under.1⟩, integers _ under.2⟩

/-- Only an infinity is no greater than the number before it. -/
theorem eq_posInf_of_le_before (number : x ≠ .nan) (lowest : x ≠ .negInf) (down : x.StepsDown)
    (le : x ≤ x.before) : x = .posInf := by
  cases x with
  | negInf => exact absurd rfl lowest
  | nan => exact absurd rfl number
  | posInf => rfl
  | fin q => exact absurd le (not_le.mpr (Num.before_lt down))

/-- Only an infinity is no less than the number after it. -/
theorem eq_negInf_of_after_le (number : x ≠ .nan) (highest : x ≠ .posInf) (up : x.StepsUp)
    (le : x.after ≤ x) : x = .negInf := by
  cases x with
  | negInf => rfl
  | nan => exact absurd rfl number
  | posInf => exact absurd rfl highest
  | fin q => exact absurd le (not_le.mpr (Num.lt_after up))

/-- What is cut off a whole range is outside the other set, or an infinity next to it. -/
theorem cut_ints_subset_closure (tame : (ints lo hi).Tame) (tameB : b.Tame) {w : Num}
    (hasA : (ints lo hi).has w = true) (hasB : b.has w = true) (piece : c ∈ cut (ints lo hi) b) :
    c.toSet ⊆ closure ((ints lo hi).toSet \ b.toSet) := by
  intro v has
  have inside := has_of_has_cut tame.valid tameB.outward hasA hasB piece has
  obtain ⟨whole, low, high⟩ := has_ints.mp inside
  by_cases kept : b.has v = true
  · have number := Num.ne_nan_of_isWhole whole
    have numberHi := Num.ne_nan_of_isWhole tame.2.1
    obtain ⟨first, last⟩ := min_le_and_le_max number kept
    obtain ⟨numberL, numberH⟩ := bounds_ne_nan_of_has tameB.valid whole kept
    obtain ⟨_, ⟨lowest, _, below⟩ | ⟨highest, above, _⟩⟩ :=
      (has_cut_ints tame.valid tameB.valid hasA hasB v).mp ⟨c, piece, has⟩
    · have infinite := eq_posInf_of_le_before numberL lowest tameB.stepsDown_min
        (first.trans below)
      rw [infinite] at first
      obtain rfl : v = .posInf := (Num.posInf_le_iff.mp first).resolve_right number
      obtain rfl : hi = .posInf := (Num.posInf_le_iff.mp high).resolve_right numberHi
      refine posInf_mem_closure tame.2.2.1 fun n beyond => ⟨?_, fun other => ?_⟩
      · exact has_ints.mpr ⟨Num.isWhole_intCast n, beyond.le, by simp⟩
      · have reached := (min_le_and_le_max (by simp) other).1
        simp [infinite] at reached
    · have infinite := eq_negInf_of_after_le numberH highest tameB.stepsUp_max
        (above.trans last)
      obtain rfl : v = .negInf := Num.le_negInf_iff.mp (infinite ▸ last)
      obtain rfl : lo = .negInf := Num.le_negInf_iff.mp low
      refine negInf_mem_closure tame.2.2.1 numberHi fun n under => ⟨?_, fun other => ?_⟩
      · exact has_ints.mpr ⟨Num.isWhole_intCast n, by simp, under.le⟩
      · have reached := (min_le_and_le_max (by simp) other).2
        simp [infinite] at reached
  · exact subset_closure ⟨inside, kept⟩

/-- The other set cuts a hole: numbers below all of it and above all of it are in the first one. -/
def Hole (a b : NumberTy) : Prop :=
  ∃ lo hi, b = reals lo hi ∧ (a.min < lo ∧ Ioo a.min lo ⊆ a.toSet) ∧
    (hi < a.max ∧ Ioo hi a.max ⊆ a.toSet)

/-- What is cut off a range is close to the true difference, unless a hole is cut. -/
theorem cut_reals_subset_closure (valid : (reals lo hi).Valid) (validB : b.Valid)
    (outside : ¬ subset (reals lo hi) b = true) {w : Num} (hasA : (reals lo hi).has w = true)
    (hasB : b.has w = true) (piece : c ∈ cut (reals lo hi) b) :
    c.toSet ⊆ closure ((reals lo hi).toSet \ b.toSet) ∨ Hole (reals lo hi) b := by
  cases b with
  | literal x =>
    left
    rw [mem_singleton.mp piece, toSet_reals]
    refine Num.Icc_subset_closure valid.2 valid.1 x fun v above below fraction differ => ?_
    exact ⟨⟨above.le, below.le⟩, fun same => differ (has_literal.mp same)⟩
  | ints lo' hi' =>
    left
    rw [mem_singleton.mp piece, toSet_reals]
    refine Num.Icc_subset_closure valid.2 valid.1 0 fun v above below fraction differ => ?_
    exact ⟨⟨above.le, below.le⟩, fun other => fraction (has_ints.mp other).1⟩
  | all => cases outside rfl
  | reals lo' hi' =>
    obtain ⟨lowA, highA⟩ := has_reals.mp hasA
    obtain ⟨lowB, highB⟩ := has_reals.mp hasB
    have numberLo := ne_nan_of_le valid.1 valid.2.le
    have numberLo' := ne_nan_of_le validB.1 validB.2.le
    simp only [subset, Bool.and_eq_true, decide_eq_true_eq, not_and, not_le] at outside
    simp only [cut] at piece
    by_cases first : lo' ≤ lo
    · left
      rw [if_pos first, Option.mem_toList] at piece
      intro v has
      have between := (has_range? validB.1 valid.1 v).mp ⟨c, piece, has⟩
      refine Num.Icc_subset_closure (outside first) valid.1 0 (fun u above below _ _ => ?_) between
      exact ⟨has_reals.mpr ⟨(lowA.trans highB).trans above.le, below.le⟩,
        fun other => absurd (has_reals.mp other).2 (not_le.mpr above)⟩
    · rw [if_neg first] at piece
      rw [not_le] at first
      by_cases last : hi ≤ hi'
      · left
        rw [if_pos last, Option.mem_toList] at piece
        intro v has
        have between := (has_range? numberLo numberLo' v).mp ⟨c, piece, has⟩
        refine Num.Icc_subset_closure first numberLo' 0 (fun u above below _ _ => ?_) between
        exact ⟨has_reals.mpr ⟨above.le, below.le.trans (lowB.trans highA)⟩,
          fun other => absurd (has_reals.mp other).1 (not_le.mpr below)⟩
      · right
        refine ⟨lo', hi', rfl, ⟨first, fun u inside => ?_⟩, not_le.mp last, fun u inside => ?_⟩
        · exact has_reals.mpr ⟨inside.1.le, inside.2.le.trans (lowB.trans highA)⟩
        · exact has_reals.mpr ⟨(lowA.trans highB).trans inside.1.le, inside.2.le⟩

/-- What a difference keeps is close to the true one, unless a hole is cut. -/
theorem withoutProper_subset_closure (tameA : a.Tame) (tameB : b.Tame) (proper : a ≠ all)
    (piece : c ∈ withoutProper a b) : c.toSet ⊆ closure (a.toSet \ b.toSet) ∨ Hole a b := by
  unfold withoutProper at piece
  split at piece
  · cases piece
  · next outside =>
    split at piece
    · next apart =>
      left
      rw [mem_singleton.mp piece]
      intro v has
      exact subset_closure ⟨has, not_has_of_intersect_none tameA.valid tameB.valid apart has⟩
    · next meet =>
      obtain ⟨w, hasA, hasB⟩ := exists_has_of_intersect tameA.valid tameB.valid meet
      cases a with
      | literal x =>
        rw [has_literal] at hasA
        subst hasA
        cases b <;> exact absurd hasB outside
      | ints lo hi => exact .inl (cut_ints_subset_closure tameA tameB hasA hasB piece)
      | reals lo hi =>
        exact cut_reals_subset_closure tameA.valid tameB.valid outside hasA hasB piece
      | all => exact absurd rfl proper

/-- What a difference keeps is close to the true one, unless a hole is cut. -/
theorem without_subset_closure (tameA : a.Tame) (tameB : b.Tame)
    (piece : c ∈ without a b) : c.toSet ⊆ closure (a.toSet \ b.toSet) ∨ Hole a b := by
  cases a with
  | all =>
    rw [without_all] at piece
    split at piece
    · cases piece
    · next proper =>
      rcases mem_append.mp piece with piece | piece
      · have within : real.toSet \ b.toSet ⊆ all.toSet \ b.toSet :=
          fun v outside => ⟨rfl, outside.2⟩
        rcases withoutProper_subset_closure tame_real tameB (by simp [real]) piece with near | hole
        · exact .inl (near.trans (closure_mono within))
        · obtain ⟨lo, hi, same, ⟨below, _⟩, above, _⟩ := hole
          exact .inr ⟨lo, hi, same, ⟨below, fun v _ => rfl⟩, above, fun v _ => rfl⟩
      · left
        split at piece
        · cases piece
        · next other =>
          rw [mem_singleton.mp piece]
          intro v has
          rw [NumberTy.mem_toSet, has_literal] at has
          subst has
          refine subset_closure ⟨rfl, fun member => ?_⟩
          rcases (NumberTy.has_nan_iff tameB.valid).mp member with same | same
          · exact proper same
          · exact other (same ▸ rfl)
  | _ => exact withoutProper_subset_closure tameA tameB (by simp) piece

/-- A set with a fraction and a greater number has all numbers between them. -/
theorem has_of_between_fraction {x y v : Num} (fraction : ¬ x.isWhole = true) (order : x < y)
    (hasX : c.has x = true) (hasY : c.has y = true) (low : x ≤ v) (high : v ≤ y) :
    c.has v = true := by
  cases c with
  | literal z =>
    rw [has_literal] at hasX hasY
    exact absurd (hasX.trans hasY.symm) order.ne
  | ints lo hi => exact absurd (has_ints.mp hasX).1 fraction
  | reals lo hi =>
    exact has_reals.mpr
      ⟨(has_reals.mp hasX).1.trans low, high.trans (has_reals.mp hasY).2⟩
  | all => rfl

/-- A set that has both sides of a hole has what is in the hole, too. -/
theorem Hole.subset_of_filled (hole : Hole a b) (validA : a.Valid) (validB : b.Valid)
    (filled : a.toSet \ b.toSet ⊆ c.toSet) : a.toSet ⊆ c.toSet := by
  obtain ⟨lo, hi, rfl, ⟨below, first⟩, above, last⟩ := hole
  intro v has
  by_cases inner : (reals lo hi).has v = true
  · have numberLo := ne_nan_of_le validB.1 validB.2.le
    have numberMax : a.max ≠ .nan := by
      cases a with
      | literal z => exact absurd (below.trans (validB.2.trans above)) (lt_irrefl z)
      | ints l h => exact Num.ne_nan_of_isWhole validA.2.1
      | reals l h => exact validA.1
      | all => simp [NumberTy.max]
    obtain ⟨x, lowX, highX, fraction, _⟩ := Num.exists_fraction_between below numberLo 0
    obtain ⟨y, lowY, highY, _, _⟩ := Num.exists_fraction_between above numberMax 0
    have hasX : c.has x = true := filled ⟨first ⟨lowX, highX⟩, fun within =>
      absurd (has_reals.mp within).1 (not_le.mpr highX)⟩
    have hasY : c.has y = true := filled ⟨last ⟨lowY, highY⟩, fun within =>
      absurd (has_reals.mp within).2 (not_le.mpr lowY)⟩
    obtain ⟨low, high⟩ := has_reals.mp inner
    exact has_of_between_fraction fraction (highX.trans (validB.2.trans lowY)) hasX hasY
      (highX.le.trans low) (high.trans lowY.le)
  · exact filled ⟨has, inner⟩

/-- What is left is in every number type that has the true difference. -/
theorem without_subset_of_filled {a b c d : NumberTy} (tameA : a.Tame) (tameB : b.Tame)
    (filled : a.toSet \ b.toSet ⊆ c.toSet) (piece : d ∈ without a b) : d.toSet ⊆ c.toSet := by
  rcases without_subset_closure tameA tameB piece with near | hole
  · exact near.trans (closure_minimal filled c.isClosed_toSet)
  · intro v has
    exact hole.subset_of_filled tameA.valid tameB.valid filled
      (has_of_has_without tameA.valid tameB.outward piece has)

/-- The numbers that some set of a list has. -/
def covered (sets : List NumberTy) : Set Num := {v | ∃ n ∈ sets, n.has v = true}

/-- What is left of a set while others are taken out of it in canonical order: it is close to
what is still missing, unless everything is taken out in the end. -/
def Pending (missing : Set Num) (rest left : List NumberTy) : Prop :=
  missing ⊆ covered rest ∧ (all ∈ rest ∨ covered left ⊆ closure missing)

theorem without_right_all (a : NumberTy) : without a all = [] := by
  cases a <;> simp [without, withoutProper, subset]

/-- After a range come ranges with a lower bound no less, and the set of all numbers. -/
theorem lower_bound_le {r : NumberTy} (after : (reals lo hi).compare r = .lt) (proper : r ≠ all)
    {v : Num} (has : r.has v = true) : lo ≤ v := by
  cases r with
  | reals lo' hi' =>
    have order : lo ≤ lo' := by
      rw [NumberTy.compare, Ordering.then_eq_lt, Num.compare_eq_lt_iff,
        Num.compare_eq_eq_iff] at after
      rcases after with less | ⟨same, _⟩
      · exact less.le
      · exact same.le
    exact order.trans (has_reals.mp has).1
  | all => exact absurd rfl proper
  | _ => cases after

/-- A hole leaves numbers missing that neither the range nor anything after it covers. -/
theorem not_hole (valid : b.Valid) (increasing : Increasing NumberTy.compare (b :: rest))
    (proper : all ∉ rest) (enough : missing ⊆ covered (b :: rest))
    (close : a.toSet ⊆ closure missing) : ¬ Hole a b := by
  rintro ⟨lo, hi, rfl, ⟨below, inside⟩, -⟩
  have number := ne_nan_of_le valid.1 valid.2.le
  obtain ⟨w, above, under, _, _⟩ := Num.exists_fraction_between below number 0
  obtain ⟨s, ⟨_, less⟩, absent⟩ :=
    mem_closure_iff.mp (close (inside ⟨above, under⟩)) _ isOpen_Ioo ⟨above, under⟩
  obtain ⟨r, mem, has⟩ := enough absent
  rcases mem_cons.mp mem with rfl | mem
  · exact absurd (has_reals.mp has).1 (not_le.mpr less)
  · have after := (pairwise_cons.mp increasing).1 r mem
    have other : r ≠ all := fun same => proper (same ▸ mem)
    exact absurd (lower_bound_le after other has) (not_le.mpr less)

/-- At first everything is left and missing. -/
theorem Pending.start (enough : covered left ⊆ covered rest) : Pending (covered left) rest left :=
  ⟨enough, .inr subset_closure⟩

/-- Taking out the next set. -/
theorem Pending.step {rest left left' : List NumberTy} (pending : Pending missing (b :: rest) left)
    (increasing : Increasing NumberTy.compare (b :: rest)) (tame : ∀ n ∈ left, n.Tame)
    (tameB : b.Tame) (next : covered left' ⊆ covered (left.flatMap (without · b))) :
    Pending (missing \ b.toSet) rest left' := by
  obtain ⟨enough, close⟩ := pending
  constructor
  · rintro v ⟨absent, outside⟩
    obtain ⟨n, mem, has⟩ := enough absent
    rcases mem_cons.mp mem with rfl | mem
    · exact absurd has outside
    · exact ⟨n, mem, has⟩
  · by_cases proper : all ∈ rest
    · exact .inl proper
    · right
      intro v kept
      obtain ⟨c, piece, has⟩ := next kept
      obtain ⟨p, mem, piece⟩ := mem_flatMap.mp piece
      by_cases everything : b = all
      · rw [everything, without_right_all] at piece
        cases piece
      · have close := close.resolve_left (by simp [proper, Ne.symm everything])
        have closeP : p.toSet ⊆ closure missing := fun v has => close ⟨p, mem, has⟩
        have near := (without_subset_closure (tame p mem) tameB piece).resolve_right
          (not_hole tameB.valid increasing proper enough closeP)
        -- The set `b` is closed: a limit of missing numbers outside it is one of those that stay.
        have shrunk : p.toSet \ b.toSet ⊆ closure (missing \ b.toSet) := calc
          p.toSet \ b.toSet ⊆ closure missing \ b.toSet := Set.sdiff_subset_sdiff_left closeP
          _ = closure missing \ closure b.toSet := by rw [b.isClosed_toSet.closure_eq]
          _ ⊆ closure (missing \ b.toSet) := closure_sdiff
        exact closure_minimal shrunk isClosed_closure (near has)

/-- Once nothing is missing any more, nothing is left. -/
theorem Pending.eq_nil (pending : Pending missing [] left)
    (tame : ∀ n ∈ left, n.Tame) : left = [] := by
  obtain ⟨enough, close⟩ := pending
  rw [eq_nil_iff_forall_not_mem]
  intro n mem
  have close := close.resolve_left (by simp)
  have kept : n.min ∈ closure missing := close ⟨n, mem, has_min (tame n mem).valid⟩
  obtain ⟨v, absent⟩ := closure_nonempty_iff.mp ⟨n.min, kept⟩
  obtain ⟨m, mem, _⟩ := enough absent
  cases mem

end Numbers

end TypeFlow
