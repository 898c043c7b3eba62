import Mathlib.Data.List.Perm.Basic
import TypeFlow.Proofs.Num.Difference

/-!
# Joining number types

Merging pairs of a list replaces two items by their merged one, again and again, until no pair
merges. Two sets of numbers that join are replaced by a set of exactly their numbers.
-/

namespace TypeFlow

section Merging

variable {α : Type}

/-- Moving the last item to the front permutes the items. -/
theorem lastFirst_perm (items : List α) : (lastFirst items).Perm items := by
  unfold lastFirst
  cases last : items.getLast? with
  | none =>
    rw [List.getLast?_eq_none_iff.mp last]
  | some x =>
    obtain ⟨front, rfl⟩ := List.getLast?_eq_some_iff.mp last
    simp only [List.dropLast_concat]
    exact (List.perm_append_singleton x front).symm

/-- What is taken out of a list and what is left make up the list. -/
theorem takeOut_perm {β : Type} {f : α → Option β} {items others : List α} {b : β}
    (taken : takeOut f items = some (b, others)) :
    ∃ x, f x = some b ∧ items.Perm (x :: others) := by
  induction items generalizing others b with
  | nil => simp [takeOut] at taken
  | cons x rest ih =>
    cases accepted : f x with
    | some c =>
      simp only [takeOut, accepted, Option.some.injEq, Prod.mk.injEq] at taken
      obtain ⟨rfl, rfl⟩ := taken
      exact ⟨x, accepted, (lastFirst_perm rest).symm.cons x⟩
    | none =>
      simp only [takeOut, accepted, Option.map_eq_some_iff] at taken
      obtain ⟨⟨c, left⟩, found, same⟩ := taken
      obtain ⟨rfl, rfl⟩ := Prod.mk.inj same
      obtain ⟨y, accepts, permuted⟩ := ih found
      exact ⟨y, accepts, (permuted.cons x).trans (List.Perm.swap y x left)⟩

variable {items : List α} {merge : α → α → Option α}

/-- Nothing is taken out when no item is accepted. -/
theorem eq_none_of_takeOut {β : Type} {f : α → Option β}
    (refused : takeOut f items = none) : ∀ x ∈ items, f x = none := by
  induction items with
  | nil => simp
  | cons x rest ih =>
    cases accepted : f x with
    | some c => simp [takeOut, accepted] at refused
    | none =>
      simp only [takeOut, accepted, Option.map_eq_none_iff] at refused
      simpa [accepted] using ih refused

/-- One merge replaces two items by their merged one. -/
theorem mergeOnce_perm {items fewer : List α} (merged : mergeOnce merge items = some fewer) :
    ∃ x y c others, merge x y = some c ∧ items.Perm (x :: y :: others) ∧
      fewer.Perm (c :: others) := by
  induction items generalizing fewer with
  | nil => simp [mergeOnce] at merged
  | cons x rest ih =>
    cases taken : takeOut (merge x) rest with
    | some pair =>
      obtain ⟨c, others⟩ := pair
      simp only [mergeOnce, taken, Option.some.injEq] at merged
      obtain ⟨y, accepts, permuted⟩ := takeOut_perm taken
      exact ⟨x, y, c, others, accepts, permuted.cons x, merged ▸ List.Perm.refl _⟩
    | none =>
      simp only [mergeOnce, taken, Option.map_eq_some_iff] at merged
      obtain ⟨left, found, rfl⟩ := merged
      obtain ⟨y, z, c, others, accepts, before, after⟩ := ih found
      refine ⟨y, z, c, x :: others, accepts, ?_, (after.cons x).trans (List.Perm.swap c x _)⟩
      calc List.Perm (x :: rest) (x :: y :: z :: others) := before.cons x
        List.Perm _ (y :: x :: z :: others) := List.Perm.swap y x _
        List.Perm _ (y :: z :: x :: others) := (List.Perm.swap z x others).cons y

/-- A list in which nothing merges has no pair that merges. -/
theorem pairwise_of_mergeOnce (settled : mergeOnce merge items = none) :
    items.Pairwise fun x y => merge x y = none := by
  induction items with
  | nil => exact List.Pairwise.nil
  | cons x rest ih =>
    cases taken : takeOut (merge x) rest with
    | some pair => simp [mergeOnce, taken] at settled
    | none =>
      simp only [mergeOnce, taken, Option.map_eq_none_iff] at settled
      exact List.pairwise_cons.mpr ⟨eq_none_of_takeOut taken, ih settled⟩

/-- A property of lists that does not depend on their order, and that replacing two items by their
merged one keeps, is kept by all merges together. -/
theorem mergeAll_induction {motive : List α → Prop}
    (permuted : ∀ {items items' : List α}, items.Perm items' → motive items → motive items')
    (step : ∀ x y c others, merge x y = some c → motive (x :: y :: others) → motive (c :: others))
    (start : motive items) : motive (mergeAll merge items) := by
  suffices run : ∀ steps items, motive items → motive (mergeSteps merge steps items) from
    run _ items start
  intro steps
  induction steps with
  | zero => exact fun _ holds => holds
  | succ steps ih =>
    intro items holds
    cases merged : mergeOnce merge items with
    | none => simpa [mergeSteps, merged] using holds
    | some fewer =>
      obtain ⟨x, y, c, others, merges, before, after⟩ := mergeOnce_perm merged
      simpa [mergeSteps, merged] using
        ih fewer (permuted after.symm (step x y c others merges (permuted before holds)))

/-- What merging makes of two items of a kind is of that kind, and so is what it leaves in the
end. -/
theorem mem_mergeAll_of_keeps {merge : α → α → Option α} {P : α → Prop}
    (keeps : ∀ x y c, P x → P y → merge x y = some c → P c) {items : List α}
    (each : ∀ x ∈ items, P x) : ∀ x ∈ mergeAll merge items, P x := by
  refine mergeAll_induction (motive := fun merged => ∀ x ∈ merged, P x) ?_ ?_ each
  · exact fun perm each x mem => each x (perm.mem_iff.mpr mem)
  · simp only [List.forall_mem_cons]
    exact fun x y c others merges each => ⟨keeps x y c each.1 each.2.1 merges, each.2.2⟩

end Merging

open scoped Num.Linear

namespace Numbers

open NumberTy (literal ints reals all real range? intRange? Tame Valid has_ints has_literal
  has_reals)

variable {lo hi lo' hi' : Num} {a b c : NumberTy}

/-- Two whole numbers that differ by one are neighbouring integers. -/
theorem exists_succ_of_sub (finite : lo.isFinite = true) (wholeLo : lo.isWhole = true)
    (wholeHi : hi.isWhole = true) (step : hi.sub lo = 1) :
    ∃ n : ℤ, lo = .fin n ∧ hi = .fin ((n + 1 : ℤ) : ℚ) := by
  obtain rfl | rfl | ⟨n, rfl⟩ := Num.isWhole_iff.mp wholeLo
  · cases finite
  · cases finite
  · obtain rfl | rfl | ⟨m, rfl⟩ := Num.isWhole_iff.mp wholeHi
    · cases step
    · cases step
    · obtain rfl := Num.sub_intCast_eq_one_iff.mp step
      exact ⟨n, rfl, rfl⟩

/-- The lesser and the greater of two numbers are the two, unless one of them is none. -/
theorem lesser_greater_cases (x y : Num) :
    x.lesser y = x ∧ x.greater y = y ∨ x.lesser y = y ∧ x.greater y = x ∨
      x.lesser y = x.greater y := by
  unfold Num.lesser Num.greater
  split_ifs
  · exact .inr (.inr rfl)
  · exact .inr (.inr rfl)
  · rcases le_total x y with order | order
    · exact .inl ⟨min_eq_left order, max_eq_right order⟩
    · exact .inr (.inl ⟨min_eq_right order, max_eq_left order⟩)

/-- How a set replaces two others, whose order does not matter. -/
inductive Joins : NumberTy → NumberTy → NumberTy → Prop
  | same (a : NumberTy) : Joins a a a
  | all (b : NumberTy) : Joins all b all
  | nan : Joins (literal .nan) real .all
  | member {x : Num} {range : NumberTy} (has : range.has x = true) : Joins (literal x) range range
  | neighbours (n : ℤ) : Joins (literal (.fin n)) (literal (.fin ((n + 1 : ℤ) : ℚ)))
      (ints (.fin n) (.fin ((n + 1 : ℤ) : ℚ)))
  | below {x lo hi : Num} (whole : x.isWhole = true) (outside : ¬ (ints lo hi).has x = true)
      (step : x = lo.sub 1) : Joins (literal x) (ints lo hi) (ints x hi)
  | above {x lo hi : Num} (whole : x.isWhole = true) (outside : ¬ (ints lo hi).has x = true)
      (step : x = hi.add 1) : Joins (literal x) (ints lo hi) (ints lo x)
  | ints {lo hi lo' hi' : Num} (first : lo ≤ hi'.add 1) (second : lo' ≤ hi.add 1) :
      Joins (ints lo hi) (ints lo' hi') (.ints (min lo lo') (max hi hi'))
  | within {lo hi lo' hi' : Num}
      (bounds : ((reals lo' hi').has lo && (reals lo' hi').has hi) = true) :
      Joins (.ints lo hi) (reals lo' hi') (reals lo' hi')
  | reals {lo hi lo' hi' : Num} (first : lo ≤ hi') (second : lo' ≤ hi) :
      Joins (reals lo hi) (reals lo' hi') (.reals (min lo lo') (max hi hi'))

theorem joins_of_joinLiteral {x : Num} {range c : NumberTy}
    (joined : joinLiteral x range = some c) : Joins (literal x) range c := by
  unfold joinLiteral at joined
  split at joined
  · next nan =>
    rw [Option.ite_none_right_eq_some, Option.some.injEq] at joined
    obtain ⟨rfl, rfl⟩ := joined
    exact Num.isNan_eq_true_iff.mp nan ▸ .nan
  · split at joined
    · next has => exact Option.some.inj joined ▸ .member has
    · next outside =>
      cases range with
      | ints lo hi =>
        rw [Option.ite_none_right_eq_some, Bool.and_eq_true] at joined
        obtain ⟨⟨-, whole⟩, joined⟩ := joined
        split at joined
        · next below => exact Option.some.inj joined ▸ .below whole outside below
        · rw [Option.ite_none_right_eq_some, Option.some.injEq] at joined
          exact joined.2 ▸ .above whole outside joined.1
      | _ => cases joined

theorem joins_of_join (joined : join a b = some c) : Joins a b c ∨ Joins b a c := by
  unfold join at joined
  split at joined
  · next same => exact same ▸ Option.some.inj joined ▸ .inl (.same a)
  · split at joined
    · exact Option.some.inj joined ▸ .inl (.all _)
    · exact Option.some.inj joined ▸ .inr (.all _)
    · next x y _ =>
      simp only [Option.ite_none_right_eq_some, Bool.and_eq_true, decide_eq_true_eq,
        Option.some.injEq] at joined
      obtain ⟨⟨⟨⟨⟨finite, _⟩, wholeLo⟩, wholeHi⟩, step⟩, rfl⟩ := joined
      obtain ⟨n, lesser, greater⟩ := exists_succ_of_sub finite wholeLo wholeHi step
      rcases lesser_greater_cases x y with ⟨first, second⟩ | ⟨first, second⟩ | same
      · obtain ⟨rfl, rfl⟩ := And.intro (first.symm.trans lesser) (second.symm.trans greater)
        rw [lesser, greater]
        exact .inl (.neighbours n)
      · obtain ⟨rfl, rfl⟩ := And.intro (first.symm.trans lesser) (second.symm.trans greater)
        rw [lesser, greater]
        exact .inr (.neighbours n)
      · simp [same, greater] at lesser
    · exact .inl (joins_of_joinLiteral joined)
    · exact .inr (joins_of_joinLiteral joined)
    · rw [Option.ite_none_right_eq_some, Option.some.injEq] at joined
      exact joined.2 ▸ .inl (.ints joined.1.1 joined.1.2)
    · rw [Option.ite_none_right_eq_some, Option.some.injEq] at joined
      exact joined.2 ▸ .inl (.within joined.1)
    · rw [Option.ite_none_right_eq_some, Option.some.injEq] at joined
      exact joined.2 ▸ .inr (.within joined.1)
    · rw [Option.ite_none_right_eq_some, Option.some.injEq] at joined
      exact joined.2 ▸ .inl (.reals joined.1.1 joined.1.2)

theorem has_ints_union (tame : (ints lo hi).Tame) (tame' : (ints lo' hi').Tame)
    (first : lo ≤ hi'.add 1) (second : lo' ≤ hi.add 1) (v : Num) :
    (ints (min lo lo') (max hi hi')).has v = true ↔
      (ints lo hi).has v = true ∨ (ints lo' hi').has v = true := by
  obtain ⟨_, wholeHi, _, _, up⟩ := tame
  obtain ⟨_, wholeHi', _, _, up'⟩ := tame'
  simp only [has_ints, min_le_iff, le_max_iff]
  constructor
  · rintro ⟨whole, low | low, high | high⟩
    · exact .inl ⟨whole, low, high⟩
    · by_cases inside : v ≤ hi
      · exact .inl ⟨whole, low, inside⟩
      · have next := Num.add_one_le_of_lt wholeHi whole up (not_le.mp inside)
        exact .inr ⟨whole, second.trans next, high⟩
    · by_cases inside : v ≤ hi'
      · exact .inr ⟨whole, low, inside⟩
      · have next := Num.add_one_le_of_lt wholeHi' whole up' (not_le.mp inside)
        exact .inl ⟨whole, first.trans next, high⟩
    · exact .inr ⟨whole, low, high⟩
  · rintro (⟨whole, low, high⟩ | ⟨whole, low, high⟩)
    · exact ⟨whole, .inl low, .inl high⟩
    · exact ⟨whole, .inr low, .inr high⟩

theorem has_reals_union (first : lo ≤ hi') (second : lo' ≤ hi) (v : Num) :
    (reals (min lo lo') (max hi hi')).has v = true ↔
      (reals lo hi).has v = true ∨ (reals lo' hi').has v = true := by
  simp only [has_reals, min_le_iff, le_max_iff]
  constructor
  · rintro ⟨low | low, high | high⟩
    · exact .inl ⟨low, high⟩
    · rcases le_total v hi with inside | outside
      · exact .inl ⟨low, inside⟩
      · exact .inr ⟨second.trans outside, high⟩
    · rcases le_total v hi' with inside | outside
      · exact .inr ⟨low, inside⟩
      · exact .inl ⟨first.trans outside, high⟩
    · exact .inr ⟨low, high⟩
  · rintro (⟨low, high⟩ | ⟨low, high⟩)
    · exact ⟨.inl low, .inl high⟩
    · exact ⟨.inr low, .inr high⟩

/-- The whole range of two neighbouring integers has just these. -/
theorem neighbours_exact {n : ℤ} (small : (Num.fin n).Small)
    (next : (Num.fin ((n + 1 : ℤ) : ℚ)).Small) :
    (ints (.fin n) (.fin ((n + 1 : ℤ) : ℚ))).Tame ∧
      ∀ v, (ints (.fin n) (.fin ((n + 1 : ℤ) : ℚ))).has v = true ↔
        v = .fin n ∨ v = .fin ((n + 1 : ℤ) : ℚ) := by
  refine ⟨⟨Num.isWhole_intCast n, Num.isWhole_intCast _, by simp, (Num.small_iff.mp small).2,
    (Num.small_iff.mp next).1⟩, fun v => ?_⟩
  rw [has_ints]
  constructor
  · rintro ⟨whole, low, high⟩
    obtain rfl | rfl | ⟨m, rfl⟩ := Num.isWhole_iff.mp whole
    · simp at low
    · simp at high
    · simp only [Num.fin_le_fin, Int.cast_le, Num.fin.injEq, Int.cast_inj] at low high ⊢
      omega
  · rintro (rfl | rfl)
    · exact ⟨Num.isWhole_intCast n, le_refl _, by simp⟩
    · exact ⟨Num.isWhole_intCast _, by simp, le_refl _⟩

/-- The number before a whole range makes it longer by just this one. -/
theorem ints_below_exact {x : Num} (small : x.Small) (tame : (ints lo hi).Tame)
    (whole : x.isWhole = true) (step : x = lo.sub 1) :
    (ints x hi).Tame ∧
      ∀ v, (ints x hi).has v = true ↔ (literal x).has v = true ∨ (ints lo hi).has v = true := by
  obtain ⟨wholeLo, wholeHi, order, down, up⟩ := tame
  have lower : x ≤ lo := step ▸ Num.sub_one_le wholeLo down
  refine ⟨⟨whole, wholeHi, lower.trans_lt order, (Num.small_iff.mp small).2, up⟩, fun v => ?_⟩
  simp only [has_ints, has_literal]
  constructor
  · rintro ⟨wholeV, low, high⟩
    rcases eq_or_lt_of_le low with same | less
    · exact .inl same.symm
    · refine .inr ⟨wholeV, not_lt.mp fun under => ?_, high⟩
      have reached := Num.le_sub_one_of_lt wholeLo wholeV down under
      exact absurd (step ▸ reached) (not_le.mpr less)
  · rintro (rfl | ⟨wholeV, low, high⟩)
    · exact ⟨whole, le_refl v, lower.trans order.le⟩
    · exact ⟨wholeV, lower.trans low, high⟩

/-- The number after a whole range makes it longer by just this one. -/
theorem ints_above_exact {x : Num} (small : x.Small) (tame : (ints lo hi).Tame)
    (whole : x.isWhole = true) (step : x = hi.add 1) :
    (ints lo x).Tame ∧
      ∀ v, (ints lo x).has v = true ↔ (literal x).has v = true ∨ (ints lo hi).has v = true := by
  obtain ⟨wholeLo, wholeHi, order, down, up⟩ := tame
  have upper : hi ≤ x := step ▸ Num.le_add_one wholeHi up
  refine ⟨⟨wholeLo, whole, order.trans_le upper, down, (Num.small_iff.mp small).1⟩, fun v => ?_⟩
  simp only [has_ints, has_literal]
  constructor
  · rintro ⟨wholeV, low, high⟩
    rcases eq_or_lt_of_le high with same | less
    · exact .inl same
    · refine .inr ⟨wholeV, low, not_lt.mp fun beyond => ?_⟩
      have reached := Num.add_one_le_of_lt wholeHi wholeV up beyond
      exact absurd (step ▸ reached) (not_le.mpr less)
  · rintro (rfl | ⟨wholeV, low, high⟩)
    · exact ⟨whole, order.le.trans upper, le_refl v⟩
    · exact ⟨wholeV, low, high.trans upper⟩

/-- A whole range whose bounds are in a range is in that range. -/
theorem has_reals_of_ints (bounds : ((reals lo' hi').has lo && (reals lo' hi').has hi) = true)
    {v : Num} (has : (ints lo hi).has v = true) : (reals lo' hi').has v = true := by
  rw [Bool.and_eq_true, has_reals, has_reals] at bounds
  rw [has_ints] at has
  exact has_reals.mpr ⟨bounds.1.1.trans has.2.1, has.2.2.trans bounds.2.2⟩

theorem Joins.exact (joins : Joins a b c) (tameA : a.Tame) (tameB : b.Tame) :
    c.Tame ∧ ∀ v, c.has v = true ↔ a.has v = true ∨ b.has v = true := by
  cases joins with
  | same => exact ⟨tameA, fun v => or_self_iff.symm⟩
  | all => exact ⟨trivial, fun v => by simp⟩
  | nan => exact ⟨trivial, fun v => by simpa [has_real_iff] using em (v = .nan)⟩
  | member has =>
    exact ⟨tameB, fun v => ⟨.inr, Or.rec (fun same => has_literal.mp same ▸ has) id⟩⟩
  | neighbours n =>
    obtain ⟨tame, members⟩ := neighbours_exact tameA tameB
    exact ⟨tame, fun v => by rw [members, has_literal, has_literal]⟩
  | below whole outside step => exact ints_below_exact tameA tameB whole step
  | above whole outside step => exact ints_above_exact tameA tameB whole step
  | ints first second =>
    refine ⟨?_, has_ints_union tameA tameB first second⟩
    obtain ⟨wholeLo, wholeHi, order, down, up⟩ := tameA
    obtain ⟨wholeLo', wholeHi', _, down', up'⟩ := tameB
    exact ⟨min_cases (motive := fun x => x.isWhole = true) wholeLo wholeLo',
      max_cases (motive := fun x => x.isWhole = true) wholeHi wholeHi',
      (min_le_left _ _).trans_lt (order.trans_le (le_max_left _ _)),
      min_cases down down', max_cases up up'⟩
  | within bounds => exact ⟨tameB, fun v => ⟨.inr, Or.rec (has_reals_of_ints bounds) id⟩⟩
  | reals first second =>
    refine ⟨?_, has_reals_union first second⟩
    obtain ⟨number, order, smallLo, smallHi⟩ := tameA
    obtain ⟨number', _, smallLo', smallHi'⟩ := tameB
    exact ⟨max_cases (motive := (· ≠ .nan)) number number',
      (min_le_left _ _).trans_lt (order.trans_le (le_max_left _ _)),
      min_cases smallLo smallLo', max_cases smallHi smallHi'⟩

/-- Two sets that join are replaced by a tame set of exactly their numbers. -/
theorem join_exact (tameA : a.Tame) (tameB : b.Tame) (joined : join a b = some c) :
    c.Tame ∧ ∀ v, c.has v = true ↔ a.has v = true ∨ b.has v = true := by
  rcases joins_of_join joined with joins | joins
  · exact joins.exact tameA tameB
  · simpa only [or_comm] using joins.exact tameB tameA

end Numbers
end TypeFlow
