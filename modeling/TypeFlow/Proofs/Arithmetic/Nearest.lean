import TypeFlow.Proofs.Arithmetic.Commuting

/-!
# Nearest whole numbers

Rounding a number is specified by distance: the result is a whole number at most a half away, and
of two such numbers the one farther from zero. Rounding a type loses no rounded number. What it
gives consists of whole sets and perhaps `nan`; on these rounding does nothing, and their union is
settled, so rounding twice is rounding once.
-/

namespace TypeFlow

open List
open scoped Num.Linear

theorem Ty.ofMembers_congr {items items' : List Ty} (same : ∀ t, t ∈ items ↔ t ∈ items') :
    ofMembers items = ofMembers items' := by
  have sorted : Sorted.ofList Ty.compare items = Sorted.ofList Ty.compare items' :=
    Sorted.ofList_congr same
  rw [ofMembers, ofMembers, sorted]

namespace Num

/-- A whole number nearest to `q`, the one farther from zero where there are two. -/
structure Nearest (q : ℚ) (n : ℤ) : Prop where
  close : |q - n| ≤ 1 / 2
  away : |q - n| = 1 / 2 → |q| < |(n : ℚ)|

/-- Finite numbers round to a nearest whole one, and the others stay as they are. -/
inductive RoundsTo : Num → Num → Prop
  | finite {q : ℚ} {n : ℤ} (nearest : Nearest q n) : RoundsTo (fin q) (fin n)
  | other {x : Num} (unbounded : x.isFinite = false) : RoundsTo x x

namespace Nearest

variable {p q : ℚ} {n m : ℤ}

theorem low (nearest : Nearest q n) : (n : ℚ) - 1 / 2 ≤ q := by
  linarith [(abs_le.mp nearest.close).1]

theorem high (nearest : Nearest q n) : q ≤ n + 1 / 2 := by
  linarith [(abs_le.mp nearest.close).2]

/-- No number is nearest to both of two neighbours: halfway between them, one of them is nearer to
zero. -/
theorem not_succ (nearest : Nearest q n) (next : Nearest q (n + 1)) : False := by
  have half : q = n + 1 / 2 := by
    have above := next.low
    push_cast at above
    linarith [nearest.high]
  have below := nearest.away (by rw [half]; norm_num)
  have above := next.away (by rw [half]; push_cast; norm_num)
  rw [half] at below above
  push_cast at below above
  rcases le_or_gt 0 n with sign | sign
  · have positive : (0 : ℚ) ≤ n := by exact_mod_cast sign
    rw [abs_of_nonneg positive, abs_of_nonneg (by linarith)] at below
    linarith
  · have negative : (n : ℚ) + 1 ≤ 0 := by exact_mod_cast sign
    rw [abs_of_nonpos negative, abs_of_nonpos (by linarith)] at above
    linarith

theorem mono (nearest : Nearest p n) (nearest' : Nearest q m) (le : p ≤ q) : n ≤ m := by
  by_contra greater
  have step : (m : ℚ) + 1 ≤ n := by exact_mod_cast not_le.mp greater
  have low := nearest.low
  have high := nearest'.high
  have same : p = q := by linarith
  have next : n = m + 1 := by exact_mod_cast (by linarith : (n : ℚ) = m + 1)
  subst same next
  exact nearest'.not_succ nearest

theorem unique (nearest : Nearest q n) (nearest' : Nearest q m) : n = m :=
  le_antisymm (nearest.mono nearest' le_rfl) (nearest'.mono nearest le_rfl)

theorem intCast (n : ℤ) : Nearest n n where
  close := by norm_num
  away tie := by norm_num at tie

/-- Rounding stays within the bound of the whole doubles. -/
theorem natAbs_le (nearest : Nearest q n) (bound : |q| ≤ 2 ^ 53) : n.natAbs ≤ 2 ^ 53 := by
  obtain ⟨lower, upper⟩ := abs_le.mp bound
  have low : (-2 ^ 53 - 1 : ℚ) < n := by linarith [nearest.high]
  have high : (n : ℚ) < 2 ^ 53 + 1 := by linarith [nearest.low]
  have below : -2 ^ 53 - 1 < n := by exact_mod_cast low
  have above : n < 2 ^ 53 + 1 := by exact_mod_cast high
  omega

end Nearest

/-- Half a unit away from zero and then cut off, a number becomes a nearest whole one. -/
theorem exists_nearest (q : ℚ) : ∃ n : ℤ, (fin q).round = fin n ∧ Nearest q n := by
  refine ⟨_, rfl, ?_⟩
  split
  · next negative =>
    have above : q - 1 / 2 ≤ (q - 1 / 2).ceil := Rat.le_ceil
    have below : ((q - 1 / 2).ceil : ℚ) < q - 1 / 2 + 1 := Rat.ceil_lt
    refine ⟨abs_le.mpr ⟨by linarith, by linarith⟩, fun tie => ?_⟩
    rcases abs_eq (by norm_num) |>.mp tie with half | half
    · rw [abs_of_neg negative, abs_of_neg (by linarith)]
      linarith
    · linarith
  · next positive =>
    have below : ((q + 1 / 2).floor : ℚ) ≤ q + 1 / 2 := Rat.floor_le _
    have above : q + 1 / 2 < (q + 1 / 2).floor + 1 := by exact_mod_cast Rat.lt_floor_add_one _
    rw [not_lt] at positive
    refine ⟨abs_le.mpr ⟨by linarith, by linarith⟩, fun tie => ?_⟩
    rcases abs_eq (by norm_num) |>.mp tie with half | half
    · linarith
    · rw [abs_of_nonneg positive, abs_of_nonneg (by linarith)]
      linarith

variable {x y : Num}

theorem roundsTo_iff : x.RoundsTo y ↔ y = x.round := by
  constructor
  · intro rounds
    cases rounds with
    | @finite q n nearest =>
      obtain ⟨m, rounded, nearest'⟩ := exists_nearest q
      rw [rounded, nearest.unique nearest']
    | other unbounded =>
      cases x with
      | fin q => cases unbounded
      | _ => rfl
  · rintro rfl
    cases x with
    | fin q =>
      obtain ⟨n, rounded, nearest⟩ := exists_nearest q
      exact rounded ▸ .finite nearest
    | _ => exact .other rfl

theorem round_of_isWhole (whole : x.isWhole = true) : x.round = x := by
  obtain rfl | rfl | ⟨n, rfl⟩ := isWhole_iff.mp whole
  · rfl
  · rfl
  · exact (roundsTo_iff.mp (.finite (Nearest.intCast n))).symm

theorem isWhole_round (number : x ≠ nan) : x.round.isWhole = true := by
  cases x with
  | fin q => exact isWhole_intCast _
  | nan => exact absurd rfl number
  | _ => rfl

theorem round_eq_nan_iff : x.round = nan ↔ x = nan := by
  cases x <;> simp [round, ofInt]

theorem round_mono (le : x ≤ y) : x.round ≤ y.round := by
  cases x with
  | negInf => exact negInf_le _
  | fin p =>
    cases y with
    | fin q =>
      obtain ⟨n, roundedP, nearest⟩ := exists_nearest p
      obtain ⟨m, roundedQ, nearest'⟩ := exists_nearest q
      rw [roundedP, roundedQ, fin_le_fin, Int.cast_le]
      exact nearest.mono nearest' (fin_le_fin.mp le)
    | negInf => cases le_negInf_iff.mp le
    | posInf => exact le_posInf_iff.mpr (by simp [round, ofInt])
    | nan => exact le_nan _
  | posInf =>
    rcases posInf_le_iff.mp le with rfl | rfl
    · exact le
    · exact le_nan _
  | nan =>
    rw [nan_le_iff.mp le]

theorem isDouble_round_of_small (small : x.Small) : x.round.IsDouble := by
  cases x with
  | fin q =>
    obtain ⟨n, rounded, nearest⟩ := exists_nearest q
    rw [rounded]
    exact isDouble_intCast (nearest.natAbs_le (abs_le.mpr ⟨small.1.le, small.2.le⟩))
  | _ => trivial

/-- A double rounds to a double, since a great one is whole already. -/
theorem isDouble_round (double : x.IsDouble) : x.round.IsDouble := by
  cases x with
  | fin q =>
    rcases le_or_gt |q| (2 ^ 53) with bound | large
    · obtain ⟨n, rounded, nearest⟩ := exists_nearest q
      exact rounded ▸ isDouble_intCast (nearest.natAbs_le bound)
    · obtain ⟨n, rfl⟩ := exists_int_of_isDouble double large.le
      rwa [round_of_isWhole (isWhole_intCast n)]
  | _ => trivial

end Num

section Settled

variable {α : Type} {merge : α → α → Option α}

theorem takeOut_eq_none {β : Type} {f : α → Option β} {items : List α}
    (refused : ∀ x ∈ items, f x = none) : takeOut f items = none := by
  induction items with
  | nil => rfl
  | cons x rest ih =>
    obtain ⟨first, others⟩ := forall_mem_cons.mp refused
    simp only [takeOut, first, ih others, Option.map_none]

theorem mergeOnce_eq_none {items : List α} (settled : items.Pairwise fun x y => merge x y = none) :
    mergeOnce merge items = none := by
  induction items with
  | nil => rfl
  | cons x rest ih =>
    obtain ⟨first, others⟩ := pairwise_cons.mp settled
    simp only [mergeOnce, takeOut_eq_none first, ih others, Option.map_none]

theorem mergeAll_eq_self {items : List α} (settled : items.Pairwise fun x y => merge x y = none) :
    mergeAll merge items = items := by
  cases items with
  | nil => rfl
  | cons x rest =>
    simp only [mergeAll, length_cons, mergeSteps, mergeOnce_eq_none settled]

end Settled

namespace NumberTy

/-- What rounding leaves: whole numbers only, or `nan` alone. -/
def Rounded (n : NumberTy) : Prop := n = literal .nan ∨ n.isWhole = true

theorem rounded_literal {v : Num} : (literal v).Rounded ↔ v = .nan ∨ v.isWhole = true := by
  simp [Rounded, isWhole]

theorem rounded_ints (min max : Num) : (ints min max).Rounded := .inr rfl

theorem not_rounded_reals (min max : Num) : ¬ (reals min max).Rounded := by
  simp [Rounded, isWhole]

theorem not_rounded_all : ¬ all.Rounded := by
  simp [Rounded, isWhole]

theorem rounded_of_intRange? {a b : Num} {c : NumberTy} (range : intRange? a b = some c) :
    c.Rounded := by
  obtain ⟨number, -, ⟨-, rfl⟩ | ⟨-, rfl⟩⟩ := intRange?_cases range
  · exact rounded_literal.mpr (.inr (Num.isWhole_ceil number))
  · exact rounded_ints _ _

end NumberTy

namespace Numbers

open NumberTy (literal ints reals all Rounded)

theorem Joins.rounded {a b c : NumberTy} (joins : Joins a b c) (roundedA : a.Rounded)
    (roundedB : b.Rounded) : c.Rounded := by
  cases joins with
  | same => exact roundedA
  | all => exact absurd roundedA NumberTy.not_rounded_all
  | nan | reals => exact absurd roundedB (NumberTy.not_rounded_reals _ _)
  | member | within => exact roundedB
  | _ => exact NumberTy.rounded_ints _ _

/-- Rounded sets join to a rounded one. -/
theorem rounded_of_join {a b c : NumberTy} (roundedA : a.Rounded) (roundedB : b.Rounded)
    (joined : join a b = some c) : c.Rounded := by
  rcases joins_of_join joined with joins | joins
  · exact joins.rounded roundedA roundedB
  · exact joins.rounded roundedB roundedA

section Union

variable {items : List NumberTy} (rounded : ∀ n ∈ items, n.Rounded)
include rounded

theorem rounded_of_mem_mergeAll :
    ∀ n ∈ mergeAll join (Sorted.ofList NumberTy.compare items), n.Rounded :=
  mem_mergeAll_of_keeps (fun _ _ _ roundedA roundedB => rounded_of_join roundedA roundedB)
    (by simpa using rounded)

/-- Among rounded sets no range has numbers between whole ones, so nothing is trimmed. -/
theorem unionMembers_of_rounded :
    unionMembers items = mergeAll join (Sorted.ofList NumberTy.compare items) := by
  have proper : ¬ items.contains all = true := fun full =>
    NumberTy.not_rounded_all (rounded _ (contains_iff_mem.mp full))
  have ranges : (mergeAll join (Sorted.ofList NumberTy.compare items)).filter isReals = [] := by
    refine filter_eq_nil_iff.mpr fun n mem => ?_
    cases n with
    | reals lo hi =>
      exact absurd (rounded_of_mem_mergeAll rounded _ mem) (NumberTy.not_rounded_reals lo hi)
    | _ => simp [isReals]
  have untrimmed : trim [] = fun n => [n] := by
    funext n
    simp [trim]
  rw [unionMembers, if_neg proper]
  simp only [ranges, untrimmed, flatMap_singleton']

theorem rounded_of_mem_unionMembers : ∀ n ∈ unionMembers items, n.Rounded := by
  rw [unionMembers_of_rounded rounded]
  exact rounded_of_mem_mergeAll rounded

/-- The union of the members of a union has the same members again. -/
theorem mem_unionMembers_unionMembers (p : NumberTy) :
    p ∈ unionMembers (unionMembers items) ↔ p ∈ unionMembers items := by
  have separate : ∀ n ∈ unionMembers items, ∀ m ∈ unionMembers items, n ≠ m → join n m = none := by
    have : Std.Symm fun m n : NumberTy => join m n = none :=
      ⟨fun m n separate => (join_comm n m).trans separate⟩
    rw [unionMembers_of_rounded rounded]
    intro n memN m memM
    exact (pairwise_of_mergeOnce (mergeOnce_mergeAll join _)).forall memN memM
  rw [unionMembers_of_rounded (rounded_of_mem_unionMembers rounded), mergeAll_eq_self,
    Sorted.mem_ofList]
  refine (Sorted.increasing_ofList (unionMembers items)).imp_of_mem fun {n m} memN memM less => ?_
  refine separate n (Sorted.mem_ofList.mp memN) m (Sorted.mem_ofList.mp memM) ?_
  rintro rfl
  have equal : NumberTy.compare n n = .eq := Std.ReflCmp.compare_self
  rw [equal] at less
  cases less

end Union

end Numbers

namespace Arithmetic

open NumberTy (literal ints reals all intRange? Rounded)
open Numbers (Covers)

theorem intRange?_infinite : intRange? .negInf .posInf = some (ints .negInf .posInf) := by
  decide

theorem roundNumber_all : roundNumber all = Numbers.union [ints .negInf .posInf, literal .nan] := by
  rw [roundNumber, intRange?_infinite]
  rfl

theorem rounded_of_mem_roundNumber (n : NumberTy) : ∀ p ∈ roundNumber n, p.Rounded := by
  intro p mem
  cases n with
  | literal v =>
    rw [mem_singleton.mp mem, NumberTy.rounded_literal, Num.round_eq_nan_iff]
    exact or_iff_not_imp_left.mpr Num.isWhole_round
  | ints lo hi =>
    rw [mem_singleton.mp mem]
    exact NumberTy.rounded_ints lo hi
  | reals lo hi =>
    exact NumberTy.rounded_of_intRange? (Option.mem_toList.mp mem)
  | all =>
    rw [roundNumber_all, Numbers.union, Sorted.mem_ofList] at mem
    refine Numbers.rounded_of_mem_unionMembers ?_ p mem
    simp [Rounded, NumberTy.isWhole]

theorem roundNumber_of_rounded {n : NumberTy} (rounded : n.Rounded) : roundNumber n = [n] := by
  cases n with
  | literal v =>
    rcases NumberTy.rounded_literal.mp rounded with rfl | whole
    · rfl
    · rw [roundNumber, Num.round_of_isWhole whole]
  | ints lo hi => rfl
  | reals lo hi => exact absurd rounded (NumberTy.not_rounded_reals lo hi)
  | all => exact absurd rounded NumberTy.not_rounded_all

theorem held_of_mem_roundNumber {n : NumberTy} (valid : n.Valid) (small : n.Small) :
    ∀ p ∈ roundNumber n, p.Held := by
  intro p mem
  cases n with
  | literal v =>
    rw [mem_singleton.mp mem]
    exact NumberTy.held_literal.mpr (Num.isDouble_round_of_small small)
  | ints lo hi =>
    rw [mem_singleton.mp mem]
    exact ⟨valid, Num.isDouble_of_isWhole valid.1 small.1,
      Num.isDouble_of_isWhole valid.2.1 small.2⟩
  | reals lo hi =>
    exact NumberTy.held_of_intRange? (Num.isDouble_round_of_small small.1)
      (Num.isDouble_round_of_small small.2) (Option.mem_toList.mp mem)
  | all =>
    rw [roundNumber_all] at mem
    refine Numbers.held_of_mem_union ?_ mem
    decide

theorem covers_roundNumber {n : NumberTy} (valid : n.Valid) {x : Num} (double : x.IsDouble)
    (has : n.has x = true) : Covers (roundNumber n) x.round := by
  cases n with
  | literal v =>
    obtain rfl := NumberTy.has_literal.mp has
    exact ⟨_, mem_singleton_self _, NumberTy.has_literal.mpr rfl⟩
  | ints lo hi =>
    rw [Num.round_of_isWhole (NumberTy.has_ints.mp has).1]
    exact ⟨_, mem_singleton_self _, has⟩
  | reals lo hi =>
    obtain ⟨numberHi, less⟩ := valid
    obtain ⟨low, high⟩ := NumberTy.has_reals.mp has
    have number : x ≠ .nan := NumberTy.ne_nan_of_le numberHi high
    have numberLo : lo ≠ .nan := NumberTy.ne_nan_of_le number low
    obtain ⟨c, range, hasC⟩ := (NumberTy.has_intRange? (Num.round_eq_nan_iff.not.mpr numberLo)
      (Num.round_eq_nan_iff.not.mpr numberHi) x.round).mpr
        ⟨Num.isWhole_round number, Num.round_mono low, Num.round_mono high⟩
    exact ⟨c, Option.mem_toList.mpr range, hasC⟩
  | all =>
    rw [roundNumber_all]
    refine Numbers.covers_union (by decide) (Num.isDouble_round double) ?_
    by_cases nan : x = .nan
    · subst nan
      exact ⟨literal .nan, by simp, rfl⟩
    · refine ⟨ints .negInf .posInf, by simp, NumberTy.has_ints.mpr ⟨Num.isWhole_round nan, ?_, ?_⟩⟩
      · exact Num.negInf_le _
      · exact Num.le_posInf_iff.mpr (Num.round_eq_nan_iff.not.mpr nan)

theorem rounded_of_mem_flatMap {sets : List NumberTy} :
    ∀ n ∈ sets.flatMap roundNumber, n.Rounded := by
  intro n mem
  obtain ⟨m, -, piece⟩ := mem_flatMap.mp mem
  exact rounded_of_mem_roundNumber m n piece

theorem rounded_of_mem_operands_round {a : Ty} : ∀ n ∈ operands a.round, n.Rounded := by
  intro n mem
  rw [Ty.round, lift₁, mem_operands_ofNumbers, Numbers.union, Sorted.mem_ofList] at mem
  exact Numbers.rounded_of_mem_unionMembers rounded_of_mem_flatMap n mem

/-- A type of rounded sets is the type of its members. -/
theorem ofNumbers_operands {items : List NumberTy} (rounded : ∀ n ∈ items, n.Rounded) :
    Ty.ofNumbers (operands (Ty.ofNumbers items)) = Ty.ofNumbers items := by
  have members : ∀ n, n ∈ operands (Ty.ofNumbers items) ↔ n ∈ Numbers.unionMembers items := by
    intro n
    rw [mem_operands_ofNumbers, Numbers.union, Sorted.mem_ofList]
  rw [Ty.ofNumbers_congr members]
  refine Ty.ofMembers_congr fun t => ?_
  simp only [mem_map, Numbers.mem_unionMembers_unionMembers rounded]

theorem number_mem_round {a : Ty} (operand : Operand a) {x : Num} (double : x.IsDouble)
    (mem : Value.number x ∈ a) : Value.number x.round ∈ a.round := by
  obtain ⟨n, memN, has⟩ := (number_mem_iff operand.wellFormed).mp mem
  refine number_mem_ofNumbers (fun p piece => ?_) (Num.isDouble_round double) ?_
  · obtain ⟨m, memM, piece⟩ := mem_flatMap.mp piece
    exact held_of_mem_roundNumber (operand.valid m memM) (operand.small m memM) p piece
  · exact (covers_roundNumber (operand.valid n memN) double has).mono fun p piece =>
      mem_flatMap.mpr ⟨n, memN, piece⟩

theorem round_round (a : Ty) : a.round.round = a.round := by
  have same : (operands a.round).flatMap roundNumber = operands a.round := by
    rw [flatMap_congr fun n mem =>
      roundNumber_of_rounded (rounded_of_mem_operands_round n mem)]
    exact flatMap_singleton' _
  calc a.round.round = Ty.ofNumbers ((operands a.round).flatMap roundNumber) := rfl
    _ = Ty.ofNumbers (operands a.round) := by rw [same]
    _ = a.round := ofNumbers_operands rounded_of_mem_flatMap

/-- Rounding a type keeps every rounded number, leaves whole sets and perhaps `nan`, and does
nothing when repeated. -/
theorem round_sound_idempotent (a : Ty) :
    (Operand a → ∀ x y : Num, x.IsDouble → x.RoundsTo y → Value.number x ∈ a →
        Value.number y ∈ a.round) ∧
      (∀ t ∈ a.round.members, ∃ n, t = .number n ∧ (n = literal .nan ∨ n.isWhole = true)) ∧
      a.round.round = a.round := by
  refine ⟨fun operand x y double rounds mem => ?_, fun t mem => ?_, round_round a⟩
  · rw [Num.roundsTo_iff.mp rounds]
    exact number_mem_round operand double mem
  · obtain ⟨n, memN, rfl⟩ := mem_members_ofNumbers.mp mem
    exact ⟨n, rfl, rounded_of_mem_operands_round n (mem_operands_ofNumbers.mpr memN)⟩

/-- Halves go away from zero on both sides of a range, and `nan` stays beside it. -/
theorem round_sound_idempotent_halves :
    let a := Ty.union [.number (literal .nan), .number (reals (.fin (-5 / 2)) (.fin (7 / 2)))]
    Operand a ∧ Value.number (.fin (-3)) ∈ a.round ∧ Value.number (.fin 4) ∈ a.round ∧
      a.round = .union [.number (literal .nan), .number (ints (.fin (-3)) (.fin 4))] := by
  intro a
  have operand : Operand a := ⟨by decide +kernel, by decide +kernel⟩
  obtain ⟨sound, -, -⟩ := round_sound_idempotent a
  have low : Num.Nearest (-5 / 2) (-3) := ⟨by norm_num [abs_le], by norm_num [abs_lt]⟩
  have high : Num.Nearest (7 / 2) 4 := ⟨by norm_num [abs_le], by norm_num⟩
  exact ⟨operand, sound operand _ _ (by decide +kernel) (.finite low) (by decide +kernel),
    sound operand _ _ (by decide +kernel) (.finite high) (by decide +kernel), by decide +kernel⟩

end Arithmetic

end TypeFlow
