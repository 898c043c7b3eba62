import TypeFlow.Arithmetic
import TypeFlow.Proofs.Num.Enclosure
import TypeFlow.Proofs.Num.Extended
import TypeFlow.Proofs.Values

/-!
# What arithmetic on types covers

An operation on two number types either computes all pairs or builds a range from candidates. The
range covers a result as soon as there are candidates on both sides of it, so an operation is
sound when its candidates bracket its results. Unions lose no double, so what an operation covers
on two members it covers on the types.
-/

namespace TypeFlow

open List
open scoped Num.Linear

theorem foldl_min_spec {α : Type} [LinearOrder α] (rest : List α) (first : α) :
    rest.foldl min first ∈ first :: rest ∧ ∀ c ∈ first :: rest, rest.foldl min first ≤ c := by
  induction rest generalizing first with
  | nil => simp
  | cons x rest ih =>
    obtain ⟨found, least⟩ := ih (min first x)
    rw [foldl_cons]
    constructor
    · rcases mem_cons.mp found with same | later
      · rw [same]
        rcases min_choice first x with left | right
        · simp [left]
        · simp [right]
      · exact mem_cons_of_mem _ (mem_cons_of_mem _ later)
    · intro c mem
      have start := least _ mem_cons_self
      simp only [mem_cons] at mem
      rcases mem with rfl | rfl | mem
      · exact start.trans (min_le_left _ _)
      · exact start.trans (min_le_right _ _)
      · exact least c (mem_cons_of_mem _ mem)

namespace Arithmetic

open NumberTy (literal ints reals all range? intRange?)
open Numbers (Covers)

/-- The bounds of a set. -/
def boundsOf (n : NumberTy) : Bounds := ⟨n.min, n.max, n.isWhole⟩

theorem bounds?_eq (n : NumberTy) : bounds? n = if n.isNan then none else some (boundsOf n) := by
  cases n <;> rfl

variable {n : NumberTy} {candidates : List Num} {whole : Bool}

theorem isNan_eq_true_iff : n.isNan = true ↔ n = literal .nan := by
  cases n <;> simp [NumberTy.isNan, Num.isNan_eq_true_iff]

theorem bounds?_of_ne (proper : n ≠ literal .nan) : bounds? n = some (boundsOf n) := by
  rw [bounds?_eq, if_neg (isNan_eq_true_iff.not.mpr proper)]

/-- A set other than that of `nan` alone lies between two numbers. -/
theorem bounds_ne_nan (valid : n.Valid) (proper : n ≠ literal .nan) :
    n.min ≠ .nan ∧ n.max ≠ .nan := by
  cases n with
  | literal v =>
    have number : v ≠ .nan := by simpa using proper
    exact ⟨number, number⟩
  | ints lo hi => exact ⟨Num.ne_nan_of_isWhole valid.1, Num.ne_nan_of_isWhole valid.2.1⟩
  | reals lo hi => exact ⟨NumberTy.ne_nan_of_le valid.1 valid.2.le, valid.1⟩
  | all => simp [NumberTy.min, NumberTy.max]

/-- A number is in the set of `nan` alone only if it is `nan`. -/
theorem ne_literal_nan {x : Num} (has : n.has x = true) (number : x ≠ .nan) : n ≠ literal .nan := by
  rintro rfl
  exact number (NumberTy.has_literal.mp has)

/-- There are candidates on both sides of a number. -/
structure Brackets (candidates : List Num) (v : Num) : Prop where
  below : ∃ c ∈ candidates, c ≠ .nan ∧ c ≤ v
  above : ∃ c ∈ candidates, c ≠ .nan ∧ v ≤ c

theorem Brackets.mono {candidates more : List Num} {v : Num} (brackets : Brackets candidates v)
    (each : ∀ c ∈ candidates, c ∈ more) : Brackets more v := by
  obtain ⟨⟨c, memC, below⟩, ⟨d, memD, above⟩⟩ := brackets
  exact ⟨⟨c, each c memC, below⟩, ⟨d, each d memD, above⟩⟩

/-- The range of candidates that are numbers goes from one of them to another. -/
theorem hull_cases (candidates : List Num) (whole : Bool) :
    (hull candidates whole = none ∧ ∀ c ∈ candidates, c = .nan) ∨
      ∃ lo ∈ candidates, ∃ hi ∈ candidates, lo ≠ .nan ∧ hi ≠ .nan ∧
        (∀ c ∈ candidates, c ≠ .nan → lo ≤ c ∧ c ≤ hi) ∧
        hull candidates whole = if whole then intRange? lo hi else range? lo hi := by
  have members : ∀ c, c ∈ candidates.filter (fun v => !v.isNan) ↔ c ∈ candidates ∧ c ≠ .nan := by
    intro c
    rw [mem_filter, Bool.not_eq_true', ← Bool.not_eq_true, Num.isNan_eq_true_iff]
  unfold hull
  split
  · next empty =>
    refine .inl ⟨rfl, fun c mem => by_contra fun number => ?_⟩
    have found := (members c).mpr ⟨mem, number⟩
    rw [empty] at found
    cases found
  · next first rest listed =>
    rw [listed] at members
    obtain ⟨foundLo, least⟩ := foldl_min_spec rest first
    obtain ⟨foundHi, greatest⟩ := foldl_min_spec (α := Numᵒᵈ) rest first
    obtain ⟨memLo, numberLo⟩ := (members _).mp foundLo
    obtain ⟨memHi, numberHi⟩ := (members _).mp foundHi
    refine .inr ⟨_, memLo, _, memHi, numberLo, numberHi, fun c mem number => ?_, rfl⟩
    have found := (members c).mpr ⟨mem, number⟩
    exact ⟨least c found, greatest c found⟩

theorem hull_pair {a b : Num} (numberA : a ≠ .nan) (numberB : b ≠ .nan) (whole : Bool) :
    hull [a, b] whole =
      if whole then intRange? (min a b) (max a b) else range? (min a b) (max a b) := by
  have keptA : a.isNan = false := by rwa [← Bool.not_eq_true, Num.isNan_eq_true_iff]
  have keptB : b.isNan = false := by rwa [← Bool.not_eq_true, Num.isNan_eq_true_iff]
  simp [hull, keptA, keptB]

theorem exists_has_hull {v : Num} (brackets : Brackets candidates v)
    (fits : whole = true → v.isWhole = true) : ∃ c ∈ hull candidates whole, c.has v = true := by
  obtain ⟨⟨c, memC, numberC, low⟩, ⟨d, memD, numberD, high⟩⟩ := brackets
  rcases hull_cases candidates whole with ⟨-, none⟩ | ⟨lo, -, hi, -, numberLo, numberHi, bounds, eq⟩
  · exact absurd (none c memC) numberC
  · have lower := (bounds c memC numberC).1.trans low
    have upper := high.trans (bounds d memD numberD).2
    rw [eq]
    cases whole with
    | true => exact (NumberTy.has_intRange? numberLo numberHi v).mpr ⟨fits rfl, lower, upper⟩
    | false => exact (NumberTy.has_range? numberLo numberHi v).mpr ⟨lower, upper⟩

theorem held_of_hull {c : NumberTy} (doubles : ∀ v ∈ candidates, v.IsDouble)
    (range : hull candidates whole = some c) : c.Held := by
  rcases hull_cases candidates whole with ⟨none, -⟩ | ⟨lo, memLo, hi, memHi, -, -, -, eq⟩
  · rw [none] at range
    cases range
  · rw [eq] at range
    cases whole with
    | true => exact NumberTy.held_of_intRange? (doubles lo memLo) (doubles hi memHi) range
    | false => exact NumberTy.held_of_range? (doubles lo memLo) (doubles hi memHi) range

theorem held_noNumber : ∀ p ∈ noNumber, p.Held := by
  simp [noNumber, NumberTy.held_literal, Num.IsDouble]

section WithNan

variable {candidates : List Num} {whole reachable : Bool}
  (doubles : ∀ c ∈ candidates, c.IsDouble)
include doubles

theorem held_parts : ∀ p ∈ (hull candidates whole).toList ++ (if reachable then noNumber else []),
    p.Held := by
  intro p mem
  rw [mem_append, Option.mem_toList] at mem
  rcases mem with mem | mem
  · exact held_of_hull doubles mem
  · split at mem
    · exact held_noNumber p mem
    · cases mem

theorem held_of_mem_withNan :
    ∀ p ∈ withNan (hull candidates whole) reachable, p.Held :=
  fun _ mem => Numbers.held_of_mem_union (held_parts doubles) mem

/-- The range of candidates covers the doubles that they bracket, and `nan` if that can arise. -/
theorem covers_withNan {v : Num} (double : v.IsDouble) (nan : v = .nan → reachable = true)
    (brackets : v ≠ .nan → Brackets candidates v)
    (fits : v ≠ .nan → whole = true → v.isWhole = true) :
    Covers (withNan (hull candidates whole) reachable) v := by
  refine Numbers.covers_union (held_parts doubles) double ?_
  by_cases number : v = .nan
  · refine ⟨literal .nan, mem_append_right _ ?_, NumberTy.has_literal.mpr number⟩
    rw [if_pos (nan number)]
    exact mem_singleton_self _
  · obtain ⟨c, mem, has⟩ := exists_has_hull (brackets number) (fits number)
    exact ⟨c, mem_append_left _ (Option.mem_toList.mpr mem), has⟩

end WithNan

theorem mem_members_iff {n : NumberTy} {xs : List Num} (valid : n.Valid)
    (listed : n.members = some xs) (x : Num) : x ∈ xs ↔ n.has x = true := by
  unfold NumberTy.members at listed
  split at listed
  · obtain rfl := Option.some.inj listed
    rw [mem_singleton, NumberTy.has_literal]
  · obtain rfl := Option.some.inj listed
    obtain ⟨wholeLo, wholeHi, order⟩ := valid
    obtain ⟨a, rfl⟩ := Num.isWhole_fin_iff.mp wholeLo
    obtain ⟨b, rfl⟩ := Num.isWhole_fin_iff.mp wholeHi
    rw [Num.fin_lt_fin, Int.cast_lt] at order
    rw [← Int.cast_sub, Rat.floor_intCast, mem_map, NumberTy.has_ints]
    constructor
    · rintro ⟨i, bound, rfl⟩
      rw [mem_range] at bound
      rw [← Int.cast_natCast, ← Int.cast_add, Num.fin_le_fin, Num.fin_le_fin, Int.cast_le,
        Int.cast_le]
      exact ⟨Num.isWhole_intCast _, by omega, by omega⟩
    · rintro ⟨whole, low, high⟩
      obtain rfl | rfl | ⟨k, rfl⟩ := Num.isWhole_iff.mp whole
      · simp at low
      · simp at high
      · rw [Num.fin_le_fin, Int.cast_le] at low high
        refine ⟨(k - a).toNat, mem_range.mpr (by omega), ?_⟩
        rw [← Int.cast_natCast, ← Int.cast_add, Int.toNat_of_nonneg (by omega)]
        congr 2
        omega
  · cases listed

/-- Two sets have few pairs: they are computed number by number. -/
def Few (a b : NumberTy) : Prop := ∃ c ∈ a.count, ∃ d ∈ b.count, c.mul d ≤ maxPointwise
deriving Decidable

theorem exists_members {n : NumberTy} {c : Num} (counted : n.count = some c) :
    ∃ xs, n.members = some xs := by
  cases n with
  | literal v => exact ⟨[v], rfl⟩
  | ints lo hi =>
    cases lo <;> cases hi <;> simp_all [NumberTy.count, NumberTy.members, Num.isFinite]
  | _ => cases counted

theorem isDouble_of_count {n : NumberTy} (held : n.Held) (small : n.SmallInts) {c x : Num}
    (counted : n.count = some c) (has : n.has x = true) : x.IsDouble := by
  cases n with
  | literal v => exact NumberTy.has_literal.mp has ▸ held.min
  | ints lo hi =>
    obtain ⟨whole, low, high⟩ := NumberTy.has_ints.mp has
    refine Num.isDouble_of_isWhole whole ?_
    cases x with
    | fin q =>
      cases lo with
      | fin a =>
        cases hi with
        | fin b =>
          exact ⟨small.1.1.trans_le (Num.fin_le_fin.mp low),
            (Num.fin_le_fin.mp high).trans_lt small.2.2⟩
        | _ => cases counted
      | _ => cases counted
    | _ => trivial
  | _ => cases counted

theorem pointwise₂_cases (f : Num → Num → Num) (a b : NumberTy) :
    (Few a b ∧ ∃ xs ys, a.members = some xs ∧ b.members = some ys ∧
      pointwise₂ f a b =
        some (Numbers.union (xs.flatMap fun x => ys.map fun y => literal (f x y)))) ∨
      (¬ Few a b ∧ pointwise₂ f a b = none) := by
  unfold pointwise₂ Few
  cases countA : a.count with
  | none => exact .inr ⟨by simp, rfl⟩
  | some c =>
    cases countB : b.count with
    | none => exact .inr ⟨by simp, rfl⟩
    | some d =>
      by_cases many : maxPointwise < c.mul d
      · exact .inr ⟨by simpa using many, by simp [many]⟩
      · obtain ⟨xs, listedA⟩ := exists_members countA
        obtain ⟨ys, listedB⟩ := exists_members countB
        exact .inl ⟨by simpa using many, xs, ys, listedA, listedB, by simp [many, listedA, listedB]⟩

theorem pointwise₂_of_many {f : Num → Num → Num} {a b : NumberTy} (many : ¬ Few a b) :
    pointwise₂ f a b = none := by
  rcases pointwise₂_cases f a b with ⟨few, -⟩ | ⟨-, none⟩
  · exact absurd few many
  · exact none

section Pointwise

variable {f : Num → Num → Num} {a b : NumberTy} (validA : a.Valid) (validB : b.Valid)
  (doubles : Few a b → ∀ x y, a.has x = true → b.has y = true → (f x y).IsDouble)
  {otherwise : List NumberTy}
include validA validB doubles

/-- An operation that computes few pairs and does something else with many gives held sets if it
does so then. -/
theorem held_of_pointwise₂ (held : ¬ Few a b → ∀ p ∈ otherwise, p.Held) :
    ∀ p ∈ (pointwise₂ f a b).getD otherwise, p.Held := by
  intro p mem
  rcases pointwise₂_cases f a b with ⟨few, xs, ys, listedA, listedB, eq⟩ | ⟨many, eq⟩
  · rw [eq] at mem
    refine Numbers.held_of_mem_union (fun n found => ?_) mem
    obtain ⟨x, memX, found⟩ := mem_flatMap.mp found
    obtain ⟨y, memY, rfl⟩ := mem_map.mp found
    exact NumberTy.held_literal.mpr (doubles few x y ((mem_members_iff validA listedA x).mp memX)
      ((mem_members_iff validB listedB y).mp memY))
  · rw [eq] at mem
    exact held many p mem

theorem covers_pointwise₂ {x y : Num} (hasX : a.has x = true) (hasY : b.has y = true)
    (covers : ¬ Few a b → Covers otherwise (f x y)) :
    Covers ((pointwise₂ f a b).getD otherwise) (f x y) := by
  rcases pointwise₂_cases f a b with ⟨few, xs, ys, listedA, listedB, eq⟩ | ⟨many, eq⟩
  · rw [eq, Option.getD_some]
    refine Numbers.covers_union (fun n found => ?_) (doubles few x y hasX hasY) ?_
    · obtain ⟨x', memX, found⟩ := mem_flatMap.mp found
      obtain ⟨y', memY, rfl⟩ := mem_map.mp found
      exact NumberTy.held_literal.mpr (doubles few x' y'
        ((mem_members_iff validA listedA x').mp memX) ((mem_members_iff validB listedB y').mp memY))
    · refine ⟨literal (f x y), mem_flatMap.mpr ⟨x, ?_, mem_map.mpr ⟨y, ?_, rfl⟩⟩,
        NumberTy.has_literal.mpr rfl⟩
      · exact (mem_members_iff validA listedA x).mpr hasX
      · exact (mem_members_iff validB listedB y).mpr hasY
  · rw [eq, Option.getD_none]
    exact covers many

end Pointwise

variable {t : Ty} {items : List NumberTy}

theorem number_mem_iff (wellFormed : t.WellFormed) {x : Num} :
    Value.number x ∈ t ↔ ∃ n ∈ operands t, n.has x = true := by
  cases t with
  | any => simp [operands, Ty.mem_any]
  | number n => simp [operands, Ty.members, Ty.number?]
  | union items =>
    obtain ⟨⟨-, values, -⟩, -⟩ := Ty.everywhere_union.mp wellFormed
    simp only [operands, Ty.members, mem_filterMap, Ty.mem_union_iff]
    constructor
    · rintro ⟨m, mem, has⟩
      have value := values m mem
      cases m with
      | number n => exact ⟨n, ⟨_, mem, rfl⟩, Ty.mem_number_iff.mp has⟩
      | never | any | union _ => cases value
      | string _ | struct _ _ => simp [Ty.mem_iff, Ty.has] at has
    · rintro ⟨n, ⟨m, found, same⟩, has⟩
      cases m with
      | number n' =>
        cases same
        exact ⟨_, found, Ty.mem_number_iff.mpr has⟩
      | _ => cases same
  | _ => simp [operands, Ty.members, Ty.number?, Ty.mem_iff, Ty.has]

theorem valid_of_mem_operands (wellFormed : t.WellFormed) : ∀ n ∈ operands t, n.Valid := by
  intro n mem
  cases t with
  | any =>
    rw [mem_singleton.mp mem]
    trivial
  | number m =>
    obtain rfl := mem_singleton.mp mem
    exact wellFormed _ mem_cons_self
  | union items =>
    obtain ⟨m, memM, same⟩ := mem_filterMap.mp mem
    cases m with
    | number n' =>
      cases same
      exact (Ty.everywhere_union.mp wellFormed).2 _ memM _ mem_cons_self
    | _ => cases same
  | _ => cases mem

/-- A well-formed type whose sets have doubles for bounds. -/
structure Representable (t : Ty) : Prop where
  wellFormed : t.WellFormed
  held : ∀ n ∈ operands t, n.Held

theorem mem_members_ofNumbers :
    t ∈ (Ty.ofNumbers items).members ↔ ∃ n ∈ Numbers.union items, Ty.number n = t := by
  have listed : t ∈ (Numbers.unionMembers items).map Ty.number ↔
      ∃ n ∈ Numbers.union items, Ty.number n = t := by
    simp only [Numbers.union, Sorted.mem_ofList, mem_map]
  rw [← listed, Ty.ofNumbers]
  rcases Ty.ofMembers_cases ((Numbers.unionMembers items).map Ty.number) with
    ⟨never, empty⟩ | ⟨single, eq, mem, only⟩ | ⟨several, -⟩
  · rw [never, empty]
    rfl
  · rw [eq]
    obtain ⟨n, -, rfl⟩ := mem_map.mp mem
    simp only [Ty.members, mem_singleton]
    exact ⟨fun same => same ▸ mem, only t⟩
  · rw [several]
    exact Sorted.mem_ofList

theorem mem_operands_ofNumbers {n : NumberTy} :
    n ∈ operands (Ty.ofNumbers items) ↔ n ∈ Numbers.union items := by
  have bounded : Ty.ofNumbers items ≠ .any := by
    intro any
    have mem : Ty.any ∈ (Ty.ofNumbers items).members := by
      rw [any]
      exact mem_singleton_self _
    obtain ⟨m, -, same⟩ := mem_members_ofNumbers.mp mem
    cases same
  have offered : operands (Ty.ofNumbers items) =
      (Ty.ofNumbers items).members.filterMap Ty.number? := by
    unfold operands
    split
    · exact absurd ‹_› bounded
    · rfl
  rw [offered, mem_filterMap]
  constructor
  · rintro ⟨t, mem, number⟩
    obtain ⟨m, memM, rfl⟩ := mem_members_ofNumbers.mp mem
    cases number
    exact memM
  · intro mem
    exact ⟨.number n, mem_members_ofNumbers.mpr ⟨n, mem, rfl⟩, rfl⟩

theorem number_mem_ofNumbers (held : ∀ n ∈ items, n.Held) {v : Num} (double : v.IsDouble)
    (covers : Covers items v) : Value.number v ∈ Ty.ofNumbers items := by
  obtain ⟨n, mem, has⟩ := Numbers.covers_union held double covers
  rw [Numbers.union, Sorted.mem_ofList] at mem
  exact Ty.mem_ofMembers.mpr ⟨_, mem_map_of_mem mem, Ty.mem_number_iff.mpr has⟩

theorem mem_lift₂ {f : NumberTy → NumberTy → List NumberTy} {a b : Ty}
    (held : ∀ n ∈ operands a, ∀ m ∈ operands b, ∀ p ∈ f n m, p.Held) {n m : NumberTy}
    (memN : n ∈ operands a) (memM : m ∈ operands b) {v : Num} (double : v.IsDouble)
    (covers : Covers (f n m) v) : Value.number v ∈ lift₂ f a b := by
  refine number_mem_ofNumbers (fun p found => ?_) double ?_
  · obtain ⟨n', memN', found⟩ := mem_flatMap.mp found
    obtain ⟨m', memM', found⟩ := mem_flatMap.mp found
    exact held n' memN' m' memM' p found
  · exact covers.mono fun p found =>
      mem_flatMap.mpr ⟨n, memN, mem_flatMap.mpr ⟨m, memM, found⟩⟩

end Arithmetic

end TypeFlow
