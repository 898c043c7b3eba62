import TypeFlow.Proofs.Algebra.Comparison

/-!
# Operations on comparable types

A union of structs is settled when no item is inside another, and to find that out each item was
compared with every other one. So the members of a union can be compared with each other whenever
the union has a result, also where structs of one name have different fields. The other operations
build types from parts of the given ones and from unions, and none of them nests structs deeper.
-/

namespace TypeFlow

open List

namespace Ty

/-- A comparable type that is nested less than `n` deep. -/
def ComparableBelow (n : Nat) (t : Ty) : Prop := Comparable t ∧ t.nesting < n

variable {n : Nat}

theorem below_never (pos : 0 < n) : ComparableBelow n never := ⟨comparable_never, pos⟩

theorem below_any (pos : 0 < n) : ComparableBelow n any := ⟨comparable_any, pos⟩

theorem below_number (pos : 0 < n) {x : NumberTy} : ComparableBelow n (number x) :=
  ⟨comparable_number, pos⟩

theorem below_string (pos : 0 < n) {s : StringTy} : ComparableBelow n (string s) :=
  ⟨comparable_string, pos⟩

theorem below_struct {name : String} {fields : List (String × Ty)} :
    ComparableBelow (n + 1) (struct name fields) ↔
      0 < n ∧ ∀ f ∈ fields, ComparableBelow n f.2 := by
  simp only [ComparableBelow, comparable_struct, nesting, Nat.add_lt_add_iff_right,
    nestingFields_lt]
  constructor
  · rintro ⟨comparable, pos, nested⟩
    exact ⟨pos, fun f mem => ⟨comparable f mem, nested f mem⟩⟩
  · rintro ⟨pos, each⟩
    exact ⟨fun f mem => (each f mem).1, pos, fun f mem => (each f mem).2⟩

theorem ComparableBelow.of_mem_members {t m : Ty} (below : ComparableBelow n t)
    (mem : m ∈ t.members) : ComparableBelow n m := by
  have comparable : Comparable m := below.1.of_mem_members mem
  cases t with
  | never => cases mem
  | union items => exact ⟨comparable, (nestingItems_lt.mp below.2).2 m mem⟩
  | _ => exact mem_singleton.mp mem ▸ below

theorem below_ofMembers (pos : 0 < n) {items : List Ty} (values : ∀ t ∈ items, t.isValue = true)
    (each : ∀ t ∈ items, ComparableBelow n t)
    (compared : ∀ a ∈ items, ∀ b ∈ items, a ≠ b → Yields (a.subset b) fun _ => True) :
    ComparableBelow n (ofMembers items) := by
  rcases ofMembers_cases items with ⟨empty, -⟩ | ⟨t, single, mem, -⟩ | ⟨several, -⟩
  · rw [empty]
    exact below_never pos
  · rw [single]
    exact each t mem
  · have sorted {t : Ty} (mem : t ∈ Sorted.ofList compare items) : t ∈ items :=
      Sorted.mem_ofList.mp mem
    rw [several]
    refine ⟨comparable_union.mpr ⟨⟨fun t mem => values t (sorted mem), ?_⟩, ?_⟩, ?_⟩
    · exact fun a memA b memB => compared a (sorted memA) b (sorted memB)
    · exact fun t mem => (each t (sorted mem)).1
    · exact nestingItems_lt.mpr ⟨pos, fun t mem => (each t (sorted mem)).2⟩

theorem below_build (pos : 0 < n) {name : String} {fields : List (String × Ty)}
    (each : ∀ f ∈ fields, ComparableBelow n f.2) :
    ComparableBelow (n + 1) (Record.build name fields) := by
  rcases Record.build_cases name fields with ⟨empty, -⟩ | ⟨same, -⟩
  · rw [empty]
    exact below_never (Nat.succ_pos n)
  · rw [same]
    exact below_struct.mpr ⟨pos, each⟩

theorem subset_yields {a b : Ty} (valueA : a.isValue = true) (valueB : b.isValue = true)
    (structs : ∀ r s : Record, a = r.toTy → b = s.toTy → Yields (a.subset b) fun _ => True) :
    Yields (a.subset b) fun _ => True := by
  cases a with
  | struct name fields =>
    cases b with
    | struct name' fields' => exact structs ⟨name, fields⟩ ⟨name', fields'⟩ rfl rfl
    | number _ | string _ => exact ⟨false, rfl, trivial⟩
    | _ => cases valueB
  | number _ | string _ =>
    cases b with
    | number _ | string _ | struct _ _ => exact ⟨_, rfl, trivial⟩
    | _ => cases valueB
  | _ => cases valueA

theorem below_ofNumbers (pos : 0 < n) (items : List NumberTy) :
    ComparableBelow n (ofNumbers items) := by
  have found : ∀ t ∈ (Numbers.unionMembers items).map number, ∃ x, t = number x := by
    intro t mem
    obtain ⟨x, -, rfl⟩ := mem_map.mp mem
    exact ⟨x, rfl⟩
  refine below_ofMembers pos (fun t mem => ?_) (fun t mem => ?_) fun a memA b memB _ => ?_
  · obtain ⟨x, rfl⟩ := found t mem
    rfl
  · obtain ⟨x, rfl⟩ := found t mem
    exact below_number pos
  · obtain ⟨x, rfl⟩ := found a memA
    obtain ⟨y, rfl⟩ := found b memB
    exact ⟨_, rfl, trivial⟩

end Ty

open Ty

namespace Structs

variable {lower : Algebra}

/-- Every pair of different items was compared. -/
def Compared (lower : Algebra) (items : List Record) : Prop :=
  ∀ a ∈ items, ∀ b ∈ items, a ≠ b → Yields (subset lower a b) fun _ => True

theorem anyM_eq_false {α : Type} {f : α → Checked Bool} {items : List α}
    (ran : items.anyM f = .ok false) : ∀ a ∈ items, f a = .ok false := by
  induction items with
  | nil => simp
  | cons a rest ih =>
    obtain ⟨answer, here, later⟩ := bind_eq_ok_iff.mp ran
    cases answer with
    | true => cases Except.ok.inj later
    | false => exact forall_mem_cons.mpr ⟨here, ih later⟩

/-- An item that is kept was compared with all others. -/
theorem dropSubsumed_compared {items kept : List Record}
    (ran : dropSubsumed lower items = .ok kept) : Compared lower kept := by
  obtain ⟨sublist, tests⟩ := dropSubsumed_eq_ok ran
  intro a memA b memB differ
  obtain ⟨i, place, outside⟩ := tests a memA
  obtain ⟨j, place'⟩ := mem_iff_getElem?.mp (sublist.subset memB)
  have apart : i ≠ j := by
    rintro rfl
    exact differ (Option.some.inj (place.symm.trans place'))
  have test := anyM_eq_false outside (b, j) (mem_zipIdx_iff_getElem?.mpr place')
  dsimp only at test
  rw [if_neg apart] at test
  obtain ⟨answer, compared, -⟩ := bind_eq_ok_iff.mp test
  exact ⟨answer, compared, trivial⟩

variable {items result : List Record}

theorem length_mergeOnField_le {index : Nat} (ran : mergeOnField lower items index = .ok result) :
    result.length ≤ items.length := by
  rw [mergeOnField_eq] at ran
  obtain ⟨merged, mapped, same⟩ := bind_eq_ok_iff.mp ran
  obtain rfl := Except.ok.inj same
  have groups := (grouped_grouping items index).length_le
  have types := (mapM_eq_ok mapped).length_eq
  have records := length_filterMap_le (·.record?) merged
  have total := length_short_add_alone items index
  rw [length_append]
  omega

/-- With enough steps the loop ends in struct types that were compared with each other. -/
theorem settle_compared {steps : Nat} (enough : items.length < steps)
    (ran : settle lower steps items = .ok result) : Compared lower result := by
  induction steps generalizing items with
  | zero => exact absurd enough (Nat.not_lt_zero _)
  | succ steps ih =>
    obtain ⟨kept, dropped, ran⟩ := bind_eq_ok_iff.mp ran
    obtain ⟨merged, pass, ran⟩ := bind_eq_ok_iff.mp ran
    split at ran
    · obtain rfl := Except.ok.inj ran
      exact dropSubsumed_compared dropped
    · next fewer =>
      have sortedLength := Sorted.length_ofList_le Record.compare items
      have keptLength := (dropSubsumed_eq_ok dropped).1.length_le
      have mergedLength : merged.length ≤ kept.length :=
        foldlM_keeps (P := fun merged => merged.length ≤ kept.length) pass (Nat.le_refl _)
          fun sofar shorter index _ next ran => (length_mergeOnField_le ran).trans shorter
      exact ih (by omega) ran

theorem unionMembers_compared (ran : unionMembers lower items = .ok result) :
    Compared lower result :=
  settle_compared (Nat.lt_succ_self _) ran

end Structs

namespace Algebra

variable {n : Nat}

theorem below_merged {numbers : List NumberTy} {strings : List StringTy} {structs : List Record}
    (below : ∀ r ∈ structs, ComparableBelow (n + 1) r.toTy)
    (compared : Structs.Compared (level n) structs) :
    ComparableBelow (n + 1) (ofMembers (merged numbers strings structs)) := by
  have pos : 0 < n + 1 := Nat.succ_pos n
  have values : ∀ t ∈ merged numbers strings structs, t.isValue = true := by
    intro t mem
    rcases mem_merged.mp mem with ⟨x, -, rfl⟩ | ⟨s, -, rfl⟩ | ⟨r, -, rfl⟩ <;> rfl
  have record {r : Record} (mem : r.toTy ∈ merged numbers strings structs) : r ∈ structs := by
    rcases mem_merged.mp mem with ⟨x, -, other⟩ | ⟨s, -, other⟩ | ⟨q, memQ, same⟩
    · cases other
    · cases other
    · cases r
      cases q
      cases same
      exact memQ
  refine below_ofMembers pos values (fun t mem => ?_) fun a memA b memB differ => ?_
  · rcases mem_merged.mp mem with ⟨x, -, rfl⟩ | ⟨s, -, rfl⟩ | ⟨r, memR, rfl⟩
    · exact below_number pos
    · exact below_string pos
    · exact below r memR
  · refine subset_yields (values a memA) (values b memB) fun r s isR isS => ?_
    subst isR isS
    have memR := record memA
    have memS := record memB
    rw [← subsetValue_level rfl rfl (below r memR).2 (below s memS).2]
    exact compared r memR s memS fun same => differ (congrArg Record.toTy same)

theorem comparableTier (below : (level n).Keeps True (ComparableBelow n)) :
    Tier True (level n) (ComparableBelow (n + 1)) (ComparableBelow n) where
  below := below
  never := below_never (Nat.succ_pos n)
  any := below_any (Nat.succ_pos n)
  string _ := below_string (Nat.succ_pos n)
  member below mem := below.of_mem_members mem
  part below mem := below.of_mem_members mem
  field below := (below_struct.mp below).2
  build below _ each := below_build (below_struct.mp below).1 each
  agree _ _ _ forbidden := absurd trivial forbidden
  numbers _ _ _ := below_number (Nat.succ_pos n)
  intersect _ _ _ := below_number (Nat.succ_pos n)
  without _ _ := below_ofNumbers (Nat.succ_pos n) _
  union _ below united := below_merged below (Structs.unionMembers_compared united)

theorem level_keeps_comparable (n : Nat) : (level n).Keeps True (ComparableBelow n) := by
  induction n with
  | zero =>
    have none {t : Ty} : ¬ ComparableBelow 0 t := fun below => Nat.not_lt_zero _ below.2
    refine ⟨fun nonempty below => ?_, fun nonempty below => ?_, fun below => (none below).elim,
      fun below => (none below).elim⟩
    all_goals
      obtain ⟨t, mem⟩ := exists_mem_of_ne_nil _ nonempty
      exact (none (below t mem)).elim
  | succ n ih => exact (comparableTier ih).keeps

end Algebra

open TypeFlow.Algebra

namespace Ty

theorem below_nestingItems {items : List Ty} (comparable : ∀ t ∈ items, Comparable t) :
    ∀ t ∈ items, ComparableBelow (nestingItems items + 1) t :=
  fun t mem => ⟨comparable t mem, (nestingItems_lt.mp (Nat.lt_succ_self _)).2 t mem⟩

theorem comparable_unionOf {items : List Ty} {u : Ty} (comparable : ∀ t ∈ items, Comparable t)
    (ran : unionOf items = .ok u) : Comparable u :=
  ((unionOver_kept (comparableTier (level_keeps_comparable _))
    (below_nestingItems comparable)).eq_ok ran).1

theorem comparable_intersectionOf {items : List Ty} {u : Ty}
    (comparable : ∀ t ∈ items, Comparable t) (ran : intersectionOf items = .ok u) : Comparable u :=
  ((intersectOver_kept (comparableTier (level_keeps_comparable _))
    (below_nestingItems comparable)).eq_ok ran).1

theorem comparable_without {a b u : Ty} (comparableA : Comparable a) (comparableB : Comparable b)
    (ran : a.without b = .ok u) : Comparable u := by
  have belowA : ComparableBelow (max a.nesting b.nesting + 1) a :=
    ⟨comparableA, Nat.lt_succ_of_le (Nat.le_max_left _ _)⟩
  have belowB : ComparableBelow (max a.nesting b.nesting + 1) b :=
    ⟨comparableB, Nat.lt_succ_of_le (Nat.le_max_right _ _)⟩
  exact (((level_keeps_comparable _).without belowA belowB).eq_ok ran).1

theorem comparable_ofNumbers (items : List NumberTy) : Comparable (ofNumbers items) :=
  (below_ofNumbers Nat.one_pos items).1

end Ty

end TypeFlow
