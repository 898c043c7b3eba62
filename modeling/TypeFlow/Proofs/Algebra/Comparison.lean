import TypeFlow.Proofs.Algebra.Conservative
import TypeFlow.Proofs.Entries
import TypeFlow.Proofs.Operands

/-!
# Types compared with themselves

Whether a type is part of another does not depend on the level that is asked, as long as both are
nested less deep. A type is part of itself if its numbers have doubles for bounds and the members
of its unions can be compared with each other. Numbers are compared with a union by taking out its
members one after the other; nothing is left of them once their own turn has come.
-/

namespace TypeFlow

open List Ty

/-- The union of sets with a property is made of such sets. -/
def Numbers.UnionClosed (P : NumberTy → Prop) : Prop :=
  ∀ items, (∀ p ∈ items, P p) → ∀ q ∈ unionMembers items, P q

namespace Ty

/-- All members of a type are sets of numbers with a property. -/
def MadeOf (P : NumberTy → Prop) (t : Ty) : Prop := ∀ m ∈ t.members, ∃ p, m = number p ∧ P p

variable {P : NumberTy → Prop} {p : NumberTy} {t : Ty}

theorem madeOf_never : MadeOf P never := by simp [MadeOf, members]

theorem madeOf_number : MadeOf P (number p) ↔ P p := by simp [MadeOf, members]

theorem MadeOf.cases (made : MadeOf P t) :
    t = never ∨ (∃ p, t = number p ∧ P p) ∨
      ∃ items, t = union items ∧ ∀ m ∈ items, ∃ p, m = number p ∧ P p := by
  cases t with
  | never => exact .inl rfl
  | union items => exact .inr (.inr ⟨items, rfl, made⟩)
  | _ => exact .inr (.inl (made _ mem_cons_self))

theorem MadeOf.of_mem_numbersOf (made : MadeOf P t) (mem : p ∈ t.numbersOf) : P p := by
  obtain ⟨q, same, holds⟩ := made (number p) (mem_numbersOf.mp mem)
  exact number.inj same ▸ holds

theorem madeOf_ofNumbers (closed : Numbers.UnionClosed P) {items : List NumberTy}
    (each : ∀ p ∈ items, P p) : MadeOf P (ofNumbers items) := by
  have found : ∀ t ∈ (Numbers.unionMembers items).map number, ∃ p, t = number p ∧ P p := by
    intro t mem
    obtain ⟨q, memQ, rfl⟩ := mem_map.mp mem
    exact ⟨q, rfl, closed items each q memQ⟩
  rcases ofMembers_cases ((Numbers.unionMembers items).map number) with
    ⟨empty, -⟩ | ⟨t, single, mem, -⟩ | ⟨several, -⟩
  · rw [ofNumbers, empty]
    exact madeOf_never
  · obtain ⟨q, rfl, holds⟩ := found t mem
    rw [ofNumbers, single]
    exact madeOf_number.mpr holds
  · rw [ofNumbers, several]
    exact fun m mem => found m (Sorted.mem_ofList.mp mem)

end Ty

namespace Algebra

variable {P : NumberTy → Prop}

variable {items : List Ty} {b a : Ty} {x : NumberTy}

theorem unionOver_numbers (lower : Algebra) (made : ∀ t ∈ items, MadeOf P t) :
    unionOver lower items = .ok (ofNumbers (items.flatMap numbersOf)) := by
  have found : ∀ m ∈ items.flatMap members, ∃ p, m = number p := by
    intro m mem
    obtain ⟨t, memT, memM⟩ := mem_flatMap.mp mem
    obtain ⟨p, same, -⟩ := made t memT m memM
    exact ⟨p, same⟩
  have proper : (items.flatMap members).any isAny = false := by
    rw [any_eq_false]
    intro m mem
    obtain ⟨p, rfl⟩ := found m mem
    simp [isAny]
  have noStrings : (items.flatMap members).filterMap string? = [] := by
    rw [filterMap_eq_nil_iff]
    intro m mem
    obtain ⟨p, rfl⟩ := found m mem
    rfl
  have noRecords : (items.flatMap members).filterMap record? = [] := by
    rw [filterMap_eq_nil_iff]
    intro m mem
    obtain ⟨p, rfl⟩ := found m mem
    rfl
  have numbers : (items.flatMap members).filterMap number? = items.flatMap numbersOf := by
    rw [filterMap_flatMap]
    rfl
  have noStructs : Structs.unionMembers lower [] = .ok [] := rfl
  unfold unionOver
  simp only [proper, noStrings, noRecords, numbers, noStructs, Bool.false_eq_true, if_false]
  simp [bind, Except.bind, pure, Except.pure, ofNumbers, Strings.unionMembers, Sorted.ofList]

/-- What is left of numbers without a type that is no union. -/
def leftWithout (b : Ty) : Ty → Ty
  | number x =>
    match b with
    | number y => ofNumbers (Numbers.without x y)
    | _ => number x
  | t => t

theorem withoutValue_number (lower : Algebra) (x : NumberTy) (b : Ty) :
    withoutValue lower (number x) b = .ok (leftWithout b (number x)) := by
  cases b <;> rfl

theorem withoutValue_numbers (lower : Algebra) (made : ∀ m ∈ items, ∃ p, m = number p ∧ P p)
    (pieces : ∀ p, P p → MadeOf P (leftWithout b (number p))) :
    (items.mapM (fun m => withoutValue lower m b) >>= unionOver lower) =
      .ok (ofNumbers ((items.map (leftWithout b)).flatMap numbersOf)) := by
  have each : items.mapM (fun m => withoutValue lower m b) = .ok (items.map (leftWithout b)) := by
    refine mapM_eq_map fun m mem => ?_
    obtain ⟨p, rfl, -⟩ := made m mem
    exact withoutValue_number lower p b
  have madeEach : ∀ t ∈ items.map (leftWithout b), MadeOf P t := by
    intro t mem
    obtain ⟨m, memM, rfl⟩ := mem_map.mp mem
    obtain ⟨p, rfl, holds⟩ := made m memM
    exact pieces p holds
  rw [each]
  exact unionOver_numbers lower madeEach

/-- A type is taken out of numbers in the same way at every level. -/
theorem exists_withoutMember (closed : Numbers.UnionClosed P) (made : MadeOf P a)
    (pieces : ∀ p, P p → MadeOf P (leftWithout b (number p))) :
    ∃ u, MadeOf P u ∧ ∀ lower, withoutMember lower a b = .ok u := by
  rcases made.cases with rfl | ⟨p, rfl, holds⟩ | ⟨items, rfl, each⟩
  · exact ⟨never, madeOf_never, fun _ => rfl⟩
  · cases b with
    | any => exact ⟨never, madeOf_never, fun _ => rfl⟩
    | never => exact ⟨number p, made, fun _ => rfl⟩
    | _ => exact ⟨_, pieces p holds, fun _ => rfl⟩
  · have left : MadeOf P (ofNumbers ((items.map (leftWithout b)).flatMap numbersOf)) := by
      refine madeOf_ofNumbers closed fun q mem => ?_
      obtain ⟨t, memT, memQ⟩ := mem_flatMap.mp mem
      obtain ⟨m, memM, rfl⟩ := mem_map.mp memT
      obtain ⟨p, rfl, holds⟩ := each m memM
      exact (pieces p holds).of_mem_numbersOf memQ
    have ran (lower : Algebra) := withoutValue_numbers lower each pieces
    cases b with
    | any => exact ⟨never, madeOf_never, fun _ => rfl⟩
    | never => exact ⟨Ty.union items, made, fun _ => rfl⟩
    | _ => exact ⟨_, left, ran⟩

theorem exists_withoutEach (closed : Numbers.UnionClosed P) (made : MadeOf P a)
    (pieces : ∀ b ∈ items, ∀ p, P p → MadeOf P (leftWithout b (number p))) :
    ∃ u, MadeOf P u ∧ ∀ lower, withoutEach lower a items = .ok u := by
  induction items generalizing a with
  | nil => exact ⟨a, made, fun _ => rfl⟩
  | cons b rest ih =>
    obtain ⟨here, later⟩ := forall_mem_cons.mp pieces
    obtain ⟨left, madeLeft, ran⟩ := exists_withoutMember closed made here
    obtain ⟨u, madeU, ranLeft⟩ := ih madeLeft later
    by_cases empty : left.isNever = true
    · refine ⟨left, madeLeft, fun lower => ?_⟩
      rw [withoutEach, ran lower]
      exact if_pos empty
    · refine ⟨u, madeU, fun lower => ?_⟩
      rw [withoutEach, ran lower, ← ranLeft lower]
      exact if_neg empty

/-- Nothing is left of parts of a set once the set is taken out. -/
theorem withoutMember_whole (lower : Algebra) (valid : x.Valid)
    (made : MadeOf (·.PartOf x) a) : withoutMember lower a (number x) = .ok never := by
  have gone (p : NumberTy) (part : p.PartOf x) : leftWithout (number x) (number p) = never := by
    show ofNumbers (Numbers.without p x) = never
    rw [Numbers.without_eq_nil_of_partOf valid part]
    rfl
  rcases made.cases with rfl | ⟨p, rfl, part⟩ | ⟨items, rfl, each⟩
  · rfl
  · rw [← gone p part]
    rfl
  · have pieces (p : NumberTy) (part : p.PartOf x) :
        MadeOf (·.PartOf x) (leftWithout (number x) (number p)) := by
      rw [gone p part]
      exact madeOf_never
    have empty : (items.map (leftWithout (number x))).flatMap numbersOf = [] := by
      rw [flatMap_eq_nil_iff]
      intro t mem
      obtain ⟨m, memM, rfl⟩ := mem_map.mp mem
      obtain ⟨p, rfl, part⟩ := each m memM
      rw [gone p part]
      rfl
    have ran := withoutValue_numbers lower each pieces
    rw [empty] at ran
    exact ran

/-- Nothing is left of a set of numbers without a list that has it, whatever stands before it. -/
theorem withoutEach_whole (lower : Algebra) (held : x.Held) (heldItems : ∀ b ∈ items, Held b)
    (mem : number x ∈ items)
    (made : MadeOf (·.PartOf x) a) : withoutEach lower a items = .ok never := by
  have closed : Numbers.UnionClosed (·.PartOf x) := fun _ parts _ =>
    Numbers.partOf_unionMembers held.valid parts
  induction items generalizing a with
  | nil => cases mem
  | cons b rest ih =>
    obtain ⟨heldB, heldRest⟩ := forall_mem_cons.mp heldItems
    rcases mem_cons.mp mem with rfl | later
    · rw [withoutEach, withoutMember_whole lower held.valid made]
      rfl
    · have pieces (p : NumberTy) (part : p.PartOf x) :
          MadeOf (·.PartOf x) (leftWithout b (number p)) := by
        cases b with
        | number y =>
          exact madeOf_ofNumbers closed fun q piece =>
            Numbers.partOf_without part (held_number.mp heldB) piece
        | _ => exact madeOf_number.mpr part
      obtain ⟨left, madeLeft, ran⟩ := exists_withoutMember closed made pieces
      rw [withoutEach, ran lower]
      by_cases empty : left.isNever = true
      · exact (if_pos empty).trans (congrArg Except.ok (isNever_iff.mp empty))
      · exact (if_neg empty).trans (ih heldRest later madeLeft)

/-- Two algebras give the same answer on types nested less than `n` deep. -/
def SameSubsets (n : Nat) (lower lower' : Algebra) : Prop :=
  ∀ a b : Ty, a.nesting < n → b.nesting < n → lower.subset a b = lower'.subset a b

end Algebra

theorem allM_congr {α : Type} {f g : α → Checked Bool} {items : List α}
    (each : ∀ a ∈ items, f a = g a) : items.allM f = items.allM g := by
  induction items with
  | nil => rfl
  | cons a rest ih =>
    obtain ⟨here, later⟩ := forall_mem_cons.mp each
    rw [List.allM, List.allM, here, ih later]

theorem allM_of_forall {α : Type} {f : α → Checked Bool} {items : List α}
    (each : ∀ a ∈ items, f a = .ok true) : items.allM f = .ok true := by
  induction items with
  | nil => rfl
  | cons a rest ih =>
    obtain ⟨here, later⟩ := forall_mem_cons.mp each
    rw [List.allM, here]
    exact ih later

theorem anyM_congr {α : Type} {f g : α → Checked Bool} {items : List α}
    (each : ∀ a ∈ items, f a = g a) : items.anyM f = items.anyM g := by
  induction items with
  | nil => rfl
  | cons a rest ih =>
    obtain ⟨here, later⟩ := forall_mem_cons.mp each
    rw [List.anyM, List.anyM, here, ih later]

namespace Structs

theorem nesting_of_mem_pairs {a b : Record} {n : Nat} (nestedA : a.toTy.nesting < n + 1)
    (nestedB : b.toTy.nesting < n + 1) {p : Ty × Ty} (mem : p ∈ pairs a b) :
    p.1.nesting < n ∧ p.2.nesting < n := by
  obtain ⟨⟨f, g⟩, both, rfl⟩ := mem_map.mp mem
  have fieldsA := (nestingFields_lt.mp (Nat.lt_of_succ_lt_succ nestedA)).2
  have fieldsB := (nestingFields_lt.mp (Nat.lt_of_succ_lt_succ nestedB)).2
  exact ⟨fieldsA f (of_mem_zip both).1, fieldsB g (of_mem_zip both).2⟩

theorem subset_congr {n : Nat} {lower lower' : Algebra} (same : lower.SameSubsets n lower')
    {a b : Record} (nestedA : a.toTy.nesting < n + 1) (nestedB : b.toTy.nesting < n + 1) :
    subset lower a b = subset lower' a b := by
  have fields : (pairs a b).allM (fun p => lower.subset p.1 p.2) =
      (pairs a b).allM fun p => lower'.subset p.1 p.2 := by
    refine allM_congr fun p mem => ?_
    obtain ⟨left, right⟩ := nesting_of_mem_pairs nestedA nestedB mem
    exact same p.1 p.2 left right
  by_cases named : a.name = b.name
  · simp only [subset, if_pos named]
    exact congrArg (agree a b >>= fun _ => ·) fields
  · simp only [subset, if_neg named]

end Structs

namespace Algebra

section Levels

variable {n : Nat} {lower lower' : Algebra} (same : lower.SameSubsets n lower') {a b : Ty}
include same

theorem subsetValue_congr (nestedA : a.nesting < n + 1) (nestedB : b.nesting < n + 1) :
    subsetValue lower a b = subsetValue lower' a b := by
  cases a with
  | struct name fields =>
    cases b with
    | struct name' fields' =>
      exact Structs.subset_congr (a := ⟨name, fields⟩) (b := ⟨name', fields'⟩) same nestedA nestedB
    | _ => rfl
  | _ => cases b <;> rfl

theorem subsetMember_congr (nestedA : a.nesting < n + 1) (nestedB : b.nesting < n + 1) :
    subsetMember lower a b = subsetMember lower' a b := by
  cases b with
  | union items =>
    have each : items.anyM (subsetValue lower a) = items.anyM (subsetValue lower' a) := by
      refine anyM_congr fun m mem => ?_
      exact subsetValue_congr same nestedA ((nestingItems_lt.mp nestedB).2 m mem)
    cases a with
    | number x =>
      have made : MadeOf (fun _ => True) (number x) := madeOf_number.mpr trivial
      have pieces : ∀ b ∈ items, ∀ p : NumberTy, True →
          MadeOf (fun _ => True) (leftWithout b (number p)) := by
        intro b _ p _
        cases b with
        | number y => exact madeOf_ofNumbers (fun _ _ _ _ => trivial) fun _ _ => trivial
        | _ => exact madeOf_number.mpr trivial
      obtain ⟨u, -, ran⟩ := exists_withoutEach (fun _ _ _ _ => trivial) made pieces
      show (withoutEach lower _ items >>= _) = (withoutEach lower' _ items >>= _)
      rw [ran lower, ran lower']
    | _ => exact each
  | _ => cases a <;> exact subsetValue_congr same nestedA nestedB

theorem subsetOver_congr (nestedA : a.nesting < n + 1) (nestedB : b.nesting < n + 1) :
    subsetOver lower a b = subsetOver lower' a b := by
  cases a with
  | union items =>
    have each : items.allM (fun m => subsetMember lower m b) =
        items.allM fun m => subsetMember lower' m b := by
      refine allM_congr fun m mem => ?_
      exact subsetMember_congr same ((nestingItems_lt.mp nestedA).2 m mem) nestedB
    cases b with
    | any => rfl
    | never => rfl
    | _ => exact each
  | never => cases b <;> rfl
  | any => cases b <;> rfl
  | _ =>
    cases b with
    | any => rfl
    | never => rfl
    | _ => exact subsetMember_congr same nestedA nestedB

end Levels

/-- Levels above the nesting of the types agree. -/
theorem sameSubsets_level {n m : Nat} (le : n ≤ m) : (level n).SameSubsets n (level m) := by
  induction n generalizing m with
  | zero => exact fun _ _ nested => absurd nested (Nat.not_lt_zero _)
  | succ n ih =>
    obtain ⟨m, rfl⟩ : ∃ k, m = k + 1 := ⟨m - 1, by omega⟩
    intro a b nestedA nestedB
    exact subsetOver_congr (ih (Nat.le_of_succ_le_succ le)) nestedA nestedB

theorem subset_level {n : Nat} {a b : Ty} (nestedA : a.nesting < n) (nestedB : b.nesting < n) :
    (level n).subset a b = a.subset b := by
  have enough : max a.nesting b.nesting + 1 ≤ n := by omega
  exact (sameSubsets_level enough a b (by omega) (by omega)).symm

end Algebra

namespace Ty

/-- The members of a union are no unions, and each can be compared with the others. -/
def ComparableHere : Ty → Prop
  | union items => (∀ m ∈ items, m.isValue = true) ∧
    ∀ a ∈ items, ∀ b ∈ items, a ≠ b → Yields (a.subset b) fun _ => True
  | _ => True

/-- The members of every union inside a type can be compared with each other. -/
def Comparable (t : Ty) : Prop := t.Everywhere ComparableHere

@[simp] theorem comparable_never : Comparable never := by simp [Comparable, ComparableHere]

@[simp] theorem comparable_any : Comparable any := by simp [Comparable, ComparableHere]

@[simp] theorem comparable_number {n : NumberTy} : Comparable (number n) := by
  simp [Comparable, ComparableHere]

@[simp] theorem comparable_string {s : StringTy} : Comparable (string s) := by
  simp [Comparable, ComparableHere]

theorem comparable_struct {name : String} {fields : List (String × Ty)} :
    Comparable (struct name fields) ↔ ∀ f ∈ fields, Comparable f.2 := by
  simp only [Comparable, everywhere_struct, ComparableHere, true_and]

theorem comparable_union {items : List Ty} : Comparable (union items) ↔
    ComparableHere (union items) ∧ ∀ t ∈ items, Comparable t :=
  everywhere_union

theorem Comparable.of_mem_members {t m : Ty} (comparable : Comparable t) (mem : m ∈ t.members) :
    Comparable m :=
  Everywhere.of_mem_members comparable mem

/-- Numbers, texts and structs are compared as such. -/
theorem subsetValue_level {n : Nat} {a b : Ty} (valueA : a.isValue = true)
    (valueB : b.isValue = true) (nestedA : a.nesting < n + 1) (nestedB : b.nesting < n + 1) :
    Algebra.subsetValue (Algebra.level n) a b = a.subset b := by
  rw [← Algebra.subset_level nestedA nestedB]
  cases a with
  | number _ | string _ | struct _ _ =>
    cases b with
    | number _ | string _ | struct _ _ => rfl
    | _ => cases valueB
  | _ => cases valueA

theorem subset_struct {name : String} {fields fields' : List (String × Ty)}
    (each : Forall₂ (fun f g => f.1 = g.1 ∧ f.2.subset g.2 = .ok true) fields fields') :
    (struct name fields).subset (struct name fields') = .ok true := by
  let n := max (struct name fields).nesting (struct name fields').nesting
  have nested : (struct name fields).nesting < n + 1 := Nat.lt_succ_of_le (Nat.le_max_left _ _)
  have nested' : (struct name fields').nesting < n + 1 := Nat.lt_succ_of_le (Nat.le_max_right _ _)
  have names : fields.map (·.1) = fields'.map (·.1) :=
    keys_eq_of_forall₂ each fun _ _ both => both.1
  have agreed : Structs.agree ⟨name, fields⟩ ⟨name, fields'⟩ = .ok () :=
    if_pos (decide_eq_true names)
  have fieldwise : (Structs.pairs ⟨name, fields⟩ ⟨name, fields'⟩).allM
      (fun p => (Algebra.level n).subset p.1 p.2) = .ok true := by
    refine allM_of_forall fun p mem => ?_
    obtain ⟨left, right⟩ :=
      Structs.nesting_of_mem_pairs (a := ⟨name, fields⟩) (b := ⟨name, fields'⟩) nested nested' mem
    obtain ⟨⟨f, g⟩, both, rfl⟩ := mem_map.mp mem
    have inside := ((forall₂_iff_zip.mp each).2 both).2
    exact (Algebra.subset_level left right).trans inside
  rw [← subsetValue_level rfl rfl nested nested']
  show Structs.subset _ _ _ = _
  unfold Structs.subset
  rw [if_pos rfl, agreed]
  exact fieldwise

theorem subset_self {t : Ty} (comparable : Comparable t) (held : Held t) :
    t.subset t = .ok true := by
  induction t using Ty.induction with
  | never => rfl
  | any => rfl
  | number x =>
    have valid : x.Valid := (held_number.mp held).valid
    show Except.ok (Numbers.subset x x) = _
    rw [Numbers.subset_of_has valid valid fun _ has => has]
  | string s =>
    show Except.ok (Strings.subset s s) = _
    rw [Strings.subset_iff.mpr fun _ has => has]
  | struct name fields ih =>
    refine subset_struct (forall₂_same.mpr fun f mem => ⟨rfl, ih f mem ?_ ?_⟩)
    · exact comparable_struct.mp comparable f mem
    · exact held_struct.mp held f mem
  | union items ih =>
    obtain ⟨⟨values, pairs⟩, comparableEach⟩ := comparable_union.mp comparable
    have heldEach := held_union.mp held
    let n := max (union items).nesting (union items).nesting
    have nested : (union items).nesting < n + 1 := Nat.lt_succ_of_le (Nat.le_max_left _ _)
    have nestedEach := (nestingItems_lt.mp nested).2
    show items.allM (fun m => Algebra.subsetMember (Algebra.level n) m (union items)) = .ok true
    refine allM_of_forall fun m mem => ?_
    -- numbers are taken out of all members together, all else is compared with each member
    have among : items.anyM (Algebra.subsetValue (Algebra.level n) m) = .ok true := by
      have answers : ∀ b ∈ items, Decides (Algebra.subsetValue (Algebra.level n) m b)
          (m.subset b = .ok true) := by
        intro b memB
        rw [subsetValue_level (values m mem) (values b memB) (nestedEach m mem) (nestedEach b memB)]
        by_cases same : m = b
        · subst same
          exact ⟨true, ih m mem (comparableEach m mem) (heldEach m mem), by simp [*]⟩
        · exact (pairs m mem b memB same).decides
      obtain ⟨answer, ran, found⟩ := Decides.anyM answers
      rw [ran, found.mpr ⟨m, mem, ih m mem (comparableEach m mem) (heldEach m mem)⟩]
    cases m with
    | number x =>
      have heldX : x.Held := held_number.mp (heldEach _ mem)
      have made : MadeOf (·.PartOf x) (number x) := madeOf_number.mpr ⟨heldX, fun _ has => has⟩
      show (Algebra.withoutEach _ _ items >>= _) = _
      rw [Algebra.withoutEach_whole _ heldX heldEach mem made]
      rfl
    | _ => exact among

end Ty

end TypeFlow
