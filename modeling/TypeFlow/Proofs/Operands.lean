import Mathlib.Data.Multiset.Bind
import TypeFlow.Proofs.Algebra.Shapes
import TypeFlow.Proofs.Exactness

/-!
# The order of operands

Union sorts what it is going to merge, so which pairs are merged first does not depend on the order
of the operands. Intersection takes types in pairs. Exchanging two unions exchanges rows and columns
in the table of their members, and the closing union does not see the difference. Exchanging two
structs exchanges the types of each field, so a level commutes when the level below does.
-/

namespace TypeFlow

open List Ty

/-- Only what is in the list counts. -/
theorem Numbers.unionMembers_congr {items items' : List NumberTy}
    (same : ∀ n, n ∈ items ↔ n ∈ items') : unionMembers items = unionMembers items' := by
  have sorted : Sorted.ofList NumberTy.compare items = Sorted.ofList NumberTy.compare items' :=
    Sorted.ofList_congr same
  have full : items.contains .all = items'.contains .all := by
    rw [Bool.eq_iff_iff, contains_iff_mem, contains_iff_mem, same]
  simp only [unionMembers, full, sorted]

/-- The order of number types does not count. -/
theorem Numbers.unionMembers_perm {items items' : List NumberTy} (perm : items.Perm items') :
    unionMembers items = unionMembers items' :=
  unionMembers_congr fun _ => perm.mem_iff

/-- The order of string types does not count. -/
theorem Strings.unionMembers_perm {items items' : List StringTy} (perm : items.Perm items') :
    unionMembers items = unionMembers items' := by
  have sorted : Sorted.ofList StringTy.compare items = Sorted.ofList StringTy.compare items' :=
    Sorted.ofList_congr fun s => perm.mem_iff
  simp only [unionMembers, perm.contains_eq, sorted]

/-- Settling starts by sorting. -/
theorem Structs.settle_congr {items items' : List Record} (same : ∀ r, r ∈ items ↔ r ∈ items')
    (lower : Algebra) (steps : Nat) :
    settle lower (steps + 1) items = settle lower (steps + 1) items' := by
  have sorted : Sorted.ofList Record.compare items = Sorted.ofList Record.compare items' :=
    Sorted.ofList_congr same
  simp only [settle, sorted]

/-- The order of structs does not count. -/
theorem Structs.unionMembers_perm {items items' : List Record} (perm : items.Perm items')
    (lower : Algebra) : unionMembers lower items = unionMembers lower items' := by
  have split := perm.flatMap_right atoms
  simp only [unionMembers, split.length_eq]
  exact settle_congr (fun r => split.mem_iff) lower _

variable {items items' : List Ty} {α β : Type}

/-- One level of union forgets the order. -/
theorem Algebra.unionOver_perm (perm : items.Perm items')
    (lower : Algebra) : unionOver lower items = unionOver lower items' := by
  have members := perm.flatMap_right Ty.members
  have numbers := Numbers.unionMembers_perm (members.filterMap number?)
  have strings := Strings.unionMembers_perm (members.filterMap string?)
  have structs := Structs.unionMembers_perm (members.filterMap record?) lower
  simp only [unionOver, members.any_eq, numbers, strings, structs]

/-- Nesting forgets the order. -/
theorem Ty.nestingItems_perm (perm : items.Perm items') :
    nestingItems items = nestingItems items' := by
  induction perm with
  | nil => rfl
  | cons t _ ih => simp only [nestingItems, ih]
  | swap t t' rest => simp only [nestingItems, Nat.max_left_comm]
  | trans _ _ first second => exact first.trans second

/-- Union does not depend on the order of its operands, also where it clashes. -/
theorem Ty.unionOf_perm (perm : items.Perm items') : unionOf items = unionOf items' := by
  unfold unionOf
  rw [nestingItems_perm perm]
  exact Algebra.unionOver_perm perm _

/-- String types meet the same way in either order. -/
theorem Strings.intersect_comm (a b : StringTy) : intersect a b = intersect b a := by
  cases a <;> cases b <;> simp only [intersect]
  next x y =>
    by_cases same : x = y
    · rw [same]
    · rw [if_neg same, if_neg (Ne.symm same)]

/-- Two types can be exchanged in an intersection of the level. -/
def Algebra.Commutes (shape : String → List String) (algebra : Algebra) : Prop :=
  ∀ a b, Shaped shape a → Shaped shape b → algebra.intersect [a, b] = algebra.intersect [b, a]

/-- A computation for each item that never fails. -/
theorem mapM_eq_map {f : α → Checked β} {g : α → β} {items : List α}
    (each : ∀ a ∈ items, f a = .ok (g a)) : items.mapM f = .ok (items.map g) := by
  induction items with
  | nil => rfl
  | cons a rest ih =>
    have tail := ih fun a' mem => each a' (mem_cons_of_mem a mem)
    rw [mapM_cons, each a mem_cons_self, tail]
    rfl

/-- Only the computations for the items count. -/
theorem mapM_congr {f g : α → Checked β} {items : List α}
    (each : ∀ a ∈ items, f a = g a) : items.mapM f = items.mapM g := by
  induction items with
  | nil => rfl
  | cons a rest ih =>
    have tail := ih fun a' mem => each a' (mem_cons_of_mem a mem)
    rw [mapM_cons, mapM_cons, each a mem_cons_self, tail]

/-- A table has the same entries by rows and by columns. -/
theorem rows_perm_columns {α β γ : Type} (rows : List α) (columns : List β) (entry : α → β → γ) :
    (rows.flatMap fun a => columns.map (entry a)).Perm
      (columns.flatMap fun b => rows.map fun a => entry a b) := by
  have tables : ((rows : Multiset α).bind fun a => (columns : Multiset β).map (entry a)) =
      (columns : Multiset β).bind fun b => (rows : Multiset α).map fun a => entry a b :=
    Multiset.bind_map_comm (rows : Multiset α) (columns : Multiset β)
  simpa only [Multiset.map_coe, Multiset.coe_bind, Multiset.coe_eq_coe] using tables

variable {shape : String → List String} {lower : Algebra}

/-- Exchanging structs exchanges each pair of field types. -/
theorem Structs.pairs_swap (a b : Record) : pairs b a = (pairs a b).map Prod.swap := by
  unfold pairs
  rw [← zip_swap a.fields b.fields, map_map, map_map]
  rfl

/-- Structs commute if field types do. -/
theorem Structs.intersect_comm (commutes : lower.Commutes shape) {a b : Record}
    (shapedA : Shaped shape a.toTy) (shapedB : Shaped shape b.toTy) :
    intersect lower a b = intersect lower b a := by
  unfold intersect
  by_cases name : a.name = b.name
  · have names := sameNames shapedA shapedB name
    have left : agree a b = .ok () := if_pos (decide_eq_true names)
    have right : agree b a = .ok () := if_pos (decide_eq_true names.symm)
    have types : ((pairs b a).mapM fun p => lower.intersect [p.1, p.2]) =
        (pairs a b).mapM fun p => lower.intersect [p.1, p.2] := by
      rw [pairs_swap, mapM_map]
      apply mapM_congr
      intro p mem
      obtain ⟨⟨f, g⟩, both, rfl⟩ := mem_map.mp mem
      obtain ⟨memF, memG⟩ := of_mem_zip both
      exact commutes g.2 f.2 ((shaped_struct.mp shapedB).2 g memG)
        ((shaped_struct.mp shapedA).2 f memF)
    rw [if_pos name, if_pos name.symm, left, right, types, name, names]
  · rw [if_neg name, if_neg (Ne.symm name)]

namespace Algebra

section Level

variable (keeps : lower.Keeps False (Shaped shape)) (commutes : lower.Commutes shape)

include commutes in
/-- Members commute if field types do. -/
theorem intersectPair_comm {a b : Ty} (shapedA : Shaped shape a) (shapedB : Shaped shape b) :
    intersectPair lower a b = intersectPair lower b a := by
  cases a <;> cases b <;> simp only [intersectPair]
  case number.number x y => rw [Numbers.intersect_comm]
  case string.string x y => rw [Strings.intersect_comm]
  case struct.struct => exact Structs.intersect_comm commutes shapedA shapedB

/-- What two types that are not unions have in common, where they do not clash. -/
def meet (lower : Algebra) (a b : Ty) : Ty := (intersectPair lower a b).toOption.getD .never

/-- Nothing meets `never`. -/
theorem meet_never (lower : Algebra) (b : Ty) : meet lower .never b = .never := by
  cases b <;> rfl

include keeps in
/-- Members of one shape always have an intersection. -/
theorem intersectPair_eq {a b : Ty} (shapedA : Shaped shape a) (shapedB : Shaped shape b) :
    intersectPair lower a b = .ok (meet lower a b) := by
  obtain ⟨t, same, -⟩ :=
    (intersectPair_kept (shapedTier keeps) shapedA shapedB).yields not_false
  rw [meet, same]
  rfl

include keeps in
/-- Two unions are distributed to what each member of the one has in common with each of the
other. -/
theorem distribute_pair {rows columns : List Ty} (shapedR : ∀ t ∈ rows, Shaped shape t)
    (shapedC : ∀ t ∈ columns, Shaped shape t) :
    distribute lower [rows, columns] [.any] =
      .ok ((rows.flatMap fun a => columns.map (meet lower a)).filter fun t => !t.isNever) := by
  have first : (([.any] : List Ty).flatMap fun p => rows.map fun m => (p, m)).mapM
      (fun p => intersectPair lower p.1 p.2) = .ok rows := by
    simp only [flatMap_singleton, mapM_map]
    rw [mapM_eq_map (g := fun t => t) fun t _ => by cases t <;> rfl, map_id']
  have second : ((rows.filter fun t => !t.isNever).flatMap fun p =>
      columns.map fun m => (p, m)).mapM (fun p => intersectPair lower p.1 p.2) =
        .ok ((rows.filter fun t => !t.isNever).flatMap fun a => columns.map (meet lower a)) := by
    rw [mapM_eq_map (g := fun p => meet lower p.1 p.2), map_flatMap]
    · simp only [map_map]
      rfl
    · intro p mem
      obtain ⟨a, memA, mem⟩ := mem_flatMap.mp mem
      obtain ⟨b, memB, rfl⟩ := mem_map.mp mem
      exact intersectPair_eq keeps (shapedR a (mem_filter.mp memA).1) (shapedC b memB)
  -- A row of an empty member has empty entries only, which are left out in any case.
  have empty (a : Ty) (never : a.isNever = true) :
      (columns.map (meet lower a)).filter (fun t => !t.isNever) = [] := by
    obtain rfl := isNever_iff.mp never
    simp [meet_never, isNever]
  have rest : ((rows.filter fun t => !t.isNever).flatMap fun a =>
      columns.map (meet lower a)).filter (fun t => !t.isNever) =
        (rows.flatMap fun a => columns.map (meet lower a)).filter fun t => !t.isNever := by
    clear first second shapedR
    induction rows with
    | nil => rfl
    | cons a rows ih =>
      by_cases never : a.isNever = true
      · simp [never, empty a never, ih]
      · simp [never, ih]
  simp only [distribute, first, bind, Except.bind, second]
  rw [rest]
  rfl

/-- Intersection of two members. -/
theorem intersectOver_pair {a b : Ty} (valueA : a.isValue = true) (valueB : b.isValue = true) :
    intersectOver lower [a, b] = intersectPair lower a b := by
  have gathered : gather lower .any [a, b] = (intersectPair lower a b).map fun both =>
      if both.isNever then none else some (both, []) := by
    have single : gather lower .any [a, b] = intersectPair lower a b >>= fun both =>
        if both.isNever then pure none else pure (some (both, [])) := by
      cases a <;> cases b <;> first | rfl | simp [isValue, kind?] at valueA valueB
    rw [single]
    cases intersectPair lower a b with
    | error c => rfl
    | ok both => cases both <;> rfl
  rw [intersectOver, gathered]
  cases intersectPair lower a b with
  | error c => rfl
  | ok both => cases both <;> rfl

include keeps commutes in
/-- A level commutes if the level below does. -/
theorem intersectOver_comm {a b : Ty} (shapedA : Shaped shape a) (shapedB : Shaped shape b) :
    intersectOver lower [a, b] = intersectOver lower [b, a] := by
  have values (valueA : a.isValue = true) (valueB : b.isValue = true) :
      intersectOver lower [a, b] = intersectOver lower [b, a] := by
    rw [intersectOver_pair valueA valueB, intersectOver_pair valueB valueA]
    exact intersectPair_comm commutes shapedA shapedB
  cases a <;> cases b <;> try rfl
  case number.number => exact values rfl rfl
  case string.string => exact values rfl rfl
  case struct.struct => exact values rfl rfl
  case union.union rows columns =>
    have shapedR := shaped_union.mp shapedA
    have shapedC := shaped_union.mp shapedB
    have meets : (rows.flatMap fun a => columns.map (meet lower a)).Perm
        (columns.flatMap fun b => rows.map (meet lower b)) := by
      refine (rows_perm_columns rows columns (meet lower)).trans ?_
      refine .flatMap (.refl columns) fun b memB => .of_eq ?_
      apply map_congr_left
      intro a memA
      rw [meet, meet, intersectPair_comm commutes (shapedR a memA) (shapedC b memB)]
    show (distribute lower [rows, columns] [.any] >>= unionOver lower) =
      (distribute lower [columns, rows] [.any] >>= unionOver lower)
    rw [distribute_pair keeps shapedR shapedC, distribute_pair keeps shapedC shapedR]
    exact unionOver_perm (meets.filter _) lower

end Level

/-- All levels commute. -/
theorem commutes_level (shape : String → List String) (n : Nat) : (level n).Commutes shape := by
  induction n with
  | zero => exact fun a b _ _ => rfl
  | succ n ih => exact fun a b => intersectOver_comm (level_keeps_shaped n) ih

end Algebra

namespace Ty

/-- Two types have one intersection in either order. -/
theorem intersectionOf_comm {a b : Ty} (shapedA : Shaped shape a) (shapedB : Shaped shape b) :
    intersectionOf [a, b] = intersectionOf [b, a] := by
  unfold intersectionOf
  rw [nestingItems_perm (.swap b a [])]
  exact Algebra.commutes_level shape _ a b shapedA shapedB

/-- Types whose structs of one name have the same fields have these by an assignment of field
names. -/
theorem exists_shaped {types : List Ty} (consistent : Consistent types) :
    ∃ shape, ∀ t ∈ types, Shaped shape t := by
  obtain ⟨shape, names⟩ := exists_shape consistent
  refine ⟨shape, fun t mem s part => ?_⟩
  cases s with
  | struct name fields => exact names mem part
  | _ => trivial

/-- The order of operands does not matter. Types that go together have the same union in every
order, and any two of them the same intersection both ways round, without a clash. -/
theorem reordered_results {items : List Ty} (consistent : Consistent items) :
    (∃ u, unionOf items = .ok u ∧
      ∀ items' : List Ty, items'.Perm items → unionOf items' = .ok u) ∧
    ∀ a ∈ items, ∀ b ∈ items,
      ∃ u, intersectionOf [a, b] = .ok u ∧ intersectionOf [b, a] = .ok u := by
  obtain ⟨shape, shaped⟩ := exists_shaped consistent
  constructor
  · obtain ⟨u, same, -⟩ := unionOf_shaped shaped
    refine ⟨u, same, fun items' perm => ?_⟩
    rw [unionOf_perm perm, same]
  · intro a memA b memB
    have shapedA := shaped a memA
    have shapedB := shaped b memB
    have both : ∀ t ∈ [a, b], Shaped shape t := by simp [shapedA, shapedB]
    obtain ⟨u, same, -⟩ := intersectionOf_shaped both
    exact ⟨u, same, (intersectionOf_comm shapedB shapedA).trans same⟩

open Sample

/-- Overlapping types in either order. -/
theorem reordered_results_overlapping : Consistent overlapping ∧
    (∃ u, unionOf overlapping = .ok u ∧ unionOf overlapping.reverse = .ok u) ∧
    ∃ u, intersectionOf [digitsOrWord, number (.reals (.fin 3) (.fin 20))] = .ok u ∧
      intersectionOf [number (.reals (.fin 3) (.fin 20)), digitsOrWord] = .ok u := by
  have consistent : Consistent overlapping := by decide
  obtain ⟨⟨u, same, reordered⟩, exchanged⟩ := reordered_results consistent
  refine ⟨consistent, ⟨u, same, reordered _ (reverse_perm _)⟩, ?_⟩
  exact exchanged _ (by decide) _ (by decide)

end Ty

end TypeFlow
