import TypeFlow.Ty.Order
import TypeFlow.Proofs.Num.Order

/-!
# The canonical order is lawful

Comparison is a linear order on numbers, number types, string types and types: it is the same
both ways round, answers "equal" for equal types only, and is transitive. Strictly increasing
lists are therefore determined by their items, which is what makes a canonical union canonical.
-/

namespace TypeFlow

open List
open Std (OrientedCmp TransCmp LawfulEqCmp ReflCmp)

/-- A comparison that is oriented, strict and definite is a lawful order. -/
theorem transCmp_of_lt_trans {α : Type} {cmp : α → α → Ordering}
    (swap : ∀ a b, cmp b a = (cmp a b).swap) (eq_of_eq : ∀ a b, cmp a b = .eq → a = b)
    (lt_trans : ∀ a b c, cmp a b = .lt → cmp b c = .lt → cmp a c = .lt) : TransCmp cmp where
  eq_swap {a b} := swap b a
  isLE_trans {a b c} left right := by
    rw [Ordering.isLE_iff_eq_lt_or_eq_eq] at left right ⊢
    rcases left with left | left
    · rcases right with right | right
      · exact .inl (lt_trans a b c left right)
      · exact .inl (eq_of_eq b c right ▸ left)
    · rw [eq_of_eq a b left]
      exact right

/-- Lexicographic order is transitive if its parts are. -/
theorem then_lt_trans {α : Type} {cmp : α → α → Ordering} {a b c : α} {o p q : Ordering}
    (self : cmp a a = .eq) (eq_of_eq : cmp a b = .eq → a = b) (eq_of_eq' : cmp b c = .eq → b = c)
    (first : cmp a b = .lt → cmp b c = .lt → cmp a c = .lt)
    (second : a = b → b = c → o = .lt → p = .lt → q = .lt)
    (left : (cmp a b).then o = .lt) (right : (cmp b c).then p = .lt) :
    (cmp a c).then q = .lt := by
  rw [Ordering.then_eq_lt] at left right ⊢
  rcases left with left | ⟨same, left⟩
  · rcases right with right | ⟨same', _⟩
    · exact .inl (first left right)
    · exact .inl (eq_of_eq' same' ▸ left)
  · obtain rfl := eq_of_eq same
    rcases right with right | ⟨same', right⟩
    · exact .inl right
    · obtain rfl := eq_of_eq' same'
      exact .inr ⟨self, second rfl rfl left right⟩

/-- Lexicographic order turns round with its parts. -/
theorem then_swap {o o' p p' : Ordering} (first : o' = o.swap) (second : p' = p.swap) :
    o'.then p' = (o.then p).swap := by
  rw [Ordering.swap_then, first, second]

instance : LawfulEqCmp Num.compare where
  compare_self := Num.compare_eq_eq_iff.mpr rfl
  eq_of_compare := Num.compare_eq_eq_iff.mp

instance : TransCmp Num.compare :=
  open scoped Num.Linear in
  transCmp_of_lt_trans Num.compare_swap (fun _ _ => Num.compare_eq_eq_iff.mp)
    (fun _ _ _ left right => Num.compare_eq_lt_iff.mpr
      ((Num.compare_eq_lt_iff.mp left).trans (Num.compare_eq_lt_iff.mp right)))

/-- Pairs of bounds are ordered transitively. -/
theorem bounds_lt_trans {a b c d e f : Num}
    (left : (a.compare c).then (b.compare d) = .lt)
    (right : (c.compare e).then (d.compare f) = .lt) :
    (a.compare e).then (b.compare f) = .lt :=
  then_lt_trans ReflCmp.compare_self LawfulEqCmp.eq_of_compare LawfulEqCmp.eq_of_compare
    TransCmp.lt_trans (fun _ _ => TransCmp.lt_trans) left right

instance : LawfulEqCmp NumberTy.compare where
  compare_self {a} := by
    have same (x : Num) : x.compare x = .eq := ReflCmp.compare_self
    cases a <;> simp [NumberTy.compare, same]
  eq_of_compare {a b} same := by
    cases a <;> cases b <;> simp_all [NumberTy.compare]

instance : TransCmp NumberTy.compare := by
  refine transCmp_of_lt_trans ?_ (fun _ _ => LawfulEqCmp.eq_of_compare) ?_
  · intro a b
    cases a <;> cases b <;>
      first
        | rfl
        | exact Num.compare_swap _ _
        | exact then_swap (Num.compare_swap _ _) (Num.compare_swap _ _)
  · intro a b c left right
    cases a <;> cases b <;> cases c <;> simp only [NumberTy.compare, reduceCtorEq] at left right ⊢
    · exact TransCmp.lt_trans left right
    · exact bounds_lt_trans left right
    · exact bounds_lt_trans left right

instance : LawfulEqCmp StringTy.compare where
  compare_self {a} := by cases a <;> simp [StringTy.compare]
  eq_of_compare {a b} same := by cases a <;> cases b <;> simp_all [StringTy.compare]

instance : TransCmp StringTy.compare := by
  refine transCmp_of_lt_trans ?_ (fun _ _ => LawfulEqCmp.eq_of_compare) ?_
  · intro a b
    cases a <;> cases b <;> first | rfl | exact Std.OrientedOrd.eq_swap
  · intro a b c left right
    cases a <;> cases b <;> cases c <;> simp only [StringTy.compare, reduceCtorEq] at left right ⊢
    exact TransCmp.lt_trans left right

namespace Ty

variable {fs gs : List (String × Ty)} {xs ys : List Ty} {a b : Ty}

/-- Fields that compare as equal are equal. -/
theorem eq_of_compareFields (each : ∀ f ∈ fs, ∀ t, f.2.compare t = .eq → f.2 = t)
    (length : fs.length = gs.length) (same : compareFields fs gs = .eq) : fs = gs := by
  induction fs generalizing gs with
  | nil => exact (length_eq_zero_iff.mp length.symm).symm
  | cons f fs ih =>
    cases gs with
    | nil => simp at length
    | cons g gs =>
      simp only [compareFields, Ordering.then_eq_eq] at same
      have name : f.1 = g.1 := LawfulEqCmp.eq_of_compare same.1
      have type : f.2 = g.2 := each f mem_cons_self g.2 same.2.1
      have tail := ih (fun f' mem => each f' (mem_cons_of_mem f mem)) (by simpa using length)
        same.2.2
      rw [Prod.ext name type, tail]

/-- Items that compare as equal are equal. -/
theorem eq_of_compareItems (each : ∀ x ∈ xs, ∀ t, x.compare t = .eq → x = t)
    (same : compareItems xs ys = .eq) : xs = ys := by
  induction xs generalizing ys with
  | nil => cases ys <;> simp_all [compareItems]
  | cons x xs ih =>
    cases ys with
    | nil => simp [compareItems] at same
    | cons y ys =>
      simp only [compareItems, Ordering.then_eq_eq] at same
      have head := each x mem_cons_self y same.1
      have tail := ih (fun x' mem => each x' (mem_cons_of_mem x mem)) same.2
      rw [head, tail]

/-- Types that compare as equal are equal. -/
theorem eq_of_compare (a b : Ty) (same : a.compare b = .eq) : a = b := by
  induction a using Ty.induction generalizing b with
  | struct name fields each =>
    cases b with
    | struct name' fields' =>
      simp only [compare, Ordering.then_eq_eq] at same
      have length : fields.length = fields'.length := LawfulEqCmp.eq_of_compare same.1
      have names : name = name' := LawfulEqCmp.eq_of_compare same.2.1
      rw [names, eq_of_compareFields each length same.2.2]
    | _ => simp [compare, rank] at same
  | union items each =>
    cases b with
    | union items' => rw [eq_of_compareItems each same]
    | _ => simp [compare, rank] at same
  | _ => cases b <;> simp_all [compare, rank]

/-- Exchanging lists of fields turns the answer round. -/
theorem compareFields_swap (each : ∀ f ∈ fs, ∀ t, t.compare f.2 = (f.2.compare t).swap)
    (gs : List (String × Ty)) : compareFields gs fs = (compareFields fs gs).swap := by
  induction fs generalizing gs with
  | nil => cases gs <;> rfl
  | cons f fs ih =>
    cases gs with
    | nil => rfl
    | cons g gs =>
      have head := each f mem_cons_self g.2
      have tail := ih (fun f' mem => each f' (mem_cons_of_mem f mem)) gs
      exact then_swap Std.OrientedOrd.eq_swap (then_swap head tail)

/-- Exchanging lists of items turns the answer round. -/
theorem compareItems_swap (each : ∀ x ∈ xs, ∀ t, t.compare x = (x.compare t).swap)
    (ys : List Ty) : compareItems ys xs = (compareItems xs ys).swap := by
  induction xs generalizing ys with
  | nil => cases ys <;> rfl
  | cons x xs ih =>
    cases ys with
    | nil => rfl
    | cons y ys =>
      have head := each x mem_cons_self y
      exact then_swap head (ih (fun x' mem => each x' (mem_cons_of_mem x mem)) ys)

/-- Exchanging types turns the answer round. -/
theorem compare_swap (a b : Ty) : b.compare a = (a.compare b).swap := by
  induction a using Ty.induction generalizing b with
  | struct name fields each =>
    cases b with
    | struct name' fields' =>
      exact then_swap Std.OrientedOrd.eq_swap
        (then_swap Std.OrientedOrd.eq_swap (compareFields_swap each fields'))
    | _ => rfl
  | union items each =>
    cases b with
    | union items' => exact compareItems_swap each items'
    | _ => rfl
  | number n =>
    cases b with
    | number m =>
      simp only [compare]
      exact OrientedCmp.eq_swap
    | _ => rfl
  | string s =>
    cases b with
    | string t =>
      simp only [compare]
      exact OrientedCmp.eq_swap
    | _ => rfl
  | never => cases b <;> rfl
  | any => cases b <;> rfl

/-- A type equals itself. -/
theorem compare_self (a : Ty) : a.compare a = .eq := by
  have opposite := compare_swap a a
  cases same : a.compare a <;> simp_all

/-- Fields are ordered transitively. -/
theorem compareFields_lt_trans {fs gs hs : List (String × Ty)}
    (each : ∀ f ∈ fs, ∀ b c, f.2.compare b = .lt → b.compare c = .lt → f.2.compare c = .lt)
    (length : fs.length = gs.length) (length' : gs.length = hs.length)
    (left : compareFields fs gs = .lt) (right : compareFields gs hs = .lt) :
    compareFields fs hs = .lt := by
  induction fs generalizing gs hs with
  | nil => simp [compareFields] at left
  | cons f fs ih =>
    cases gs with
    | nil => simp at length
    | cons g gs =>
      cases hs with
      | nil => simp at length'
      | cons h hs =>
        refine then_lt_trans ReflCmp.compare_self LawfulEqCmp.eq_of_compare
          LawfulEqCmp.eq_of_compare TransCmp.lt_trans (fun _ _ => ?_) left right
        refine then_lt_trans (compare_self _) (eq_of_compare _ _) (eq_of_compare _ _)
          (each f mem_cons_self g.2 h.2) (fun _ _ => ?_)
        exact ih (fun f' mem => each f' (mem_cons_of_mem f mem)) (by simpa using length)
          (by simpa using length')

/-- Items are ordered transitively. -/
theorem compareItems_lt_trans {xs ys zs : List Ty}
    (each : ∀ x ∈ xs, ∀ b c, x.compare b = .lt → b.compare c = .lt → x.compare c = .lt)
    (left : compareItems xs ys = .lt) (right : compareItems ys zs = .lt) :
    compareItems xs zs = .lt := by
  induction xs generalizing ys zs with
  | nil => cases ys <;> cases zs <;> simp_all [compareItems]
  | cons x xs ih =>
    cases ys with
    | nil => simp [compareItems] at left
    | cons y ys =>
      cases zs with
      | nil => simp [compareItems] at right
      | cons z zs =>
        exact then_lt_trans (compare_self x) (eq_of_compare x y) (eq_of_compare y z)
          (each x mem_cons_self y z)
          (fun _ _ => ih (fun x' mem => each x' (mem_cons_of_mem x mem))) left right

/-- The order goes by kind first. -/
theorem rank_le_of_compare (lt : a.compare b = .lt) : a.rank ≤ b.rank := by
  cases a <;> cases b <;> simp_all [compare, rank, Nat.compare_eq_lt]

/-- Types of different kinds are ordered by kind. -/
theorem compare_of_rank_lt (lt : a.rank < b.rank) : a.compare b = .lt := by
  cases a <;> cases b <;> simp_all [compare, rank, Nat.compare_eq_lt]

/-- Transitivity is a matter of types of one kind. -/
theorem compare_lt_trans_of_kind
    (kind : ∀ b c, b.rank = a.rank → c.rank = a.rank → a.compare b = .lt → b.compare c = .lt →
      a.compare c = .lt) (b c : Ty) (left : a.compare b = .lt) (right : b.compare c = .lt) :
    a.compare c = .lt := by
  have lower := rank_le_of_compare left
  have upper := rank_le_of_compare right
  rcases Nat.lt_or_ge a.rank c.rank with apart | same
  · exact compare_of_rank_lt apart
  · exact kind b c (by omega) (by omega) left right

/-- The order of types is transitive. -/
theorem compare_lt_trans (a b c : Ty) (left : a.compare b = .lt) (right : b.compare c = .lt) :
    a.compare c = .lt := by
  induction a using Ty.induction generalizing b c with
  | struct name fields each =>
    refine compare_lt_trans_of_kind (fun b c kind kind' left right => ?_) b c left right
    cases b <;> cases c <;> simp [rank] at kind kind'
    refine then_lt_trans ReflCmp.compare_self LawfulEqCmp.eq_of_compare
      LawfulEqCmp.eq_of_compare TransCmp.lt_trans (fun length length' => ?_) left right
    refine then_lt_trans ReflCmp.compare_self LawfulEqCmp.eq_of_compare
      LawfulEqCmp.eq_of_compare TransCmp.lt_trans (fun _ _ => ?_)
    exact compareFields_lt_trans each length length'
  | union items each =>
    refine compare_lt_trans_of_kind (fun b c kind kind' left right => ?_) b c left right
    cases b <;> cases c <;> simp [rank] at kind kind'
    exact compareItems_lt_trans each left right
  | number n =>
    refine compare_lt_trans_of_kind (fun b c kind kind' left right => ?_) b c left right
    cases b <;> cases c <;> simp [rank] at kind kind'
    simp only [compare] at left right ⊢
    exact TransCmp.lt_trans left right
  | string s =>
    refine compare_lt_trans_of_kind (fun b c kind kind' left right => ?_) b c left right
    cases b <;> cases c <;> simp [rank] at kind kind'
    simp only [compare] at left right ⊢
    exact TransCmp.lt_trans left right
  | never =>
    refine compare_lt_trans_of_kind (fun b c kind _ left _ => ?_) b c left right
    cases b <;> simp [rank, compare] at kind left
  | any =>
    refine compare_lt_trans_of_kind (fun b c kind _ left _ => ?_) b c left right
    cases b <;> simp [rank, compare] at kind left

end Ty

instance : LawfulEqCmp Ty.compare where
  compare_self {a} := a.compare_self
  eq_of_compare {a b} := a.eq_of_compare b

instance : TransCmp Ty.compare :=
  transCmp_of_lt_trans Ty.compare_swap Ty.eq_of_compare Ty.compare_lt_trans

namespace Ty

/-- Types are in a linear order, however deep structs and unions are nested in them: of two types
one is not after the other, what is not after a third type by way of a second one is not after it
directly, and only equal types are not after each other. Comparison answers "equal" for equal types
and for no others, and the opposite when the types are exchanged. Among numbers `nan` is last. -/
theorem compare_linear (a b c : Ty) :
    ((a.compare b).isLE = true ∨ (b.compare a).isLE = true) ∧
    ((a.compare b).isLE = true → (b.compare c).isLE = true → (a.compare c).isLE = true) ∧
    ((a.compare b).isLE = true → (b.compare a).isLE = true → a = b) ∧
    (a.compare b = .eq ↔ a = b) ∧
    b.compare a = (a.compare b).swap ∧
    ∀ x, x ≠ .nan → (literal x).compare (literal .nan) = .lt := by
  have opposite := compare_swap a b
  refine ⟨?_, TransCmp.isLE_trans, fun left right => ?_, ?_, opposite, fun x number => ?_⟩
  · rw [opposite]
    cases a.compare b <;> simp
  · refine eq_of_compare a b ?_
    rw [opposite] at right
    cases order : a.compare b <;> simp_all
  · exact ⟨eq_of_compare a b, fun same => same ▸ compare_self a⟩
  · cases x with
    | nan => exact absurd rfl number
    | _ => rfl

/-- Boxes inside boxes. -/
theorem compare_linear_nested :
    let box (t : Ty) : Ty := struct "box" [("in", t)]
    let small := box (union [literal 1, string .all])
    let middle := box (union [literal 1, box (literal .posInf)])
    let large := box (union [literal 1, box (literal .nan)])
    (small.compare middle).isLE = true ∧ (middle.compare large).isLE = true ∧
      (small.compare large).isLE = true ∧ ¬ large = middle ∧
      (large.compare small).isLE = false := by
  intro box small middle large
  have first : (small.compare middle).isLE = true := by decide
  have second : (middle.compare large).isLE = true := by decide
  have third := (compare_linear small middle large).2.1 first second
  have apart : ¬ middle.compare large = .eq := by decide
  refine ⟨first, second, third, fun same => ?_, ?_⟩
  · exact apart ((compare_linear middle large small).2.2.2.1.mpr same.symm)
  · have differ : small ≠ large := by decide
    exact Bool.eq_false_iff.mpr fun back =>
      differ ((compare_linear small large small).2.2.1 third back)

end Ty

/-- Records that are one type are one record. -/
theorem Record.toTy_injective {a b : Record} (same : a.toTy = b.toTy) : a = b := by
  cases a
  cases b
  simpa [toTy] using same

instance : LawfulEqCmp Record.compare where
  compare_self {a} := a.toTy.compare_self
  eq_of_compare {a b} same := Record.toTy_injective (Ty.eq_of_compare a.toTy b.toTy same)

instance : TransCmp Record.compare :=
  transCmp_of_lt_trans (fun a b => Ty.compare_swap a.toTy b.toTy)
    (fun a b same => Record.toTy_injective (Ty.eq_of_compare a.toTy b.toTy same))
    fun a b c => Ty.compare_lt_trans a.toTy b.toTy c.toTy

/-- Each item comes before the next ones. -/
def Increasing {α : Type} (cmp : α → α → Ordering) (items : List α) : Prop :=
  items.Pairwise (cmp · · = .lt)
deriving Decidable

/-- An increasing list is determined by its items. -/
theorem Increasing.eq_of_mem_iff {α : Type} {cmp : α → α → Ordering} [TransCmp cmp]
    {items items' : List α} (increasing : Increasing cmp items)
    (increasing' : Increasing cmp items') (same : ∀ x, x ∈ items ↔ x ∈ items') :
    items = items' := by
  have irreflexive (x : α) : ¬ cmp x x = .lt := by simp [ReflCmp.compare_self]
  have nodup {xs : List α} (increasing : Increasing cmp xs) : xs.Nodup := by
    refine List.Pairwise.imp (fun {x y} less => ?_) increasing
    rintro rfl
    exact irreflexive x less
  have perm := (perm_ext_iff_of_nodup (nodup increasing) (nodup increasing')).mpr same
  refine perm.eq_of_pairwise (fun x y _ _ less greater => ?_) increasing increasing'
  exact absurd (TransCmp.lt_trans less greater) (irreflexive x)

namespace Sorted

variable {α : Type} {cmp : α → α → Ordering} [LawfulEqCmp cmp] {x : α} {items : List α}

/-- Inserting adds one item. -/
theorem mem_insert_iff {z : α} : z ∈ insert cmp x items ↔ z = x ∨ z ∈ items :=
  mem_insert (fun _ _ => LawfulEqCmp.eq_of_compare) x z items

/-- Sorting keeps the items. -/
@[simp] theorem mem_ofList {z : α} : z ∈ ofList cmp items ↔ z ∈ items := by
  suffices ∀ sorted, z ∈ items.foldl (fun sorted x => insert cmp x sorted) sorted ↔
      z ∈ sorted ∨ z ∈ items by simpa [ofList] using this []
  induction items with
  | nil => simp
  | cons x items ih =>
    intro sorted
    rw [foldl_cons, ih, mem_insert_iff, mem_cons, or_comm (a := z = x), or_assoc]

omit [LawfulEqCmp cmp] in
/-- Inserting adds at most one item. -/
theorem length_insert_le (x : α) (items : List α) :
    (insert cmp x items).length ≤ items.length + 1 := by
  induction items with
  | nil => simp [insert]
  | cons y rest ih =>
    cases order : cmp x y <;> simp [insert, order]
    exact ih

omit [LawfulEqCmp cmp] in
/-- Sorting adds no item. -/
theorem length_ofList_le (cmp : α → α → Ordering) (items : List α) :
    (ofList cmp items).length ≤ items.length := by
  suffices ∀ sorted, (items.foldl (fun sorted x => insert cmp x sorted) sorted).length ≤
      sorted.length + items.length by simpa [ofList] using this []
  induction items with
  | nil => simp
  | cons x items ih =>
    intro sorted
    have one : (insert cmp x sorted).length ≤ sorted.length + 1 := length_insert_le x sorted
    have others := ih (insert cmp x sorted)
    rw [foldl_cons, length_cons]
    omega

variable [TransCmp cmp]

/-- Inserting keeps a list increasing. -/
theorem increasing_insert (increasing : Increasing cmp items) :
    Increasing cmp (insert cmp x items) := by
  induction items with
  | nil => simp [insert, Increasing]
  | cons y rest ih =>
    obtain ⟨first, others⟩ := pairwise_cons.mp increasing
    cases order : cmp x y with
    | lt =>
      rw [insert, order]
      refine pairwise_cons.mpr ⟨fun z mem => ?_, increasing⟩
      rcases mem_cons.mp mem with rfl | mem
      · exact order
      · exact TransCmp.lt_trans order (first z mem)
    | eq => simpa [insert, order] using increasing
    | gt =>
      rw [insert, order]
      refine pairwise_cons.mpr ⟨fun z mem => ?_, ih others⟩
      rcases mem_insert_iff.mp mem with rfl | mem
      · exact OrientedCmp.lt_of_gt order
      · exact first z mem

/-- Sorted lists are increasing. -/
theorem increasing_ofList (items : List α) : Increasing cmp (ofList cmp items) := by
  suffices ∀ sorted, Increasing cmp sorted →
      Increasing cmp (items.foldl (fun sorted x => insert cmp x sorted) sorted) from
    this [] List.Pairwise.nil
  induction items with
  | nil => exact fun sorted increasing => increasing
  | cons x items ih => exact fun sorted increasing => ih _ (increasing_insert increasing)

/-- Sorting depends on the items only. -/
theorem ofList_congr {items items' : List α} (same : ∀ x, x ∈ items ↔ x ∈ items') :
    ofList cmp items = ofList cmp items' := by
  refine (increasing_ofList items).eq_of_mem_iff (increasing_ofList items') fun x => ?_
  rw [mem_ofList, mem_ofList, same]

end Sorted

end TypeFlow
