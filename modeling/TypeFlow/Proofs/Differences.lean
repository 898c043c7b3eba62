import TypeFlow.Proofs.NormalForm
import TypeFlow.Proofs.Subsets

/-!
# Taking out all of a type

Nothing should be left of a type when another one is taken out that has all its values. For numbers
and texts this is so. A struct is only gone when it is inside a single struct of the other type, and
as what is left is united again after each removal, it can come to lie across two of them. It cannot
where no union lists two structs of one name: then the subset test misses nothing.

The difference of number types may keep too much, so what is left of a union without one of its
parts need not be the other part. For two number or text types it is inside the other part.
-/

namespace TypeFlow

open List hiding any
open Ty

namespace Ty

/-- No two structs of the list have one name. -/
def OneOfEach (types : List Ty) : Prop := ((types.filterMap record?).map (·.name)).Nodup

instance (types : List Ty) : Decidable (OneOfEach types) :=
  inferInstanceAs (Decidable (List.Nodup _))

/-- The type is not a union that lists two structs of one name. -/
def UnrepeatedHere : Ty → Prop
  | union items => OneOfEach items
  | _ => True

instance (t : Ty) : Decidable t.UnrepeatedHere := by
  rcases t <;> dsimp only [UnrepeatedHere] <;> infer_instance

/-- No union in the type lists two structs of one name. -/
def Unrepeated (t : Ty) : Prop := t.Everywhere UnrepeatedHere
deriving Decidable

/-- A union repeats no struct if its items do not. -/
theorem unrepeated_union {items : List Ty} :
    (union items).Unrepeated ↔ OneOfEach items ∧ ∀ t ∈ items, t.Unrepeated := everywhere_union

/-- Leaving out types leaves no two structs of one name. -/
theorem Unrepeated.sublist {items kept : List Ty} (unrepeated : (union items).Unrepeated)
    (sublist : kept.Sublist items) : (union kept).Unrepeated := by
  obtain ⟨apart, each⟩ := unrepeated_union.mp unrepeated
  refine unrepeated_union.mpr ⟨apart.sublist ((sublist.filterMap record?).map _), fun t mem => ?_⟩
  exact each t (sublist.subset mem)

/-- The members of such a type are such types, and no two of them are structs of one name. -/
theorem Unrepeated.members {t : Ty} (unrepeated : t.Unrepeated) :
    (union t.members).Unrepeated := by
  cases t with
  | union items => exact unrepeated
  | never => exact unrepeated_union.mpr ⟨nodup_nil, by simp [Ty.members]⟩
  | struct name fields =>
    exact unrepeated_union.mpr ⟨nodup_singleton name, by simpa [Ty.members] using unrepeated⟩
  | _ => exact unrepeated_union.mpr ⟨nodup_nil, by simpa [Ty.members] using unrepeated⟩

/-- One name leads to one list of fields. -/
theorem OneOfEach.fields_eq {types : List Ty} (apart : OneOfEach types) {name : String}
    {fields fields' : List (String × Ty)} (mem : struct name fields ∈ types)
    (mem' : struct name fields' ∈ types) : fields = fields' := by
  have found : (⟨name, fields⟩ : Record) ∈ types.filterMap record? :=
    mem_filterMap.mpr ⟨_, mem, rfl⟩
  have found' : (⟨name, fields'⟩ : Record) ∈ types.filterMap record? :=
    mem_filterMap.mpr ⟨_, mem', rfl⟩
  exact (Record.mk.inj (inj_on_of_nodup_map apart found found' rfl)).2

/-- Fields are inside others when those accept all their values, where this is so for each type. -/
theorem insideFields_of_values {fields fields' : List (String × Ty)}
    (names : fields.map (·.1) = fields'.map (·.1)) (nonempty : ∀ f ∈ fields, ∃ v, v ∈ f.2)
    (each : ∀ f ∈ fields, ∀ f' ∈ fields', (∀ v, v ∈ f.2 → v ∈ f'.2) → Inside f.2 f'.2)
    (within : ∀ values, hasFields fields values = true → hasFields fields' values = true) :
    InsideFields fields fields' := by
  replace names := Structs.forall₂_names names
  induction names with
  | nil => trivial
  | @cons f f' rest rest' name _ ih =>
    obtain ⟨w, first⟩ := nonempty f mem_cons_self
    have others : ∀ g ∈ rest, ∃ v, v ∈ g.2 := fun g mem => nonempty g (mem_cons_of_mem f mem)
    obtain ⟨values, holds⟩ := exists_hasFields others
    -- The other fields have values, so the field accepts what its counterpart has alone.
    have head (v : Value) (has : v ∈ f.2) : v ∈ f'.2 :=
      (hasFields_cons_cons.mp
        (within ((f.1, v) :: values) (hasFields_cons_cons.mpr ⟨rfl, has, holds⟩))).2.1
    have tail (values : List (String × Value)) (holds : hasFields rest values = true) :
        hasFields rest' values = true :=
      (hasFields_cons_cons.mp
        (within ((f.1, w) :: values) (hasFields_cons_cons.mpr ⟨rfl, first, holds⟩))).2.2
    refine ⟨name, each f mem_cons_self f' mem_cons_self head, ?_⟩
    exact ih others (fun g mem g' mem' =>
      each g (mem_cons_of_mem f mem) g' (mem_cons_of_mem f' mem')) tail

section Values

variable {shape : String → List String}

/-- A struct that several types have together is inside one of them, if no two of these are structs
of its name and its fields are compared by values. -/
theorem exists_insideFields {name : String} {fields : List (String × Ty)} {types : List Ty}
    (sound : Sound shape (struct name fields))
    (each : ∀ t ∈ types, Sound shape t ∧ t.isValue = true)
    (unrepeated : (union types).Unrepeated)
    (fieldwise : ∀ f ∈ fields, ∀ t, Sound shape t → t.Unrepeated → (∀ v, v ∈ f.2 → v ∈ t) →
      Inside f.2 t)
    (within : ∀ v, v ∈ struct name fields → ∃ t ∈ types, v ∈ t) :
    ∃ fields', struct name fields' ∈ types ∧ InsideFields fields fields' := by
  obtain ⟨apart, unrepeatedEach⟩ := unrepeated_union.mp unrepeated
  obtain ⟨names, proper⟩ := sound_struct.mp sound
  have nonempty (f : String × Ty) (mem : f ∈ fields) : ∃ v, v ∈ f.2 :=
    exists_mem f.2 (proper f mem).2.wellFormed (proper f mem).1
  have accepted (values : List (String × Value)) (holds : hasFields fields values = true) :
      ∃ fields', struct name fields' ∈ types ∧ hasFields fields' values = true := by
    obtain ⟨t, mem, member⟩ := within _ (record_mem_iff.mpr ⟨rfl, holds⟩)
    have value := (each t mem).2
    cases t with
    | struct name' fields' =>
      obtain ⟨rfl, holds⟩ := record_mem_iff.mp member
      exact ⟨fields', mem, holds⟩
    | number x => simp [mem_iff, Ty.has] at member
    | string s => simp [mem_iff, Ty.has] at member
    | _ => cases value
  obtain ⟨values, holds⟩ := exists_hasFields nonempty
  obtain ⟨fields', mem', _⟩ := accepted values holds
  obtain ⟨names', proper'⟩ := sound_struct.mp (each _ mem').1
  refine ⟨fields', mem', ?_⟩
  refine insideFields_of_values (names.trans names'.symm) nonempty (fun f mem f' memF' => ?_)
    fun values holds => ?_
  · exact fieldwise f mem f'.2 (proper' f' memF').2
      ((everywhere_struct.mp (unrepeatedEach _ mem')).2 f' memF')
  · obtain ⟨fields'', mem'', holds⟩ := accepted values holds
    exact apart.fields_eq mem'' mem' ▸ holds

/-- A type is inside another one that has all its values and lists no two structs of one name. -/
theorem inside_of_values {a b : Ty} (soundA : Sound shape a) (soundB : Sound shape b)
    (unrepeated : b.Unrepeated) (within : ∀ v, v ∈ a → v ∈ b) : Inside a b := by
  induction a using Ty.induction generalizing b with
  | never => trivial
  | number n => exact fun x has => within _ (mem_number_iff.mpr has)
  | string s => exact fun x has => within _ (mem_string_iff.mpr has)
  | struct name fields each =>
    by_cases proper : b = any
    · exact .inl proper
    · have fieldsSound := (sound_struct.mp soundA).2
      exact .inr (exists_insideFields soundA
        (fun t mem => ⟨soundB.of_mem_members mem, isValue_of_mem_members soundB proper mem⟩)
        unrepeated.members (fun f mem t => each f mem (fieldsSound f mem).2)
        fun v has => (mem_iff_members b v).mp (within v has))
  | union items each =>
    refine inside_union.mpr fun t mem => ?_
    exact each t mem ((sound_union.mp soundA).2 t mem) soundB unrepeated
      fun v has => within v ((mem_union_iff items v).mpr ⟨t, mem, has⟩)
  | any => exact eq_any_of_forall_mem soundB fun v => within v (mem_any v)

/-- Where no two structs have one name, none needs several of them to cover it. -/
theorem undivided_structs {types : List Ty}
    (each : ∀ t ∈ types, Sound shape t ∧ t.isValue = true)
    (unrepeated : (union types).Unrepeated) : Undivided shape .struct types := by
  intro m sound kind within
  obtain ⟨name, fields, rfl⟩ : ∃ name fields, m = struct name fields := by
    cases m <;> simp_all [kind?]
  have fieldsSound := (sound_struct.mp sound).2
  obtain ⟨fields', mem, fieldwise⟩ := exists_insideFields sound each unrepeated
    (fun f mem t => inside_of_values (fieldsSound f mem).2) within
  exact ⟨_, mem, .inr ⟨fields', mem_singleton_self _, fieldwise⟩⟩

end Values

end Ty

namespace Algebra

variable {inv : Invariant} {n : Nat} {lower : Algebra} (lawful : inv.Lawful n lower)
include lawful

/-- No record is left, if each struct is inside one to be taken out, and no two of these have one
name, the first of them apart. -/
theorem withoutOver_leaves_no_record {a b : Ty} (fitsA : inv.Fits (n + 1) a)
    (fitsB : inv.Fits (n + 1) b) (properA : a ≠ any) (properB : b ≠ any)
    (unrepeated : (Ty.union b.members.tail).Unrepeated) (due : MembersDue .struct a b.members) :
    Yields (withoutOver lower a b) fun u => ∀ name values, ¬ Value.record name values ∈ u := by
  let I (left : Ty) (rest : List Ty) : Prop := (Ty.union rest.tail).Unrepeated ∧
    (∀ t ∈ rest, Sound inv.shape t ∧ t.isValue = true) ∧ MembersDue .struct left rest
  have start : I a b.members := by
    refine ⟨unrepeated, fun t mem => ?_, due⟩
    exact ⟨fitsB.1.of_mem_members mem, isValue_of_mem_members fitsB.1 properB mem⟩
  have step (left b : Ty) (rest : List Ty) (next : Ty) (removal : Removal inv (n + 1) left b next)
      (due : I left (b :: rest)) : I next rest := by
    obtain ⟨unrepeated, each, structs⟩ := due
    have each := (forall_mem_cons.mp each).2
    exact ⟨unrepeated.sublist (tail_sublist rest), each,
      removal.membersDue (undivided_structs each unrepeated) structs⟩
  refine (withoutOver_keeps lawful fitsA fitsB properA step properB start).mono ?_
  rintro u (rfl | ⟨fits, proper, _, _, structs⟩) name values member
  · exact not_mem_never _ member
  · obtain ⟨fields, mem, _⟩ := (record_mem_iff_members fits.1 proper).mp member
    obtain ⟨t, none, _⟩ := structs _ mem rfl
    cases none

end Algebra

namespace Invariant

variable {inv : Invariant} {a b : Ty} (keepsA : inv.Keeps a) (keepsB : inv.Keeps b)
  (properA : a ≠ any)
include keepsA keepsB properA

/-- What is missing in the second type are records, and so is what is left. -/
theorem without_leaves_records
    (within : ∀ v, v ∈ a → v ∈ b ∨ ∃ name values, v = .record name values) :
    Yields (a.without b) fun u => ∀ v, v ∈ u → ∃ name values, v = .record name values := by
  obtain ⟨fitsA, fitsB⟩ := fits_pair keepsA keepsB
  exact Algebra.withoutOver_leaves_records (Algebra.lawful_level _) fitsA fitsB properA within

/-- Nothing is left of a type whose values the other one has, if each of its structs is inside one
to be taken out, and no two of these have one name, the first of them apart. -/
theorem without_of_due (properB : b ≠ any) (within : ∀ v, v ∈ a → v ∈ b)
    (unrepeated : (Ty.union b.members.tail).Unrepeated)
    (due : Algebra.MembersDue .struct a b.members) : Yields (a.without b) (· = never) := by
  obtain ⟨fitsA, fitsB⟩ := fits_pair keepsA keepsB
  have noRecord : Yields (a.without b) fun u => ∀ name values, ¬ Value.record name values ∈ u :=
    Algebra.withoutOver_leaves_no_record (Algebra.lawful_level _) fitsA fitsB properA properB
      unrepeated due
  have records := without_leaves_records keepsA keepsB properA fun v member =>
    .inl (within v member)
  refine (((without_yields keepsA keepsB).and records).and noRecord).mono ?_
  rintro u ⟨⟨⟨keeps, _⟩, records⟩, noRecord⟩
  refine (eq_never_iff keeps.1).mpr fun v member => ?_
  obtain ⟨name, values, rfl⟩ := records v member
  exact noRecord name values member

/-- Nothing is left of a type whose values another one has that lists no two structs of one
name. -/
theorem without_of_unrepeated (within : ∀ v, v ∈ a → v ∈ b) (unrepeated : b.Unrepeated) :
    Yields (a.without b) (· = never) := by
  by_cases properB : b = any
  · subst properB
    cases a <;> exact Yields.pure rfl
  · refine without_of_due keepsA keepsB properA properB within
      (unrepeated.members.sublist (tail_sublist _)) ?_
    refine Algebra.membersDue_members keepsA.1 (undivided_structs (fun t mem => ?_)
      unrepeated.members) fun m mem _ v member => ?_
    · exact ⟨keepsB.1.of_mem_members mem, isValue_of_mem_members keepsB.1 properB mem⟩
    · exact within v ((mem_iff_members a v).mpr ⟨m, mem, member⟩)

/-- Taking out a type with a single member is one removal. -/
theorem without_removes (value : b.isValue = true) :
    Yields (a.without b) (Algebra.Removal inv (max a.nesting b.nesting + 1) a b) := by
  obtain ⟨fitsA, fitsB⟩ := fits_pair keepsA keepsB
  exact Algebra.withoutOver_removes (Algebra.lawful_level _) fitsA properA fitsB value

end Invariant

namespace Ty

open Sample

/-- A type taken out of itself: no number and no text is left, and nothing at all if no union lists
two structs of one name, where the first member of the type itself does not count. So a struct may
overlap with the one before it, as long as there is no third one. -/
theorem without_self {a : Ty} (wellFormed : a.WellFormed) (small : a.Small)
    (consistent : Consistent [a]) :
    ∃ u, a.without a = .ok u ∧
      (∀ v, v ∈ u → v ∈ a ∧ ∃ name values, v = .record name values) ∧
      ((union a.members.tail).Unrepeated → u = never) := by
  have each : ∀ t ∈ [a], t.WellFormed ∧ t.Small := by simpa using ⟨wellFormed, small⟩
  obtain ⟨shape, keeps⟩ :=
    exists_keeps (fun t mem => (each t mem).1) (fun t mem => (each t mem).2) consistent
  have keepsA := keeps a mem_cons_self
  by_cases proper : a = any
  · subst proper
    exact ⟨never, rfl, fun v left => absurd left (not_mem_never v), fun _ => rfl⟩
  · have records := Invariant.without_leaves_records keepsA keepsA proper fun v => .inl
    obtain ⟨u, same, ⟨_, values⟩, records⟩ := (Invariant.without_yields keepsA keepsA).and records
    refine ⟨u, same, fun v left => ⟨(values v).1 left, records v left⟩, fun unrepeated => ?_⟩
    have due : Algebra.MembersDue .struct a a.members := fun m mem _ =>
      ⟨m, mem, inside_refl m (keepsA.1.of_mem_members mem)⟩
    obtain ⟨w, same', empty⟩ :=
      Invariant.without_of_due keepsA keepsA proper proper (fun _ member => member) unrepeated due
    obtain rfl := Except.ok.inj (same.symm.trans same')
    exact empty

/-- A type without two structs of one name but the first two, which overlap. -/
theorem without_self_overlapping :
    let a := union [pair digits digitsOrWord, pair (number (.reals (.fin 3) (.fin 20))) digits,
      struct "point" [("x", digitsOrWord), ("y", any)]]
    (a.WellFormed ∧ a.Small ∧ Consistent [a] ∧ (union a.members.tail).Unrepeated) ∧
      a.without a = .ok never := by
  intro a
  have wellFormed : a.WellFormed := by decide
  have small : a.Small := by decide
  have consistent : Consistent [a] := by decide
  have unrepeated : (union a.members.tail).Unrepeated := by decide
  obtain ⟨u, same, _, empty⟩ := without_self wellFormed small consistent
  obtain rfl := empty unrepeated
  exact ⟨⟨wellFormed, small, consistent, unrepeated⟩, same⟩

/-- Records can be left of a type that is taken out of itself. Two structs without the first of
three can become equal in one field and merge into one that lies across both. Where it is a number
that is taken out first, uniting the two structs again can merge them in another way, and structs
that a field lists can merge as well. -/
theorem without_self_leaves :
    let range := fun lo hi : ℚ => number (.reals (.fin lo) (.fin hi))
    let middle := range 3 4
    let sides := union [range 0 3, range 4 10]
    let three := union [pair (range (-1) 10) (range 0 3), pair middle (range 1 4),
      pair sides (range 2 4)]
    let behind := union [bit 5, pair middle (union [bits, text "s"]),
      pair sides (union [bits, text "t"])]
    let outer := fun inner size => struct "outer" [("inner", inner), ("size", size)]
    let nested := union [outer (pair (range (-1) 10) (range 0 3)) (range 0 3),
      outer (union [pair middle (range 1 4), pair sides (range 2 4)]) (range 1 2)]
    (∀ a ∈ [three, behind, nested], a.Normal ∧ a.Small ∧ Consistent [a]) ∧
    (unionOf three.members = .ok three ∧ unionOf nested.members = .ok nested ∧
      unionOf [bit 5, pair middle (bit 0), pair middle (bit 1), pair middle (text "s"),
        pair sides (union [bits, text "t"])] = .ok behind) ∧
    three.without three = .ok (pair middle middle) ∧
    behind.without behind = .ok (pair middle bits) ∧
    nested.without nested = .ok (outer (pair middle middle) (range 1 2)) := by
  decide +kernel

/-- A number or text type. -/
def Primitive : Ty → Prop
  | number _ => True
  | string _ => True
  | _ => False

instance (t : Ty) : Decidable t.Primitive := by
  rcases t <;> dsimp only [Primitive] <;> infer_instance

namespace Primitive

variable {t : Ty} (primitive : t.Primitive)
include primitive

/-- A primitive type is a single member. -/
theorem isValue : t.isValue = true := by
  cases t with
  | number n => rfl
  | string s => rfl
  | _ => exact absurd primitive not_false

/-- A primitive type has no records. -/
theorem not_record (name : String) (values : List (String × Value)) :
    ¬ Value.record name values ∈ t := by
  cases t with
  | number n => simp [mem_iff, Ty.has]
  | string s => simp [mem_iff, Ty.has]
  | _ => exact absurd primitive not_false

/-- A primitive type is the only type in it. -/
theorem everywhere {P : Ty → Prop} (number : ∀ n, P (number n)) (string : ∀ s, P (string s)) :
    t.Everywhere P := by
  cases t with
  | number n => exact everywhere_number.mpr (number n)
  | string s => exact everywhere_string.mpr (string s)
  | _ => exact absurd primitive not_false

/-- Primitive types are flat. -/
theorem flat : t.Flat := primitive.everywhere (fun _ => trivial) fun _ => trivial

/-- Primitive types repeat no struct. -/
theorem unrepeated : t.Unrepeated := primitive.everywhere (fun _ => trivial) fun _ => trivial

end Primitive

/-- What is left of two primitives without the first is in the second. A range can keep more than
the true difference, but only limits of it and what lies between two sides of it, and a type that
has the difference has these as well. -/
theorem mem_of_removal {inv : Invariant} {n : Nat} {a b u rest : Ty} (primitiveA : a.Primitive)
    (primitiveB : b.Primitive) (values : ∀ v, v ∈ u → v ∈ a ∨ v ∈ b)
    (removal : Algebra.Removal inv n u a rest) {v : Value} (left : v ∈ rest) : v ∈ b := by
  have member {m : Ty} (mem : m ∈ u.members) {w : Value} (has : w ∈ m) : w ∈ a ∨ w ∈ b :=
    values w ((mem_iff_members u w).mpr ⟨m, mem, has⟩)
  rcases values v (removal.leaves.of_mem v left) with inA | inB
  case inr => exact inB
  cases a with
  | number y =>
    obtain ⟨x, rfl, _⟩ := exists_number_of_mem inA
    rcases removal.leaves.numbers x y rfl left with every | ⟨p, mem, c, piece, has⟩
    · exact absurd every removal.proper
    have tameP := sound_number.mp (removal.before.1.of_mem_members mem)
    have tameY := sound_number.mp removal.taken.1
    cases b with
    | number z =>
      have filled : p.toSet \ y.toSet ⊆ z.toSet := fun w has =>
        (member mem (mem_number_iff.mpr has.1)).resolve_left has.2
      exact Numbers.without_subset_of_filled tameP tameY filled piece has
    | string s =>
      -- The numbers of the union are all of the first type.
      have inside : Numbers.subset p y = true := by
        refine Numbers.subset_of_has tameP.valid tameY.valid fun w has => ?_
        exact (member mem (mem_number_iff.mpr has)).resolve_right (by simp [mem_iff, Ty.has])
      rw [Numbers.without_of_subset inside] at piece
      cases piece
    | _ => exact absurd primitiveB not_false
  | string s =>
    obtain ⟨m, mem, has, outside⟩ := removal.escapes v left
    have valueM := isValue_of_mem_members removal.before.1 removal.proper mem
    have kind : m.kind? = some .string := by
      by_contra differ
      exact not_mem_of_kind_ne valueM primitiveA.isValue differ v ⟨has, inA⟩
    have undivided : Undivided inv.shape .string [string s, b] :=
      undivided_strings (by simpa using ⟨rfl, primitiveB.isValue⟩)
    obtain ⟨t, memT, inside⟩ := undivided m (removal.before.1.of_mem_members mem) kind
      fun w has => by simpa using member mem has
    rcases mem_pair.mp memT with rfl | rfl
    · exact absurd inside outside
    · exact inside.mem v has
  | _ => exact absurd primitiveA not_false

/-- The union of two number or text types without the one and then without the other is empty,
however the two are fused, absorbed or cut in the union. What is left after the first removal is in
the second type and has all of it that is not in the first. -/
theorem unionOf_without_both {a b : Ty} (primitiveA : a.Primitive) (primitiveB : b.Primitive)
    (wellFormed : ∀ t ∈ [a, b], t.WellFormed) (small : ∀ t ∈ [a, b], t.Small) :
    ∃ u rest, unionOf [a, b] = .ok u ∧ u.without a = .ok rest ∧ rest.without b = .ok never ∧
      (∀ v, v ∈ u ↔ v ∈ a ∨ v ∈ b) ∧ (∀ v, v ∈ rest → v ∈ b) ∧
      ∀ v, v ∈ b → ¬ v ∈ a → v ∈ rest := by
  have flat : ∀ t ∈ [a, b], t.Flat := by simpa using ⟨primitiveA.flat, primitiveB.flat⟩
  obtain ⟨shape, keeps⟩ := exists_keeps wellFormed small (consistent_of_flat flat)
  have keepsA := keeps a mem_cons_self
  have keepsB := keeps b (mem_cons_of_mem a mem_cons_self)
  obtain ⟨u, united, keepsU, values⟩ := unionOf_pair_yields keepsA keepsB
  have proper : u ≠ any := by
    rintro rfl
    rcases (values (.record "" [])).mp (mem_any _) with member | member
    · exact primitiveA.not_record _ _ member
    · exact primitiveB.not_record _ _ member
  obtain ⟨rest, first, removal⟩ := Invariant.without_removes keepsU keepsA proper primitiveA.isValue
  have within (v : Value) (left : v ∈ rest) : v ∈ b :=
    mem_of_removal primitiveA primitiveB (fun v => (values v).mp) removal left
  obtain ⟨_, second, rfl⟩ := Invariant.without_of_unrepeated removal.leaves.fits.keeps keepsB
    removal.ne_any within primitiveB.unrepeated
  refine ⟨u, rest, united, first, second, values, within, fun v member outside => ?_⟩
  exact removal.leaves.mem v ((values v).mpr (.inr member)) outside

/-- In the union the whole range begins after the other one, which stays as it is when whole numbers
are taken out. -/
theorem unionOf_without_both_cut :
    let a := number (.ints (.fin 8) .posInf)
    let b := number (.reals (.fin 0) (.fin 10))
    (a.Primitive ∧ b.Primitive ∧ (∀ t ∈ [a, b], t.WellFormed) ∧ ∀ t ∈ [a, b], t.Small) ∧
    ∃ u rest, unionOf [a, b] = .ok u ∧ u.without a = .ok rest ∧ rest.without b = .ok never ∧
      (∀ v, v ∈ u ↔ v ∈ a ∨ v ∈ b) ∧ (∀ v, v ∈ rest → v ∈ b) ∧
      ∀ v, v ∈ b → ¬ v ∈ a → v ∈ rest := by
  intro a b
  have primitiveA : a.Primitive := by decide
  have primitiveB : b.Primitive := by decide
  have wellFormed : ∀ t ∈ [a, b], t.WellFormed := by decide
  have small : ∀ t ∈ [a, b], t.Small := by decide
  exact ⟨⟨primitiveA, primitiveB, wellFormed, small⟩,
    unionOf_without_both primitiveA primitiveB wellFormed small⟩

end Ty

end TypeFlow
