import TypeFlow.Proofs.Canonical

/-!
# Normal forms of types

Apart from being canonical, the types that the algebra builds keep whole numbers out of the ranges
beside them. Types in this normal form are determined by their values as long as no struct has
more than one field, so there union depends on nothing but the values that are united. Structs
with two fields have several normal forms with the same values, and which of them a union takes
depends on how it was grouped.
-/

namespace TypeFlow

open List Ty

namespace Ty

/-- Sets of whole numbers have nothing in common with the sets of numbers that are not whole. -/
def Trimmed : Ty → Prop
  | union items => ∀ m ∈ items.filterMap number?, ∀ n ∈ items.filterMap number?,
      m.isWhole = true → n.isWhole = false → Numbers.intersect m n = none
  | _ => True

instance (t : Ty) : Decidable t.Trimmed := by
  rcases t <;> dsimp only [Trimmed] <;> infer_instance

/-- The type is canonical, and all unions in it are trimmed. -/
def Normal (t : Ty) : Prop := t.Canonical ∧ t.Everywhere Trimmed
deriving Decidable

/-- A struct has at most one field. -/
def NarrowHere : Ty → Prop
  | struct _ fields => fields.length ≤ 1
  | _ => True

instance (t : Ty) : Decidable t.NarrowHere := by
  rcases t <;> dsimp only [NarrowHere] <;> infer_instance

/-- No struct in the type has more than one field. -/
def Narrow (t : Ty) : Prop := t.Everywhere NarrowHere
deriving Decidable

/-- Narrow types are sound for an assignment of at most one field name to each struct. -/
theorem exists_narrow_shape {shape : String → List String} {types : List Ty}
    (sound : ∀ t ∈ types, Sound shape t) (narrow : ∀ t ∈ types, t.Narrow) :
    ∃ shape', (∀ name, (shape' name).length ≤ 1) ∧ ∀ t ∈ types, Sound shape' t := by
  refine ⟨fun name => (shape name).take 1, fun name => by simp, fun t mem s part => ?_⟩
  have here := sound t mem s part
  have small := narrow t mem s part
  cases s with
  | struct name fields =>
    obtain ⟨names, proper⟩ := here
    refine ⟨?_, proper⟩
    have length : (shape name).length ≤ 1 := by
      rw [← names, length_map]
      exact small
    show _ = (shape name).take 1
    rw [names, take_of_length_le length]
  | _ => exact here

end Ty

/-- Soundness, and that all unions are reduced and trimmed. -/
def Invariant.normal (shape : String → List String) : Invariant where
  shape := shape
  Extra t := (Invariant.canonical shape).Extra t ∧ t.Everywhere Trimmed
  extra_never := ⟨(Invariant.canonical shape).extra_never, everywhere_never.mpr trivial⟩
  extra_any := ⟨(Invariant.canonical shape).extra_any, everywhere_any.mpr trivial⟩
  extra_number n tame :=
    ⟨(Invariant.canonical shape).extra_number n tame, everywhere_number.mpr trivial⟩
  extra_string s := ⟨(Invariant.canonical shape).extra_string s, everywhere_string.mpr trivial⟩
  extra_struct name fields := by
    rw [(Invariant.canonical shape).extra_struct, everywhere_struct]
    simp [Trimmed, forall_and]
  extra_item items extra t mem :=
    ⟨(Invariant.canonical shape).extra_item items extra.1 t mem,
      (everywhere_union.mp extra.2).2 t mem⟩
  extra_union items each irreducible normal := by
    refine ⟨(Invariant.canonical shape).extra_union items
      (fun t mem => ⟨(each t mem).1, (each t mem).2.1⟩) irreducible normal, ?_⟩
    refine everywhere_union.mpr ⟨fun m memM n memN wholeM fraction => ?_,
      fun t mem => (each t mem).2.2⟩
    by_contra meet
    rw [← Option.isNone_iff_eq_none] at meet
    obtain ⟨v, hasM, hasN⟩ :=
      Numbers.exists_has_of_intersect (normal.tame m memM).valid (normal.tame n memN).valid meet
    have wholeN := normal.whole m memM n memN wholeM v hasM hasN
    rw [fraction] at wholeN
    cases wholeN

namespace Ty

section Keeps

variable {shape : String → List String} {t : Ty} (keeps : (Invariant.normal shape).Keeps t)
include keeps

/-- What the operations keep is normal. -/
theorem normal_of_keeps : t.Normal := ⟨⟨keeps.1.wellFormed, keeps.2.1⟩, keeps.2.2⟩

/-- The members of such a type cannot be merged. -/
theorem irreducible_members : IrreducibleBy IsSubset t.members := by
  cases t with
  | union items => exact (everywhere_union.mp keeps.2.1).1
  | never =>
    intro a mem
    cases mem
  | _ =>
    intro a memA b memB differ
    rw [mem_singleton.mp memA, mem_singleton.mp memB] at differ
    exact absurd rfl differ

/-- Its numbers are in normal form. -/
theorem normal_numbersOf : Numbers.Normal t.numbersOf where
  tame := tame_numbersOf keeps.1
  apart m memM n memN differ := by
    by_contra join
    exact irreducible_members keeps _ (mem_numbersOf.mp memM) _ (mem_numbersOf.mp memN)
      (fun same => differ (number.inj same)) join
  whole m memM n memN wholeM v hasM hasN := by
    have tameM := tame_numbersOf keeps.1 m memM
    have tameN := tame_numbersOf keeps.1 n memN
    have trimmed (items : List Ty) (same : t = union items) (fraction : n.isWhole = false) :
        False := by
      subst same
      have apart := (everywhere_union.mp keeps.2.2).1 m memM n memN wholeM fraction
      rw [← Option.isNone_iff_eq_none] at apart
      exact Numbers.not_has_of_intersect_none tameM.valid tameN.valid apart hasM hasN
    cases t with
    | union items =>
      cases wholeN : n.isWhole with
      | true => rfl
      | false => exact absurd (trimmed items rfl wholeN) not_false
    | number k =>
      have single (l : NumberTy) (mem : l ∈ (number k).numbersOf) : l = k := by
        simpa [numbersOf, members, number?] using mem
      rw [single n memN, ← single m memM]
      exact wholeM
    | _ => simp [numbersOf, members, number?] at memM

end Keeps

variable {shape : String → List String} {t : Ty}

/-- A type is made of its members. -/
theorem ofMembers_members (sound : Sound shape t) : ofMembers t.members = t := by
  cases t with
  | union items =>
    obtain ⟨length, _, increasing⟩ := (sound_union.mp sound).1
    have sorted : Sorted.ofList compare items = items :=
      (Sorted.increasing_ofList items).eq_of_mem_iff increasing fun _ => Sorted.mem_ofList
    rw [members, ofMembers, sorted]
    cases items with
    | nil => simp at length
    | cons t rest =>
      cases rest with
      | nil => simp at length
      | cons s rest => rfl
  | _ => rfl

/-- A type is determined by its members. -/
theorem eq_of_mem_members_iff {a b : Ty} (soundA : Sound shape a) (soundB : Sound shape b)
    (same : ∀ t, t ∈ a.members ↔ t ∈ b.members) : a = b := by
  have sorted : Sorted.ofList compare a.members = Sorted.ofList compare b.members :=
    (Sorted.increasing_ofList _).eq_of_mem_iff (Sorted.increasing_ofList _) (by simpa using same)
  rw [← ofMembers_members soundA, ← ofMembers_members soundB, ofMembers, ofMembers, sorted]

/-- A text of a type is a member of it, or all texts are. -/
theorem text_mem_iff (sound : Sound shape t) (proper : t ≠ any) {x : String} :
    Value.string x ∈ t ↔ string (.literal x) ∈ t.members ∨ string .all ∈ t.members := by
  constructor
  · intro member
    obtain ⟨m, mem, member⟩ := (mem_iff_members t _).mp member
    have value := isValue_of_mem_members sound proper mem
    cases m with
    | string s =>
      cases s with
      | literal y =>
        obtain rfl : x = y := by simpa [StringTy.has] using member
        exact .inl mem
      | all => exact .inr mem
    | number n => simp [mem_iff, Ty.has] at member
    | struct name fields => simp [mem_iff, Ty.has] at member
    | _ => cases value
  · rintro (mem | mem)
    · exact (mem_iff_members t _).mpr ⟨_, mem, by simp [StringTy.has]⟩
    · exact (mem_iff_members t _).mpr ⟨_, mem, by simp [StringTy.has]⟩

/-- A type other than `any` that has all texts has the type of all texts as a member. -/
theorem all_texts_mem (sound : Sound shape t) (proper : t ≠ any)
    (every : ∀ x, Value.string x ∈ t) : string .all ∈ t.members := by
  have covered (x : String) : ∃ s ∈ t.members.filterMap string?, s.has x = true := by
    rcases (text_mem_iff sound proper).mp (every x) with mem | mem
    · exact ⟨_, mem_filterMap.mpr ⟨_, mem, rfl⟩, by simp [StringTy.has]⟩
    · exact ⟨_, mem_filterMap.mpr ⟨_, mem, rfl⟩, rfl⟩
  obtain ⟨m, mem, found⟩ := mem_filterMap.mp (Strings.all_mem_of_covered covered)
  exact string?_eq_some_iff.mp found ▸ mem

/-- A record of a type is one of a struct type among its members. -/
theorem record_mem_iff_members (sound : Sound shape t) (proper : t ≠ any) {name : String}
    {values : List (String × Value)} :
    Value.record name values ∈ t ↔
      ∃ fields, struct name fields ∈ t.members ∧ hasFields fields values = true := by
  constructor
  · intro member
    obtain ⟨m, mem, member⟩ := (mem_iff_members t _).mp member
    have value := isValue_of_mem_members sound proper mem
    cases m with
    | struct name' fields =>
      obtain ⟨rfl, holds⟩ := record_mem_iff.mp member
      exact ⟨fields, mem, holds⟩
    | number n => simp [mem_iff, Ty.has] at member
    | string s => simp [mem_iff, Ty.has] at member
    | _ => cases value
  · rintro ⟨fields, mem, holds⟩
    exact (mem_iff_members t _).mpr ⟨_, mem, record_mem_iff.mpr ⟨rfl, holds⟩⟩

/-- A single field is determined by its values. -/
theorem fields_eq_of_hasFields_iff {fields fields' : List (String × Ty)}
    (names : fields.map (·.1) = fields'.map (·.1)) (short : fields.length ≤ 1)
    (same : ∀ values, hasFields fields values = true ↔ hasFields fields' values = true)
    (each : ∀ f ∈ fields, ∀ f' ∈ fields', (∀ v, v ∈ f.2 ↔ v ∈ f'.2) → f.2 = f'.2) :
    fields = fields' := by
  cases fields with
  | nil => exact (map_eq_nil_iff.mp names.symm).symm
  | cons f rest =>
    obtain rfl : rest = [] := by simpa using short
    obtain ⟨f', rfl⟩ : ∃ f', fields' = [f'] := by
      rw [← length_eq_one_iff, ← length_map (·.1), ← names]
      rfl
    have name : f.1 = f'.1 := by simpa using names
    have type : f.2 = f'.2 := by
      refine each f mem_cons_self f' mem_cons_self fun v => ?_
      simpa [name] using same [(f.1, v)]
    rw [Prod.ext name type]

section Narrow

variable {shape : String → List String} (narrow : ∀ name, (shape name).length ≤ 1)
include narrow

/-- A narrow normal form has at most one struct type of each name. -/
theorem struct_fields_unique {t : Ty} (keeps : (Invariant.normal shape).Keeps t) {name : String}
    {fields fields' : List (String × Ty)} (mem : struct name fields ∈ t.members)
    (mem' : struct name fields' ∈ t.members) : fields = fields' := by
  by_contra differ
  have names := (sound_struct.mp (keeps.1.of_mem_members mem)).1
  have few : differing fields fields' ≤ 1 := calc
    differing fields fields' ≤ (fields.zip fields').length := length_filter_le _ _
    _ ≤ fields.length := by simp
    _ = (fields.map (·.1)).length := by rw [length_map]
    _ ≤ 1 := names ▸ narrow name
  refine irreducible_members keeps _ mem _ mem' (fun same => differ ?_) ⟨rfl, .inr (.inr few)⟩
  exact (struct.inj same).2

section SameValues

variable {a b : Ty} (keepsA : (Invariant.normal shape).Keeps a)
  (keepsB : (Invariant.normal shape).Keeps b) (properA : a ≠ any) (properB : b ≠ any)
  (same : ∀ v, v ∈ a ↔ v ∈ b)
include keepsA keepsB properA properB same

/-- A struct type in one normal form has a counterpart with the same records in the other. -/
theorem exists_struct_counterpart {name : String} {fields : List (String × Ty)}
    (mem : struct name fields ∈ a.members) :
    ∃ fields', struct name fields' ∈ b.members ∧
      ∀ values, hasFields fields values = true ↔ hasFields fields' values = true := by
  have forth {values : List (String × Value)} (holds : hasFields fields values = true) :
      ∃ fields', struct name fields' ∈ b.members ∧ hasFields fields' values = true := by
    rw [← record_mem_iff_members keepsB.1 properB, ← same]
    exact (record_mem_iff_members keepsA.1 properA).mpr ⟨fields, mem, holds⟩
  have back {fields' : List (String × Ty)} {values : List (String × Value)}
      (mem' : struct name fields' ∈ b.members) (holds : hasFields fields' values = true) :
      hasFields fields values = true := by
    have member := (record_mem_iff_members keepsB.1 properB).mpr ⟨fields', mem', holds⟩
    rw [← same, record_mem_iff_members keepsA.1 properA] at member
    obtain ⟨fields'', mem'', holds⟩ := member
    exact struct_fields_unique narrow keepsA mem'' mem ▸ holds
  obtain ⟨values, holds⟩ := exists_hasFields fun f memF => by
    obtain ⟨notNever, sound⟩ := (sound_struct.mp (keepsA.1.of_mem_members mem)).2 f memF
    exact exists_mem f.2 sound.wellFormed notNever
  obtain ⟨fields', mem', _⟩ := forth holds
  refine ⟨fields', mem', fun values => ⟨fun holds => ?_, back mem'⟩⟩
  obtain ⟨fields'', mem'', holds⟩ := forth holds
  exact struct_fields_unique narrow keepsB mem'' mem' ▸ holds

/-- A member of one normal form is a member of the other, once this is so for structs. -/
theorem mem_members_of_values
    (structs : ∀ name fields fields', struct name fields ∈ a.members →
      struct name fields' ∈ b.members →
      (∀ values, hasFields fields values = true ↔ hasFields fields' values = true) →
      fields = fields') {t : Ty} (mem : t ∈ a.members) : t ∈ b.members := by
  have value := isValue_of_mem_members keepsA.1 properA mem
  cases t with
  | number n =>
    rw [← mem_numbersOf] at mem ⊢
    refine (normal_numbersOf keepsA).mem_of_covered_eq (normal_numbersOf keepsB) ?_ mem
    ext x
    rw [← number_mem_iff keepsA.1 properA, ← number_mem_iff keepsB.1 properB, same]
  | string s =>
    have every (all : string .all ∈ b.members) : string .all ∈ a.members :=
      all_texts_mem keepsA.1 properA fun x => by
        rw [same, text_mem_iff keepsB.1 properB]
        exact .inr all
    cases s with
    | all =>
      refine all_texts_mem keepsB.1 properB fun x => ?_
      rw [← same, text_mem_iff keepsA.1 properA]
      exact .inr mem
    | literal x =>
      have member := (text_mem_iff keepsA.1 properA).mpr (.inl mem)
      rw [same, text_mem_iff keepsB.1 properB] at member
      refine member.resolve_right fun all => ?_
      exact irreducible_members keepsA _ mem _ (every all) (by simp) (.inr rfl)
  | struct name fields =>
    obtain ⟨fields', mem', holds⟩ :=
      exists_struct_counterpart narrow keepsA keepsB properA properB same mem
    rw [structs name fields fields' mem mem' holds]
    exact mem'
  | _ => cases value

end SameValues

/-- Narrow normal forms with the same values are equal. -/
theorem eq_of_values {a b : Ty} (keepsA : (Invariant.normal shape).Keeps a)
    (keepsB : (Invariant.normal shape).Keeps b) (same : ∀ v, v ∈ a ↔ v ∈ b) : a = b := by
  suffices ∀ n a b, (Invariant.normal shape).Fits n a → (Invariant.normal shape).Keeps b →
      (∀ v, v ∈ a ↔ v ∈ b) → a = b from
    this (a.nesting + 1) a b (keepsA.fits (Nat.lt_succ_self _)) keepsB same
  intro n
  induction n with
  | zero => exact fun a b fits => absurd fits.pos (Nat.lt_irrefl 0)
  | succ n ih =>
    intro a b fitsA keepsB same
    have keepsA := fitsA.keeps
    by_cases properA : a = any
    · subst properA
      exact (eq_any_of_forall_mem keepsB.1 fun v => (same v).mp (mem_any v)).symm
    · by_cases properB : b = any
      · subst properB
        exact eq_any_of_forall_mem keepsA.1 fun v => (same v).mpr (mem_any v)
      · have structs (name : String) (fields fields' : List (String × Ty))
            (memA : struct name fields ∈ a.members) (memB : struct name fields' ∈ b.members)
            (holds : ∀ values, hasFields fields values = true ↔ hasFields fields' values = true) :
            fields = fields' := by
          obtain ⟨_, namesA, eachA⟩ := Invariant.fits_struct.mp (fitsA.of_mem_members memA)
          have fitsB := keepsB.fits (Nat.lt_succ_self b.nesting)
          obtain ⟨_, namesB, eachB⟩ := Invariant.fits_struct.mp (fitsB.of_mem_members memB)
          refine fields_eq_of_hasFields_iff (namesA.trans namesB.symm) ?_ holds
            fun f memF f' memF' => ih f.2 f'.2 (eachA f memF).2 (eachB f' memF').2.keeps
          rw [← length_map (·.1), namesA]
          exact narrow name
        refine eq_of_mem_members_iff keepsA.1 keepsB.1 fun t => ⟨?_, ?_⟩
        · exact mem_members_of_values narrow keepsA keepsB properA properB same structs
        · refine mem_members_of_values narrow keepsB keepsA properB properA
            (fun v => (same v).symm) fun name fields fields' memB memA holds => ?_
          exact (structs name fields' fields memA memB fun values => (holds values).symm).symm

end Narrow

instance (x : Checked Ty) (u : Ty) : Decidable (x = .ok u) :=
  match x with
  | .ok t => decidable_of_iff (t = u) (by simp)
  | .error _ => isFalse (by simp)

/-- The union of number types depends on nothing but the numbers in them: two lists that cover
the same numbers have the same union, in whatever order and in whatever pieces they come. -/
theorem unionOf_numbers_eq {left right : List NumberTy} (validL : ∀ n ∈ left, n.Valid)
    (validR : ∀ n ∈ right, n.Valid) (smallL : ∀ n ∈ left, n.Small)
    (smallR : ∀ n ∈ right, n.Small)
    (same : ∀ x, (∃ n ∈ left, n.has x = true) ↔ ∃ n ∈ right, n.has x = true) :
    ∃ u, unionOf (left.map number) = .ok u ∧ unionOf (right.map number) = .ok u ∧
      ∀ v, v ∈ u ↔ ∃ x, v = .number x ∧ ∃ n ∈ left, n.has x = true := by
  have united {sets : List NumberTy} (valid : ∀ n ∈ sets, n.Valid) (small : ∀ n ∈ sets, n.Small) :
      Yields (unionOf (sets.map number)) fun u =>
        (Invariant.normal fun _ => []).Keeps u ∧ ∀ v, v ∈ u ↔ ∃ n ∈ sets, v ∈ number n := by
    have keeps : ∀ t ∈ sets.map number, (Invariant.normal fun _ => []).Keeps t := by
      intro t mem
      obtain ⟨n, memN, rfl⟩ := mem_map.mp mem
      have tame := NumberTy.tame_of_valid (valid n memN) (small n memN)
      exact ⟨sound_number.mpr tame, (Invariant.normal _).extra_number n tame⟩
    refine (Invariant.unionOf_yields keeps).mono fun u ⟨keepsU, values⟩ => ⟨keepsU, fun v => ?_⟩
    rw [values]
    simp
  obtain ⟨u, unitedL, keepsU, valuesL⟩ := united validL smallL
  obtain ⟨w, unitedR, keepsW, valuesR⟩ := united validR smallR
  have values (v : Value) : v ∈ u ↔ v ∈ w := by
    rw [valuesL, valuesR, mem_numbers_congr same]
  obtain rfl := eq_of_values (fun _ => Nat.zero_le _) keepsU keepsW values
  refine ⟨u, unitedL, unitedR, fun v => ?_⟩
  rw [valuesL]
  constructor
  · rintro ⟨n, mem, member⟩
    obtain ⟨x, rfl, has⟩ := exists_number_of_mem member
    exact ⟨x, rfl, n, mem, has⟩
  · rintro ⟨x, rfl, n, mem, has⟩
    exact ⟨n, mem, mem_number_iff.mpr has⟩

namespace Sample

/-- Numbers from 0 to 10 and whole numbers from there on, in pieces that overlap. -/
def pieces : List NumberTy :=
  [.ints (.fin 8) .posInf, .reals (.fin 0) (.fin 4), .literal .nan, .reals (.fin 2) (.fin 10)]

/-- The same numbers in other pieces. -/
def otherPieces : List NumberTy :=
  [.literal .nan, .reals (.fin 0) (.fin 10), .literal (.fin 3), .ints (.fin 10) .posInf]

section Pieces

open scoped Num.Linear

/-- Both lists have the same numbers. -/
theorem has_pieces_iff (x : Num) :
    (∃ n ∈ pieces, n.has x = true) ↔ ∃ n ∈ otherPieces, n.has x = true := by
  simp only [pieces, otherPieces, exists_mem_cons_iff, not_mem_nil, false_and,
    exists_false, or_false, NumberTy.has_ints, NumberTy.has_reals, NumberTy.has_literal]
  have first : Num.fin 2 ≤ .fin 4 := by norm_num
  have second : Num.fin 8 ≤ .fin 10 := by norm_num
  have third : Num.fin 4 ≤ .fin 10 := by norm_num
  have fourth : Num.fin 0 ≤ .fin 2 := by norm_num
  constructor
  · rintro (⟨whole, low, high⟩ | ⟨low, high⟩ | same | ⟨low, high⟩)
    · rcases le_total x (.fin 10) with less | more
      · exact .inr (.inl ⟨(fourth.trans (by norm_num)).trans low, less⟩)
      · exact .inr (.inr (.inr ⟨whole, more, high⟩))
    · exact .inr (.inl ⟨low, high.trans third⟩)
    · exact .inl same
    · exact .inr (.inl ⟨fourth.trans low, high⟩)
  · rintro (same | ⟨low, high⟩ | rfl | ⟨whole, low, high⟩)
    · exact .inr (.inr (.inl same))
    · rcases le_total x (.fin 2) with less | more
      · exact .inr (.inl ⟨low, less.trans first⟩)
      · exact .inr (.inr (.inr ⟨more, high⟩))
    · exact .inr (.inr (.inr (by norm_num)))
    · exact .inl ⟨whole, second.trans low, high⟩

end Pieces

end Sample

open Sample

/-- Two lists of ranges with one union. -/
theorem unionOf_numbers_eq_pieces : (∀ n ∈ pieces, n.Valid) ∧ (∀ n ∈ otherPieces, n.Valid) ∧
    (∀ n ∈ pieces, n.Small) ∧ (∀ n ∈ otherPieces, n.Small) ∧
    ∃ u, unionOf (pieces.map number) = .ok u ∧ unionOf (otherPieces.map number) = .ok u ∧
      ∀ v, v ∈ u ↔ ∃ x, v = .number x ∧ ∃ n ∈ pieces, n.has x = true :=
  have valid : ∀ n ∈ pieces, n.Valid := by decide
  have valid' : ∀ n ∈ otherPieces, n.Valid := by decide
  have small : ∀ n ∈ pieces, n.Small := by decide
  have small' : ∀ n ∈ otherPieces, n.Small := by decide
  ⟨valid, valid', small, small', unionOf_numbers_eq valid valid' small small' has_pieces_iff⟩

section Grouping

variable {inv : Invariant} {a b c : Ty} (keepsA : inv.Keeps a) (keepsB : inv.Keeps b)
include keepsA keepsB

/-- The union of two types is exact and kept. -/
theorem unionOf_pair_yields :
    Yields (unionOf [a, b]) fun u => inv.Keeps u ∧ ∀ v, v ∈ u ↔ v ∈ a ∨ v ∈ b := by
  have keeps : ∀ t ∈ [a, b], inv.Keeps t := by simpa using ⟨keepsA, keepsB⟩
  refine (Invariant.unionOf_yields keeps).mono fun u holds => ⟨holds.1, fun v => ?_⟩
  rw [holds.2]
  simp

variable (keepsC : inv.Keeps c)
include keepsC

/-- Both groupings of three types have the values of all of them. -/
theorem unionOf_grouped_yields :
    Yields (do unionOf [← unionOf [a, b], c])
      (fun u => inv.Keeps u ∧ ∀ v, v ∈ u ↔ v ∈ a ∨ v ∈ b ∨ v ∈ c) ∧
    Yields (do unionOf [a, ← unionOf [b, c]])
      (fun u => inv.Keeps u ∧ ∀ v, v ∈ u ↔ v ∈ a ∨ v ∈ b ∨ v ∈ c) := by
  constructor
  · refine Yields.bind (unionOf_pair_yields keepsA keepsB) fun ab first => ?_
    refine (unionOf_pair_yields first.1 keepsC).mono fun u second => ⟨second.1, fun v => ?_⟩
    rw [second.2, first.2, or_assoc]
  · refine Yields.bind (unionOf_pair_yields keepsB keepsC) fun bc first => ?_
    refine (unionOf_pair_yields keepsA first.1).mono fun u second => ⟨second.1, fun v => ?_⟩
    rw [second.2, first.2]

end Grouping

/-- However three normal forms are grouped, their union has the same values and is a normal form,
and a normal form united with itself keeps its values. Where no struct has more than one field,
both groupings give the same type, and a type united with itself is itself. -/
theorem unionOf_regrouped {a b c : Ty} (normal : ∀ t ∈ [a, b, c], t.Normal)
    (small : ∀ t ∈ [a, b, c], t.Small) (consistent : Consistent [a, b, c]) :
    ∃ left right twice, (do unionOf [← unionOf [a, b], c]) = .ok left ∧
      (do unionOf [a, ← unionOf [b, c]]) = .ok right ∧ unionOf [a, a] = .ok twice ∧
      (left.Normal ∧ ∀ v, v ∈ left ↔ v ∈ a ∨ v ∈ b ∨ v ∈ c) ∧
      (right.Normal ∧ ∀ v, v ∈ right ↔ v ∈ a ∨ v ∈ b ∨ v ∈ c) ∧
      (twice.Normal ∧ ∀ v, v ∈ twice ↔ v ∈ a) ∧
      ((∀ t ∈ [a, b, c], t.Narrow) → left = right) ∧ (a.Narrow → twice = a) := by
  obtain ⟨shape, sound⟩ := exists_sound (fun t mem => (normal t mem).1.1) small consistent
  have keeps {shape : String → List String} {t : Ty} (mem : t ∈ [a, b, c])
      (sound : Sound shape t) : (Invariant.normal shape).Keeps t :=
    ⟨sound, (normal t mem).1.2, (normal t mem).2⟩
  have memA : a ∈ [a, b, c] := by simp
  have memB : b ∈ [a, b, c] := by simp
  have memC : c ∈ [a, b, c] := by simp
  have keepsA := keeps memA (sound a memA)
  obtain ⟨⟨left, sameL, keepsL, valuesL⟩, ⟨right, sameR, keepsR, valuesR⟩⟩ :=
    unionOf_grouped_yields keepsA (keeps memB (sound b memB)) (keeps memC (sound c memC))
  obtain ⟨twice, sameT, keepsT, valuesT⟩ := unionOf_pair_yields keepsA keepsA
  simp only [or_self] at valuesT
  refine ⟨left, right, twice, sameL, sameR, sameT, ⟨normal_of_keeps keepsL, valuesL⟩,
    ⟨normal_of_keeps keepsR, valuesR⟩, ⟨normal_of_keeps keepsT, valuesT⟩, ?_, ?_⟩
  · intro narrow
    -- The same runs keep soundness for the field names of narrow structs.
    obtain ⟨shape', short, sound'⟩ := exists_narrow_shape sound narrow
    obtain ⟨⟨left', sameL', keepsL', _⟩, ⟨right', sameR', keepsR', _⟩⟩ :=
      unionOf_grouped_yields (keeps memA (sound' a memA)) (keeps memB (sound' b memB))
        (keeps memC (sound' c memC))
    obtain rfl := Except.ok.inj (sameL.symm.trans sameL')
    obtain rfl := Except.ok.inj (sameR.symm.trans sameR')
    exact eq_of_values short keepsL' keepsR' fun v => by rw [valuesL, valuesR]
  · intro narrow
    have soundA : ∀ t ∈ [a], Sound shape t := by simpa using sound a memA
    have narrowA : ∀ t ∈ [a], t.Narrow := by simpa using narrow
    obtain ⟨shape', short, sound'⟩ := exists_narrow_shape soundA narrowA
    have keepsA' := keeps memA (sound' a (by simp))
    obtain ⟨twice', sameT', keepsT', _⟩ := unionOf_pair_yields keepsA' keepsA'
    obtain rfl := Except.ok.inj (sameT.symm.trans sameT')
    exact eq_of_values short keepsT' keepsA' valuesT

namespace Sample

/-- A struct with a single field. -/
def box (content : Ty) : Ty := struct "box" [("content", content)]

def bit (n : ℚ) : Ty := number (.literal (.fin n))

def bits : Ty := number (.ints (.fin 0) (.fin 1))

def text (x : String) : Ty := string (.literal x)

end Sample

/-- Boxes with one field. -/
theorem unionOf_regrouped_boxes :
    let a := union [digits, box digitsOrWord]
    let b := box (number (.reals (.fin 3) (.fin 20)))
    let c := union [text "a", box (box (bit 0))]
    ((∀ t ∈ [a, b, c], t.Normal) ∧ (∀ t ∈ [a, b, c], t.Small) ∧ Consistent [a, b, c] ∧
      ∀ t ∈ [a, b, c], t.Narrow) ∧
    ∃ u, (do unionOf [← unionOf [a, b], c]) = .ok u ∧
      (do unionOf [a, ← unionOf [b, c]]) = .ok u ∧ unionOf [a, a] = .ok a := by
  intro a b c
  have normal : ∀ t ∈ [a, b, c], t.Normal := by decide
  have small : ∀ t ∈ [a, b, c], t.Small := by decide
  have consistent : Consistent [a, b, c] := by decide
  have narrow : ∀ t ∈ [a, b, c], t.Narrow := by decide
  obtain ⟨left, right, twice, sameL, sameR, sameT, _, _, _, regroup, again⟩ :=
    unionOf_regrouped normal small consistent
  obtain rfl := regroup narrow
  obtain rfl := again (narrow a (by simp))
  exact ⟨⟨normal, small, consistent, narrow⟩, left, sameL, sameR, sameT⟩

/-- With two fields, union is neither associative nor idempotent: a range of whole numbers that
came about in one field is not taken apart again when structs are merged on another field. -/
theorem unionOf_depends_on_grouping :
    let a := pair (bit 0) (bit 0)
    let b := pair (bit 0) (bit 1)
    let c := pair (bit 1) (bit 0)
    let d := union [pair (text "a") (union [bits, text "s"]),
      pair (text "b") (union [bits, text "t"])]
    let left := union [pair (bit 0) bits, c]
    let right := union [b, pair bits (bit 0)]
    let twice := union [pair (text "a") (text "s"), pair (text "b") (text "t"),
      pair (union [text "a", text "b"]) bits]
    (∀ t ∈ [a, b, c, d], t.Normal ∧ t.Small) ∧ Consistent [a, b, c, d] ∧
    ((do unionOf [← unionOf [a, b], c]) = .ok left ∧
      (do unionOf [a, ← unionOf [b, c]]) = .ok right ∧ left ≠ right) ∧
    unionOf [pair (text "a") (bit 0), pair (text "a") (bit 1), pair (text "a") (text "s"),
      pair (text "b") bits, pair (text "b") (text "t")] = .ok d ∧
    unionOf [d, d] = .ok twice ∧ twice ≠ d := by
  decide +kernel

end Ty

end TypeFlow
