import TypeFlow.Proofs.Algebra.Closure
import TypeFlow.Proofs.Num.Pieces

/-!
# Operations that bring in nothing

Beyond the range of exact whole numbers a union of struct types can lose records, since what is
taken for a subset need not be one. It never brings in a record of doubles that was in none of the
given types: dropping only drops, and merging on a field goes back to the union of the field types.
The same holds of intersection, which ends in a union.
-/

namespace TypeFlow

open List

mutual
/-- All numbers in a value are doubles. -/
def Value.OfDoubles : Value → Prop
  | .number v => v.IsDouble
  | .string _ => True
  | .record _ fields => Value.FieldsOfDoubles fields
/-- All numbers in the values of fields are doubles. -/
def Value.FieldsOfDoubles : List (String × Value) → Prop
  | [] => True
  | (_, v) :: rest => v.OfDoubles ∧ Value.FieldsOfDoubles rest
end

theorem Value.FieldsOfDoubles.getElem? {values : List (String × Value)}
    (doubles : Value.FieldsOfDoubles values) {index : Nat} {w : Value}
    (found : values[index]?.map (·.2) = some w) : w.OfDoubles := by
  induction values generalizing index with
  | nil => simp at found
  | cons f rest ih =>
    obtain ⟨head, tail⟩ := doubles
    cases index with
    | zero =>
      obtain rfl : f.2 = w := by simpa using found
      exact head
    | succ index => exact ih tail (by simpa using found)

theorem Value.OfDoubles.field? {v w : Value} (doubles : v.OfDoubles) {index : Nat}
    (found : v.field? index = some w) : w.OfDoubles := by
  cases v with
  | record name values => exact Value.FieldsOfDoubles.getElem? doubles found
  | _ => cases found

namespace Ty

/-- A number type is valid and has doubles for bounds. -/
def HeldHere : Ty → Prop
  | number n => n.Held
  | _ => True

instance (t : Ty) : Decidable t.HeldHere := by
  rcases t <;> dsimp only [HeldHere] <;> infer_instance

/-- Every number type inside a type is valid and has doubles for bounds. -/
def Held (t : Ty) : Prop := t.Everywhere HeldHere
deriving Decidable

@[simp] theorem held_never : Held never := by simp [Held, HeldHere]

@[simp] theorem held_any : Held any := by simp [Held, HeldHere]

@[simp] theorem held_string {s : StringTy} : Held (string s) := by simp [Held, HeldHere]

@[simp] theorem held_number {n : NumberTy} : Held (number n) ↔ n.Held := by simp [Held, HeldHere]

variable {name : String} {fields : List (String × Ty)} {items : List Ty}

theorem held_struct : Held (struct name fields) ↔ ∀ f ∈ fields, Held f.2 := by
  simp only [Held, everywhere_struct, HeldHere, true_and]

theorem held_union : Held (union items) ↔ ∀ t ∈ items, Held t := by
  simp only [Held, everywhere_union, HeldHere, true_and]

theorem Held.of_mem_members {t m : Ty} (held : Held t) (mem : m ∈ t.members) : Held m :=
  Everywhere.of_mem_members held mem

theorem held_ofMembers (each : ∀ t ∈ items, Held t) : Held (ofMembers items) := by
  rcases ofMembers_cases items with ⟨empty, _⟩ | ⟨t, single, mem, _⟩ | ⟨several, _⟩
  · rw [empty]
    exact held_never
  · rw [single]
    exact each t mem
  · rw [several, held_union]
    exact fun t mem => each t (Sorted.mem_ofList.mp mem)

theorem held_build (each : ∀ f ∈ fields, Held f.2) : Held (Record.build name fields) := by
  rcases Record.build_cases name fields with ⟨empty, _⟩ | ⟨same, _⟩
  · rw [empty]
    exact held_never
  · rw [same]
    exact held_struct.mpr each

/-- A type has no values of doubles outside the given ones. -/
def Within (t : Ty) (P : Value → Prop) : Prop := ∀ v : Value, v.OfDoubles → v ∈ t → P v

theorem within_never {P : Value → Prop} : never.Within P :=
  fun v _ has => absurd has (not_mem_never v)

end Ty

open Ty

namespace Algebra

theorem heldTier {lower : Algebra} (below : lower.Keeps True Held) :
    Tier True lower Held Held where
  below := below
  never := held_never
  any := held_any
  string _ := held_string
  member held mem := held.of_mem_members mem
  part held mem := held.of_mem_members mem
  field held := held_struct.mp held
  build _ _ each := held_build each
  agree _ _ _ forbidden := absurd trivial forbidden
  numbers held _ mem := held_number.mpr (Numbers.held_of_mem_union
    (fun n mem => held_number.mp (held n mem)) (Sorted.mem_ofList.mpr mem))
  intersect heldX heldY both :=
    held_number.mpr (Numbers.held_intersect (held_number.mp heldX) (held_number.mp heldY) both)
  without := by
    intro x y heldX heldY
    refine held_ofMembers fun t mem => ?_
    obtain ⟨n, memN, rfl⟩ := mem_map.mp mem
    refine held_number.mpr (Numbers.held_of_mem_union (fun piece mem => ?_)
      (Sorted.mem_ofList.mpr memN))
    exact Numbers.held_without (held_number.mp heldX) (held_number.mp heldY) mem
  union := by
    intro numbers strings records structs held heldStructs _
    refine held_ofMembers fun t mem => ?_
    rcases mem_merged.mp mem with ⟨n, memN, rfl⟩ | ⟨s, _, rfl⟩ | ⟨r, memR, rfl⟩
    · exact held n memN
    · exact held_string
    · exact heldStructs r memR

theorem level_keeps_held (n : Nat) : (level n).Keeps True Held := by
  induction n with
  | zero =>
    exact ⟨fun _ _ => .pure held_never, fun _ _ => .pure held_never, fun _ _ => .pure held_never,
      fun _ _ => .pure trivial⟩
  | succ n ih => exact (heldTier ih).keeps

/-- Results of union and intersection bring in no value of doubles. -/
structure Conservative (algebra : Algebra) : Prop where
  held : algebra.Keeps True Held
  union : ∀ {items u}, (∀ t ∈ items, Held t) → algebra.union items = .ok u →
    u.Within fun v => ∃ t ∈ items, v ∈ t
  intersect : ∀ {items u}, (∀ t ∈ items, Held t) → algebra.intersect items = .ok u →
    u.Within fun v => ∀ t ∈ items, v ∈ t

end Algebra

open TypeFlow.Algebra (heldTier)

namespace Structs

variable {lower : Algebra}

theorem hasFields_of_within {fields fields' : List (String × Ty)} {types : List Ty}
    (names : fields.map (·.1) = fields'.map (·.1))
    (each : Forall₂ (fun p t => t.Within fun v => v ∈ p.1.2 ∧ v ∈ p.2.2)
      (fields.zip fields') types) {values : List (String × Value)}
    (doubles : Value.FieldsOfDoubles values)
    (holds : hasFields ((fields.map (·.1)).zip types) values = true) :
    hasFields fields values = true ∧ hasFields fields' values = true := by
  replace names := forall₂_names names
  induction names generalizing types values with
  | nil => simpa using holds
  | cons same _ ih =>
    rw [zip_cons_cons] at each
    cases each with
    | cons head tail =>
      cases values with
      | nil => simp at holds
      | cons w values =>
        simp only [map_cons, zip_cons_cons, hasFields_cons_cons] at holds ⊢
        obtain ⟨name, inside, later⟩ := holds
        obtain ⟨left, right⟩ := head w.2 doubles.1 inside
        obtain ⟨lefts, rights⟩ := ih tail doubles.2 later
        exact ⟨⟨name, left, lefts⟩, name.trans same, right, rights⟩

theorem intersect_conservative (conservative : lower.Conservative) {a b : Record} {u : Ty}
    (heldA : Held a.toTy) (heldB : Held b.toTy) (ran : intersect lower a b = .ok u) :
    u.Within fun v => v ∈ a.toTy ∧ v ∈ b.toTy := by
  unfold intersect at ran
  split at ran
  · next name =>
    obtain ⟨_, agreed, ran⟩ := bind_eq_ok_iff.mp ran
    obtain ⟨types, mapped, same⟩ := bind_eq_ok_iff.mp ran
    obtain rfl := Except.ok.inj same
    have names : a.fields.map (·.1) = b.fields.map (·.1) := by
      unfold agree at agreed
      split at agreed
      · next shape => exact of_decide_eq_true shape
      · cases agreed
    have heldPairs : ∀ p ∈ a.fields.zip b.fields, Held p.1.2 ∧ Held p.2.2 := fun p mem =>
      ⟨held_struct.mp heldA p.1 (of_mem_zip mem).1,
        held_struct.mp heldB p.2 (of_mem_zip mem).2⟩
    have results := mapM_eq_ok mapped
    rw [pairs, forall₂_map_left_iff] at results
    have each : Forall₂ (fun p t => t.Within fun v => v ∈ p.1.2 ∧ v ∈ p.2.2)
        (a.fields.zip b.fields) types := by
      refine ((forall₂_and_left _ _).mpr ⟨heldPairs, results⟩).imp fun p t here => ?_
      obtain ⟨⟨left, right⟩, ran⟩ := here
      have within := conservative.intersect (by simp [left, right]) ran
      exact fun v doubles has => by simpa using within v doubles has
    intro v doubles has
    obtain ⟨values, rfl, holds⟩ := exists_record_of_mem (Record.mem_build.mp has)
    obtain ⟨left, right⟩ := hasFields_of_within names each doubles holds
    exact ⟨record_mem_iff.mpr ⟨rfl, left⟩, record_mem_iff.mpr ⟨name, right⟩⟩
  · obtain rfl := Except.ok.inj ran
    exact within_never

/-- What is kept passed the test, and it stands in the same order. -/
theorem filterM_eq_ok {α : Type} {f : α → Checked Bool} {items kept : List α}
    (ran : items.filterM f = .ok kept) : kept.Sublist items ∧ ∀ a ∈ kept, f a = .ok true := by
  suffices run : ∀ sofar final, items.filterAuxM f sofar = .ok final →
      ∃ passed : List α, final = passed.reverse ++ sofar ∧ passed.Sublist items ∧
        ∀ a ∈ passed, f a = .ok true by
    obtain ⟨final, filtered, same⟩ := bind_eq_ok_iff.mp ran
    obtain rfl := Except.ok.inj same
    obtain ⟨passed, rfl, holds⟩ := run [] final filtered
    simpa using holds
  clear ran
  induction items with
  | nil =>
    intro sofar final ran
    obtain rfl := Except.ok.inj ran
    exact ⟨[], rfl, List.Sublist.refl _, by simp⟩
  | cons a rest ih =>
    intro sofar final ran
    obtain ⟨answer, here, later⟩ := bind_eq_ok_iff.mp ran
    obtain ⟨passed, same, sublist, each⟩ := ih _ final later
    cases answer with
    | false => exact ⟨passed, same, sublist.cons a, each⟩
    | true =>
      refine ⟨a :: passed, by simpa using same, sublist.cons_cons a, ?_⟩
      exact forall_mem_cons.mpr ⟨here, each⟩

/-- Dropping leaves a part of the list: what was found inside no other item. -/
theorem dropSubsumed_eq_ok {items kept : List Record} (ran : dropSubsumed lower items = .ok kept) :
    kept.Sublist items ∧ ∀ a ∈ kept, ∃ i : Nat, items[i]? = some a ∧
      subsumed lower items.zipIdx a i = .ok false := by
  obtain ⟨indexed, filtered, same⟩ := bind_eq_ok_iff.mp ran
  obtain rfl := Except.ok.inj same
  obtain ⟨sublist, tests⟩ := filterM_eq_ok filtered
  refine ⟨?_, fun a mem => ?_⟩
  · have part := sublist.map Prod.fst
    rwa [zipIdx_map_fst] at part
  · obtain ⟨⟨a, i⟩, memX, rfl⟩ := mem_map.mp mem
    obtain ⟨answer, subsumed, negated⟩ := bind_eq_ok_iff.mp (tests _ memX)
    have kept : answer = false := by simpa using Except.ok.inj negated
    exact ⟨i, mem_zipIdx_iff_getElem?.mp (sublist.subset memX), kept ▸ subsumed⟩

section Union

variable (conservative : lower.Conservative) {items result : List Record}
  (held : ∀ r ∈ items, Held r.toTy)
include conservative held

theorem mergeOnField_conservative {index : Nat} (ran : mergeOnField lower items index = .ok result)
    {v : Value} (doubles : v.OfDoubles) (covers : Covers result v) : Covers items v := by
  have grouped := grouped_grouping items index
  rw [mergeOnField_eq] at ran
  obtain ⟨merged, mapped, same⟩ := bind_eq_ok_iff.mp ran
  obtain rfl := Except.ok.inj same
  obtain ⟨r, mem, has⟩ := covers
  rcases mem_append.mp mem with mem | mem
  · exact ⟨r, mem_of_mem_filter mem, has⟩
  · obtain ⟨t, memT, found⟩ := mem_filterMap.mp mem
    obtain ⟨g, memG, here⟩ := exists_left_of_forall₂ (mapM_eq_ok mapped) memT
    obtain ⟨u, united, same⟩ := bind_eq_ok_iff.mp here
    have types : ∀ s ∈ g.types, Held s := by
      intro s memS
      obtain ⟨r, memR, f, found, _, rfl⟩ := grouped.type g memG s memS
      exact held_struct.mp (held r memR) f (mem_of_getElem? found)
    rw [← record?_eq_some_iff.mp found, ← Except.ok.inj same] at has
    -- the value of the field is of one of the types in the group
    obtain ⟨_, bound, key, _⟩ := grouped.first g memG
    obtain ⟨others, w, value, inside⟩ := (Record.mem_withField bound).mp has
    obtain ⟨s, memS, inside⟩ := conservative.union types united w (doubles.field? value) inside
    obtain ⟨r, memR, f, position, same, rfl⟩ := grouped.type g memG s memS
    rw [← key, same] at others
    exact ⟨r, memR, (Record.mem_toTy_iff position).mpr ⟨others, w, value, inside⟩⟩

theorem settle_conservative {steps : Nat} (ran : settle lower steps items = .ok result)
    {v : Value} (doubles : v.OfDoubles) (covers : Covers result v) : Covers items v := by
  induction steps generalizing items with
  | zero =>
    obtain rfl := Except.ok.inj ran
    exact covers
  | succ steps ih =>
    obtain ⟨kept, dropped, ran⟩ := bind_eq_ok_iff.mp ran
    obtain ⟨merged, pass, ran⟩ := bind_eq_ok_iff.mp ran
    have part : kept ⊆ items := fun r mem =>
      Sorted.mem_ofList.mp ((dropSubsumed_eq_ok dropped).1.subset mem)
    have back : Covers kept v → Covers items v := fun ⟨r, mem, has⟩ => ⟨r, part mem, has⟩
    have run : (∀ r ∈ merged, Held r.toTy) ∧ (Covers merged v → Covers kept v) := by
      refine foldlM_keeps (P := fun merged : List Record => (∀ r ∈ merged, Held r.toTy) ∧
        (Covers merged v → Covers kept v)) pass ⟨fun r mem => held r (part mem), id⟩ ?_
      intro sofar ⟨heldSofar, within⟩ index _ next ran
      have tier := heldTier conservative.held
      refine ⟨(mergeOnField_kept tier heldSofar index).eq_ok ran, fun covers => within ?_⟩
      exact mergeOnField_conservative conservative heldSofar ran doubles covers
    split at ran
    · obtain rfl := Except.ok.inj ran
      exact back covers
    · exact back (run.2 (ih run.1 ran))

theorem unionMembers_conservative (ran : unionMembers lower items = .ok result) {v : Value}
    (doubles : v.OfDoubles) (covers : Covers result v) : Covers items v := by
  have exact := fun r mem => atoms_exact (hereditary_kept (heldTier conservative.held)) (held r mem)
  have split : ∀ s ∈ items.flatMap atoms, Held s.toTy := by
    intro s mem
    obtain ⟨r, memR, memS⟩ := mem_flatMap.mp mem
    exact (exact r memR).1 s memS
  obtain ⟨s, mem, has⟩ := settle_conservative conservative split ran doubles covers
  obtain ⟨r, memR, memS⟩ := mem_flatMap.mp mem
  exact ⟨r, memR, ((exact r memR).2 v).mp ⟨s, memS, has⟩⟩

end Union

end Structs

namespace Algebra

section Level

variable {lower : Algebra} (conservative : lower.Conservative)
include conservative

variable {items : List Ty} {unions : List (List Ty)}

theorem unionOver_conservative {u : Ty} (held : ∀ t ∈ items, Held t)
    (ran : unionOver lower items = .ok u) : u.Within fun v => ∃ t ∈ items, v ∈ t := by
  have heldMembers : ∀ m ∈ items.flatMap members, Held m := by
    intro m mem
    obtain ⟨t, memT, mem⟩ := mem_flatMap.mp mem
    exact (held t memT).of_mem_members mem
  intro v doubles has
  apply exists_mem_flatMap_members.mp
  unfold unionOver at ran
  dsimp only at ran
  split at ran
  · next every =>
    obtain ⟨m, mem, isAny⟩ := any_eq_true.mp every
    exact ⟨m, mem, isAny_iff.mp isAny ▸ mem_any v⟩
  · obtain ⟨structs, united, same⟩ := bind_eq_ok_iff.mp ran
    obtain rfl := Except.ok.inj same
    rcases exists_mem_merged.mp (mem_ofMembers.mp has) with
      ⟨n, memN, has⟩ | ⟨s, memS, has⟩ | covers
    · have numbers : ∀ n ∈ (items.flatMap members).filterMap number?, n.Held := by
        intro n mem
        obtain ⟨t, memT, found⟩ := mem_filterMap.mp mem
        exact held_number.mp (number?_eq_some_iff.mp found ▸ heldMembers t memT)
      obtain ⟨x, rfl, has⟩ := exists_number_of_mem has
      obtain ⟨m, memM, hasM⟩ := Numbers.covers_of_covers_union numbers doubles ⟨n, memN, has⟩
      obtain ⟨t, memT, found⟩ := mem_filterMap.mp memM
      exact ⟨t, memT, number?_eq_some_iff.mp found ▸ mem_number_iff.mpr hasM⟩
    · obtain ⟨t, memT, found⟩ := mem_filterMap.mp (Strings.mem_unionMembers memS)
      exact ⟨t, memT, string?_eq_some_iff.mp found ▸ has⟩
    · have records : ∀ r ∈ (items.flatMap members).filterMap record?, Held r.toTy := by
        intro r mem
        obtain ⟨t, memT, found⟩ := mem_filterMap.mp mem
        exact Structs.record?_eq_some_iff.mp found ▸ heldMembers t memT
      obtain ⟨r, memR, has⟩ :=
        Structs.unionMembers_conservative conservative records united doubles covers
      obtain ⟨t, memT, found⟩ := mem_filterMap.mp memR
      exact ⟨t, memT, Structs.record?_eq_some_iff.mp found ▸ has⟩

theorem intersectPair_conservative {a b u : Ty} (heldA : Held a) (heldB : Held b)
    (ran : intersectPair lower a b = .ok u) : u.Within fun v => v ∈ a ∧ v ∈ b := by
  unfold intersectPair at ran
  split at ran
  · obtain rfl := Except.ok.inj ran
    exact fun v _ has => ⟨mem_any v, has⟩
  · obtain rfl := Except.ok.inj ran
    exact fun v _ has => ⟨has, mem_any v⟩
  · next x y =>
    obtain rfl := Except.ok.inj ran
    cases both : Numbers.intersect x y with
    | none => exact within_never
    | some c =>
      rintro v - has
      obtain ⟨z, rfl, has⟩ := exists_number_of_mem has
      have valid := Numbers.has_intersect (held_number.mp heldA).valid (held_number.mp heldB).valid
      simpa using (valid z).mp ⟨c, both, has⟩
  · next x y =>
    obtain rfl := Except.ok.inj ran
    cases both : Strings.intersect x y with
    | none => exact within_never
    | some c =>
      rintro v - has
      obtain ⟨z, rfl, has⟩ := exists_string_of_mem has
      simpa using (Strings.has_intersect x y z).mp ⟨c, both, has⟩
  · next name fields name' fields' =>
    exact Structs.intersect_conservative (a := ⟨name, fields⟩) (b := ⟨name', fields'⟩) conservative
      heldA heldB ran
  · obtain rfl := Except.ok.inj ran
    exact within_never

/-- What is gathered has no value of doubles but those of all types. -/
theorem gather_conservative {sofar : Ty} (heldSofar : Held sofar) (held : ∀ t ∈ items, Held t)
    {t : Ty} (ran : gather lower sofar items = .ok (some (t, unions))) :
    t.Within fun v => (∀ us ∈ unions, ∃ m ∈ us, v ∈ m) → v ∈ sofar ∧ ∀ s ∈ items, v ∈ s := by
  induction items generalizing sofar unions with
  | nil =>
    obtain ⟨rfl, rfl⟩ := Prod.mk.inj (Option.some.inj (Except.ok.inj ran))
    exact fun v _ has _ => ⟨has, by simp⟩
  | cons s rest ih =>
    obtain ⟨heldS, heldRest⟩ := forall_mem_cons.mp held
    -- numbers, texts and structs all go the same way
    have next (ran : (do
        let both ← intersectPair lower sofar s
        if both.isNever then return none else gather lower both rest) =
          Except.ok (some (t, unions))) : t.Within fun v =>
          (∀ us ∈ unions, ∃ m ∈ us, v ∈ m) → v ∈ sofar ∧ ∀ r ∈ s :: rest, v ∈ r := by
      obtain ⟨both, here, ran⟩ := bind_eq_ok_iff.mp ran
      have heldBoth :=
        (intersectPair_kept (heldTier conservative.held) heldSofar heldS).eq_ok here
      split at ran
      · cases Except.ok.inj ran
      · intro v doubles has others
        obtain ⟨inBoth, inRest⟩ := ih heldBoth heldRest ran v doubles has others
        obtain ⟨inSofar, inS⟩ :=
          intersectPair_conservative conservative heldSofar heldS here v doubles inBoth
        exact ⟨inSofar, forall_mem_cons.mpr ⟨inS, inRest⟩⟩
    cases s with
    | any =>
      intro v doubles has others
      obtain ⟨inSofar, inRest⟩ := ih heldSofar heldRest ran v doubles has others
      exact ⟨inSofar, forall_mem_cons.mpr ⟨mem_any v, inRest⟩⟩
    | never => cases Except.ok.inj ran
    | union us =>
      obtain ⟨result, gathered, same⟩ := bind_eq_ok_iff.mp ran
      obtain ⟨⟨t', unions'⟩, rfl, pair⟩ := Option.map_eq_some_iff.mp (Except.ok.inj same)
      obtain ⟨rfl, rfl⟩ := Prod.mk.inj pair
      intro v doubles has others
      obtain ⟨here, others⟩ := forall_mem_cons.mp others
      obtain ⟨inSofar, inRest⟩ := ih heldSofar heldRest gathered v doubles has others
      exact ⟨inSofar, forall_mem_cons.mpr ⟨(mem_union_iff us v).mpr here, inRest⟩⟩
    | number x => exact next ran
    | string x => exact next ran
    | struct name fields => exact next ran

theorem distribute_conservative (heldUnions : ∀ us ∈ unions, ∀ m ∈ us, Held m)
    {partials result : List Ty} (held : ∀ p ∈ partials, Held p)
    (ran : distribute lower unions partials = .ok result) :
    ∀ t ∈ result, t.Within fun v =>
      (∃ p ∈ partials, v ∈ p) ∧ ∀ us ∈ unions, ∃ m ∈ us, v ∈ m := by
  induction unions generalizing partials with
  | nil =>
    obtain rfl := Except.ok.inj ran
    exact fun t mem v _ has => ⟨⟨t, mem, has⟩, by simp⟩
  | cons us rest ih =>
    obtain ⟨heldUs, heldRest⟩ := forall_mem_cons.mp heldUnions
    obtain ⟨next, mapped, ran⟩ := bind_eq_ok_iff.mp ran
    have each : ∀ t ∈ next, ∃ p ∈ partials, ∃ m ∈ us, intersectPair lower p m = .ok t := by
      intro t mem
      obtain ⟨⟨p, m⟩, pair, here⟩ := exists_left_of_forall₂ (mapM_eq_ok mapped) mem
      obtain ⟨p', memP, pair⟩ := mem_flatMap.mp pair
      obtain ⟨m', memM, same⟩ := mem_map.mp pair
      obtain ⟨rfl, rfl⟩ := Prod.mk.inj same
      exact ⟨p', memP, m', memM, here⟩
    have heldNext : ∀ t ∈ next.filter fun t => !t.isNever, Held t := by
      intro t mem
      obtain ⟨p, memP, m, memM, here⟩ := each t (mem_of_mem_filter mem)
      have kept := intersectPair_kept (heldTier conservative.held) (held p memP) (heldUs m memM)
      exact kept.eq_ok here
    intro t mem v doubles has
    obtain ⟨⟨s, memS, inS⟩, others⟩ := ih heldRest heldNext ran t mem v doubles has
    obtain ⟨p, memP, m, memM, here⟩ := each s (mem_of_mem_filter memS)
    obtain ⟨inP, inM⟩ := intersectPair_conservative conservative (held p memP) (heldUs m memM) here
      v doubles inS
    exact ⟨⟨p, memP, inP⟩, forall_mem_cons.mpr ⟨⟨m, memM, inM⟩, others⟩⟩

theorem intersectOver_conservative {u : Ty} (held : ∀ t ∈ items, Held t)
    (ran : intersectOver lower items = .ok u) : u.Within fun v => ∀ t ∈ items, v ∈ t := by
  have tier := heldTier conservative.held
  obtain ⟨result, gathered, ran⟩ := bind_eq_ok_iff.mp ran
  match result, gathered, ran with
  | none, _, ran =>
    obtain rfl := Except.ok.inj ran
    exact within_never
  | some (t, []), gathered, ran =>
    obtain rfl := Except.ok.inj ran
    have within := gather_conservative conservative held_any held gathered
    exact fun v doubles has => (within v doubles has (by simp)).2
  | some (t, us :: unions), gathered, ran =>
    obtain ⟨heldT, heldUnions⟩ :=
      (gather_kept tier held held_any).eq_ok gathered t (us :: unions) rfl
    obtain ⟨parts, spread, united⟩ := bind_eq_ok_iff.mp ran
    have start : ∀ p ∈ [t], Held p := by simpa using heldT
    have heldParts := (distribute_kept tier heldUnions start).eq_ok spread
    intro v doubles has
    obtain ⟨p, mem, inP⟩ := unionOver_conservative conservative heldParts united v doubles has
    obtain ⟨⟨t', single, inT⟩, others⟩ :=
      distribute_conservative conservative heldUnions start spread p mem v doubles inP
    obtain rfl := mem_singleton.mp single
    exact (gather_conservative conservative held_any held gathered v doubles inT others).2

end Level

theorem conservative_level (n : Nat) : (level n).Conservative := by
  induction n with
  | zero =>
    refine ⟨level_keeps_held 0, fun _ ran => ?_, fun _ ran => ?_⟩
    all_goals
      obtain rfl := Except.ok.inj ran
      exact within_never
  | succ n ih =>
    exact ⟨level_keeps_held (n + 1), unionOver_conservative ih, intersectOver_conservative ih⟩

end Algebra

theorem Ty.intersectionOf_conservative {items : List Ty} {u : Ty} (held : ∀ t ∈ items, Held t)
    (ran : intersectionOf items = .ok u) : u.Within fun v => ∀ t ∈ items, v ∈ t :=
  (Algebra.conservative_level _).intersect held ran

end TypeFlow
