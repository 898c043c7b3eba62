import TypeFlow.Proofs.Algebra.Difference

/-!
# Taking out one member after the other

A type is taken out of another member by member, and what is left is united again after each of
them. A relation between what is left and what is still to be taken out holds to the end when one
removal keeps it. For numbers the relation is `NumbersDue`: they lie close to what is still
missing. For texts and structs it is `MembersDue`: each is inside one of the types to come. Of
numbers and texts nothing is left in the end, if the types taken out have all of them.
-/

namespace TypeFlow

open List hiding any
open Ty

namespace Ty

variable {shape : String → List String} {t : Ty}

theorem eq_any_of_forall_mem (sound : Sound shape t) (every : ∀ v, v ∈ t) : t = any := by
  by_contra proper
  -- The records of a name belong to a struct type of that name, and there are too many names.
  let names := t.members.filterMap fun m => m.record?.map fun r => StringTy.literal r.name
  have covered (x : String) : ∃ s ∈ names, s.has x = true := by
    obtain ⟨m, mem, has⟩ := (mem_iff_members t _).mp (every (.record x []))
    have value := isValue_of_mem_members sound proper mem
    cases m with
    | struct name fields =>
      refine ⟨.literal name, mem_filterMap.mpr ⟨_, mem, rfl⟩, ?_⟩
      simp [StringTy.has, (record_mem_iff.mp has).1]
    | number n => simp [mem_iff, Ty.has] at has
    | string s => simp [mem_iff, Ty.has] at has
    | _ => cases value
  obtain ⟨m, _, found⟩ := mem_filterMap.mp (Strings.all_mem_of_covered covered)
  simp at found

/-- The number types among the members of a type. -/
def numbersOf (t : Ty) : List NumberTy := t.members.filterMap number?

theorem mem_numbersOf {n : NumberTy} : n ∈ t.numbersOf ↔ number n ∈ t.members := by
  simp only [numbersOf, mem_filterMap, number?_eq_some_iff, exists_eq_right]

theorem number_mem_iff (sound : Sound shape t) (proper : t ≠ any)
    {x : Num} : Value.number x ∈ t ↔ x ∈ Numbers.covered t.numbersOf := by
  constructor
  · intro member
    obtain ⟨m, mem, member⟩ := (mem_iff_members t _).mp member
    have value := isValue_of_mem_members sound proper mem
    cases m with
    | number n => exact ⟨n, mem_numbersOf.mpr mem, mem_number_iff.mp member⟩
    | string s => simp [mem_iff, has] at member
    | struct name fields => simp [mem_iff, has] at member
    | _ => cases value
  · rintro ⟨n, mem, member⟩
    exact (mem_iff_members t _).mpr ⟨_, mem_numbersOf.mp mem, mem_number_iff.mpr member⟩

theorem tame_numbersOf (sound : Sound shape t) : ∀ n ∈ t.numbersOf, n.Tame :=
  fun _ mem => sound_number.mp (sound.of_mem_members (mem_numbersOf.mp mem))

theorem increasing_numbers {items : List Ty} (increasing : Increasing compare items) :
    Increasing NumberTy.compare (items.filterMap number?) := by
  refine List.Pairwise.filterMap number? ?_ increasing
  intro a b order m foundA m' foundB
  rw [number?_eq_some_iff.mp foundA, number?_eq_some_iff.mp foundB] at order
  exact order

theorem increasing_members (sound : Sound shape t) : Increasing compare t.members := by
  cases t with
  | never => exact List.Pairwise.nil
  | union items => exact (sound_union.mp sound).1.2.2
  | _ => exact pairwise_singleton _ _

theorem inside_union_of_string {x : StringTy} {items : List Ty}
    (values : ∀ t ∈ items, t.isValue = true) :
    (∃ t ∈ items, Inside (string x) t) ↔ Inside (string x) (union items) := by
  constructor
  · rintro ⟨t, mem, inside⟩ y member
    exact (mem_union_iff items _).mpr ⟨t, mem, inside y member⟩
  · intro inside
    have found (y : String) (member : x.has y = true) : ∃ s, string s ∈ items ∧ s.has y = true := by
      obtain ⟨t, mem, member⟩ := (mem_union_iff items _).mp (inside y member)
      have value := values t mem
      cases t with
      | string s => exact ⟨s, mem, mem_string_iff.mp member⟩
      | number n => simp [mem_iff, has] at member
      | struct name fields => simp [mem_iff, has] at member
      | _ => cases value
    cases x with
    | literal y =>
      obtain ⟨s, mem, member⟩ := found y (by simp [StringTy.has])
      refine ⟨string s, mem, fun z same => mem_string_iff.mpr ?_⟩
      obtain rfl : z = y := by simpa [StringTy.has] using same
      exact member
    | all =>
      have every : .all ∈ items.filterMap string? := by
        refine Strings.all_mem_of_covered fun y => ?_
        obtain ⟨s, mem, member⟩ := found y rfl
        exact ⟨s, mem_filterMap.mpr ⟨_, mem, rfl⟩, member⟩
      obtain ⟨t, mem, kind⟩ := mem_filterMap.mp every
      obtain rfl := string?_eq_some_iff.mp kind
      exact ⟨_, mem, fun y _ => mem_string_iff.mpr rfl⟩

/-- Of these types one alone has a type of the given kind that they have together. -/
def Undivided (shape : String → List String) (kind : Kind) (types : List Ty) : Prop :=
  ∀ m, Sound shape m → m.kind? = some kind → (∀ v, v ∈ m → ∃ t ∈ types, v ∈ t) →
    ∃ t ∈ types, Inside m t

/-- No text type needs several types to cover it. -/
theorem undivided_strings {types : List Ty}
    (values : ∀ t ∈ types, t.isValue = true) : Undivided shape .string types := by
  intro m _ kind within
  obtain ⟨x, rfl⟩ : ∃ x, m = string x := by cases m <;> simp_all [kind?]
  refine (inside_union_of_string values).mpr fun y member => ?_
  exact (mem_union_iff types _).mpr (within _ (mem_string_iff.mpr member))

end Ty

namespace Algebra

/-- Taking a number, text or struct type out of a type other than `any`. -/
structure Removal (inv : Invariant) (n : Nat) (a b u : Ty) : Prop where
  before : inv.Fits n a
  proper : a ≠ any
  taken : inv.Fits n b
  value : b.isValue = true
  leaves : Leaves inv n a b u
  escapes : ∀ v, v ∈ u → ∃ m ∈ a.members, v ∈ m ∧ ¬ Inside m b

/-- The numbers that are left are close to those that the types to come have to cover. -/
def NumbersDue (left : Ty) (rest : List Ty) : Prop :=
  Increasing compare rest ∧
    ∃ missing, Numbers.Pending missing (rest.filterMap number?) left.numbersOf

/-- Each member of the kind that is left is inside one of the types to come. -/
def MembersDue (kind : Kind) (left : Ty) (rest : List Ty) : Prop :=
  ∀ m ∈ left.members, m.kind? = some kind → ∃ t ∈ rest, Inside m t

section Start

variable {shape : String → List String} {a b : Ty} (soundA : Sound shape a)
include soundA

/-- At first all numbers of the one type are missing, and the members of the other cover them. -/
theorem numbersDue_members (soundB : Sound shape b) (properA : a ≠ any) (properB : b ≠ any)
    (within : ∀ x, Value.number x ∈ a → Value.number x ∈ b) : NumbersDue a b.members := by
  refine ⟨increasing_members soundB, _, Numbers.Pending.start fun x member => ?_⟩
  rw [← number_mem_iff soundA properA] at member
  exact (number_mem_iff soundB properB).mp (within x member)

/-- Members whose values the other type has are due, where no two types are needed to cover one. -/
theorem membersDue_members {kind : Kind} (undivided : Undivided shape kind b.members)
    (within : ∀ m ∈ a.members, m.kind? = some kind → ∀ v, v ∈ m → v ∈ b) :
    MembersDue kind a b.members := by
  intro m mem kindM
  refine undivided m (soundA.of_mem_members mem) kindM fun v member => ?_
  exact (mem_iff_members b v).mp (within m mem kindM v member)

end Start

namespace Removal

variable {inv : Invariant} {n : Nat} {left b next : Ty} {rest : List Ty}
  (removal : Removal inv n left b next)
include removal

theorem ne_any : next ≠ any := by
  rintro rfl
  exact removal.proper
    (eq_any_of_forall_mem removal.before.1 fun v => removal.leaves.of_mem v (mem_any v))

theorem numbersDue (due : NumbersDue left (b :: rest)) : NumbersDue next rest := by
  obtain ⟨increasing, missing, pending⟩ := due
  have order := increasing_numbers increasing
  have fitsNext := removal.leaves.fits
  refine ⟨(pairwise_cons.mp increasing).2, ?_⟩
  cases kind : b.number? with
  | none =>
    rw [filterMap_cons_none kind] at pending
    refine ⟨missing, pending.1, pending.2.imp_right fun close x member => close ?_⟩
    rw [← number_mem_iff fitsNext.1 removal.ne_any] at member
    exact (number_mem_iff removal.before.1 removal.proper).mp (removal.leaves.of_mem _ member)
  | some y =>
    rw [filterMap_cons_some kind] at pending order
    obtain rfl := number?_eq_some_iff.mp kind
    refine ⟨_, pending.step order (tame_numbersOf removal.before.1)
      (sound_number.mp removal.taken.1) fun x member => ?_⟩
    rw [← number_mem_iff fitsNext.1 removal.ne_any] at member
    rcases removal.leaves.numbers x y rfl member with every | ⟨p, mem, c, piece, member⟩
    · exact absurd every removal.proper
    · exact ⟨c, mem_flatMap.mpr ⟨p, mem_numbersOf.mpr mem, piece⟩, member⟩

theorem membersDue {kind : Kind} (undivided : Undivided inv.shape kind rest)
    (due : MembersDue kind left (b :: rest)) : MembersDue kind next rest := by
  intro m mem kindM
  refine undivided m (removal.leaves.fits.1.of_mem_members mem) kindM fun v member => ?_
  have valueM : m.isValue = true := by rw [isValue, kindM]; rfl
  -- Each value of what is left was in a member of the same kind that is not inside `b`.
  obtain ⟨m', mem', member', outside⟩ :=
    removal.escapes v ((mem_iff_members next v).mpr ⟨m, mem, member⟩)
  have valueM' := isValue_of_mem_members removal.before.1 removal.proper mem'
  have kindM' : m'.kind? = some kind := by
    by_contra differ
    rw [← kindM] at differ
    exact not_mem_of_kind_ne valueM' valueM differ v ⟨member', member⟩
  obtain ⟨t, memT, inside⟩ := due m' mem' kindM'
  rcases mem_cons.mp memT with rfl | memT
  · exact absurd inside outside
  · exact ⟨t, memT, inside.mem v member'⟩

end Removal

variable {inv : Invariant} {n : Nat} {lower : Algebra} (lawful : inv.Lawful n lower)
include lawful

theorem withoutMember_removes {a b : Ty} (fitsA : inv.Fits (n + 1) a) (proper : a ≠ any)
    (fitsB : inv.Fits (n + 1) b) (value : b.isValue = true) :
    Yields (withoutMember lower a b) (Removal inv (n + 1) a b) := by
  have leaves := withoutMember_leaves lawful fitsA fitsB
  have escapes := withoutMember_escapes lawful fitsA fitsB value
  exact (leaves.and escapes).mono fun u both => ⟨fitsA, proper, fitsB, value, both.1, both.2⟩

theorem withoutOver_removes {a b : Ty} (fitsA : inv.Fits (n + 1) a) (proper : a ≠ any)
    (fitsB : inv.Fits (n + 1) b) (value : b.isValue = true) :
    Yields (withoutOver lower a b) (Removal inv (n + 1) a b) := by
  have removes := withoutMember_removes lawful fitsA proper fitsB value
  cases b with
  | never => cases value
  | union items => cases value
  | any => cases value
  | _ => cases a <;> exact removes

/-- What one removal keeps holds to the end, unless nothing is left. -/
theorem withoutEach_keeps {I : Ty → List Ty → Prop}
    (step : ∀ left b rest next, Removal inv (n + 1) left b next → I left (b :: rest) → I next rest)
    {left : Ty} (fits : inv.Fits (n + 1) left) (proper : left ≠ any) {items : List Ty}
    (each : ∀ t ∈ items, inv.Fits (n + 1) t ∧ t.isValue = true) (start : I left items) :
    Yields (withoutEach lower left items) fun u =>
      u = never ∨ inv.Fits (n + 1) u ∧ u ≠ any ∧ I u [] := by
  induction items generalizing left with
  | nil => exact Yields.pure (.inr ⟨fits, proper, start⟩)
  | cons b rest ih =>
    obtain ⟨fitsB, value⟩ := each b mem_cons_self
    refine Yields.bind (withoutMember_removes lawful fits proper fitsB value)
      fun next removal => ?_
    split
    · next empty => exact Yields.pure (.inl (isNever_iff.mp empty))
    · exact ih removal.leaves.fits removal.ne_any (fun t mem => each t (mem_cons_of_mem b mem))
        (step left b rest next removal start)

omit lawful in
theorem withoutOver_eq_each {a b : Ty} (nonempty : a ≠ never) (properA : a ≠ any)
    (properB : b ≠ any) : withoutOver lower a b = withoutEach lower a b.members := by
  have single (b : Ty) : withoutEach lower a [b] = withoutMember lower a b := by
    simp only [withoutEach, ite_self, bind_pure]
  cases b with
  | any => exact absurd rfl properB
  | union items =>
    cases a with
    | never => exact absurd rfl nonempty
    | any => exact absurd rfl properA
    | _ => rfl
  | never =>
    cases a with
    | never => exact absurd rfl nonempty
    | _ => rfl
  | _ =>
    refine Eq.trans ?_ (single _).symm
    cases a with
    | never => exact absurd rfl nonempty
    | _ => rfl

section Over

variable {a b : Ty} (fitsA : inv.Fits (n + 1) a) (fitsB : inv.Fits (n + 1) b) (properA : a ≠ any)
include fitsA fitsB properA

/-- What one removal keeps holds when all members are taken out, unless nothing is left. -/
theorem withoutOver_keeps {I : Ty → List Ty → Prop}
    (step : ∀ left b rest next, Removal inv (n + 1) left b next → I left (b :: rest) → I next rest)
    (properB : b ≠ any) (start : I a b.members) :
    Yields (withoutOver lower a b) fun u =>
      u = never ∨ inv.Fits (n + 1) u ∧ u ≠ any ∧ I u [] := by
  by_cases nonempty : a = never
  · subst nonempty
    exact Yields.pure (.inl rfl)
  · rw [withoutOver_eq_each nonempty properA properB]
    refine withoutEach_keeps lawful step fitsA properA (fun t mem => ?_) start
    exact ⟨fitsB.of_mem_members mem, isValue_of_mem_members fitsB.1 properB mem⟩

/-- Only records are left, if the other type has all numbers and texts. -/
theorem withoutOver_leaves_records
    (within : ∀ v, v ∈ a → v ∈ b ∨ ∃ name values, v = .record name values) :
    Yields (withoutOver lower a b) fun u =>
      ∀ v, v ∈ u → ∃ name values, v = .record name values := by
  by_cases properB : b = any
  · subst properB
    cases a <;> exact Yields.pure fun v left => absurd left (not_mem_never v)
  · have values (t : Ty) (mem : t ∈ b.members) : t.isValue = true :=
      isValue_of_mem_members fitsB.1 properB mem
    let I (left : Ty) (rest : List Ty) : Prop := (∀ t ∈ rest, t.isValue = true) ∧
      NumbersDue left rest ∧ MembersDue .string left rest
    have start : I a b.members := by
      refine ⟨values, numbersDue_members fitsA.1 fitsB.1 properA properB fun x member => ?_,
        membersDue_members fitsA.1 (undivided_strings values) fun m mem kind v member => ?_⟩
      · simpa using within _ member
      · obtain ⟨s, rfl⟩ : ∃ s, m = string s := by cases m <;> simp_all [kind?]
        obtain ⟨x, rfl, _⟩ := exists_string_of_mem member
        simpa using within _ ((mem_iff_members a _).mpr ⟨_, mem, member⟩)
    have step (left b : Ty) (rest : List Ty) (next : Ty) (removal : Removal inv (n + 1) left b next)
        (due : I left (b :: rest)) : I next rest := by
      obtain ⟨values, numbers, texts⟩ := due
      have values := (forall_mem_cons.mp values).2
      exact ⟨values, removal.numbersDue numbers,
        removal.membersDue (undivided_strings values) texts⟩
    refine (withoutOver_keeps lawful fitsA fitsB properA step properB start).mono ?_
    rintro u (rfl | ⟨fits, proper, _, ⟨_, missing, pending⟩, texts⟩) v member
    · exact absurd member (not_mem_never v)
    · have numbers := pending.eq_nil (tame_numbersOf fits.1)
      obtain ⟨m, mem, member⟩ := (mem_iff_members u v).mp member
      have value := isValue_of_mem_members fits.1 proper mem
      cases m with
      | number x =>
        rw [← mem_numbersOf, numbers] at mem
        cases mem
      | string s =>
        obtain ⟨t, none, _⟩ := texts _ mem rfl
        cases none
      | struct name fields =>
        obtain ⟨values, same, _⟩ := exists_record_of_mem member
        exact ⟨name, values, same⟩
      | _ => cases value

end Over

end Algebra

end TypeFlow
