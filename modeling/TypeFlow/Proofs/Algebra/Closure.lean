import TypeFlow.Proofs.Algebra.Union
import TypeFlow.Proofs.Results

/-!
# Properties that the operations keep

A property of types is kept by all operations, at one level of structs, once it passes to members
and to the types of fields, and holds of structs with fields of such types and of the unions that
are made. The property of the field types may be another one, so that it can speak of nesting. Some
properties keep structs from clashing, others hold of every result there is.
-/

namespace TypeFlow

open List Ty

namespace Algebra

/-- The operations lead from types with the property to such types, and clash only where that is
allowed. -/
structure Keeps (clashes : Prop) (P : Ty → Prop) (algebra : Algebra) : Prop where
  union : ∀ {items}, items ≠ [] → (∀ t ∈ items, P t) →
    YieldsUnless clashes (algebra.union items) P
  intersect : ∀ {items}, items ≠ [] → (∀ t ∈ items, P t) →
    YieldsUnless clashes (algebra.intersect items) P
  without : ∀ {a b}, P a → P b → YieldsUnless clashes (algebra.without a b) P
  subset : ∀ {a b}, P a → P b → YieldsUnless clashes (algebra.subset a b) fun _ => True

/-- A property `P` of types whose fields have the property `Q`, which the level below keeps. -/
structure Tier (clashes : Prop) (lower : Algebra) (P Q : Ty → Prop) : Prop where
  below : lower.Keeps clashes Q
  never : P .never
  any : P .any
  string : ∀ s, P (.string s)
  member : ∀ {t m}, P t → m ∈ t.members → P m
  part : ∀ {t m}, Q t → m ∈ t.members → Q m
  field : ∀ {r : Record}, P r.toTy → ∀ f ∈ r.fields, Q f.2
  build : ∀ {r : Record} {fields : List (String × Ty)}, P r.toTy →
    fields.map (·.1) = r.fields.map (·.1) → (∀ f ∈ fields, Q f.2) → P (Record.build r.name fields)
  /-- Structs of one name have the same fields, unless clashes are allowed. -/
  agree : ∀ {a b : Record}, P a.toTy → P b.toTy → a.name = b.name → ¬ clashes →
    a.fields.map (·.1) = b.fields.map (·.1)
  numbers : ∀ {items}, (∀ n ∈ items, P (.number n)) →
    ∀ n ∈ Numbers.unionMembers items, P (.number n)
  intersect : ∀ {x y z}, P (.number x) → P (.number y) → Numbers.intersect x y = some z →
    P (.number z)
  without : ∀ {x y}, P (.number x) → P (.number y) → P (ofNumbers (Numbers.without x y))
  union : ∀ {numbers strings records structs}, (∀ n ∈ numbers, P (.number n)) →
    (∀ r ∈ structs, P r.toTy) → Structs.unionMembers lower records = .ok structs →
    P (ofMembers (merged numbers strings structs))

end Algebra

open TypeFlow.Algebra (Tier)

namespace Structs

variable {clashes : Prop} {lower : Algebra} {P Q : Ty → Prop} (tier : Tier clashes lower P Q)
include tier

theorem holds_withField {r : Record} (holds : P r.toTy) {index : Nat} {t : Ty} (holdsT : Q t) :
    P (r.withField index t) := by
  refine tier.build holds Record.map_fst_setField fun f mem => ?_
  rcases Record.mem_setField mem with same | mem
  · exact same ▸ holdsT
  · exact tier.field holds f mem

section Pairs

variable {a b : Record} (holdsA : P a.toTy) (holdsB : P b.toTy)
include holdsA holdsB

theorem holds_of_mem_pairs {p : Ty × Ty} (mem : p ∈ pairs a b) : Q p.1 ∧ Q p.2 := by
  obtain ⟨⟨f, g⟩, both, rfl⟩ := mem_map.mp mem
  exact ⟨tier.field holdsA f (of_mem_zip both).1,
    tier.field holdsB g (of_mem_zip both).2⟩

theorem agree_kept (name : a.name = b.name) : YieldsUnless clashes (agree a b) fun _ =>
    a.fields.map (·.1) = b.fields.map (·.1) := by
  unfold agree
  split
  · next same => exact .pure (of_decide_eq_true same)
  · next differ =>
    refine .inr ⟨by_contra fun forbidden => differ ?_, _, rfl⟩
    exact decide_eq_true (tier.agree holdsA holdsB name forbidden)

theorem subset_kept : YieldsUnless clashes (subset lower a b) fun _ => True := by
  unfold subset
  split
  · next name =>
    refine (agree_kept tier holdsA holdsB name).bind fun _ _ => .allM fun p mem => ?_
    obtain ⟨left, right⟩ := holds_of_mem_pairs tier holdsA holdsB mem
    exact tier.below.subset left right
  · exact .pure trivial

theorem intersect_kept : YieldsUnless clashes (intersect lower a b) P := by
  unfold intersect
  split
  · next name =>
    refine (agree_kept tier holdsA holdsB name).bind fun _ names => ?_
    have types : YieldsUnless clashes ((pairs a b).mapM fun p => lower.intersect [p.1, p.2])
        (Forall₂ (fun _ t => Q t) (pairs a b)) := by
      refine .mapM fun p mem => ?_
      obtain ⟨left, right⟩ := holds_of_mem_pairs tier holdsA holdsB mem
      exact tier.below.intersect (by simp) (by simp [left, right])
    refine types.bind fun types each => .pure (tier.build holdsA ?_ fun f mem => ?_)
    · have sameLength := congrArg List.length names
      have all := each.length_eq
      simp only [pairs, length_map, length_zip] at sameLength all
      exact map_fst_zip (by rw [length_map]; omega)
    · obtain ⟨p, -, holds⟩ := exists_left_of_forall₂ each (of_mem_zip mem).2
      exact holds
  · exact .pure tier.never

omit holdsA holdsB in
theorem escaping_kept {types : List (Ty × Ty)} (each : ∀ p ∈ types, Q p.1 ∧ Q p.2)
    (limit index : Nat) : YieldsUnless clashes (escaping lower limit index types) fun found =>
      ∀ e ∈ found, e.2 ∈ types := by
  induction types generalizing limit index with
  | nil => cases limit <;> exact .pure (by simp)
  | cons p rest ih =>
    cases limit with
    | zero => exact .pure (by simp)
    | succ limit =>
      obtain ⟨⟨left, right⟩, later⟩ := forall_mem_cons.mp each
      refine (tier.below.subset left right).bind fun inside _ => ?_
      cases inside with
      | true =>
        refine (ih later (limit + 1) (index + 1)).mono fun found all e mem => ?_
        exact mem_cons_of_mem p (all e mem)
      | false =>
        refine (ih later limit (index + 1)).bind fun found all => .pure ?_
        exact forall_mem_cons.mpr
          ⟨mem_cons_self, fun e mem => mem_cons_of_mem p (all e mem)⟩

theorem without_kept : YieldsUnless clashes (without lower a b) P := by
  have each := fun p (mem : p ∈ pairs a b) => holds_of_mem_pairs tier holdsA holdsB mem
  unfold without
  split
  · next name =>
    refine (agree_kept tier holdsA holdsB name).bind fun _ _ => ?_
    have tests : YieldsUnless clashes ((pairs a b).anyM fun p => lower.disjoint p.1 p.2)
        fun _ => True := by
      refine .anyM fun p mem => ?_
      obtain ⟨left, right⟩ := each p mem
      exact (tier.below.intersect (by simp) (by simp [left, right])).bind fun _ _ => .pure trivial
    refine tests.bind fun apart _ => ?_
    split
    · exact .pure holdsA
    · refine (escaping_kept tier each 2 0).bind fun found inside => ?_
      split
      · exact .pure tier.never
      · next index x y =>
        obtain ⟨left, right⟩ := each _ (inside (index, x, y) mem_cons_self)
        refine (tier.below.without left right).bind fun u holdsU => .pure ?_
        exact holds_withField tier holdsA holdsU
      · exact .pure holdsA
  · exact .pure holdsA

end Pairs

variable {items : List Record}

theorem hereditary_kept : Hereditary fun r => P r.toTy := by
  intro r holds index f position m memM s found
  have inField := tier.field holds f (mem_of_getElem? position)
  rw [← record?_eq_some_iff.mp found]
  exact holds_withField tier holds (tier.part inField memM)

theorem dropSubsumed_kept (holds : ∀ r ∈ items, P r.toTy) :
    YieldsUnless clashes (dropSubsumed lower items) fun kept => ∀ r ∈ kept, P r.toTy := by
  have inItems : ∀ x ∈ items.zipIdx, P x.1.toTy := fun x mem =>
    holds x.1 (mem_of_getElem? (mem_zipIdx_iff_getElem?.mp mem))
  have tests : YieldsUnless clashes (items.zipIdx.filterM fun x => do
      return !(← subsumed lower items.zipIdx x.1 x.2)) fun kept => kept ⊆ items.zipIdx := by
    refine .filterM fun x mem => ?_
    have against : YieldsUnless clashes (subsumed lower items.zipIdx x.1 x.2) fun _ => True := by
      refine .anyM fun y memY => ?_
      have forth := subset_kept tier (inItems x mem) (inItems y memY)
      have back := subset_kept tier (inItems y memY) (inItems x mem)
      obtain ⟨b, j⟩ := y
      by_cases same : x.2 = j
      · simp only [if_pos same]
        exact .pure trivial
      · simp only [if_neg same]
        refine forth.bind fun inside _ => ?_
        cases inside with
        | true => exact back.bind fun _ _ => .pure trivial
        | false => exact .pure trivial
    exact against.bind fun _ _ => .pure trivial
  refine tests.bind fun kept part => .pure fun r mem => ?_
  obtain ⟨x, memX, rfl⟩ := mem_map.mp mem
  exact inItems x (part memX)

theorem mergeOnField_kept (holds : ∀ r ∈ items, P r.toTy) (index : Nat) :
    YieldsUnless clashes (mergeOnField lower items index) fun merged =>
      ∀ r ∈ merged, P r.toTy := by
  have grouped := grouped_grouping items index
  rw [mergeOnField_eq]
  have groups : YieldsUnless clashes ((grouping items index).mapM fun g => do
      return g.first.withField index (← lower.union g.types)) fun merged => ∀ t ∈ merged, P t := by
    refine .mapM_forall fun g mem => ?_
    obtain ⟨memFirst, -, -, nonempty⟩ := grouped.first g mem
    have types : ∀ t ∈ g.types, Q t := by
      intro t memT
      obtain ⟨r, memR, f, found, -, rfl⟩ := grouped.type g mem t memT
      exact tier.field (holds r memR) f (mem_of_getElem? found)
    refine (tier.below.union nonempty types).bind fun u holdsU => .pure ?_
    exact holds_withField tier (holds g.first memFirst) holdsU
  refine groups.bind fun merged each => .pure fun r mem => ?_
  rcases mem_append.mp mem with mem | mem
  · exact holds r (mem_of_mem_filter mem)
  · obtain ⟨t, memT, found⟩ := mem_filterMap.mp mem
    exact record?_eq_some_iff.mp found ▸ each t memT

theorem settle_kept (holds : ∀ r ∈ items, P r.toTy) (steps : Nat) :
    YieldsUnless clashes (settle lower steps items) fun kept => ∀ r ∈ kept, P r.toTy := by
  induction steps generalizing items with
  | zero => exact .pure holds
  | succ steps ih =>
    have sorted : ∀ r ∈ Sorted.ofList Record.compare items, P r.toTy :=
      fun r mem => holds r (Sorted.mem_ofList.mp mem)
    refine (dropSubsumed_kept tier sorted).bind fun kept holdsKept => ?_
    have pass : YieldsUnless clashes ((List.range (width kept)).foldlM (mergeOnField lower) kept)
        fun merged => ∀ r ∈ merged, P r.toTy :=
      .foldlM holdsKept fun merged index holds => mergeOnField_kept tier holds index
    refine pass.bind fun merged holdsMerged => ?_
    split
    · exact .pure holdsKept
    · exact ih holdsMerged

theorem unionMembers_kept (holds : ∀ r ∈ items, P r.toTy) :
    YieldsUnless clashes (unionMembers lower items) fun members => ∀ r ∈ members, P r.toTy := by
  refine settle_kept tier (fun s mem => ?_) _
  obtain ⟨r, memR, memS⟩ := mem_flatMap.mp mem
  exact (atoms_exact (hereditary_kept tier) (holds r memR)).1 s memS

end Structs

namespace Algebra

variable {clashes : Prop} {lower : Algebra} {P Q : Ty → Prop} (tier : Tier clashes lower P Q)
  {a b : Ty} {items : List Ty}
include tier

theorem unionOver_kept (holds : ∀ t ∈ items, P t) :
    YieldsUnless clashes (unionOver lower items) P := by
  have inside : ∀ m ∈ items.flatMap members, P m := by
    intro m mem
    obtain ⟨t, memT, mem⟩ := mem_flatMap.mp mem
    exact tier.member (holds t memT) mem
  simp only [unionOver]
  split
  · exact .pure tier.any
  · have records : ∀ r ∈ (items.flatMap members).filterMap record?, P r.toTy := by
      intro r mem
      obtain ⟨m, memM, found⟩ := mem_filterMap.mp mem
      exact Structs.record?_eq_some_iff.mp found ▸ inside m memM
    have numbers : ∀ n ∈ (items.flatMap members).filterMap number?, P (.number n) := by
      intro n mem
      obtain ⟨m, memM, found⟩ := mem_filterMap.mp mem
      exact number?_eq_some_iff.mp found ▸ inside m memM
    refine (Structs.unionMembers_kept tier records).recorded.bind fun structs united => .pure ?_
    exact tier.union (tier.numbers numbers) united.1 united.2

theorem intersectPair_kept (holdsA : P a) (holdsB : P b) :
    YieldsUnless clashes (intersectPair lower a b) P := by
  unfold intersectPair
  split
  · exact .pure holdsB
  · exact .pure holdsA
  · next x y =>
    apply YieldsUnless.pure
    cases both : Numbers.intersect x y with
    | none => exact tier.never
    | some z => exact tier.intersect holdsA holdsB both
  · next x y =>
    apply YieldsUnless.pure
    cases Strings.intersect x y with
    | none => exact tier.never
    | some z => exact tier.string z
  · exact Structs.intersect_kept tier holdsA holdsB
  · exact .pure tier.never

theorem gather_kept (holds : ∀ t ∈ items, P t) {sofar : Ty} (holdsSofar : P sofar) :
    YieldsUnless clashes (gather lower sofar items) fun result => ∀ t unions,
      result = some (t, unions) → P t ∧ ∀ members ∈ unions, ∀ m ∈ members, P m := by
  induction items generalizing sofar with
  | nil =>
    refine .pure fun t unions same => ?_
    obtain ⟨rfl, rfl⟩ := Prod.mk.inj (Option.some.inj same)
    exact ⟨holdsSofar, by simp⟩
  | cons t rest ih =>
    obtain ⟨holdsT, later⟩ := forall_mem_cons.mp holds
    -- numbers, texts and structs all go the same way
    have next : YieldsUnless clashes
        (do let both ← intersectPair lower sofar t
            if both.isNever then return none else gather lower both rest)
        fun result => ∀ t unions, result = some (t, unions) →
          P t ∧ ∀ members ∈ unions, ∀ m ∈ members, P m := by
      refine (intersectPair_kept tier holdsSofar holdsT).bind fun both holdsBoth => ?_
      split
      · exact .pure fun t unions same => by cases same
      · exact ih later holdsBoth
    cases t with
    | any => exact ih later holdsSofar
    | never => exact .pure fun t unions same => by cases same
    | union us =>
      refine (ih later holdsSofar).bind fun result each => .pure fun t unions same => ?_
      obtain ⟨⟨t', unions'⟩, found, same⟩ := Option.map_eq_some_iff.mp same
      obtain ⟨rfl, rfl⟩ := Prod.mk.inj same
      obtain ⟨first, others⟩ := each t' unions' found
      exact ⟨first, forall_mem_cons.mpr ⟨fun m mem => tier.member holdsT mem, others⟩⟩
    | number x => exact next
    | string x => exact next
    | struct name fields => exact next

theorem distribute_kept {unions : List (List Ty)}
    (holds : ∀ members ∈ unions, ∀ m ∈ members, P m) {partials : List Ty}
    (each : ∀ t ∈ partials, P t) :
    YieldsUnless clashes (distribute lower unions partials) fun result => ∀ t ∈ result, P t := by
  induction unions generalizing partials with
  | nil => exact .pure each
  | cons members rest ih =>
    obtain ⟨here, later⟩ := forall_mem_cons.mp holds
    have step : YieldsUnless clashes ((partials.flatMap fun p => members.map fun m => (p, m)).mapM
        fun pair => intersectPair lower pair.1 pair.2) fun next => ∀ t ∈ next, P t := by
      refine .mapM_forall fun pair mem => ?_
      obtain ⟨p, memP, mem⟩ := mem_flatMap.mp mem
      obtain ⟨m, memM, rfl⟩ := mem_map.mp mem
      exact intersectPair_kept tier (each p memP) (here m memM)
    refine step.bind fun next results => ih later fun t mem => ?_
    exact results t (mem_of_mem_filter mem)

theorem intersectOver_kept (holds : ∀ t ∈ items, P t) :
    YieldsUnless clashes (intersectOver lower items) P := by
  refine (gather_kept tier holds tier.any).bind fun result each => ?_
  split
  · exact .pure tier.never
  · next t => exact .pure (each t [] rfl).1
  · next t unions _ =>
    obtain ⟨first, others⟩ := each t unions rfl
    refine (distribute_kept tier others (by simpa using first)).bind fun parts holdsParts => ?_
    exact unionOver_kept tier holdsParts

theorem withoutValue_kept (holdsA : P a) (holdsB : P b) :
    YieldsUnless clashes (withoutValue lower a b) P := by
  unfold withoutValue
  split
  · exact .pure (tier.without holdsA holdsB)
  · next x y =>
    apply YieldsUnless.pure
    cases Strings.without x y with
    | none => exact tier.never
    | some z => exact tier.string z
  · exact Structs.without_kept tier holdsA holdsB
  · exact .pure holdsA

theorem withoutMember_kept (holdsA : P a) (holdsB : P b) :
    YieldsUnless clashes (withoutMember lower a b) P := by
  unfold withoutMember
  split
  · exact .pure tier.never
  · exact .pure tier.never
  · exact .pure holdsA
  · exact .pure tier.any
  · next items _ _ =>
    have each : YieldsUnless clashes (items.mapM fun m => withoutValue lower m b)
        fun parts => ∀ t ∈ parts, P t :=
      .mapM_forall fun m mem => withoutValue_kept tier (tier.member holdsA mem) holdsB
    exact each.bind fun parts holdsParts => unionOver_kept tier holdsParts
  · exact withoutValue_kept tier holdsA holdsB

theorem withoutEach_kept (holdsA : P a) (holds : ∀ t ∈ items, P t) :
    YieldsUnless clashes (withoutEach lower a items) P := by
  induction items generalizing a with
  | nil => exact .pure holdsA
  | cons b rest ih =>
    obtain ⟨holdsB, later⟩ := forall_mem_cons.mp holds
    refine (withoutMember_kept tier holdsA holdsB).bind fun left holdsLeft => ?_
    split
    · exact .pure holdsLeft
    · exact ih holdsLeft later

theorem withoutOver_kept (holdsA : P a) (holdsB : P b) :
    YieldsUnless clashes (withoutOver lower a b) P := by
  unfold withoutOver
  split
  · exact .pure tier.never
  · exact .pure tier.any
  · exact withoutEach_kept tier holdsA fun m mem => tier.member holdsB mem
  · exact withoutMember_kept tier holdsA holdsB

theorem subsetValue_kept (holdsA : P a) (holdsB : P b) :
    YieldsUnless clashes (subsetValue lower a b) fun _ => True := by
  unfold subsetValue
  split
  · exact .pure trivial
  · exact .pure trivial
  · exact Structs.subset_kept tier holdsA holdsB
  · exact .pure trivial

theorem subsetMember_kept (holdsA : P a) (holdsB : P b) :
    YieldsUnless clashes (subsetMember lower a b) fun _ => True := by
  unfold subsetMember
  split
  · exact (withoutOver_kept tier holdsA holdsB).bind fun _ _ => .pure trivial
  · exact .anyM fun m mem => subsetValue_kept tier holdsA (tier.member holdsB mem)
  · exact subsetValue_kept tier holdsA holdsB

theorem subsetOver_kept (holdsA : P a) (holdsB : P b) :
    YieldsUnless clashes (subsetOver lower a b) fun _ => True := by
  unfold subsetOver
  split
  · exact .pure trivial
  · exact .pure trivial
  · exact .pure trivial
  · exact .pure trivial
  · exact .allM fun m mem => subsetMember_kept tier (tier.member holdsA mem) holdsB
  · exact subsetMember_kept tier holdsA holdsB

/-- A level keeps a property of types when the level below keeps that of their fields. -/
theorem Tier.keeps : (above lower).Keeps clashes P where
  union _ holds := unionOver_kept tier holds
  intersect _ holds := intersectOver_kept tier holds
  without holdsA holdsB := withoutOver_kept tier holdsA holdsB
  subset holdsA holdsB := subsetOver_kept tier holdsA holdsB

end Algebra

end TypeFlow
