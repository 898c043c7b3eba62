import TypeFlow.Proofs.Algebra.Union

/-!
# Intersection of types

Over a lawful level, intersection is exact for any number of types. Types that are not unions are
intersected one after the other; the unions among them are then distributed over the result.
-/

namespace TypeFlow

open List hiding any
open Ty

namespace Algebra

/-- A type that is not a union and has the values of both types. -/
def Meet (inv : Invariant) (n : Nat) (a b u : Ty) : Prop :=
  inv.Fits n u ∧ Single u ∧ ∀ v, v ∈ u ↔ v ∈ a ∧ v ∈ b

variable {inv : Invariant} {n : Nat} {lower : Algebra}

/-- A result or nothing, where the result has the values of both types. -/
theorem meet_elim {α : Type} {result : Option α} {f : α → Ty} {a b : Ty}
    (fits : ∀ c ∈ result, inv.Fits (n + 1) (f c)) (single : ∀ c, Single (f c))
    (values : ∀ v, (∃ c ∈ result, v ∈ f c) ↔ v ∈ a ∧ v ∈ b) :
    Meet inv (n + 1) a b (result.elim never f) := by
  cases result with
  | none =>
    refine ⟨Invariant.fits_never (Nat.succ_pos n), fun _ => Ty.noConfusion, fun v => ?_⟩
    rw [← values]
    simp [not_mem_never]
  | some c =>
    refine ⟨fits c rfl, single c, fun v => ?_⟩
    rw [← values]
    simp

theorem meet_numbers {x y : NumberTy} (tameX : x.Tame) (tameY : y.Tame) :
    Meet inv (n + 1) (number x) (number y) ((Numbers.intersect x y).elim never number) := by
  refine meet_elim (fun c both => ?_) (fun _ _ => Ty.noConfusion) fun v => ?_
  · exact Invariant.fits_number (Nat.succ_pos n) (Numbers.tame_intersect tameX tameY both)
  · cases v with
    | number z => simpa using Numbers.has_intersect tameX.valid tameY.valid z
    | _ => simp [mem_iff, has]

theorem meet_strings (x y : StringTy) :
    Meet inv (n + 1) (string x) (string y) ((Strings.intersect x y).elim never string) := by
  refine meet_elim (fun c _ => Invariant.fits_string (Nat.succ_pos n))
    (fun _ _ => Ty.noConfusion) fun v => ?_
  cases v with
  | string z => simpa using Strings.has_intersect x y z
  | _ => simp [mem_iff, has]

section Pair

variable (lawful : inv.Lawful n lower)
include lawful

/-- The intersection of two types that are not unions is exact and not a union. -/
theorem intersectPair_meet {a b : Ty} (fitsA : inv.Fits (n + 1) a) (fitsB : inv.Fits (n + 1) b)
    (singleA : Single a) (singleB : Single b) :
    Yields (intersectPair lower a b) (Meet inv (n + 1) a b) := by
  have empty (none : ∀ v, ¬ (v ∈ a ∧ v ∈ b)) : Yields (return never) (Meet inv (n + 1) a b) :=
    Yields.pure ⟨Invariant.fits_never (Nat.succ_pos n), fun _ => Ty.noConfusion,
      fun v => iff_of_false (not_mem_never v) (none v)⟩
  have left (every : a = any) : Yields (return b) (Meet inv (n + 1) a b) :=
    Yields.pure ⟨fitsB, singleB, fun v => by simp [every, mem_any]⟩
  have right (every : b = any) : Yields (return a) (Meet inv (n + 1) a b) :=
    Yields.pure ⟨fitsA, singleA, fun v => by simp [every, mem_any]⟩
  cases a with
  | any => cases b <;> exact left rfl
  | union items => exact absurd rfl (singleA items)
  | never =>
    cases b with
    | any => exact right rfl
    | _ => exact empty fun v both => not_mem_never v both.1
  | number x =>
    cases b with
    | any => exact right rfl
    | union items => exact absurd rfl (singleB items)
    | never => exact empty fun v both => not_mem_never v both.2
    | number y =>
      exact Yields.pure (meet_numbers (sound_number.mp fitsA.1) (sound_number.mp fitsB.1))
    | _ => exact empty (not_mem_of_kind_ne rfl rfl (by simp [kind?]))
  | string x =>
    cases b with
    | any => exact right rfl
    | union items => exact absurd rfl (singleB items)
    | never => exact empty fun v both => not_mem_never v both.2
    | string y => exact Yields.pure (meet_strings x y)
    | _ => exact empty (not_mem_of_kind_ne rfl rfl (by simp [kind?]))
  | struct name fields =>
    cases b with
    | any => exact right rfl
    | union items => exact absurd rfl (singleB items)
    | never => exact empty fun v both => not_mem_never v both.2
    | struct name' fields' => exact Structs.intersect_exact lawful fitsA fitsB
    | _ => exact empty (not_mem_of_kind_ne rfl rfl (by simp [kind?]))

/-- What has been gathered is a type that is not a union and the items of unions, which together
have the values of a property; nothing when there are none. -/
def Gathers (inv : Invariant) (n : Nat) (P : Value → Prop) : Option (Ty × List (List Ty)) → Prop
  | none => ∀ v, ¬ P v
  | some (t, unions) => inv.Fits n t ∧ Single t ∧
    (∀ us ∈ unions, ∀ m ∈ us, inv.Fits n m ∧ Single m) ∧
    ∀ v, (v ∈ t ∧ ∀ us ∈ unions, ∃ m ∈ us, v ∈ m) ↔ P v

variable {result : Option (Ty × List (List Ty))} {items partials : List Ty}

omit lawful in
theorem Gathers.congr {P Q : Value → Prop} (same : ∀ v, P v ↔ Q v)
    (gathers : Gathers inv n P result) : Gathers inv n Q result := by
  obtain rfl : P = Q := funext fun v => propext (same v)
  exact gathers

omit lawful in
theorem Gathers.union {P : Value → Prop} (gathers : Gathers inv n P result)
    (each : ∀ m ∈ items, inv.Fits n m ∧ Single m) :
    Gathers inv n (fun v => P v ∧ v ∈ Ty.union items)
      (result.map fun (t, unions) => (t, items :: unions)) := by
  cases result with
  | none => exact fun v both => gathers v both.1
  | some pair =>
    obtain ⟨t, unions⟩ := pair
    obtain ⟨fits, single, others, values⟩ := gathers
    refine ⟨fits, single, forall_mem_cons.mpr ⟨each, others⟩, fun v => ?_⟩
    change _ ↔ P v ∧ v ∈ Ty.union items
    rw [forall_mem_cons, ← values, mem_union_iff]
    tauto

theorem gather_exact {sofar : Ty} (fits : inv.Fits (n + 1) sofar) (single : Single sofar)
    (each : ∀ t ∈ items, inv.Fits (n + 1) t) :
    Yields (gather lower sofar items)
      (Gathers inv (n + 1) fun v => v ∈ sofar ∧ ∀ t ∈ items, v ∈ t) := by
  induction items generalizing sofar with
  | nil => exact Yields.pure ⟨fits, single, by simp, by simp⟩
  | cons t rest ih =>
    have fitsT := each t mem_cons_self
    have eachRest : ∀ t ∈ rest, inv.Fits (n + 1) t :=
      fun s mem => each s (mem_cons_of_mem t mem)
    -- Numbers, texts and structs all go the same way: intersect, and stop at nothing.
    have next (singleT : Single t) : Yields
        (do let both ← intersectPair lower sofar t
            if both.isNever then return none else gather lower both rest)
        (Gathers inv (n + 1) fun v => v ∈ sofar ∧ ∀ s ∈ t :: rest, v ∈ s) := by
      refine Yields.bind (intersectPair_meet lawful fits fitsT single singleT)
        fun both ⟨fitsBoth, singleBoth, values⟩ => ?_
      split
      · next empty =>
        refine Yields.pure fun v has => not_mem_never v ?_
        rw [← isNever_iff.mp empty, values]
        exact ⟨has.1, has.2 t mem_cons_self⟩
      · refine (ih fitsBoth singleBoth eachRest).mono fun result => Gathers.congr fun v => ?_
        rw [values, forall_mem_cons, and_assoc]
    cases t with
    | any =>
      refine (ih fits single eachRest).mono fun result => Gathers.congr fun v => ?_
      rw [forall_mem_cons, and_iff_right (mem_any v)]
    | never =>
      exact Yields.pure fun v has => not_mem_never v (has.2 never mem_cons_self)
    | union us =>
      have items : ∀ m ∈ us, inv.Fits (n + 1) m ∧ Single m := fun m mem =>
        ⟨fitsT.of_mem_members mem, single_of_isValue ((sound_union.mp fitsT.1).1.2.1 m mem)⟩
      refine Yields.bind (ih fits single eachRest) fun result gathers => Yields.pure ?_
      refine Gathers.congr (fun v => ?_) (gathers.union items)
      rw [forall_mem_cons]
      tauto
    | number x => exact next fun _ => Ty.noConfusion
    | string x => exact next fun _ => Ty.noConfusion
    | struct name fields => exact next fun _ => Ty.noConfusion

theorem intersectPairs_exact {partials us : List Ty}
    (fits : ∀ p ∈ partials, inv.Fits (n + 1) p ∧ Single p)
    (items : ∀ m ∈ us, inv.Fits (n + 1) m ∧ Single m) :
    Yields ((partials.flatMap fun p => us.map fun m => (p, m)).mapM fun pair =>
        intersectPair lower pair.1 pair.2) fun next =>
      (∀ t ∈ next, inv.Fits (n + 1) t ∧ Single t) ∧
      ∀ v, (∃ t ∈ next, v ∈ t) ↔ (∃ p ∈ partials, v ∈ p) ∧ ∃ m ∈ us, v ∈ m := by
  let pairs := partials.flatMap fun p => us.map fun m => (p, m)
  have mem_pairs (p m : Ty) : (p, m) ∈ pairs ↔ p ∈ partials ∧ m ∈ us := by
    simp [pairs]
  have step : Yields (pairs.mapM fun pair => intersectPair lower pair.1 pair.2)
      (Forall₂ (fun pair => Meet inv (n + 1) pair.1 pair.2) pairs) := by
    refine Yields.mapM fun pair mem => ?_
    obtain ⟨memP, memM⟩ := (mem_pairs pair.1 pair.2).mp mem
    obtain ⟨fitsP, singleP⟩ := fits pair.1 memP
    obtain ⟨fitsM, singleM⟩ := items pair.2 memM
    exact intersectPair_meet lawful fitsP fitsM singleP singleM
  refine step.mono fun next results => ⟨fun t mem => ?_, fun v => ⟨?_, ?_⟩⟩
  · obtain ⟨pair, _, fitsT, single, _⟩ := exists_left_of_forall₂ results mem
    exact ⟨fitsT, single⟩
  · rintro ⟨t, mem, member⟩
    obtain ⟨pair, found, _, _, values⟩ := exists_left_of_forall₂ results mem
    obtain ⟨memP, memM⟩ := (mem_pairs pair.1 pair.2).mp found
    obtain ⟨memberP, memberM⟩ := (values v).mp member
    exact ⟨⟨pair.1, memP, memberP⟩, pair.2, memM, memberM⟩
  · rintro ⟨⟨p, memP, memberP⟩, m, memM, memberM⟩
    obtain ⟨t, mem, _, _, values⟩ :=
      exists_right_of_forall₂ results ((mem_pairs p m).mpr ⟨memP, memM⟩)
    exact ⟨t, mem, (values v).mpr ⟨memberP, memberM⟩⟩

omit lawful in
/-- Leaving out empty types loses no value. -/
theorem exists_mem_proper {types : List Ty} {v : Value} :
    (∃ t ∈ types.filter fun t => !t.isNever, v ∈ t) ↔ ∃ t ∈ types, v ∈ t := by
  constructor
  · rintro ⟨t, mem, member⟩
    exact ⟨t, (mem_filter.mp mem).1, member⟩
  · rintro ⟨t, mem, member⟩
    refine ⟨t, mem_filter.mpr ⟨mem, ?_⟩, member⟩
    cases t with
    | never => exact absurd member (not_mem_never v)
    | _ => rfl

/-- Distributing intersects each of the types so far with one member of each union. -/
theorem distribute_exact {unions : List (List Ty)}
    (items : ∀ us ∈ unions, ∀ m ∈ us, inv.Fits (n + 1) m ∧ Single m)
    (fits : ∀ p ∈ partials, inv.Fits (n + 1) p ∧ Single p) :
    Yields (distribute lower unions partials) fun result =>
      (∀ t ∈ result, inv.Fits (n + 1) t) ∧
      ∀ v, (∃ t ∈ result, v ∈ t) ↔
        (∃ p ∈ partials, v ∈ p) ∧ ∀ us ∈ unions, ∃ m ∈ us, v ∈ m := by
  induction unions generalizing partials with
  | nil => exact Yields.pure ⟨fun t mem => (fits t mem).1, by simp⟩
  | cons us rest ih =>
    refine Yields.bind (intersectPairs_exact lawful fits (items us mem_cons_self))
      fun next step => ?_
    have fitsNext : ∀ t ∈ next.filter fun t => !t.isNever, inv.Fits (n + 1) t ∧ Single t :=
      fun t mem => step.1 t (mem_filter.mp mem).1
    have spread := ih (fun us' mem => items us' (mem_cons_of_mem us mem)) fitsNext
    refine spread.mono fun result values => ⟨values.1, fun v => ?_⟩
    rw [values.2, exists_mem_proper, step.2, forall_mem_cons, and_assoc]

theorem intersectOver_exact (fits : ∀ t ∈ items, inv.Fits (n + 1) t) :
    Yields (intersectOver lower items) fun u =>
      inv.Fits (n + 1) u ∧ ∀ v, v ∈ u ↔ ∀ t ∈ items, v ∈ t := by
  have pos : 0 < n + 1 := Nat.succ_pos n
  refine Yields.bind (gather_exact lawful (inv.fits_any pos) (fun _ => Ty.noConfusion) fits)
    fun result gathers => ?_
  match result, gathers with
  | none, empty =>
    refine Yields.pure ⟨inv.fits_never pos, fun v => iff_of_false (not_mem_never v) ?_⟩
    exact fun has => empty v ⟨mem_any v, has⟩
  | some (t, []), ⟨fitsT, single, each, values⟩ =>
    refine Yields.pure ⟨fitsT, fun v => ?_⟩
    simpa [mem_any] using values v
  | some (t, us :: unions), ⟨fitsT, single, each, values⟩ =>
    have start : ∀ p ∈ [t], inv.Fits (n + 1) p ∧ Single p := by
      simpa using ⟨fitsT, single⟩
    refine Yields.bind (distribute_exact lawful each start) fun parts ⟨fitsParts, spread⟩ => ?_
    refine (unionOver_exact lawful fitsParts).mono fun u ⟨fitsU, valuesU⟩ => ⟨fitsU, fun v => ?_⟩
    have whole := values v
    simp only [mem_any, true_and] at whole
    rw [valuesU, spread, ← whole]
    simp only [mem_singleton, exists_eq_left]

end Pair

end Algebra

end TypeFlow
