import Mathlib.Data.List.Forall2
import TypeFlow.Algebra.Structs

/-!
# Computations without a clash

`Yields x P` says that a computation ends without a clash, in a result with a property. The rules
here follow the shape of a computation: steps in sequence, a step for each item of a list, tests
of all items, and loops that keep an invariant.
-/

namespace TypeFlow

open List

variable {α β : Type}

/-- The computation has a result, and the result has the property. -/
def Yields (x : Checked α) (P : α → Prop) : Prop := ∃ a, x = .ok a ∧ P a

/-- The test has a result, which is the truth of the statement. -/
def Decides (x : Checked Bool) (P : Prop) : Prop := Yields x fun b => b = true ↔ P

variable {R : α → β → Prop} {items : List α} {results : List β}

theorem exists_right_of_forall₂ (each : Forall₂ R items results) {a : α}
    (mem : a ∈ items) : ∃ b ∈ results, R a b := by
  induction each with
  | nil => cases mem
  | cons head tail ih =>
    rcases mem_cons.mp mem with rfl | mem
    · exact ⟨_, mem_cons_self, head⟩
    · obtain ⟨b, found, holds⟩ := ih mem
      exact ⟨b, mem_cons_of_mem _ found, holds⟩

theorem exists_left_of_forall₂ (each : Forall₂ R items results) {b : β}
    (mem : b ∈ results) : ∃ a ∈ items, R a b := by
  obtain ⟨a, found, holds⟩ := exists_right_of_forall₂ each.flip mem
  exact ⟨a, found, holds⟩

namespace Yields

variable {x : Checked α} {P Q : α → Prop}

theorem pure {a : α} (holds : P a) : Yields (pure a : Checked α) P := ⟨a, rfl, holds⟩

theorem mono (yields : Yields x P) (imp : ∀ a, P a → Q a) : Yields x Q := by
  obtain ⟨a, same, holds⟩ := yields
  exact ⟨a, same, imp a holds⟩

theorem and (first : Yields x P) (second : Yields x Q) : Yields x fun a => P a ∧ Q a := by
  obtain ⟨a, same, holds⟩ := first
  obtain ⟨b, same', holds'⟩ := second
  obtain rfl := Except.ok.inj (same.symm.trans same')
  exact ⟨a, same, holds, holds'⟩

theorem bind {f : α → Checked β} {R : β → Prop} (first : Yields x P)
    (next : ∀ a, P a → Yields (f a) R) : Yields (x >>= f) R := by
  obtain ⟨a, same, holds⟩ := first
  rw [same]
  exact next a holds

theorem decides {x : Checked Bool} (yields : Yields x fun _ => True) :
    Decides x (x = .ok true) := by
  obtain ⟨b, same, _⟩ := yields
  exact ⟨b, same, by simp [same]⟩

theorem mapM {f : α → Checked β} {R : α → β → Prop} {items : List α}
    (each : ∀ a ∈ items, Yields (f a) (R a)) : Yields (items.mapM f) (Forall₂ R items) := by
  induction items with
  | nil => exact pure .nil
  | cons a rest ih =>
    rw [mapM_cons]
    refine bind (each a mem_cons_self) fun b holds => ?_
    refine bind (ih fun a' mem => each a' (mem_cons_of_mem a mem)) fun bs tail => ?_
    exact pure (.cons holds tail)

/-- A loop over the first numbers keeps an invariant that may speak of the current one. -/
theorem foldlM_range {f : β → Nat → Checked β} {I : Nat → β → Prop} {start : β} (n : Nat)
    (first : I 0 start) (step : ∀ i < n, ∀ b, I i b → Yields (f b i) (I (i + 1))) :
    Yields ((List.range n).foldlM f start) (I n) := by
  induction n with
  | zero => exact pure first
  | succ n ih =>
    rw [range_succ, foldlM_append]
    refine bind (ih fun i less => step i (Nat.lt_succ_of_lt less)) fun b holds => ?_
    rw [foldlM_cons]
    exact bind (step n (Nat.lt_succ_self n) b holds) fun b' holds => pure holds

end Yields

namespace Decides

variable {x : Checked Bool} {P Q : Prop}

theorem pure {b : Bool} (holds : b = true ↔ P) : Decides (pure b : Checked Bool) P :=
  Yields.pure holds

theorem congr (decides : Decides x P) (same : P ↔ Q) : Decides x Q :=
  Yields.mono decides fun _ holds => holds.trans same

theorem ite {R : α → Prop} {yes no : Checked α} (decides : Decides x P)
    (whenTrue : P → Yields yes R) (whenFalse : ¬ P → Yields no R) :
    Yields (x >>= fun b => if b = true then yes else no) R := by
  refine Yields.bind decides fun b holds => ?_
  by_cases test : b = true
  · rw [if_pos test]
    exact whenTrue (holds.mp test)
  · rw [if_neg test]
    exact whenFalse fun p => test (holds.mpr p)

section List

variable {f : α → Checked Bool} {T : α → Prop} {items : List α}
  (each : ∀ a ∈ items, Decides (f a) (T a))
include each

theorem anyM : Decides (items.anyM f) (∃ a ∈ items, T a) := by
  induction items with
  | nil => exact pure (by simp)
  | cons a rest ih =>
    have tail := ih fun a' mem => each a' (mem_cons_of_mem a mem)
    refine Yields.bind (each a mem_cons_self) fun b holds => ?_
    cases b with
    | true => exact pure (by simpa using .inl (holds.mp rfl))
    | false => exact tail.congr (by simp [← holds])

theorem allM : Decides (items.allM f) (∀ a ∈ items, T a) := by
  induction items with
  | nil => exact pure (by simp)
  | cons a rest ih =>
    have tail := ih fun a' mem => each a' (mem_cons_of_mem a mem)
    refine Yields.bind (each a mem_cons_self) fun b holds => ?_
    cases b with
    | true => exact tail.congr (by simp [← holds])
    | false => exact pure (by simp [← holds])

theorem filterM : Yields (items.filterM f) fun kept =>
    kept.Sublist items ∧ ∀ a, a ∈ kept ↔ a ∈ items ∧ T a := by
  suffices ∀ sofar : List α, Yields (items.filterAuxM f sofar) fun result =>
      ∃ kept : List α, result = kept.reverse ++ sofar ∧ kept.Sublist items ∧
        ∀ a, a ∈ kept ↔ a ∈ items ∧ T a by
    refine Yields.bind (this []) fun result ⟨kept, same, holds⟩ => Yields.pure ?_
    simpa [same] using holds
  induction items with
  | nil => exact fun sofar => Yields.pure ⟨[], by simp⟩
  | cons a rest ih =>
    intro sofar
    have tail := ih fun a' mem => each a' (mem_cons_of_mem a mem)
    refine Yields.bind (each a mem_cons_self) fun b holds => ?_
    cases b with
    | true =>
      refine Yields.mono (tail (a :: sofar)) fun result ⟨kept, same, sublist, members⟩ => ?_
      refine ⟨a :: kept, by simp [same], sublist.cons_cons a, fun c => ?_⟩
      have holdsA : T a := holds.mp rfl
      rw [mem_cons, members, mem_cons]
      constructor
      · rintro (rfl | ⟨mem, holds⟩)
        · exact ⟨.inl rfl, holdsA⟩
        · exact ⟨.inr mem, holds⟩
      · rintro ⟨rfl | mem, holds⟩
        · exact .inl rfl
        · exact .inr ⟨mem, holds⟩
    | false =>
      refine Yields.mono (tail sofar) fun result ⟨kept, same, sublist, members⟩ => ?_
      refine ⟨kept, same, sublist.cons a, fun c => ?_⟩
      have failsA : ¬ T a := fun p => Bool.false_ne_true (holds.mpr p)
      rw [members, mem_cons]
      constructor
      · exact fun ⟨mem, holds⟩ => ⟨.inr mem, holds⟩
      · rintro ⟨rfl | mem, accepted⟩
        · exact absurd accepted failsA
        · exact ⟨mem, accepted⟩

end List

end Decides

/-- The computation has a result with the property, unless it clashes where that is allowed. -/
def YieldsUnless (clashes : Prop) (x : Checked α) (P : α → Prop) : Prop :=
  Yields x P ∨ clashes ∧ ∃ clash, x = .error clash

theorem yieldsUnless_false {x : Checked α} {P : α → Prop} :
    YieldsUnless False x P ↔ Yields x P := by
  simp [YieldsUnless]

namespace YieldsUnless

variable {clashes : Prop} {x : Checked α} {P : α → Prop}

theorem pure {a : α} (holds : P a) : YieldsUnless clashes (pure a : Checked α) P :=
  .inl (Yields.pure holds)

theorem of_eq_ok (allowed : clashes) (each : ∀ a, x = .ok a → P a) : YieldsUnless clashes x P := by
  cases x with
  | ok a => exact .inl ⟨a, rfl, each a rfl⟩
  | error clash => exact .inr ⟨allowed, clash, rfl⟩

theorem eq_ok (yields : YieldsUnless clashes x P) {a : α} (same : x = .ok a) : P a := by
  rcases yields with ⟨b, same', holds⟩ | ⟨_, _, clash⟩
  · exact Except.ok.inj (same'.symm.trans same) ▸ holds
  · cases clash.symm.trans same

theorem mono {Q : α → Prop} (yields : YieldsUnless clashes x P) (weaker : ∀ a, P a → Q a) :
    YieldsUnless clashes x Q :=
  yields.imp_left fun ⟨a, ok, holds⟩ => ⟨a, ok, weaker a holds⟩

/-- What is known of a result, with the computation that gave it. -/
theorem recorded (yields : YieldsUnless clashes x P) :
    YieldsUnless clashes x fun a => P a ∧ x = .ok a :=
  yields.imp_left fun ⟨a, ok, holds⟩ => ⟨a, ok, holds, ok⟩

theorem yields (yields : YieldsUnless clashes x P) (forbidden : ¬ clashes) : Yields x P :=
  yields.resolve_right fun clash => forbidden clash.1

variable {f : α → Checked β} {R : β → Prop} {items : List α}

theorem bind (first : YieldsUnless clashes x P)
    (next : ∀ a, P a → YieldsUnless clashes (f a) R) : YieldsUnless clashes (x >>= f) R := by
  rcases first with ⟨a, rfl, holds⟩ | ⟨allowed, clash, rfl⟩
  · exact next a holds
  · exact .inr ⟨allowed, clash, rfl⟩

theorem mapM {R : α → β → Prop} (each : ∀ a ∈ items, YieldsUnless clashes (f a) (R a)) :
    YieldsUnless clashes (items.mapM f) (Forall₂ R items) := by
  induction items with
  | nil => exact pure .nil
  | cons a rest ih =>
    rw [mapM_cons]
    refine (each a mem_cons_self).bind fun b holds => ?_
    refine (ih fun a' mem => each a' (mem_cons_of_mem a mem)).bind fun bs tail => ?_
    exact pure (.cons holds tail)

theorem mapM_forall (each : ∀ a ∈ items, YieldsUnless clashes (f a) R) :
    YieldsUnless clashes (items.mapM f) fun results => ∀ b ∈ results, R b := by
  induction items with
  | nil => exact pure (by simp)
  | cons a rest ih =>
    rw [mapM_cons]
    refine (each a mem_cons_self).bind fun b holds => ?_
    refine (ih fun a' mem => each a' (mem_cons_of_mem a mem)).bind fun bs tail => ?_
    exact pure (forall_mem_cons.mpr ⟨holds, tail⟩)

theorem foldlM {f : β → α → Checked β} {I : β → Prop} {start : β} (first : I start)
    (step : ∀ b a, I b → YieldsUnless clashes (f b a) I) :
    YieldsUnless clashes (items.foldlM f start) I := by
  induction items generalizing start with
  | nil => exact pure first
  | cons a rest ih =>
    rw [foldlM_cons]
    exact (step start a first).bind fun b holds => ih holds

section Tests

variable {f : α → Checked Bool} {items : List α}
  (each : ∀ a ∈ items, YieldsUnless clashes (f a) fun _ => True)
include each

theorem anyM : YieldsUnless clashes (items.anyM f) fun _ => True := by
  induction items with
  | nil => exact pure trivial
  | cons a rest ih =>
    refine (each a mem_cons_self).bind fun b _ => ?_
    cases b with
    | true => exact pure trivial
    | false => exact ih fun a' mem => each a' (mem_cons_of_mem a mem)

theorem allM : YieldsUnless clashes (items.allM f) fun _ => True := by
  induction items with
  | nil => exact pure trivial
  | cons a rest ih =>
    refine (each a mem_cons_self).bind fun b _ => ?_
    cases b with
    | true => exact ih fun a' mem => each a' (mem_cons_of_mem a mem)
    | false => exact pure trivial

theorem filterM : YieldsUnless clashes (items.filterM f) fun kept => kept ⊆ items := by
  suffices run : ∀ (rest sofar : List α), rest ⊆ items → sofar ⊆ items →
      YieldsUnless clashes (rest.filterAuxM f sofar) (· ⊆ items) from
    (run items [] (List.Subset.refl items) (nil_subset items)).bind fun kept part =>
      pure (by simpa using part)
  intro rest
  induction rest with
  | nil => exact fun sofar _ part => pure part
  | cons a rest ih =>
    intro sofar inside part
    obtain ⟨mem, later⟩ := cons_subset.mp inside
    refine (each a mem).bind fun b _ => ih _ later ?_
    cases b with
    | true => exact cons_subset.mpr ⟨mem, part⟩
    | false => exact part

end Tests

end YieldsUnless

end TypeFlow
