import Mathlib.Data.List.Forall2
import TypeFlow.Run

/-!
# Results of computations

What follows from the result of a computation that can fail about the steps that led to it.
-/

namespace TypeFlow

variable {ε α β : Type}

variable {x : Except ε α} {f : α → Except ε β} {a : α} {items : List α}

theorem bind_eq_ok_iff {b : β} : (x >>= f) = .ok b ↔ ∃ a, x = .ok a ∧ f a = .ok b := by
  cases x <;> simp [bind, Except.bind]

theorem map_eq_ok_iff {f : α → β} {b : β} : x.map f = .ok b ↔ ∃ a, x = .ok a ∧ f a = b := by
  cases x <;> simp [Except.map]

theorem mapError_eq_ok_iff {δ : Type} {f : ε → δ} : x.mapError f = .ok a ↔ x = .ok a := by
  cases x <;> simp [Except.mapError]

theorem Run.ofChecked_eq_ok_iff {x : Checked α} :
    (Run.ofChecked x : Run ε α) = .ok a ↔ x = .ok a := by
  cases x <;> simp [Run.ofChecked]

theorem mapM_eq_ok {results : List β} (ran : items.mapM f = .ok results) :
    List.Forall₂ (fun a b => f a = .ok b) items results := by
  induction items generalizing results with
  | nil =>
    obtain rfl := Except.ok.inj ran
    exact .nil
  | cons a rest ih =>
    rw [List.mapM_cons, bind_eq_ok_iff] at ran
    obtain ⟨b, here, ran⟩ := ran
    obtain ⟨bs, later, ran⟩ := bind_eq_ok_iff.mp ran
    obtain rfl := Except.ok.inj ran
    exact .cons here (ih later)

theorem exists_mapM_iff :
    (∃ results, items.mapM f = .ok results) ↔ ∀ a ∈ items, ∃ b, f a = .ok b := by
  induction items with
  | nil => simp [pure, Except.pure]
  | cons a rest ih => simp [bind_eq_ok_iff, ← ih, pure, Except.pure]

theorem foldlM_keeps {f : β → α → Except ε β} {P : β → Prop} {start final : β}
    (ran : items.foldlM f start = .ok final) (holds : P start)
    (step : ∀ b, P b → ∀ a ∈ items, ∀ b', f b a = .ok b' → P b') : P final := by
  induction items generalizing start with
  | nil =>
    obtain rfl := Except.ok.inj ran
    exact holds
  | cons a rest ih =>
    rw [List.foldlM_cons, bind_eq_ok_iff] at ran
    obtain ⟨next, here, later⟩ := ran
    have stepRest : ∀ b, P b → ∀ a ∈ rest, ∀ b', f b a = .ok b' → P b' :=
      fun b holds a mem => step b holds a (List.mem_cons_of_mem _ mem)
    exact ih later (step start holds a List.mem_cons_self next here) stepRest

theorem eq_ok_of_isOk (ok : x.isOk = true) (other : α) : x = .ok (x.toOption.getD other) := by
  cases x with
  | error e => cases ok
  | ok a => rfl

theorem eq_ok_of_toOption (has : x.toOption = some a) : x = .ok a := by
  cases x with
  | error e => cases has
  | ok b => rw [Option.some.inj has]

theorem eq_some_of_isSome {x : Option α} (has : x.isSome = true) (other : α) :
    x = some (x.getD other) := by
  cases x with
  | none => cases has
  | some a => rfl

end TypeFlow
