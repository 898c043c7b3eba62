import TypeFlow.Proofs.Algebra.Shapes
import TypeFlow.Proofs.Scope.Kept

/-!
# Shapes in scopes

The field names of a struct follow from its name throughout a scope if every definition that can
be reached says so. Definitions in a frame are reached by their names. Those of the prelude are
reached unless a frame hides them, and then its truth values still are, since the prelude has a
name for both of them.
-/

namespace TypeFlow

open Ty

variable {shape : String → List String}

/-- Having shapes is kept, and rules out clashes. -/
def Kept.shaped (shape : String → List String) : Kept where
  Holds := Shaped shape
  Names name names := names = shape name
  clashes := False
  never := shaped_never
  any := shaped_any
  number _ := shaped_number
  string _ := shaped_string
  numbers := shaped_ofNumbers
  struct := shaped_struct
  member shaped mem := shaped.of_mem_members mem
  union each := yieldsUnless_false.mpr (unionOf_shaped each)
  intersection each := yieldsUnless_false.mpr (intersectionOf_shaped each)
  without shapedA shapedB := yieldsUnless_false.mpr (without_shaped shapedA shapedB)
  subset shapedA shapedB := yieldsUnless_false.mpr (subset_shaped shapedA shapedB)

namespace Prelude

/-- What the definitions of the prelude are made of: numbers, texts, and both truth values. -/
inductive Plain : Expr → Prop
  | number (n : NumberTy) : Plain (.number n)
  | string (s : StringTy) : Plain (.string s)
  | truth : Plain (.union [named "true", named "false"])

/-- Definitions of the prelude are plain. -/
theorem plain_entries : ∀ entry ∈ entries, (∀ e, entry.2.Enters e → Plain e) ∧
    ∀ parameters body, entry.2 ≠ .function parameters body := by
  simp [entries, intsFrom, unary, binary, variadic, Definition.Enters, Plain.number, Plain.string,
    Plain.truth]

/-- The prelude owns its definitions. -/
theorem lookup_scope {name : String} {owner : Scope} {definition : Definition}
    (found : scope.lookup name = some (owner, definition)) :
    owner = scope ∧ valueAt? name entries = some definition := by
  cases here : valueAt? name entries with
  | none => simp [scope, Scope.lookup, Frame.get?, here] at found
  | some d =>
    simp only [scope, Scope.lookup, Frame.get?, here, Option.some.injEq, Prod.mk.injEq] at found
    exact ⟨found.1.symm, congrArg some found.2⟩

end Prelude

/-- All that can be reached by name from a scope around the prelude is shaped. -/
inductive ShapedScope (shape : String → List String) : Scope → Prop
  | outermost {frame : Frame} (own : (Kept.shaped shape).DefinesAll frame.entries)
    (visible : ∀ name definition, frame.get? name = none →
      valueAt? name Prelude.entries = some definition →
      (Kept.shaped shape).Defines name definition) :
    ShapedScope shape (frame :: Prelude.scope)
  | inner {frame : Frame} {outer : Scope} (own : (Kept.shaped shape).DefinesAll frame.entries)
    (around : ShapedScope shape outer) : ShapedScope shape (frame :: outer)

/-- An expression can be evaluated in a scope: names in it are shaped, or it is one that the
prelude is made of. -/
def Fit (shape : String → List String) (scope : Scope) (e : Expr) : Prop :=
  ShapedScope shape scope ∨ scope = Prelude.scope ∧ Prelude.Plain e

namespace ShapedScope

variable {scope owner : Scope} {name : String} {definition : Definition}

/-- What a name means is shaped. Its owner is a shaped scope again, or the prelude. -/
theorem lookup (shaped : ShapedScope shape scope)
    (found : scope.lookup name = some (owner, definition)) :
    (Kept.shaped shape).Defines name definition ∧
      (ShapedScope shape owner ∨ owner = Prelude.scope ∧ (name, definition) ∈ Prelude.entries) := by
  induction shaped with
  | @outermost frame own visible =>
    cases here : frame.get? name with
    | some d =>
      simp only [Scope.lookup, here, Option.some.injEq, Prod.mk.injEq] at found
      obtain ⟨rfl, rfl⟩ := found
      exact ⟨own name d here, .inl (.outermost own visible)⟩
    | none =>
      have outside : Prelude.scope.lookup name = some (owner, definition) := by
        simpa only [Scope.lookup, here] using found
      obtain ⟨rfl, said⟩ := Prelude.lookup_scope outside
      exact ⟨visible name definition here said, .inr ⟨rfl, mem_of_valueAt? said⟩⟩
  | @inner frame outer own around ih =>
    cases here : frame.get? name with
    | some d =>
      simp only [Scope.lookup, here, Option.some.injEq, Prod.mk.injEq] at found
      obtain ⟨rfl, rfl⟩ := found
      exact ⟨own name d here, .inl (.inner own around)⟩
    | none =>
      simp only [Scope.lookup, here] at found
      exact ih found

/-- The expressions of a definition can be evaluated in the scope that owns it. -/
theorem fit (shaped : ShapedScope shape scope)
    (found : scope.lookup name = some (owner, definition)) :
    (∀ e, definition.Enters e → Fit shape owner e) ∧
      ∀ parameters body, definition = .function parameters body → ShapedScope shape owner := by
  rcases (shaped.lookup found).2 with around | ⟨rfl, mem⟩
  · exact ⟨fun _ _ => .inl around, fun _ _ _ => around⟩
  · obtain ⟨plain, functions⟩ := Prelude.plain_entries _ mem
    exact ⟨fun e enters => .inr ⟨rfl, plain e enters⟩,
      fun parameters body same => absurd same (functions parameters body)⟩

end ShapedScope

end TypeFlow
