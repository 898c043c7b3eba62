import TypeFlow.Expr.Basic
import TypeFlow.Proofs.Num.Doubles
import TypeFlow.Proofs.Num.Sets

/-!
# Valid expressions

An expression is valid when its ranges have bounds in order, its numbers are doubles and no name
has two types for one field.
-/

namespace TypeFlow

open List
open scoped Num.Linear

namespace NumberTy

/-- Every number that the type is written with is a double. -/
def Doubles : NumberTy → Prop
  | literal v => v.IsDouble
  | ints min max => min.IsDouble ∧ max.IsDouble
  | reals min max => min.IsDouble ∧ max.IsDouble
  | all => True

instance (n : NumberTy) : Decidable n.Doubles := by
  rcases n <;> dsimp only [Doubles] <;> infer_instance

theorem refused_iff {lo hi : Num} :
    (lo.isNan || hi.isNan || decide (hi ≤ lo)) = true ↔ ¬ (reals lo hi).Valid := by
  simp only [Bool.or_eq_true, Num.isNan_eq_true_iff, decide_eq_true_eq, Valid, not_and, not_lt]
  constructor
  · rintro ((rfl | rfl) | le) number
    · exact Num.le_nan hi
    · exact absurd rfl number
    · exact le
  · intro le
    by_cases number : hi = .nan
    · exact .inl (.inr number)
    · exact .inr (le number)

theorem checked_eq_ok {refused : Bool} {e : InvalidBounds} {range n : NumberTy}
    (check : refused = true ↔ ¬ range.Valid) :
    (if refused then .error e else .ok range : Except InvalidBounds NumberTy) = .ok n ↔
      n = range ∧ n.Valid := by
  by_cases valid : range.Valid
  · rw [if_neg fun none => check.mp none valid, Except.ok.injEq, eq_comm]
    exact ⟨fun same => ⟨same, same ▸ valid⟩, And.left⟩
  · rw [if_pos (check.mpr valid)]
    constructor
    · intro none
      cases none
    · rintro ⟨rfl, accepted⟩
      exact absurd accepted valid

theorem interval_eq_ok {min max : Written} {n : NumberTy} :
    interval min max = .ok n ↔ n = reals min.value max.value ∧ n.Valid :=
  checked_eq_ok refused_iff

theorem intInterval_eq_ok {min max : Written} {n : NumberTy} :
    intInterval min max = .ok n ↔ n = ints min.value max.value ∧ n.Valid := by
  have valid_iff : (ints min.value max.value).Valid ↔ (reals min.value max.value).Valid ∧
      min.value.isWhole = true ∧ max.value.isWhole = true := by
    constructor
    · rintro ⟨lo, hi, lt⟩
      exact ⟨⟨Num.ne_nan_of_isWhole hi, lt⟩, lo, hi⟩
    · rintro ⟨⟨-, lt⟩, lo, hi⟩
      exact ⟨lo, hi, lt⟩
  refine checked_eq_ok ?_
  rw [Bool.or_eq_true, Bool.or_eq_true, refused_iff, valid_iff]
  simp only [Bool.not_eq_true', ← Bool.not_eq_true]
  tauto

end NumberTy

namespace Expr

/-- The expressions right inside an expression. -/
def children : Expr → List Expr
  | named _ fields => fields.map (·.2)
  | union items | intersection items | call _ items => items
  | access of _ => [of]
  | choose of arms => of :: arms.flatMap fun arm => [arm.pattern, arm.body]
  | never | any | number _ | string _ => []

/-- Proof by induction over an expression and the expressions right inside it. -/
theorem children_induction {motive : Expr → Prop}
    (step : ∀ e, (∀ child ∈ e.children, motive child) → motive e) (e : Expr) : motive e := by
  induction e using Expr.induction with
  | never | any | number | string => exact step _ fun _ none => by cases none
  | named name fields each => exact step _ (forall_mem_map.mpr each)
  | union items each | intersection items each | call _ items each => exact step _ each
  | access of field inner => exact step _ (forall_mem_singleton.mpr inner)
  | choose of arms inner each =>
    refine step _ (forall_mem_cons.mpr ⟨inner, fun child mem => ?_⟩)
    obtain ⟨arm, inArms, part⟩ := mem_flatMap.mp mem
    rcases mem_pair.mp part with rfl | rfl
    · exact (each arm inArms).1
    · exact (each arm inArms).2

mutual
/-- An expression and all expressions inside it. -/
def parts : Expr → List Expr
  | .named name fields => .named name fields :: partsOfFields fields
  | .union items => .union items :: partsOfItems items
  | .intersection items => .intersection items :: partsOfItems items
  | .access of field => .access of field :: parts of
  | .call name args => .call name args :: partsOfItems args
  | .choose of arms => .choose of arms :: (parts of ++ partsOfArms arms)
  | e => [e]
/-- `parts` of all fields. -/
def partsOfFields : List (String × Expr) → List Expr
  | [] => []
  | (_, e) :: rest => parts e ++ partsOfFields rest
/-- `parts` of all items. -/
def partsOfItems : List Expr → List Expr
  | [] => []
  | e :: rest => parts e ++ partsOfItems rest
/-- `parts` of all arms. -/
def partsOfArms : List (Arm Expr) → List Expr
  | [] => []
  | ⟨pattern, _, body⟩ :: rest => parts pattern ++ (parts body ++ partsOfArms rest)
end

theorem partsOfFields_eq (fields : List (String × Expr)) :
    partsOfFields fields = (fields.map (·.2)).flatMap parts := by
  induction fields with
  | nil => rfl
  | cons f rest ih => simp [partsOfFields, ih]

theorem partsOfItems_eq (items : List Expr) : partsOfItems items = items.flatMap parts := by
  induction items with
  | nil => rfl
  | cons e rest ih => simp [partsOfItems, ih]

theorem partsOfArms_eq (arms : List (Arm Expr)) :
    partsOfArms arms = (arms.flatMap fun arm => [arm.pattern, arm.body]).flatMap parts := by
  induction arms with
  | nil => rfl
  | cons arm rest ih => simp [partsOfArms, ih]

theorem parts_eq (e : Expr) : e.parts = e :: e.children.flatMap parts := by
  cases e <;> simp [parts, children, partsOfFields_eq, partsOfItems_eq, partsOfArms_eq]

/-- A property holds of an expression and of all expressions inside it. -/
def Everywhere (P : Expr → Prop) (e : Expr) : Prop := ∀ part ∈ e.parts, P part

instance (P : Expr → Prop) [DecidablePred P] (e : Expr) : Decidable (e.Everywhere P) :=
  inferInstanceAs (Decidable (∀ part ∈ e.parts, P part))

theorem everywhere_iff {P : Expr → Prop} {e : Expr} :
    e.Everywhere P ↔ P e ∧ ∀ child ∈ e.children, child.Everywhere P := by
  simp only [Everywhere, parts_eq e, forall_mem_cons, mem_flatMap, forall_exists_index, and_imp]
  exact and_congr_right fun _ =>
    ⟨fun each child mem part inside => each part child mem inside,
      fun each part child mem inside => each child mem part inside⟩

/-- Bounds make ranges, numbers are doubles, and fields are assigned once. -/
def ValidHere : Expr → Prop
  | number n => n.Valid ∧ n.Doubles
  | named _ fields => (fields.map (·.1)).Nodup
  | _ => True

instance : DecidablePred ValidHere := fun e => by
  rcases e <;> dsimp only [ValidHere] <;> infer_instance

/-- In an expression and all expressions inside it bounds make ranges, numbers are doubles, and
fields are assigned once. -/
def Valid (e : Expr) : Prop := e.Everywhere ValidHere
deriving Decidable

theorem valid_iff {e : Expr} : e.Valid ↔ e.ValidHere ∧ ∀ child ∈ e.children, child.Valid :=
  everywhere_iff

end Expr
end TypeFlow
