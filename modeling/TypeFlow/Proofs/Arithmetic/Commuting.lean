import TypeFlow.Proofs.Arithmetic.Picks
import TypeFlow.Proofs.Arithmetic.Sums
import TypeFlow.Proofs.Operands

/-!
# Arithmetic in either order

Sums, products and picks of two types are the same type in either order. Exchanging the operands
exchanges the rows and the columns of every table that an operation goes through: the pairs of
numbers, the candidates for the bounds and the pairs of members. All of these are put into an order
of their own before anything is merged, so that only what is in a table counts and not where.
-/

namespace TypeFlow

open scoped Num.Linear

theorem Ty.ofNumbers_congr {items items' : List NumberTy} (same : ∀ n, n ∈ items ↔ n ∈ items') :
    ofNumbers items = ofNumbers items' := by
  rw [ofNumbers, ofNumbers, Numbers.unionMembers_congr same]

theorem Numbers.union_congr {items items' : List NumberTy} (same : ∀ n, n ∈ items ↔ n ∈ items') :
    union items = union items' := by
  rw [union, union, unionMembers_congr same]

namespace Arithmetic

/-- Exchanging the rows and the columns of a table keeps what is in it. -/
theorem exists_mem_comm {α β : Type} {rows : List α} {columns : List β} {P : α → β → Prop} :
    (∃ x ∈ rows, ∃ y ∈ columns, P x y) ↔ ∃ y ∈ columns, ∃ x ∈ rows, P x y := by
  constructor
  · rintro ⟨x, memX, y, memY, holds⟩
    exact ⟨y, memY, x, memX, holds⟩
  · rintro ⟨y, memY, x, memX, holds⟩
    exact ⟨x, memX, y, memY, holds⟩

theorem hull_congr {candidates candidates' : List Num}
    (same : ∀ c, c ∈ candidates ↔ c ∈ candidates') (whole : Bool) :
    hull candidates whole = hull candidates' whole := by
  rcases hull_cases candidates whole with
    ⟨empty, nans⟩ | ⟨lo, memLo, hi, memHi, numberLo, numberHi, bounds, eq⟩
  · rcases hull_cases candidates' whole with ⟨empty', -⟩ | ⟨lo', memLo', -, -, numberLo', -⟩
    · rw [empty, empty']
    · exact absurd (nans lo' ((same lo').mpr memLo')) numberLo'
  · rcases hull_cases candidates' whole with
      ⟨-, nans'⟩ | ⟨lo', memLo', hi', memHi', numberLo', numberHi', bounds', eq'⟩
    · exact absurd (nans' lo ((same lo).mp memLo)) numberLo
    · have least : lo = lo' := le_antisymm (bounds lo' ((same lo').mpr memLo') numberLo').1
        (bounds' lo ((same lo).mp memLo) numberLo).1
      have greatest : hi = hi' := le_antisymm (bounds' hi ((same hi).mp memHi) numberHi).2
        (bounds hi' ((same hi').mpr memHi') numberHi').2
      rw [eq, eq', least, greatest]

theorem pointwise₂_comm {f : Num → Num → Num} (comm : ∀ x y, f x y = f y x) (n m : NumberTy) :
    pointwise₂ f n m = pointwise₂ f m n := by
  unfold pointwise₂
  cases n.count with
  | none => cases m.count <;> rfl
  | some c =>
    cases m.count with
    | none => rfl
    | some d =>
      simp only [Option.bind_eq_bind, Option.bind_some, Num.mul_comm c d]
      split
      · rfl
      · cases n.members with
        | none => cases m.members <;> rfl
        | some xs =>
          cases m.members with
          | none => rfl
          | some ys =>
            refine congrArg some (Numbers.union_congr fun p => ?_)
            simp only [List.mem_flatMap, List.mem_map]
            rw [exists_mem_comm]
            simp only [comm]

theorem lift₂_comm {f : NumberTy → NumberTy → List NumberTy} (comm : ∀ n m, f n m = f m n)
    (a b : Ty) : lift₂ f a b = lift₂ f b a := by
  refine Ty.ofNumbers_congr fun p => ?_
  simp only [List.mem_flatMap]
  rw [exists_mem_comm]
  simp only [comm]

/-- An operation from bounds commutes if its results, its candidates and the places where it has no
result do. -/
theorem combined_comm {f : Num → Num → Num} {candidates : Bounds → Bounds → List Num}
    {undefined : Bounds → Bounds → Bool} (comm : ∀ x y, f x y = f y x)
    (among : ∀ r s c, c ∈ candidates r s ↔ c ∈ candidates s r)
    (nowhere : ∀ r s, undefined r s = undefined s r) (n m : NumberTy) :
    combined f candidates undefined n m = combined f candidates undefined m n := by
  unfold combined
  rw [pointwise₂_comm comm n m]
  congr 1
  cases bounds? n with
  | none => cases bounds? m <;> rfl
  | some r =>
    cases bounds? m with
    | none => rfl
    | some s =>
      simp only
      rw [hull_congr (among r s), Bool.and_comm, Bool.or_comm (n.has .nan), nowhere]

theorem mem_sums_comm (r s : Bounds) (c : Num) : c ∈ sums r s ↔ c ∈ sums s r := by
  rw [sums, sums, Num.add_comm r.min, Num.add_comm r.min, Num.add_comm r.max, Num.add_comm r.max]
  simp only [List.mem_cons, List.not_mem_nil, or_false]
  tauto

theorem opposite_comm (r s : Bounds) : opposite r s = opposite s r := by
  rw [opposite, opposite, Bool.or_comm, Bool.and_comm, Bool.and_comm (decide (r.min = .negInf))]

theorem addNumber_comm (n m : NumberTy) : addNumber n m = addNumber m n := by
  rw [addNumber_eq]
  exact combined_comm Num.add_comm mem_sums_comm opposite_comm n m

theorem mulNumber_comm (n m : NumberTy) : mulNumber n m = mulNumber m n := by
  rw [mulNumber_eq]
  refine combined_comm Num.mul_comm (fun r s c => mem_products_comm) (fun r s => ?_) n m
  rw [zeroTimesInfinity, zeroTimesInfinity, Bool.or_comm]

theorem pickNumber_comm {pick : Num → Num → Num} (comm : ∀ x y, pick x y = pick y x)
    (n m : NumberTy) : pickNumber pick n m = pickNumber pick m n := by
  unfold pickNumber
  rw [pointwise₂_comm comm n m, Bool.or_comm]
  congr 2
  cases bounds? n with
  | none => cases bounds? m <;> rfl
  | some r =>
    cases bounds? m with
    | none => rfl
    | some s =>
      simp only
      rw [Bool.and_comm, comm r.min, comm r.max]

/-- Sums, products, minima and maxima of two types are the same type in either order. -/
theorem results_commute (a b : Ty) :
    a.add b = b.add a ∧ a.multiply b = b.multiply a ∧
      a.minimum b = b.minimum a ∧ a.maximum b = b.maximum a :=
  ⟨lift₂_comm addNumber_comm a b, lift₂_comm mulNumber_comm a b,
    lift₂_comm (pickNumber_comm Numbers.lesser_comm) a b,
    lift₂_comm (pickNumber_comm Numbers.greater_comm) a b⟩

end Arithmetic

end TypeFlow
