import Mathlib.Data.List.TakeWhile
import TypeFlow.Json.Reader
import TypeFlow.Proofs.Json.Parts
import TypeFlow.Proofs.Results

/-!
# Values in texts

What is read from a text can be in memory as far as its numbers go: integers that do not fit into
64 bits are read as doubles, and there are no numbers beyond the range of doubles. The digits of a
natural number that fits are read as that number.
-/

namespace TypeFlow

open List

theorem Decimal.isDouble_toNum (d : Decimal) : d.toNum.IsDouble := by
  simp only [toNum]
  split_ifs
  · exact Num.isDouble_zero
  · trivial
  · exact Num.isDouble_mul _ _
  · exact Num.isDouble_div _ _
  · exact Num.isDouble_div _ _
  · exact Num.isDouble_zero

namespace Json.Reader

theorem keepDigits_le {n : Nat} (fits : n ≤ maxPositive) (ds : List Char) :
    (keepDigits n ds).1 ≤ maxPositive := by
  induction ds generalizing n with
  | nil => exact fits
  | cons d ds ih =>
    simp only [keepDigits]
    split
    · next more => exact ih more
    · exact fits

namespace Numeral

theorem coefficient_le (n : Numeral) : n.decimal.coefficient ≤ maxPositive :=
  keepDigits_le (keepDigits_le (Nat.zero_le _) _) _

theorem isDouble_signed {q : ℚ} (double : (Num.fin q).IsDouble) (negative : Bool) :
    (signed negative q).value.isFinite = true ∧ (signed negative q).value.IsDouble := by
  unfold signed
  split
  · cases negative <;> exact ⟨rfl, Num.isDouble_zero⟩
  · cases negative
    · exact ⟨rfl, double⟩
    · exact ⟨rfl, double.neg⟩

theorem value_exact {n : Numeral} {j : Json} (read : n.value = .ok j) : j.Exact := by
  unfold value at read
  split at read
  · next integer =>
    obtain rfl := Except.ok.inj read
    have bound := n.coefficient_le
    refine exact_scalar rfl ?_
    simp only [isInteger, Bool.and_eq_true, Bool.or_eq_true, Bool.not_eq_true',
      decide_eq_true_eq] at integer
    unfold maxPositive at bound
    unfold maxNegative at integer
    rw [ExactHere]
    cases sign : n.negative with
    | false =>
      rw [if_neg (by simp)]
      omega
    | true =>
      rw [if_pos rfl]
      have least := integer.2.resolve_left (by simp [sign])
      omega
  · have double := n.decimal.isDouble_toNum
    split at read
    · next q finite =>
      obtain rfl := Except.ok.inj read
      rw [finite] at double
      exact exact_scalar rfl (isDouble_signed double n.negative)
    · cases read

end Numeral

theorem number_exact {cs rest : List Char} {j : Json} (read : number cs = .ok (j, rest)) :
    j.Exact := by
  obtain ⟨numeral, -, read⟩ := bind_eq_ok_iff.mp read
  obtain ⟨value, found, read⟩ := bind_eq_ok_iff.mp read
  obtain rfl := (Prod.mk.inj (Except.ok.inj read)).1
  exact Numeral.value_exact found

theorem scalar_exact {cs rest : List Char} {j : Json} (read : scalar cs = .ok (j, rest)) :
    j.Exact := by
  unfold scalar at read
  split at read
  case h_5 => cases read
  case h_6 =>
    split at read
    · exact number_exact read
    · cases read
  all_goals
    obtain ⟨found, -, same⟩ := map_eq_ok_iff.mp read
    obtain rfl := (Prod.mk.inj same).1
    exact exact_scalar rfl trivial

section Parts

variable {α : Type} {P : α → Prop} {part : Reader α}

variable {e : Enclosure} {as : List α} {cs rest : List Char}

theorem parts_forall (each : ∀ cs a rest, part cs = .ok (a, rest) → P a) {fuel : Nat}
    {seen : List α} (before : ∀ a ∈ seen, P a)
    (read : parts e part fuel seen cs = .ok (as, rest)) : ∀ a ∈ as, P a := by
  induction fuel generalizing seen cs with
  | zero => cases read
  | succ fuel ih =>
    obtain ⟨⟨a, after⟩, first, read⟩ := bind_eq_ok_iff.mp read
    have seenToo : ∀ b ∈ a :: seen, P b := forall_mem_cons.mpr ⟨each _ _ _ first, before⟩
    obtain ⟨next, -, read⟩ := bind_eq_ok_iff.mp read
    cases next with
    | inl cs => exact ih seenToo read
    | inr cs =>
      obtain rfl := (Prod.mk.inj (Except.ok.inj read)).1
      exact fun b mem => seenToo b (mem_reverse.mp mem)

theorem container_forall (each : ∀ cs a rest, part cs = .ok (a, rest) → P a) {size : Nat}
    (read : container e size part cs = .ok (as, rest)) : ∀ a ∈ as, P a := by
  obtain ⟨first, -, read⟩ := bind_eq_ok_iff.mp read
  cases first with
  | inl cs => exact parts_forall each (fun _ none => by cases none) read
  | inr cs =>
    obtain rfl := (Prod.mk.inj (Except.ok.inj read)).1
    exact fun _ none => by cases none

end Parts

theorem entry_exact {value : Reader Json}
    (each : ∀ cs j rest, value cs = .ok (j, rest) → j.Exact) {cs rest : List Char}
    {found : String × Json} (read : entry value cs = .ok (found, rest)) : found.2.Exact := by
  unfold entry at read
  split at read
  · obtain ⟨key, -, read⟩ := bind_eq_ok_iff.mp read
    obtain ⟨front, -, read⟩ := bind_eq_ok_iff.mp read
    obtain ⟨⟨j, after⟩, inEntry, read⟩ := bind_eq_ok_iff.mp read
    obtain rfl := (Prod.mk.inj (Except.ok.inj read)).1
    exact each _ _ _ inEntry
  · cases read

/-- Values are read with numbers that can be in memory. -/
theorem value_exact {size levels : Nat} {cs rest : List Char} {j : Json}
    (read : value size levels cs = .ok (j, rest)) : j.Exact := by
  induction levels generalizing cs rest j with
  | zero =>
    unfold value at read
    split at read
    case h_5 => exact scalar_exact read
    all_goals contradiction
  | succ levels ih =>
    unfold value at read
    split at read
    case h_3 same =>
      obtain rfl := Nat.succ.inj same
      obtain ⟨found, items, same⟩ := map_eq_ok_iff.mp read
      obtain rfl := (Prod.mk.inj same).1
      exact exact_array.mpr (container_forall (fun _ _ _ => ih) items)
    case h_4 same =>
      obtain rfl := Nat.succ.inj same
      obtain ⟨found, entries, same⟩ := map_eq_ok_iff.mp read
      obtain rfl := (Prod.mk.inj same).1
      exact exact_object.mpr (container_forall (fun _ _ _ => entry_exact fun _ _ _ => ih) entries)
    case h_5 => exact scalar_exact read
    all_goals cases read

theorem keepDigits_concat {n m : Nat} {ds : List Char} (kept : keepDigits n ds = (m, []))
    {d : Char} (fits : 10 * m + digitValue d ≤ maxPositive) :
    keepDigits n (ds ++ [d]) = (10 * m + digitValue d, []) := by
  induction ds generalizing n with
  | nil =>
    obtain rfl := (Prod.mk.inj kept).1
    simp only [nil_append, keepDigits, if_pos fits]
  | cons first ds ih =>
    simp only [keepDigits] at kept
    split at kept
    · next more =>
      simp only [cons_append, keepDigits, if_pos more]
      exact ih kept
    · cases kept

theorem keepDigits_toDigits {n : Nat} (fits : n ≤ maxPositive) :
    keepDigits 0 (Nat.toDigits 10 n) = (n, []) := by
  have digit : ∀ k < 10, digitValue (Nat.digitChar k) = k := fun k small => by
    rw [digitValue, Nat.toNat_digitChar_of_lt_ten small]
    exact Nat.add_sub_cancel_left 48 k
  induction n using Nat.strongRecOn with
  | ind n ih =>
    by_cases small : n < 10
    · have one : 10 * 0 + digitValue (Nat.digitChar n) = n := by rw [digit n small]; omega
      rw [Nat.toDigits_of_lt_base small, ← nil_append [_],
        keepDigits_concat (m := 0) rfl (by rwa [one]), one]
    · have last := digit (n % 10) (Nat.mod_lt n (by omega))
      have whole : 10 * (n / 10) + digitValue (Nat.digitChar (n % 10)) = n := by omega
      have before := ih (n / 10) (by omega) (by omega)
      rw [Nat.toDigits_of_base_le (by omega) (by omega),
        keepDigits_concat before (by rwa [whole]), whole]

/-- Only zero begins with a zero. -/
theorem head?_toDigits_ne_zero {n : Nat} (nonzero : n ≠ 0) :
    (Nat.toDigits 10 n).head? ≠ some '0' := by
  induction n using Nat.strongRecOn with
  | ind n ih =>
    by_cases small : n < 10
    · rw [Nat.toDigits_of_lt_base small]
      simpa using nonzero
    · rw [Nat.toDigits_of_base_le (by omega) (by omega),
        head?_append_of_ne_nil _ Nat.toDigits_ne_nil]
      exact ih (n / 10) (by omega) (by omega)

theorem wholePart_toDigits (n : Nat) :
    wholePart (Nat.toDigits 10 n) = .ok (Nat.toDigits 10 n, []) := by
  have all : ∀ c ∈ Nat.toDigits 10 n, c.isDigit = true := fun c mem =>
    Nat.isDigit_of_mem_toDigits (by omega) (by omega) mem
  have found : digits (Nat.toDigits 10 n) = (Nat.toDigits 10 n, []) := by
    rw [digits, takeWhile_eq_self_iff.mpr all, dropWhile_eq_nil_iff.mpr all]
  have some : someDigits (Nat.toDigits 10 n) = .ok (Nat.toDigits 10 n, []) := by
    rw [someDigits, found]
    split
    · next none => exact absurd (Prod.mk.inj none).1 Nat.toDigits_ne_nil
    · next none => exact absurd (Prod.mk.inj none).1 Nat.toDigits_ne_nil
    · rfl
  refine bind_eq_ok_iff.mpr ⟨_, some, ?_⟩
  split
  · next d ds rest same =>
    -- two digits or more do not begin with a zero
    have zero := (Prod.mk.inj same).1
    by_cases nonzero : n = 0
    · rw [nonzero] at zero
      cases zero
    · have head := head?_toDigits_ne_zero nonzero
      rw [zero] at head
      exact absurd rfl head
  · rfl

theorem number_toDigits {n : Nat} (fits : n ≤ maxPositive) :
    number (Nat.toDigits 10 n) = .ok (.int n, []) := by
  have read : numeral (Nat.toDigits 10 n) = .ok (⟨false, Nat.toDigits 10 n, [], none⟩, []) := by
    unfold numeral
    split
    next negative cs sign =>
    split at sign
    · next rest same =>
      have minus : '-' ∈ Nat.toDigits 10 n := same ▸ mem_cons_self
      exact absurd (Nat.isDigit_of_mem_toDigits (by omega) (by omega) minus) (by decide)
    · obtain ⟨rfl, rfl⟩ := Prod.mk.inj sign
      exact bind_eq_ok_iff.mpr ⟨_, wholePart_toDigits n, rfl⟩
  have decimal : (Numeral.mk false (Nat.toDigits 10 n) [] none).decimal = ⟨n, 0⟩ := by
    simp only [Numeral.decimal, keepDigits_toDigits fits]
    rfl
  have value : (Numeral.mk false (Nat.toDigits 10 n) [] none).value = .ok (.int n) := by
    have integer : (Numeral.mk false (Nat.toDigits 10 n) [] none).isInteger = true := by
      rw [Numeral.isInteger, decimal]
      rfl
    rw [Numeral.value, if_pos integer, decimal]
    rfl
  exact bind_eq_ok_iff.mpr ⟨_, read, bind_eq_ok_iff.mpr ⟨_, value, rfl⟩⟩

end Json.Reader
end TypeFlow
