import Mathlib.Data.List.TakeWhile
import TypeFlow.Text.Quoted

/-!
# Readable texts

A text is readable when it can be told from the texts of other values whatever follows it, so that
its value and its end are both found again. A run of characters of one kind ends at the first
character of another kind; a quoted text ends at the first quote that no backslash belongs to; and
a list of readable texts with a separator ends where the separator is missing.
-/

namespace TypeFlow.Text

open List

/-- Nothing of the given kind comes first. -/
def Ends (p : Char → Bool) (rest : List Char) : Prop := ∀ c ∈ rest.head?, p c = false

theorem ends_nil {p : Char → Bool} : Ends p [] := by simp [Ends]

theorem ends_cons {p : Char → Bool} {c : Char} {rest : List Char} :
    Ends p (c :: rest) ↔ p c = false := by simp [Ends]

/-- A run of characters that ends before the rest can be found again. -/
theorem append_inj_of_ends {p : Char → Bool} {a b rest rest' : List Char}
    (all : ∀ c ∈ a, p c = true) (all' : ∀ c ∈ b, p c = true) (ends : Ends p rest)
    (ends' : Ends p rest') (same : a ++ rest = b ++ rest') : a = b ∧ rest = rest' := by
  have run {cs tail : List Char} (each : ∀ c ∈ cs, p c = true) (stop : Ends p tail) :
      (cs ++ tail).takeWhile p = cs := by
    rw [takeWhile_append_of_pos each]
    cases tail with
    | nil => simp
    | cons c tail => simp [ends_cons.mp stop]
  have runs : a = b := by
    rw [← run all ends, same, run all' ends']
  rw [runs] at same
  exact ⟨runs, append_cancel_left same⟩

/-- The text of a value is no beginning of the text of another one, and what follows it is found
again, when both are followed by texts of the given form. -/
def Readable {α : Type} (text : α → String) (legal : α → Prop) (follow : List Char → Prop)
    (x : α) : Prop :=
  ∀ ⦃y rest rest'⦄, legal y → follow rest → follow rest' →
    (text x).toList ++ rest = (text y).toList ++ rest' → x = y ∧ rest = rest'

section Joined

variable {α : Type} {text : α → String} {legal : α → Prop} {follow : List Char → Prop}
  {separator : String}

theorem separator_append_joined (separator : String) {texts : List String} (some : texts ≠ []) :
    separator.toList ++ (joined separator texts).toList =
      texts.flatMap fun s => separator.toList ++ s.toList := by
  induction texts with
  | nil => exact absurd rfl some
  | cons first more ih =>
    cases more with
    | nil => simp [joined]
    | cons second more =>
      rw [flatMap_cons, ← ih (cons_ne_nil _ _)]
      simp [joined]

variable (opens : ∀ rest, follow (separator.toList ++ rest)) {rest rest' : List Char}
  (follows : follow rest) (follows' : follow rest') (closed : ¬ separator.toList <+: rest)
  (closed' : ¬ separator.toList <+: rest')
include opens follows follows' closed closed'

/-- Texts with a separator before each of them, as they follow the first one. -/
theorem separated_append_inj (xs ys : List α)
    (readable : ∀ x ∈ xs, Readable text legal follow x) (each : ∀ y ∈ ys, legal y)
    (same : (xs.flatMap fun x => separator.toList ++ (text x).toList) ++ rest =
      (ys.flatMap fun y => separator.toList ++ (text y).toList) ++ rest') :
    xs = ys ∧ rest = rest' := by
  have tail (zs : List α) {last : List Char} (ending : follow last) :
      follow ((zs.flatMap fun z => separator.toList ++ (text z).toList) ++ last) := by
    cases zs with
    | nil => exact ending
    | cons z zs =>
      rw [flatMap_cons, append_assoc, append_assoc]
      exact opens _
  induction xs generalizing ys with
  | nil =>
    cases ys with
    | nil => exact ⟨rfl, same⟩
    | cons y ys =>
      rw [flatMap_nil, nil_append, flatMap_cons, append_assoc, append_assoc] at same
      exact absurd ⟨_, same.symm⟩ closed
  | cons x xs ih =>
    cases ys with
    | nil =>
      rw [flatMap_nil, nil_append, flatMap_cons, append_assoc, append_assoc] at same
      exact absurd ⟨_, same⟩ closed'
    | cons y ys =>
      simp only [flatMap_cons, append_assoc] at same
      rw [append_cancel_left_eq] at same
      obtain ⟨first, others⟩ := readable x mem_cons_self (each y mem_cons_self)
        (tail xs follows) (tail ys follows') same
      obtain ⟨more, rests⟩ := ih ys (fun x mem => readable x (mem_cons_of_mem _ mem))
        (fun y mem => each y (mem_cons_of_mem _ mem)) others
      exact ⟨by rw [first, more], rests⟩

/-- Readable texts with a separator between neighbours are found again. -/
theorem joined_append_inj {xs ys : List α} (some : xs ≠ []) (some' : ys ≠ [])
    (readable : ∀ x ∈ xs, Readable text legal follow x) (each : ∀ y ∈ ys, legal y)
    (same : (joined separator (xs.map text)).toList ++ rest =
      (joined separator (ys.map text)).toList ++ rest') :
    xs = ys ∧ rest = rest' := by
  refine separated_append_inj opens follows follows' closed closed' xs ys readable each ?_
  have separated := congrArg (separator.toList ++ ·) same
  simp only [← append_assoc] at separated
  rwa [separator_append_joined separator (by simpa using some),
    separator_append_joined separator (by simpa using some'), flatMap_map,
    flatMap_map] at separated

end Joined

/-- The value of a hexadecimal digit in lower case. -/
def digitValue (c : Char) : ℕ := if c.isDigit then c.toNat - 48 else c.toNat - 87

/-- The number that hexadecimal digits stand for. -/
def hexValue (digits : List Char) : ℕ := digits.foldl (fun value c => 16 * value + digitValue c) 0

theorem digitValue_digitChar : ∀ d < 16, digitValue d.digitChar = d := by decide

theorem hexValue_toDigits (n : ℕ) : hexValue (Nat.toDigits 16 n) = n := by
  induction n using Nat.strongRecOn with
  | ind n smaller =>
    rw [Nat.toDigits_eq_if (by decide)]
    split
    · next small => simp [hexValue, digitValue_digitChar n small]
    · next large =>
      have quotient := smaller (n / 16) (by omega)
      have last := digitValue_digitChar (n % 16) (by omega)
      rw [hexValue, foldl_append, ← hexValue, quotient, foldl_cons, foldl_nil, last]
      omega

theorem digitChar_ne_brace : ∀ d < 16, d.digitChar ≠ '\x7d' := by decide

theorem ne_brace_of_mem_toDigits {n : ℕ} {c : Char} (mem : c ∈ Nat.toDigits 16 n) :
    c ≠ '\x7d' := by
  induction n using Nat.strongRecOn with
  | ind n smaller =>
    rw [Nat.toDigits_eq_if (by decide)] at mem
    split at mem
    · next small => exact mem_singleton.mp mem ▸ digitChar_ne_brace n small
    · next large =>
      rcases mem_append.mp mem with mem | mem
      · exact smaller (n / 16) (by omega) mem
      · exact mem_singleton.mp mem ▸ digitChar_ne_brace (n % 16) (by omega)

/-- Reads one character of a quoted text. -/
def unquotedChar : List Char → Option (Char × List Char)
  | '\\' :: 'n' :: rest => some ('\n', rest)
  | '\\' :: 'r' :: rest => some ('\r', rest)
  | '\\' :: 't' :: rest => some ('\t', rest)
  | '\\' :: '0' :: rest => some (Char.ofNat 0, rest)
  | '\\' :: 'u' :: '\x7b' :: rest =>
    some (Char.ofNat (hexValue (rest.takeWhile (· ≠ '\x7d'))),
      (rest.dropWhile (· ≠ '\x7d')).drop 1)
  | '\\' :: c :: rest => some (c, rest)
  | c :: rest => some (c, rest)
  | [] => none

theorem unquotedChar_hexadecimal (n : ℕ) (rest : List Char) :
    unquotedChar ('\\' :: 'u' :: '\x7b' :: (Nat.toDigits 16 n ++ '\x7d' :: rest)) =
      some (Char.ofNat n, rest) := by
  have digits : ∀ c ∈ Nat.toDigits 16 n, decide (c ≠ '\x7d') = true := fun c mem =>
    decide_eq_true (ne_brace_of_mem_toDigits mem)
  rw [unquotedChar, takeWhile_append_of_pos digits, dropWhile_append_of_pos digits]
  simp [hexValue_toDigits]

/-- A quoted character is read back in front of anything. -/
theorem unquotedChar_quotedChar (c : Char) (rest : List Char) :
    unquotedChar ((quotedChar c).toList ++ rest) = some (c, rest) := by
  unfold quotedChar
  split_ifs with quote backslash newline carriage tab null glyphless
  · simp [quote, unquotedChar]
  · simp [backslash, unquotedChar]
  · simp [newline, unquotedChar]
  · simp [carriage, unquotedChar]
  · simp [tab, unquotedChar]
  · have zero : Char.ofNat 0 = c := by rw [← null, Char.ofNat_toNat]
    simpa [unquotedChar] using zero
  · have read := unquotedChar_hexadecimal c.toNat rest
    rw [Char.ofNat_toNat] at read
    simpa [hexadecimal] using read
  · simp [unquotedChar, backslash]

theorem quotedChar_ne_quote (c : Char) (rest rest' : List Char) :
    (quotedChar c).toList ++ rest ≠ '"' :: rest' := by
  unfold quotedChar
  split_ifs with quote <;> simp [quote]

/-- A quoted text is found again in front of anything. -/
theorem readable_quoted (s : String) : Readable quoted (fun _ => True) (fun _ => True) s := by
  intro t rest rest' _ _ _ same
  have opened (u : String) (tail : List Char) : (quoted u).toList ++ tail =
      '"' :: (u.toList.flatMap (fun c => (quotedChar c).toList) ++ '"' :: tail) := by
    simp [quoted, String.toList_join, flatMap_map]
  rw [opened, opened, List.cons.injEq] at same
  rw [← String.toList_inj]
  generalize s.toList = cs at same
  generalize t.toList = ds at same
  -- Both texts go on with a character, and with the same one, or both end with their quote.
  induction cs generalizing ds with
  | nil =>
    cases ds with
    | nil => simpa using same
    | cons d ds =>
      rw [flatMap_cons, append_assoc] at same
      exact absurd same.2.symm (quotedChar_ne_quote d _ _)
  | cons c cs ih =>
    cases ds with
    | nil =>
      rw [flatMap_cons, append_assoc] at same
      exact absurd same.2 (quotedChar_ne_quote c _ _)
    | cons d ds =>
      rw [flatMap_cons, flatMap_cons, append_assoc, append_assoc] at same
      have read := congrArg unquotedChar same.2
      rw [unquotedChar_quotedChar, unquotedChar_quotedChar, Option.some.injEq,
        Prod.mk.injEq] at read
      obtain ⟨first, tail⟩ := read
      obtain ⟨texts, rests⟩ := ih ds ⟨rfl, tail⟩
      exact ⟨by rw [first, texts], rests⟩

end TypeFlow.Text
