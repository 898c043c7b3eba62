import TypeFlow.Proofs.Num.Enclosure
import TypeFlow.Proofs.Num.Shortest
import TypeFlow.Proofs.Text.Readable

/-!
# Numbers in type ids

Doubles are written with digits and a point, so that their texts can be told apart: the digits
show which decimal was written, and the decimal rounds to the double. Of the number types only the
single numbers and `number` have the form of a word.
-/

namespace TypeFlow

open List Text

/-- Digits before and after a point. -/
structure Numeral where
  whole : List Char
  fraction : List Char
  some : whole ≠ []
  digits : ∀ c ∈ whole ++ fraction, c.isDigit = true

namespace Numeral

/-- The point and what comes after it; nothing when there are no digits. -/
def dotted : List Char → List Char
  | [] => []
  | c :: cs => '.' :: c :: cs

theorem dotted_of_ne_nil {fraction : List Char} (some : fraction ≠ []) :
    dotted fraction = '.' :: fraction := by
  cases fraction with
  | nil => exact absurd rfl some
  | cons c cs => rfl

def chars (n : Numeral) : List Char := n.whole ++ dotted n.fraction

def value (n : Numeral) : ℚ :=
  (Nat.ofDigitChars 10 (n.whole ++ n.fraction) 0 : ℕ) / (10 : ℚ) ^ n.fraction.length

/-- What can follow a numeral: no digit, and no point with a digit. -/
structure Follow (rest : List Char) : Prop where
  digit : Ends Char.isDigit rest
  point : ∀ tail, rest = '.' :: tail → Ends Char.isDigit tail

theorem ends_dotted {fraction rest : List Char} (follow : Follow rest) :
    Ends Char.isDigit (dotted fraction ++ rest) := by
  cases fraction with
  | nil => exact follow.digit
  | cons c cs => exact ends_cons.mpr (by decide)

theorem dotted_append_inj {fraction fraction' rest rest' : List Char}
    (digits : ∀ c ∈ fraction, c.isDigit = true) (digits' : ∀ c ∈ fraction', c.isDigit = true)
    (follow : Follow rest) (follow' : Follow rest')
    (same : dotted fraction ++ rest = dotted fraction' ++ rest') :
    fraction = fraction' ∧ rest = rest' := by
  cases fraction with
  | nil =>
    cases fraction' with
    | nil => exact ⟨rfl, same⟩
    | cons d ds =>
      have plain := ends_cons.mp (follow.point _ same)
      simp [digits' d mem_cons_self] at plain
  | cons c cs =>
    cases fraction' with
    | nil =>
      have plain := ends_cons.mp (follow'.point _ same.symm)
      simp [digits c mem_cons_self] at plain
    | cons d ds =>
      have tails : (c :: cs) ++ rest = (d :: ds) ++ rest' := (List.cons.inj same).2
      exact append_inj_of_ends digits digits' follow.digit follow'.digit tails

theorem chars_append_inj {n n' : Numeral} {rest rest' : List Char} (follow : Follow rest)
    (follow' : Follow rest') (same : n.chars ++ rest = n'.chars ++ rest') :
    n = n' ∧ rest = rest' := by
  obtain ⟨whole, fraction, _, digits⟩ := n
  obtain ⟨whole', fraction', _, digits'⟩ := n'
  simp only [chars, append_assoc] at same
  rw [forall_mem_append] at digits digits'
  obtain ⟨wholes, tails⟩ := append_inj_of_ends digits.1 digits'.1 (ends_dotted follow)
    (ends_dotted follow') same
  obtain ⟨fractions, rests⟩ := dotted_append_inj digits.2 digits'.2 follow follow' tails
  subst wholes fractions
  exact ⟨rfl, rests⟩

theorem exists_chars_eq (n : Numeral) : ∃ c cs, n.chars = c :: cs ∧ c.isDigit = true := by
  obtain ⟨c, cs, whole⟩ := exists_cons_of_ne_nil n.some
  refine ⟨c, cs ++ dotted n.fraction, ?_, n.digits c ?_⟩
  · rw [chars, whole, cons_append]
  · simp [whole]

theorem isDigit_or_of_mem {n : Numeral} {c : Char} (mem : c ∈ n.chars) :
    c.isDigit = true ∨ c = '.' := by
  have digits := n.digits
  rw [forall_mem_append] at digits
  rcases mem_append.mp mem with mem | mem
  · exact .inl (digits.1 c mem)
  · cases fraction : n.fraction with
    | nil => simp [fraction, dotted] at mem
    | cons d ds =>
      rw [fraction, dotted] at mem
      rcases mem_cons.mp mem with point | mem
      · exact .inr point
      · exact .inl (digits.2 c (fraction ▸ mem))

end Numeral

namespace Decimal

theorem isDigit_of_mem_digits {d : Decimal} {c : Char} (mem : c ∈ d.digits) : c.isDigit = true :=
  Nat.isDigit_of_mem_toDigits (by decide) (by decide) mem

theorem isDigit_of_mem_zeros {count : ℕ} {c : Char} (mem : c ∈ NumberFormat.zeros count) :
    c.isDigit = true := by
  rw [eq_of_mem_replicate mem]
  rfl

/-- A coefficient over a power of ten. -/
theorem toRat_eq_div {d : Decimal} {places : ℕ} (exponent : d.exponent = -places) :
    d.toRat = d.coefficient / (10 : ℚ) ^ places := by
  rw [toRat, exponent, zpow_neg, zpow_natCast, div_eq_mul_inv]

/-- The digits of a decimal with the point at its place are a numeral of the same value. -/
theorem exists_numeral (d : Decimal) : ∃ n : Numeral,
    (NumberFormat.typeId.positionalText d.digits d.point).toList = n.chars ∧
      n.value = d.toRat := by
  have count : d.point = d.digits.length + d.exponent := rfl
  have some : d.digits ≠ [] := Nat.toDigits_ne_nil
  have read : Nat.ofDigitChars 10 d.digits 0 = d.coefficient := Nat.ofDigitChars_ten_toDigits
  simp only [NumberFormat.positionalText]
  split_ifs with small large
  · -- All digits come after the point, and zeros before them.
    refine ⟨⟨['0'], NumberFormat.zeros (-d.point).toNat ++ d.digits, by simp, ?_⟩, ?_, ?_⟩
    · simp only [forall_mem_append, forall_mem_singleton]
      exact ⟨rfl, fun c => isDigit_of_mem_zeros, fun c => isDigit_of_mem_digits⟩
    · simp [Numeral.chars, Numeral.dotted_of_ne_nil, some]
    · have zeros : Nat.ofDigitChars 10 (['0'] ++ (NumberFormat.zeros (-d.point).toNat ++ d.digits))
          0 = d.coefficient := by
        rw [Nat.ofDigitChars_append, Nat.ofDigitChars_append, NumberFormat.zeros,
          Nat.ofDigitChars_replicate_zero]
        exact read
      rw [Numeral.value, zeros, toRat_eq_div]
      simp only [NumberFormat.zeros, length_append, length_replicate]
      push_cast
      omega
  · refine ⟨⟨d.digits ++ NumberFormat.zeros (d.point - d.digits.length).toNat, [], by simp [some],
      ?_⟩, ?_, ?_⟩
    · simp only [append_nil, forall_mem_append]
      exact ⟨fun c => isDigit_of_mem_digits, fun c => isDigit_of_mem_zeros⟩
    · simp [Numeral.chars, Numeral.dotted, NumberFormat.typeId]
    · obtain ⟨n, whole⟩ : ∃ n : ℕ, d.exponent = n := ⟨d.exponent.toNat, by omega⟩
      have places : (d.point - d.digits.length).toNat = n := by omega
      simp only [Numeral.value, append_nil, Nat.ofDigitChars_append, read, places,
        NumberFormat.zeros, Nat.ofDigitChars_replicate_zero, toRat, whole, zpow_natCast]
      simp [mul_comm]
  · have short : d.point.toNat < d.digits.length := by omega
    refine ⟨⟨d.digits.take d.point.toNat, d.digits.drop d.point.toNat, ?_, ?_⟩, ?_, ?_⟩
    · simp only [ne_eq, take_eq_nil_iff, some, or_false]
      omega
    · rw [take_append_drop]
      exact fun c => isDigit_of_mem_digits
    · have rest : d.digits.drop d.point.toNat ≠ [] := by simpa using short
      simp [Numeral.chars, Numeral.dotted_of_ne_nil rest]
    · simp only [Numeral.value, take_append_drop, read, length_drop]
      exact (toRat_eq_div (by omega)).symm

end Decimal

namespace Num

open Binary64

/-- How the text of a double is made up. -/
inductive Spells : List Char → Num → Prop
  | nan : Spells "NaN".toList nan
  | negInf : Spells "-inf".toList negInf
  | posInf : Spells "inf".toList posInf
  | positive (n : Numeral) : Spells n.chars (fin (nearest n.value))
  | negative (n : Numeral) : Spells ('-' :: n.chars) (fin (-nearest n.value))

/-- The text of a positive double is a numeral that rounds to it. -/
theorem exists_numeral {q : ℚ} (positive : 0 < q) (double : nearest q = q) (bounded : q < limit) :
    ∃ n : Numeral, (NumberFormat.typeId.positive q).toList = n.chars ∧ nearest n.value = q := by
  obtain ⟨n, chars, value⟩ := (Decimal.shortest NumberFormat.typeId.tie q).exists_numeral
  refine ⟨n, chars, ?_⟩
  rw [value]
  exact Decimal.nearest_shortest _ positive double bounded

theorem spells_text {x : Num} (double : x.IsDouble) : Spells x.text.toList x := by
  cases x with
  | nan => exact .nan
  | negInf => exact .negInf
  | posInf => exact .posInf
  | fin q =>
    obtain ⟨rounded, bounded⟩ := isDouble_fin.mp double
    obtain ⟨low, high⟩ := abs_lt.mp bounded
    simp only [text, NumberFormat.text]
    split_ifs with zero negative
    · have spelled := Spells.positive ⟨['0'], [], by simp, by simp⟩
      have value : nearest (Numeral.value ⟨['0'], [], by simp, by simp⟩) = q := by
        simp [Numeral.value, Nat.ofDigitChars_cons, nearest_zero, zero]
      rwa [value] at spelled
    · obtain ⟨n, chars, value⟩ := exists_numeral (Left.neg_pos_iff.mpr negative)
        (by rw [nearest_neg, rounded]) (by linarith)
      have spelled := Spells.negative n
      rw [value] at spelled
      simpa [chars] using spelled
    · have positive : 0 < q := lt_of_le_of_ne (not_lt.mp negative) (Ne.symm zero)
      obtain ⟨n, chars, value⟩ := exists_numeral positive rounded high
      rw [chars, ← value]
      exact .positive n

/-- A numeral starts as no other text of a number does. -/
theorem chars_append_ne {n : Numeral} {rest rest' : List Char} {c : Char}
    (other : c.isDigit = false) : n.chars ++ rest ≠ c :: rest' := by
  obtain ⟨d, ds, chars, digit⟩ := n.exists_chars_eq
  rw [chars]
  intro same
  rw [(List.cons.inj same).1, other] at digit
  cases digit

theorem Spells.append_inj {a b rest rest' : List Char} {x y : Num} (spelled : Spells a x)
    (spelled' : Spells b y) (follow : Numeral.Follow rest) (follow' : Numeral.Follow rest')
    (same : a ++ rest = b ++ rest') : x = y ∧ rest = rest' := by
  cases spelled with
  | nan =>
    cases spelled' with
    | nan => simpa using same
    | positive n => exact absurd same.symm (chars_append_ne rfl)
    | _ => simp at same
  | negInf =>
    cases spelled' with
    | negInf => simpa using same
    | positive n => exact absurd same.symm (chars_append_ne rfl)
    | negative n => exact absurd (List.cons.inj same).2.symm (chars_append_ne rfl)
    | _ => simp at same
  | posInf =>
    cases spelled' with
    | posInf => simpa using same
    | positive n => exact absurd same.symm (chars_append_ne rfl)
    | _ => simp at same
  | positive n =>
    cases spelled' with
    | positive n' =>
      obtain ⟨rfl, rests⟩ := Numeral.chars_append_inj follow follow' same
      exact ⟨rfl, rests⟩
    | _ => exact absurd same (chars_append_ne rfl)
  | negative n =>
    cases spelled' with
    | positive n' => exact absurd same.symm (chars_append_ne rfl)
    | negative n' =>
      obtain ⟨rfl, rests⟩ := Numeral.chars_append_inj follow follow' (List.cons.inj same).2
      exact ⟨rfl, rests⟩
    | negInf => exact absurd (List.cons.inj same).2 (chars_append_ne rfl)
    | _ => simp at same

/-- Doubles with different texts are different, whatever follows them. -/
theorem readable_text {x : Num} (double : x.IsDouble) :
    Readable text IsDouble Numeral.Follow x := fun _ _ _ double' follow follow' same =>
  (spells_text double).append_inj (spells_text double') follow follow' same

end Num

namespace Text

/-- The characters of words: no blank, comma or quote. -/
def isPlain (c : Char) : Bool := c != ' ' && c != ',' && c != '"'

theorem isPlain_of_isDigit {c : Char} (digit : c.isDigit = true) : isPlain c = true := by
  have differ {d : Char} (other : d.isDigit = false) : c ≠ d := by
    rintro rfl
    rw [other] at digit
    cases digit
  simp [isPlain, differ (d := ' ') rfl, differ (d := ',') rfl, differ (d := '"') rfl]

end Text

/-- What follows a word may follow a number. -/
theorem Numeral.Follow.of_ends {rest : List Char} (ends : Ends isPlain rest) :
    Numeral.Follow rest := by
  cases rest with
  | nil => exact ⟨ends_nil, nofun⟩
  | cons c cs =>
    have unusual := ends_cons.mp ends
    refine ⟨ends_cons.mpr ?_, fun _ same => ?_⟩
    · cases digit : c.isDigit with
      | false => rfl
      | true => rw [isPlain_of_isDigit digit] at unusual; exact unusual
    · rw [(List.cons.inj same).1] at unusual
      cases unusual

theorem Numeral.follow_range (rest : List Char) : Numeral.Follow ('.' :: '.' :: rest) :=
  ⟨ends_cons.mpr rfl, fun _ same => (List.cons.inj same).2 ▸ ends_cons.mpr rfl⟩

theorem Num.Spells.isPlain {a : List Char} {x : Num} (spelled : Num.Spells a x) :
    ∀ c ∈ a, isPlain c = true := by
  have chars {n : Numeral} {c : Char} (mem : c ∈ n.chars) : Text.isPlain c = true := by
    rcases Numeral.isDigit_or_of_mem mem with digit | rfl
    · exact isPlain_of_isDigit digit
    · rfl
  cases spelled with
  | positive n => exact fun c => chars
  | negative n => exact forall_mem_cons.mpr ⟨rfl, fun c => chars⟩
  | _ => exact all_eq_true.mp rfl

/-- No number starts as the words for number types do. -/
theorem Num.Spells.append_ne {a rest tail : List Char} {x : Num} (spelled : Num.Spells a x) :
    a ++ rest ≠ 'n' :: tail ∧ a ++ rest ≠ 'i' :: 'n' :: 't' :: tail := by
  cases spelled with
  | positive n => exact ⟨Num.chars_append_ne rfl, Num.chars_append_ne rfl⟩
  | _ => simp

namespace NumberTy

/-- Both bounds of a range are found again. -/
theorem range_append_inj {lo hi lo' hi' : Num} (min : lo.IsDouble) (max : hi.IsDouble)
    (min' : lo'.IsDouble) (max' : hi'.IsDouble) {rest rest' : List Char}
    (follow : Numeral.Follow rest) (follow' : Numeral.Follow rest')
    (same : lo.text.toList ++ ("..".toList ++ (hi.text.toList ++ rest)) =
      lo'.text.toList ++ ("..".toList ++ (hi'.text.toList ++ rest'))) :
    lo = lo' ∧ hi = hi' ∧ rest = rest' := by
  obtain ⟨lows, same⟩ :=
    Num.readable_text min min' (Numeral.follow_range _) (Numeral.follow_range _) same
  exact ⟨lows, Num.readable_text max max' follow follow' (List.cons.inj (List.cons.inj same).2).2⟩

/-- The text of a number type is found again in front of what follows a word. -/
theorem readable_text {n : NumberTy} (held : n.Held) : Readable text Held (Ends isPlain) n := by
  intro m rest rest' held' ends ends' same
  have follow := Numeral.Follow.of_ends ends
  have follow' := Numeral.Follow.of_ends ends'
  have close (tail : List Char) : Numeral.Follow (')' :: tail) := ⟨ends_cons.mpr rfl, nofun⟩
  -- A number that a point follows belongs to a range, and is no number by itself.
  have single {v w : Num} (double : v.IsDouble) (double' : w.IsDouble) {rest tail : List Char}
      (ends : Ends isPlain rest) :
      v.text.toList ++ rest ≠ w.text.toList ++ ('.' :: '.' :: tail) := by
    intro same
    obtain ⟨-, rfl⟩ :=
      Num.readable_text double double' (.of_ends ends) (Numeral.follow_range _) same
    cases ends_cons.mp ends
  have start {v : Num} (double : v.IsDouble) (rest tail : List Char) :
      v.text.toList ++ rest ≠ 'n' :: tail ∧ v.text.toList ++ rest ≠ 'i' :: 'n' :: 't' :: tail :=
    (Num.spells_text double).append_ne
  rcases n with v | ⟨lo, hi⟩ | ⟨lo, hi⟩ | _ <;> rcases m with w | ⟨lo', hi'⟩ | ⟨lo', hi'⟩ | _ <;>
    simp only [text, String.toList_append, append_assoc] at same
  case literal.literal =>
    obtain ⟨rfl, rests⟩ := Num.readable_text held.min held'.min follow follow' same
    exact ⟨rfl, rests⟩
  case literal.ints => exact absurd same (start held.min _ _).2
  case literal.reals => exact absurd same (single held.min held'.min ends)
  case literal.all => exact absurd same (start held.min _ _).1
  case ints.literal => exact absurd same.symm (start held'.min _ _).2
  case ints.ints =>
    obtain ⟨rfl, rfl, rests⟩ := range_append_inj held.min held.max held'.min held'.max
      (close rest) (close rest') (append_cancel_left same)
    exact ⟨rfl, (List.cons.inj rests).2⟩
  case ints.reals => exact absurd same.symm (start held'.min _ _).2
  case ints.all => simp at same
  case reals.literal => exact absurd same.symm (single held'.min held.min ends')
  case reals.ints => exact absurd same (start held.min _ _).2
  case reals.reals =>
    obtain ⟨rfl, rfl, rests⟩ := range_append_inj held.min held.max held'.min held'.max
      follow follow' same
    exact ⟨rfl, rests⟩
  case reals.all => exact absurd same (start held.min _ _).1
  case all.literal => exact absurd same.symm (start held'.min _ _).1
  case all.ints => simp at same
  case all.reals => exact absurd same.symm (start held'.min _ _).1
  case all.all => exact ⟨rfl, append_cancel_left same⟩

theorem isPlain_of_mem_text {n : NumberTy} (held : n.Held) :
    ∀ c ∈ n.text.toList, isPlain c = true := by
  have min := (Num.spells_text held.min).isPlain
  have max := (Num.spells_text held.max).isPlain
  cases n with
  | literal v => exact min
  | ints lo hi =>
    simp only [text, String.toList_append, forall_mem_append]
    exact ⟨⟨⟨⟨all_eq_true.mp rfl, min⟩, all_eq_true.mp rfl⟩, max⟩,
      all_eq_true.mp rfl⟩
  | reals lo hi =>
    simp only [text, String.toList_append, forall_mem_append]
    exact ⟨⟨min, all_eq_true.mp rfl⟩, max⟩
  | all => exact all_eq_true.mp rfl

end NumberTy
end TypeFlow
