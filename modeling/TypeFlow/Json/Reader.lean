import TypeFlow.Json.Basic
import TypeFlow.Json.Flaw

/-!
# Reading JSON text

A reader takes a value from the front of a list of characters and returns the
characters after it, or says what is wrong with the front. Arrays and objects
are read level by level down to a limit of nesting; how many parts they can have
is bounded by the size of the text, which is given where it matters. Whatever
follows the first value of a text is left alone.

`Reader.skip` passes over a value without reading it. It asks less of the text:
numbers may be of any size, halves of characters may stand alone in strings,
and nesting has no limit.
-/

namespace TypeFlow.Json

/-- Takes a value from the front of the characters. -/
abbrev Reader (α : Type) := List Char → Except Flaw (α × List Char)

namespace Reader

/-- The characters that may stand between values. -/
def isBlank (c : Char) : Bool := c = ' ' || c = '\n' || c = '\t' || c = '\r'

/-- Drops blanks. -/
def skipBlanks (cs : List Char) : List Char := cs.dropWhile isBlank

/-- Drops the rest of a word from the front. -/
def expect : List Char → List Char → Except Flaw (List Char)
  | [], cs => .ok cs
  | _ :: _, [] => .error .endInValue
  | w :: word, c :: cs => if w = c then expect word cs else .error .wordExpected

/-- Digits and what follows them. -/
def digits (cs : List Char) : List Char × List Char :=
  (cs.takeWhile Char.isDigit, cs.dropWhile Char.isDigit)

/-- At least one digit. -/
def someDigits (cs : List Char) : Except Flaw (List Char × List Char) :=
  match digits cs with
  | ([], []) => .error .endInValue
  | ([], _ :: _) => .error .wrongNumber
  | found => .ok found

/-- The value of a digit. -/
def digitValue (d : Char) : Nat := d.toNat - '0'.toNat

/-- The number that digits stand for. -/
def digitsValue (ds : List Char) : Nat :=
  ds.foldl (fun n d => 10 * n + digitValue d) 0

/-- At least one digit, no zero in front of others. -/
def wholePart (cs : List Char) : Except Flaw (List Char × List Char) := do
  match ← someDigits cs with
  | ('0' :: _ :: _, _) => .error .wrongNumber
  | found => return found

/-- The digits after a decimal point; without a point there are none. -/
def fraction : List Char → Except Flaw (List Char × List Char)
  | '.' :: cs => someDigits cs
  | cs => .ok ([], cs)

/-- The digits of an exponent, which may have a sign. -/
def exponentDigits (cs : List Char) : Except Flaw (Int × List Char) := do
  let (negative, cs) := match cs with
    | '-' :: rest => (true, rest)
    | '+' :: rest => (false, rest)
    | cs => (false, cs)
  let (ds, rest) ← someDigits cs
  let n : Int := digitsValue ds
  return (if negative then -n else n, rest)

/-- An exponent; without its letter there is none. -/
def exponent : List Char → Except Flaw (Option Int × List Char)
  | 'e' :: cs | 'E' :: cs => (exponentDigits cs).map fun (n, rest) => (some n, rest)
  | cs => .ok (none, cs)

/-- The parts of a written number. -/
structure Numeral where
  /-- Whether it has a minus sign. -/
  negative : Bool
  /-- Digits before the point. -/
  whole : List Char
  /-- Digits after the point. -/
  fractional : List Char
  power : Option Int

/-- A written number. -/
def numeral : Reader Numeral := fun cs => do
  let (negative, cs) := match cs with
    | '-' :: rest => (true, rest)
    | cs => (false, cs)
  let (whole, cs) ← wholePart cs
  let (fractional, cs) ← fraction cs
  let (power, cs) ← exponent cs
  return (⟨negative, whole, fractional, power⟩, cs)

/-- The size of the least integer of 64 bits, sign included. -/
def maxNegative : Nat := 9223372036854775808

/-- The greatest integer of 64 bits without a sign. -/
def maxPositive : Nat := 18446744073709551615

/-- Adds digits to a number as long as it fits into 64 bits; the digits that are left over. -/
def keepDigits : Nat → List Char → Nat × List Char
  | n, [] => (n, [])
  | n, d :: ds =>
    let next := 10 * n + digitValue d
    if next ≤ maxPositive then keepDigits next ds else (n, d :: ds)

namespace Numeral

/-- The decimal that is taken for a written number, without its sign. Digits beyond 64 bits
count as zeros before the point and are dropped after it. -/
def decimal (n : Numeral) : Decimal :=
  let (coefficient, excess) := keepDigits 0 n.whole
  let (coefficient, dropped) := keepDigits coefficient n.fractional
  ⟨coefficient, excess.length + dropped.length - n.fractional.length + n.power.getD 0⟩

/-- Whether a number is written as an integer that fits into 64 bits. Zero with a minus sign
is none. -/
def isInteger (n : Numeral) : Bool :=
  n.fractional.isEmpty && n.power.isNone && n.decimal.exponent = 0
    && (!n.negative || (0 < n.decimal.coefficient && n.decimal.coefficient ≤ maxNegative))

/-- A double with a sign. -/
def signed (negative : Bool) (q : Rat) : Written :=
  if q = 0 then if negative then .minusZero else .num 0
  else .num (.fin (if negative then -q else q))

/-- The value of a written number; there is none beyond the range of doubles. -/
def value (n : Numeral) : Except Flaw Json :=
  if n.isInteger then
    .ok (.int (if n.negative then -n.decimal.coefficient else n.decimal.coefficient))
  else
    match n.decimal.toNum with
    | .fin q => .ok (.float (signed n.negative q))
    | _ => .error .hugeNumber

end Numeral

/-- A number. -/
def number : Reader Json := fun cs => do
  let (n, cs) ← numeral cs
  return (← n.value, cs)

/-- The value of a hexadecimal digit. -/
def hexDigit (c : Char) : Except Flaw Nat :=
  if c.isDigit then .ok (digitValue c)
  else if 'a' ≤ c ∧ c ≤ 'f' then .ok (c.toNat - 'a'.toNat + 10)
  else if 'A' ≤ c ∧ c ≤ 'F' then .ok (c.toNat - 'A'.toNat + 10)
  else .error .wrongEscape

/-- Four hexadecimal digits. -/
def codeUnit : Reader Nat
  | a :: b :: c :: d :: rest => do
    let a ← hexDigit a
    let b ← hexDigit b
    let c ← hexDigit c
    let d ← hexDigit d
    return (((a * 16 + b) * 16 + c) * 16 + d, rest)
  | _ => .error .wrongEscape

/-- The second half of a character. -/
def lowHalf : Reader Nat
  | '\\' :: 'u' :: cs => do
    let (unit, cs) ← codeUnit cs
    if 0xDC00 ≤ unit ∧ unit < 0xE000 then return (unit - 0xDC00, cs) else .error .loneHalf
  | _ => .error .missingHalf

/-- A character written by its number, in two halves if it is above 65535. -/
def escapedChar : Reader Char := fun cs => do
  let (unit, cs) ← codeUnit cs
  if 0xD800 ≤ unit ∧ unit < 0xDC00 then
    let (low, cs) ← lowHalf cs
    return (Char.ofNat (0x10000 + (unit - 0xD800) * 0x400 + low), cs)
  else if 0xDC00 ≤ unit ∧ unit < 0xE000 then .error .loneHalf
  else return (Char.ofNat unit, cs)

/-- A character written by its number, or half of one. -/
def escapedUnit : Reader Char := fun cs => (codeUnit cs).map fun (_, rest) => (' ', rest)

/-- The character after a backslash, given how numbers of characters are read. -/
def escape (numbered : Reader Char) : Reader Char
  | '"' :: cs => .ok ('"', cs)
  | '\\' :: cs => .ok ('\\', cs)
  | '/' :: cs => .ok ('/', cs)
  | 'b' :: cs => .ok (Char.ofNat 8, cs)
  | 'f' :: cs => .ok (Char.ofNat 12, cs)
  | 'n' :: cs => .ok ('\n', cs)
  | 'r' :: cs => .ok ('\r', cs)
  | 't' :: cs => .ok ('\t', cs)
  | 'u' :: cs => numbered cs
  | _ => .error .wrongEscape

/-- What is written between quotes. Each step takes a character or more, so the number of
characters is enough fuel. Control characters have to be escaped. -/
def unescape (numbered : Reader Char) : (fuel : Nat) → List Char → Except Flaw (List Char)
  | _, [] => .ok []
  | 0, _ => .ok []
  | fuel + 1, '\\' :: cs => do
    let (c, cs) ← escape numbered cs
    return c :: (← unescape numbered fuel cs)
  | fuel + 1, c :: cs =>
    if c.toNat < 32 then .error .controlCharacter
    else do return c :: (← unescape numbered fuel cs)

/-- The characters up to the next quote that is not escaped, and those after it. -/
def untilQuote : List Char → List Char × Option (List Char)
  | [] => ([], none)
  | '"' :: cs => ([], some cs)
  | '\\' :: c :: cs =>
    let (body, rest) := untilQuote cs
    ('\\' :: c :: body, rest)
  | c :: cs =>
    let (body, rest) := untilQuote cs
    (c :: body, rest)

/-- The rest of a string after its opening quote, given how numbers of characters are read. -/
def stringWith (numbered : Reader Char) : Reader String := fun cs => do
  let (body, rest) := untilQuote cs
  let text ← unescape numbered body.length body
  match rest with
  | some rest => return (String.ofList text, rest)
  | none => .error .endInString

/-- The rest of a string after its opening quote. -/
def string : Reader String := stringWith escapedChar

/-- A value without parts. -/
def scalar : Reader Json
  | 'n' :: cs => (expect ['u', 'l', 'l'] cs).map fun rest => (.null, rest)
  | 't' :: cs => (expect ['r', 'u', 'e'] cs).map fun rest => (.bool true, rest)
  | 'f' :: cs => (expect ['a', 'l', 's', 'e'] cs).map fun rest => (.bool false, rest)
  | '"' :: cs => (string cs).map fun (s, rest) => (.string s, rest)
  | [] => .error .endInValue
  | c :: cs => if c = '-' || c.isDigit then number (c :: cs) else .error .valueExpected

/-- What values are put into. -/
inductive Enclosure where
  | list
  | object
  deriving DecidableEq

namespace Enclosure

/-- The bracket at the end. -/
def closing : Enclosure → Char
  | list => ']'
  | object => '\x7d'

/-- The flaw of a text that ends inside. -/
def unclosed : Enclosure → Flaw
  | list => .endInList
  | object => .endInObject

/-- The flaw of a part that is followed by something else. -/
def unseparated : Enclosure → Flaw
  | list => .commaExpectedInList
  | object => .commaExpectedInObject

/-- What comes after an opening bracket: the front of the first part, or the text after the
closing bracket. -/
def first (e : Enclosure) (cs : List Char) : Except Flaw (List Char ⊕ List Char) :=
  match skipBlanks cs with
  | [] => .error e.unclosed
  | c :: cs => if c = e.closing then .ok (.inr cs) else .ok (.inl (c :: cs))

/-- What comes after a part: the front of the next one, or the text after the closing bracket. -/
def next (e : Enclosure) (cs : List Char) : Except Flaw (List Char ⊕ List Char) :=
  match skipBlanks cs with
  | [] => .error e.unclosed
  | ',' :: cs =>
    match skipBlanks cs with
    | [] => .error .endInValue
    | c :: cs => if c = e.closing then .error .commaAtEnd else .ok (.inl (c :: cs))
  | c :: cs => if c = e.closing then .ok (.inr cs) else .error e.unseparated

end Enclosure

/-- Parts up to a closing bracket, collected in reverse. -/
def parts {α : Type} (e : Enclosure) (part : Reader α) : (fuel : Nat) → List α → Reader (List α)
  | 0, _, _ => .error e.unclosed
  | fuel + 1, seen, cs => do
    let (a, cs) ← part cs
    match ← e.next cs with
    | .inl cs => parts e part fuel (a :: seen) cs
    | .inr cs => return ((a :: seen).reverse, cs)

/-- The rest of a container after its opening bracket. -/
def container {α : Type} (e : Enclosure) (size : Nat) (part : Reader α) : Reader (List α) :=
  fun cs => do
    match ← e.first cs with
    | .inl cs => parts e part size [] cs
    | .inr cs => return ([], cs)

/-- The front of the value after a key. -/
def afterColon (cs : List Char) : Except Flaw (List Char) :=
  match skipBlanks cs with
  | ':' :: cs => .ok (skipBlanks cs)
  | [] => .error .endInObject
  | _ => .error .colonExpected

/-- A key with its value. -/
def entry (value : Reader Json) : Reader (String × Json)
  | '"' :: cs => do
    let (key, cs) ← string cs
    let (j, cs) ← value (← afterColon cs)
    return ((key, j), cs)
  | _ => .error .keyExpected

/-- A value with containers nested at most `levels` deep, in a text of at most the given size. -/
def value (size : Nat) : (levels : Nat) → Reader Json
  | 0, '[' :: _ | 0, '\x7b' :: _ => .error .tooDeep
  | levels + 1, '[' :: cs =>
    (container .list size (value size levels) cs).map fun (items, rest) => (.array items, rest)
  | levels + 1, '\x7b' :: cs =>
    (container .object size (entry (value size levels)) cs).map fun (entries, rest) =>
      (.object entries, rest)
  | _, cs => scalar cs

/-- Passes over the rest of a string after its opening quote. -/
def skipString (cs : List Char) : Except Flaw (List Char) := (stringWith escapedUnit cs).map (·.2)

/-- Passes over a value without parts. -/
def skipScalar : List Char → Except Flaw (List Char)
  | '"' :: cs => skipString cs
  | c :: cs =>
    if c = '-' || c.isDigit then (numeral (c :: cs)).map (·.2) else (scalar (c :: cs)).map (·.2)
  | [] => .error .endInValue

/-- What comes next while a value is passed over. -/
inductive Awaited where
  | value
  /-- A part of the innermost container. -/
  | part
  /-- What follows a value. -/
  | more

/-- Passes over what comes next and all the rest of the containers that are open. -/
def skipFrom : (fuel : Nat) → Awaited → (opened : List Enclosure) → List Char →
    Except Flaw (List Char)
  | 0, _, _, _ => .error .endInValue
  | fuel + 1, .value, opened, cs =>
    let enter (e : Enclosure) (cs : List Char) : Except Flaw (List Char) := do
      match ← e.first cs with
      | .inl cs => skipFrom fuel .part (e :: opened) cs
      | .inr cs => skipFrom fuel .more opened cs
    match cs with
    | '[' :: cs => enter .list cs
    | '\x7b' :: cs => enter .object cs
    | cs => do skipFrom fuel .more opened (← skipScalar cs)
  | fuel + 1, .part, .object :: opened, cs =>
    match cs with
    | '"' :: cs => do
      skipFrom fuel .value (.object :: opened) (← afterColon (← skipString cs))
    | [] => .error .endInObject
    | _ => .error .keyExpected
  | fuel + 1, .part, opened, cs => skipFrom fuel .value opened cs
  | _ + 1, .more, [], cs => .ok cs
  | fuel + 1, .more, e :: opened, cs =>
    match skipBlanks cs with
    | [] => .error e.unclosed
    | ',' :: cs => skipFrom fuel .part (e :: opened) (skipBlanks cs)
    | c :: cs =>
      if c = e.closing then skipFrom fuel .more opened cs else .error e.unseparated

/-- Passes over a value in a text of at most the given size. There are at most three steps for
each character, and three at the end. -/
def skip (size : Nat) (cs : List Char) : Except Flaw (List Char) :=
  skipFrom (3 * size + 3) .value [] cs

end Reader

/-- The deepest nesting that is read. -/
def maxNesting : Nat := 127

/-- The value at the front of a text, as the document has it. -/
def parse? (text : String) : Option Json :=
  (Reader.value text.length maxNesting (Reader.skipBlanks text.toList)).toOption.map (·.1)

end TypeFlow.Json
