/-!
# Text from octets

The characters that octets spell out in UTF-8, up to the first octet that is no
part of a character. Every character has only its shortest form, and surrogates
have none.
-/

namespace TypeFlow.Text

/-- The six bits of an octet that continues a character. -/
def continuation? (b : UInt8) : Option Nat :=
  if 0x80 ≤ b.toNat ∧ b.toNat < 0xC0 then some (b.toNat - 0x80) else none

/-- A character of two octets. -/
def twoOctets? (a b : UInt8) : Option Char := do
  if 0xC2 ≤ a.toNat ∧ a.toNat < 0xE0 then
    return Char.ofNat ((a.toNat - 0xC0) * 64 + (← continuation? b))
  else none

/-- A character of three octets. -/
def threeOctets? (a b c : UInt8) : Option Char := do
  if 0xE0 ≤ a.toNat ∧ a.toNat < 0xF0 then
    let n := ((a.toNat - 0xE0) * 64 + (← continuation? b)) * 64 + (← continuation? c)
    if n < 0x800 ∨ (0xD800 ≤ n ∧ n < 0xE000) then none else return Char.ofNat n
  else none

/-- A character of four octets. -/
def fourOctets? (a b c d : UInt8) : Option Char := do
  if 0xF0 ≤ a.toNat ∧ a.toNat < 0xF5 then
    let n := (((a.toNat - 0xF0) * 64 + (← continuation? b)) * 64 + (← continuation? c)) * 64
      + (← continuation? d)
    if n < 0x10000 ∨ 0x110000 ≤ n then none else return Char.ofNat n
  else none

/-- The characters at the front of the octets. -/
def ofOctets : List UInt8 → List Char
  | [] => []
  | a :: rest =>
    if a.toNat < 0x80 then Char.ofNat a.toNat :: ofOctets rest
    else
      match rest with
      | [] => []
      | b :: rest =>
        match twoOctets? a b with
        | some char => char :: ofOctets rest
        | none =>
          match rest with
          | [] => []
          | c :: rest =>
            match threeOctets? a b c with
            | some char => char :: ofOctets rest
            | none =>
              match rest with
              | [] => []
              | d :: rest =>
                match fourOctets? a b c d with
                | some char => char :: ofOctets rest
                | none => []

end TypeFlow.Text
