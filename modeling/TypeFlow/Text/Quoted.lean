import TypeFlow.Text.Glyphless

/-!
# Quoted text

A text between double quotes. Quotes and backslashes are preceded by a
backslash, line breaks, tabs and the null character have a letter each, and
characters without a glyph are written as their number in hexadecimal.
Everything else stands for itself.
-/

namespace TypeFlow.Text

/-- A number in hexadecimal, in lower case and without leading zeros. -/
def hexadecimal (n : Nat) : String :=
  String.ofList (Nat.toDigits 16 n)

/-- One character of a quoted text. -/
def quotedChar (c : Char) : String :=
  if c = '"' then "\\\""
  else if c = '\\' then "\\\\"
  else if c = '\n' then "\\n"
  else if c = '\r' then "\\r"
  else if c = '\t' then "\\t"
  else if c.toNat = 0 then "\\0"
  else if isGlyphless c then "\\u\x7b" ++ hexadecimal c.toNat ++ "\x7d"
  else String.singleton c

/-- A text between quotes. -/
def quoted (s : String) : String :=
  "\"" ++ String.join (s.toList.map quotedChar) ++ "\""

/-- A name between backticks, as messages show it. -/
def ticked (s : String) : String :=
  "`" ++ s ++ "`"

/-- Items with a separator between neighbours. -/
def joined (separator : String) : List String → String
  | [] => ""
  | [s] => s
  | s :: rest => s ++ separator ++ joined separator rest

end TypeFlow.Text
