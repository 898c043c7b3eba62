import TypeFlow.Json.Basic
import TypeFlow.Text.Quoted

/-!
# JSON as text

The compact form has no blanks. The spread form has every item and entry on a
line of its own, indented by two blanks for each level; empty containers stay
together.
-/

namespace TypeFlow.Json

/-- One character of a JSON string. -/
def stringChar (c : Char) : String :=
  if c = '"' then "\\\""
  else if c = '\\' then "\\\\"
  else if c = '\n' then "\\n"
  else if c = '\r' then "\\r"
  else if c = '\t' then "\\t"
  else if c.toNat = 8 then "\\b"
  else if c.toNat = 12 then "\\f"
  else if c.toNat < 16 then "\\u000" ++ Text.hexadecimal c.toNat
  else if c.toNat < 32 then "\\u00" ++ Text.hexadecimal c.toNat
  else String.singleton c

/-- A JSON string. -/
def stringText (s : String) : String :=
  "\"" ++ String.join (s.toList.map stringChar) ++ "\""

/-- A value without parts. Doubles that are not finite have no text but null. -/
def scalarText : Json → String
  | .bool true => "true"
  | .bool false => "false"
  | .int n => n.repr
  | .float v => v.dataText.getD "null"
  | .string s => stringText s
  | _ => "null"

mutual
/-- The compact form. -/
def text : Json → String
  | .array items => "[" ++ Text.joined "," (textItems items) ++ "]"
  | .object entries => "\x7b" ++ Text.joined "," (textEntries entries) ++ "\x7d"
  | .null => "null"
  | .bool b => scalarText (.bool b)
  | .int n => scalarText (.int n)
  | .float v => scalarText (.float v)
  | .string s => scalarText (.string s)
/-- The compact forms of items. -/
def textItems : List Json → List String
  | [] => []
  | j :: rest => text j :: textItems rest
/-- The compact forms of entries. -/
def textEntries : List (String × Json) → List String
  | [] => []
  | (key, j) :: rest => (stringText key ++ ":" ++ text j) :: textEntries rest
end

/-- A line break and the indentation of a level. -/
def lineBreak (level : Nat) : String :=
  "\n" ++ String.ofList (List.replicate (2 * level) ' ')

/-- Parts of a container on lines of their own. -/
def spreadParts (opening closing : String) (level : Nat) : List String → String
  | [] => opening ++ closing
  | parts =>
    opening ++ lineBreak (level + 1) ++ Text.joined ("," ++ lineBreak (level + 1)) parts
      ++ lineBreak level ++ closing

mutual
/-- The spread form at a level of indentation. -/
def spreadAt (level : Nat) : Json → String
  | .array items => spreadParts "[" "]" level (spreadItems (level + 1) items)
  | .object entries => spreadParts "\x7b" "\x7d" level (spreadEntries (level + 1) entries)
  | .null => "null"
  | .bool b => scalarText (.bool b)
  | .int n => scalarText (.int n)
  | .float v => scalarText (.float v)
  | .string s => scalarText (.string s)
/-- The spread forms of items. -/
def spreadItems (level : Nat) : List Json → List String
  | [] => []
  | j :: rest => spreadAt level j :: spreadItems level rest
/-- The spread forms of entries. -/
def spreadEntries (level : Nat) : List (String × Json) → List String
  | [] => []
  | (key, j) :: rest => (stringText key ++ ": " ++ spreadAt level j) :: spreadEntries level rest
end

/-- The spread form. -/
def spread (j : Json) : String := spreadAt 0 j

end TypeFlow.Json
