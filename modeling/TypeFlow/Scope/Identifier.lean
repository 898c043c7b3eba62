/-!
# Identifiers

An identifier is one or more segments with a double colon between neighbours. A
segment is an ASCII letter or an underscore, followed by letters, digits and
underscores.
-/

namespace TypeFlow.Identifier

/-- The characters that a segment may start with. -/
def isStart (c : Char) : Bool := c.isAlpha || c = '_'

/-- The characters that a segment may go on with. -/
def isPart (c : Char) : Bool := isStart c || c.isDigit

mutual
/-- Whether the characters spell an identifier. -/
def spells : List Char → Bool
  | [] => false
  | c :: cs => isStart c && continues cs
/-- Whether the characters can follow the start of a segment. -/
def continues : List Char → Bool
  | [] => true
  | ':' :: ':' :: cs => spells cs
  | c :: cs => isPart c && continues cs
end

end TypeFlow.Identifier

namespace TypeFlow

/-- Whether a name is an identifier. -/
def isIdentifier (name : String) : Bool := Identifier.spells name.toList

end TypeFlow
