/-!
# Patterns of paths

In a pattern `?` stands for any character, `*` for any characters, brackets for
one character in or out of some ranges, and `**` as a whole component for any
folders.
-/

namespace TypeFlow

/-- Some characters. -/
inductive CharRange where
  /-- One character. -/
  | single (c : Char)
  /-- All characters between two. -/
  | between (first last : Char)
  deriving DecidableEq

namespace CharRange

/-- Whether a character is in a range. -/
def contains : CharRange → Char → Bool
  | single a, c => a = c
  | between first last, c => first ≤ c && c ≤ last

/-- The ranges between two brackets. -/
def list : List Char → List CharRange
  | a :: '-' :: b :: rest => between a b :: list rest
  | a :: rest => single a :: list rest
  | [] => []

end CharRange

/-- A part of a pattern. -/
inductive PatternPart where
  | char (c : Char)
  | anyChar
  | anySequence
  | anyFolders
  /-- A character in some ranges, or out of all of them. -/
  | charIn (outside : Bool) (ranges : List CharRange)
  deriving DecidableEq

/-- The character that a part is. -/
def PatternPart.char? : PatternPart → Option Char
  | char c => some c
  | _ => none

/-- What is wrong with a pattern. -/
inductive PatternProblem where
  /-- Three or more stars in a row. -/
  | stars
  /-- Two stars that are no component. -/
  | folders
  /-- A bracket that is not closed. -/
  | range
  deriving DecidableEq

/-- What is wrong with a pattern, and where. -/
structure PatternError where
  /-- Characters before it. -/
  position : Nat
  problem : PatternProblem
  deriving DecidableEq

/-- What is said about a wrong pattern. -/
def PatternError.message (e : PatternError) : String :=
  "Pattern syntax error near position " ++ e.position.repr ++ ": " ++
    match e.problem with
    | .stars => "wildcards are either regular `*` or recursive `**`"
    | .folders => "recursive wildcards must form a single path component"
    | .range => "invalid range pattern"

/-- A pattern. -/
abbrev Pattern := List PatternPart

namespace Pattern

/-- The ranges after an opening bracket, and what follows the closing one. The first character
is in the ranges even if it is a closing bracket. -/
def brackets (cs : List Char) : Option (PatternPart × List Char) :=
  let close (outside : Bool) (first : Char) (rest : List Char) : Option (PatternPart × List Char) :=
    match rest.span (· ≠ ']') with
    | (inner, _ :: after) => some (.charIn outside (CharRange.list (first :: inner)), after)
    | (_, []) => none
  match cs with
  | '!' :: first :: rest => close true first rest
  | '!' :: [] => none
  | first :: rest => close false first rest
  | [] => none

/-- The parts of a pattern from a position on, after some character. Each step takes a character
or more, so the number of characters is enough fuel. -/
def partsFrom : (fuel position : Nat) → (previous : Option Char) → List Char →
    Except PatternError Pattern
  | _, _, _, [] => .ok []
  | 0, _, _, _ => .ok []
  | fuel + 1, position, previous, c :: cs =>
    match c with
    | '?' => do return .anyChar :: (← partsFrom fuel (position + 1) (some c) cs)
    | '*' =>
      match cs with
      | '*' :: '*' :: _ => .error ⟨position + 2, .stars⟩
      | '*' :: rest =>
        if previous.all (· = '/') then
          match rest with
          | [] => .ok [.anyFolders]
          | '/' :: after => do
            return .anyFolders :: (← partsFrom fuel (position + 3) (some '/') after)
          | _ => .error ⟨position + 2, .folders⟩
        else .error ⟨position - 1, .folders⟩
      | _ => do return .anySequence :: (← partsFrom fuel (position + 1) (some c) cs)
    | '[' =>
      match brackets cs with
      | none => .error ⟨position, .range⟩
      | some (part, after) => do
        let width := 1 + cs.length - after.length
        return part :: (← partsFrom fuel (position + width) (some ']') after)
    | c => do return .char c :: (← partsFrom fuel (position + 1) (some c) cs)

/-- The pattern that a text writes. -/
def ofString (text : String) : Except PatternError Pattern :=
  partsFrom text.toList.length 0 none text.toList

/-- A list and all that is left of it after its first items. -/
def suffixes {α : Type} : List α → List (List α)
  | [] => [[]]
  | a :: rest => (a :: rest) :: suffixes rest

/-- Whether a pattern stands for some characters. -/
def accepts : Pattern → List Char → Bool
  | [], cs => cs.isEmpty
  | .anySequence :: rest, cs | .anyFolders :: rest, cs => (suffixes cs).any (accepts rest)
  | .char a :: rest, c :: cs => a = c && accepts rest cs
  | .anyChar :: rest, _ :: cs => accepts rest cs
  | .charIn outside ranges :: rest, c :: cs =>
    (ranges.any (·.contains c) != outside) && accepts rest cs
  | _ :: _, [] => false

/-- Whether a pattern stands for a name. -/
def acceptsName (p : Pattern) (name : String) : Bool := p.accepts name.toList

/-- The only text that a pattern stands for, if all its parts are characters. -/
def literal? (p : Pattern) : Option String := (p.mapM PatternPart.char?).map String.ofList

/-- Whether a pattern stands for any folders. -/
def isAnyFolders (p : Pattern) : Bool := p.contains .anyFolders

/-- Whether a text is meant as a pattern. -/
def isMeant (text : String) : Bool :=
  text.toList.any fun c => c = '*' || c = '?' || c = '[' || c = '\x7b'

end Pattern
end TypeFlow
