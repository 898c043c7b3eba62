import TypeFlow.Algebra.Basic
import TypeFlow.Entries
import TypeFlow.Expr.Basic
import TypeFlow.Scope.Similarity

/-!
# Scopes

A scope is a list of frames, the innermost one first. Each frame gives meaning
to some names; a name means what the first frame that has it says. The part of
the scope from that frame outwards is the owner of the definition, in which its
expressions are evaluated.
-/

namespace TypeFlow

/-- The meaning of a name. -/
inductive Definition where
  /-- A struct with its fields. -/
  | struct (fields : List (String × Expr))
  /-- Another name for an expression. -/
  | alias (type : Expr)
  | variable (value : Ty)
  /-- A function that is evaluated with types for its parameters. -/
  | function (parameters : List (String × Expr)) (body : Expr)
  /-- A function that is computed; with further arguments where they have a type. -/
  | builtin (parameters : List (String × Ty)) (varargs : Option Ty) (run : List Ty → Checked Ty)
  /-- A type that is known once it is set, and until then only by its bound. -/
  | parameter (bound : Ty) (value : Option Ty)

/-- The names of one level. -/
structure Frame where
  name : String
  entries : List (String × Definition)

/-- Frames from the innermost outwards. -/
abbrev Scope := List Frame

/-- A name that means nothing, with similar names that do. -/
structure UnknownName where
  name : String
  /-- Similar names, the best one first. -/
  suggestions : List String
  deriving DecidableEq

/-- What is said about a name that means nothing. -/
def UnknownName.message (e : UnknownName) : String :=
  let hint := match e.suggestions with
    | [] => ""
    | names => " (did you mean " ++ Text.joined ", " (names.map Text.ticked) ++ "?)"
  "unknown name " ++ Text.ticked e.name ++ hint

/-- The definition of a name in a frame. -/
def Frame.get? (frame : Frame) (name : String) : Option Definition := valueAt? name frame.entries

namespace Scope

/-- Name of the innermost frame. -/
def name? : Scope → Option String
  | [] => none
  | frame :: _ => some frame.name

/-- The definition of a name in the innermost frame. -/
def local? : Scope → String → Option Definition
  | [], _ => none
  | frame :: _, name => frame.get? name

/-- The definition of a name with its owner. -/
def lookup : Scope → String → Option (Scope × Definition)
  | [], _ => none
  | frame :: outer, name =>
    match frame.get? name with
    | some definition => some (frame :: outer, definition)
    | none => lookup outer name

/-- Adds those names that are not there yet. -/
def addNames : List String → List String → List String
  | seen, [] => seen
  | seen, name :: rest => addNames (if name ∈ seen then seen else seen ++ [name]) rest

/-- Every name that means something, the innermost ones first. -/
def visibleNames (scope : Scope) : List String :=
  addNames [] (scope.flatMap fun frame => frame.entries.map (·.1))

/-- At most this many names are offered. -/
def maxSuggestions : Nat := 3

/-- Better scores first, then names in their order. -/
def betterFirst (a b : Num × String) : Bool :=
  match a.1.compare b.1 with
  | .gt => true
  | .lt => false
  | .eq => compare a.2 b.2 != .gt

/-- Names similar to a given one, the best one first. -/
def suggestions (scope : Scope) (name : String) : List String :=
  let scored := scope.visibleNames.map fun other => (Similarity.score name other, other)
  let similar := scored.filter fun s => decide (Similarity.threshold < s.1)
  ((similar.mergeSort betterFirst).take maxSuggestions).map (·.2)

/-- The definition of a name with its owner; similar names where there is none. -/
def resolve (scope : Scope) (name : String) : Except UnknownName (Scope × Definition) :=
  match scope.lookup name with
  | some found => .ok found
  | none => .error ⟨name, scope.suggestions name⟩

/-- How many definitions there are. -/
def size : Scope → Nat
  | [] => 0
  | frame :: outer => frame.entries.length + size outer

end Scope
end TypeFlow
