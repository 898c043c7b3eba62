import TypeFlow.Num.Basic

/-!
# Similar names

Names are similar when they share many pairs of neighbouring characters, upper
and lower case being the same. The score is twice the product of two ratios by
their sum: the shared pairs by the pairs of either name.
-/

namespace TypeFlow.Similarity

/-- A character in lower case. Names in a scope are ASCII, so only characters whose
lower case begins with an ASCII letter matter: besides the letters themselves
these are the Kelvin sign and the capital I with a dot, which becomes two. -/
def lower (c : Char) : List Char :=
  if c.toNat = 0x212A then ['k']
  else if c.toNat = 0x130 then ['i', Char.ofNat 0x307]
  else [c.toLower]

/-- Pairs of neighbours. -/
def pairs {α : Type} : List α → List (α × α)
  | a :: b :: rest => (a, b) :: pairs (b :: rest)
  | _ => []

/-- Pairs of neighbouring characters in lower case. -/
def bigrams (name : String) : List (Char × Char) := pairs (name.toList.flatMap lower)

/-- How many items two lists share, repetitions counted. -/
def shared {α : Type} [DecidableEq α] : List α → List α → Nat
  | [], _ => 0
  | x :: xs, ys => if x ∈ ys then shared xs (ys.erase x) + 1 else shared xs ys

/-- Whether two names differ in the case of ASCII letters only. -/
def sameLetters (a b : String) : Bool :=
  a.toList.map Char.toLower = b.toList.map Char.toLower

/-- How similar two names are, from 0 to 1. Names without pairs are compared whole. -/
def score (a b : String) : Num :=
  let xs := bigrams a
  let ys := bigrams b
  if xs.isEmpty || ys.isEmpty then (if sameLetters a b then 1 else 0)
  else
    let common := shared xs ys
    if common = 0 then 0
    else
      let first := Num.div (.ofInt common) (.ofInt xs.length)
      let second := Num.div (.ofInt common) (.ofInt ys.length)
      Num.div (Num.mul (Num.mul 2 first) second) (Num.add first second)

/-- The score above which a name is offered instead of another. -/
def threshold : Num := .ofRat (1 / 5)

end TypeFlow.Similarity
