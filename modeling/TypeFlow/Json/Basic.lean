import TypeFlow.Num.Decimal
import TypeFlow.Entries

/-!
# JSON values

Objects keep their entries in the order of the document, repeated keys
included; `Json.distinct` is the view in which a repeated key has its last
value at its first place. Numbers without fraction and exponent that fit into
64 bits are integers, all others are doubles.
-/

namespace TypeFlow

/-- A JSON value. -/
inductive Json where
  | null
  | bool (value : Bool)
  /-- An integer of at most 64 bits. -/
  | int (value : Int)
  | float (value : Written)
  | string (value : String)
  | array (items : List Json)
  /-- Keys with values, in order. -/
  | object (entries : List (String × Json))

namespace Json

instance : Inhabited Json := ⟨null⟩

mutual
/-- How deep arrays and objects are nested. -/
def depth : Json → Nat
  | .array items => depthItems items + 1
  | .object entries => depthEntries entries + 1
  | _ => 0
/-- `depth` of the deepest item. -/
def depthItems : List Json → Nat
  | [] => 0
  | j :: rest => max (depth j) (depthItems rest)
/-- `depth` of the deepest entry. -/
def depthEntries : List (String × Json) → Nat
  | [] => 0
  | (_, j) :: rest => max (depth j) (depthEntries rest)
end

mutual
/-- The value with one entry for each key. -/
def distinct : Json → Json
  | .array items => .array (distinctItems items)
  | .object entries => .object (distinctEntries entries [])
  | j => j
/-- `distinct` on items. -/
def distinctItems : List Json → List Json
  | [] => []
  | j :: rest => distinct j :: distinctItems rest
/-- Adds the entries one by one to those seen before. -/
def distinctEntries : List (String × Json) → List (String × Json) → List (String × Json)
  | [], seen => seen
  | (key, j) :: rest, seen => distinctEntries rest (setEntry key (distinct j) seen)
end

/-- The value of a key of an object. -/
def get? (key : String) : Json → Option Json
  | object entries => valueAt? key entries
  | _ => none

end Json
end TypeFlow
