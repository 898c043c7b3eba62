import TypeFlow.Json.Reader

/-!
# Values to be decoded

What is decoded is a value in memory or the front of a text. Either way it has
an outermost layer: a value without parts, or its parts in order, which are
values to be decoded themselves. The parts of a text are found by passing over
them, so that each of them may be read or left alone. Where the text goes
wrong the parts end, and the flaw comes after them.
-/

namespace TypeFlow

/-- Where a value in memory comes from. -/
inductive Place where
  /-- A tree of values with distinct keys. -/
  | tree
  /-- A part that was set aside while the choice between several forms was still open. -/
  | aside
  deriving DecidableEq

/-- A value to be decoded. -/
inductive Input where
  /-- The front of a text of at most some size, in which containers are nested at most
  `levels` deep. -/
  | text (size levels : Nat) (cs : List Char)
  /-- A value in memory. -/
  | value (place : Place) (j : Json)

/-- A key of an object. -/
inductive Key where
  /-- A key in a text, with its characters and all the rest of the text. -/
  | written (name : Except Flaw String) (cs : List Char)
  /-- A key in memory. -/
  | known (name : String)

namespace Key

/-- The key itself. -/
def name : Key → Except Flaw String
  | written name _ => name
  | known name => .ok name

/-- The key whose characters are at the front of a text. -/
def ofText (cs : List Char) : Key := written ((Json.Reader.string cs).map (·.1)) cs

end Key

/-- A key with its value; a text can go wrong between them. -/
structure Entry where
  key : Key
  value : Except Flaw Input

/-- The outermost layer of a value. The parts of a text can end in a flaw. -/
inductive Layer where
  /-- A value without parts. -/
  | scalar (j : Json)
  /-- Items of a list. -/
  | items (parts : List Input) (flaw : Option Flaw)
  /-- Entries of an object. -/
  | entries (parts : List Entry) (flaw : Option Flaw)
  /-- No value. -/
  | flawed (flaw : Flaw)

namespace Input

open Json.Reader

/-- Passes over a part of a container. -/
def skipPart (size : Nat) : Enclosure → List Char → Except Flaw (List Char)
  | .list, cs => skip size cs
  | .object, '"' :: cs => do skip size (← afterColon (← skipString cs))
  | .object, _ => .error .keyExpected

/-- Whether a part of a container can begin so. -/
def startsPart : Enclosure → List Char → Bool
  | .list, _ => true
  | .object, cs => cs.head? = some '"'

/-- Fronts of the parts of a container from one of them on, collected in reverse. -/
def partsFrom (size : Nat) (e : Enclosure) : (fuel : Nat) → (seen : List (List Char)) → List Char →
    List (List Char) × Option Flaw
  | 0, seen, _ => (seen.reverse, some e.unclosed)
  | fuel + 1, seen, cs =>
    if startsPart e cs then
      match skipPart size e cs with
      | .error flaw => ((cs :: seen).reverse, some flaw)
      | .ok rest =>
        match e.next rest with
        | .error flaw => ((cs :: seen).reverse, some flaw)
        | .ok (.inl next) => partsFrom size e fuel (cs :: seen) next
        | .ok (.inr _) => ((cs :: seen).reverse, none)
    else (seen.reverse, some .keyExpected)

/-- Fronts of the parts of a container after its opening bracket. -/
def parts (size : Nat) (e : Enclosure) (cs : List Char) : List (List Char) × Option Flaw :=
  match e.first cs with
  | .error flaw => ([], some flaw)
  | .ok (.inl cs) => partsFrom size e size [] cs
  | .ok (.inr _) => ([], none)

/-- The entry at the front of a text. -/
def entryOf (size levels : Nat) (cs : List Char) : Entry where
  key := .ofText cs.tail
  value := do return .text size levels (← afterColon (← skipString cs.tail))

/-- The outermost layer of the value at the front of a text. -/
def layerOfText (size : Nat) : (levels : Nat) → List Char → Layer
  | 0, '[' :: _ | 0, '\x7b' :: _ => .flawed .tooDeep
  | levels + 1, '[' :: cs =>
    let (fronts, flaw) := parts size .list cs
    .items (fronts.map (.text size levels)) flaw
  | levels + 1, '\x7b' :: cs =>
    let (fronts, flaw) := parts size .object cs
    .entries (fronts.map (entryOf size levels)) flaw
  | _, cs =>
    match scalar cs with
    | .ok (j, _) => .scalar j
    | .error flaw => .flawed flaw

/-- The outermost layer of a value. -/
def layer : Input → Layer
  | text size levels cs => layerOfText size levels cs
  | value place (.array js) => .items (js.map (.value place)) none
  | value place (.object es) =>
    .entries (es.map fun (key, j) => ⟨.known key, .ok (.value place j)⟩) none
  | value _ j => .scalar j

/-- The whole value, read to its end. -/
def whole : Input → Except Flaw Json
  | text size levels cs => (Json.Reader.value size levels cs).map (·.1)
  | value _ j => .ok j

/-- Passes over the value. -/
def passOver : Input → Except Flaw Unit
  | text size _ cs => (skip size cs).map fun _ => ()
  | value _ _ => .ok ()

/-- A bound for the nesting of the value. -/
def depth : Input → Nat
  | text _ levels _ => levels
  | value _ j => j.depth

/-- The value at the front of a text. -/
def ofText (s : String) : Input := text s.length Json.maxNesting (skipBlanks s.toList)

end Input
end TypeFlow
