import TypeFlow.Json.Input
import TypeFlow.Text.Quoted
import TypeFlow.Text.Utf8
import TypeFlow.Ty.Number

/-!
# Decoding JSON

A decoder turns a value into a value of another type or says where and why it
cannot. Paths lead down to the value that was refused, but not into parts that
were set aside. Values are decoded in the order of the document, so that of
several failures the first one counts.

`Fields` describes the fields of a structure. They are found by name in an
object or by position in a list; missing fields come after all other failures.
An object may have more entries: some structures pass over them, others set
them aside.
-/

namespace TypeFlow

/-- One step of a path. -/
inductive Step where
  /-- To the value of a key. -/
  | key (name : String)
  /-- To an item. -/
  | index (position : Nat)
  /-- To something without a name. -/
  | unknown

/-- The text of a path; names are divided by points. -/
def pathText : List Step → String
  | [] => "."
  | first :: rest =>
    let stepText : Step → String
      | .key name => name
      | .index i => "[" ++ i.repr ++ "]"
      | .unknown => "?"
    let divided : Step → String
      | .index i => stepText (.index i)
      | step => "." ++ stepText step
    stepText first ++ String.join (rest.map divided)

/-- A number of elements in words. -/
def elementsText (count : Nat) : String :=
  if count = 1 then "1 element" else count.repr ++ " elements"

/-- Why a value is refused. -/
inductive Issue where
  /-- It is of another kind. -/
  | wrongKind (found : Json) (expected : String)
  /-- It is of the right kind but out of range. -/
  | wrongValue (found : Json) (expected : String)
  /-- It has too few or too many parts. -/
  | wrongLength (length : Nat) (expected : String)
  | missingField (name : String)
  | repeatedField (name : String)
  /-- A tag names no variant. -/
  | unknownVariant (name : String) (known : List String)
  /-- None of several forms fits. -/
  | noForm (choice : String)
  /-- A text stands for no number. -/
  | noNumber (text : String)
  /-- Bounds make no range. -/
  | bounds (bounds : InvalidBounds)
  /-- The text is no JSON. -/
  | flaw (flaw : Flaw)

namespace Issue

/-- A JSON value in a few words. -/
def describe : Json → String
  | .null => "null"
  | .bool b => "boolean " ++ Text.ticked (if b then "true" else "false")
  | .int n => "integer " ++ Text.ticked n.repr
  | .float v => "floating point " ++ Text.ticked (v.dataText.getD v.text)
  | .string s => "string " ++ Text.quoted s
  | .array _ => "sequence"
  | .object _ => "map"

/-- What is said about a refused value. -/
def message : Issue → String
  | wrongKind found expected => "invalid type: " ++ describe found ++ ", expected " ++ expected
  | wrongValue found expected => "invalid value: " ++ describe found ++ ", expected " ++ expected
  | wrongLength length expected => "invalid length " ++ length.repr ++ ", expected " ++ expected
  | missingField name => "missing field " ++ Text.ticked name
  | repeatedField name => "duplicate field " ++ Text.ticked name
  | unknownVariant name known =>
    "unknown variant " ++ Text.ticked name ++ ", expected one of "
      ++ Text.joined ", " (known.map Text.ticked)
  | noForm choice => "data did not match any variant of untagged enum " ++ choice
  | noNumber text =>
    "expected a number or one of \"inf\", \"-inf\", \"NaN\", found " ++ Text.quoted text
  | bounds e => e.message
  | flaw f => f.message

/-- The issue of a value of the wrong kind. -/
def ofLayer (expected : String) : Layer → Issue
  | .scalar j => wrongKind j expected
  | .items _ _ => wrongKind (.array []) expected
  | .entries _ _ => wrongKind (.object []) expected
  | .flawed f => flaw f

end Issue

/-- A refused value with the path to it. -/
structure DecodeError where
  /-- Steps from the outermost value. -/
  path : List Step
  issue : Issue

namespace DecodeError

/-- A refusal of the value itself. -/
def here (issue : Issue) : DecodeError := ⟨[], issue⟩

/-- The refusal seen from one level further out. -/
def below (step : Step) (e : DecodeError) : DecodeError := ⟨step :: e.path, e.issue⟩

/-- The refusal without its path. -/
def cut (e : DecodeError) : DecodeError := ⟨[], e.issue⟩

/-- What is said about a refusal. -/
def message (e : DecodeError) : String :=
  "at JSON path " ++ pathText e.path ++ " → " ++ e.issue.message

end DecodeError

/-- Turns JSON values into values of a type. -/
abbrev Decoder (α : Type) := Input → Except DecodeError α

namespace Decoder

variable {α β : Type}

/-- Refuses a value. -/
def refuse (issue : Issue) : Except DecodeError α := .error (.here issue)

/-- What was read from a text, unless that has a flaw. -/
def sound (result : Except Flaw α) : Except DecodeError α :=
  result.mapError fun f => .here (.flaw f)

/-- Demands that the parts of a container do not end in a flaw. -/
def ended (flaw : Option Flaw) : Except DecodeError Unit :=
  flaw.elim (.ok ()) fun f => refuse (.flaw f)

/-- Decodes one level further down. -/
def below (step : Step) (result : Except DecodeError α) : Except DecodeError α :=
  result.mapError (·.below step)

/-- Decodes a part that was set aside. -/
def aside (decoder : Decoder α) (j : Json) : Except DecodeError α :=
  (decoder (.value .aside j)).mapError (·.cut)

/-- Applies a function to what was decoded. -/
def map (f : α → β) (decoder : Decoder α) : Decoder β := fun v => (decoder v).map f

/-- Applies a function that may refuse to what was decoded. -/
def refine (f : α → Except Issue β) (decoder : Decoder α) : Decoder β := fun v =>
  (decoder v).bind fun a => (f a).mapError .here

/-- A truth value. -/
def bool : Decoder Bool := fun v =>
  match v.layer with
  | .scalar (.bool b) => .ok b
  | other => refuse (.ofLayer "a boolean" other)

/-- A text. -/
def string : Decoder String := fun v =>
  match v.layer with
  | .scalar (.string s) => .ok s
  | other => refuse (.ofLayer "a string" other)

/-- An integer as a natural number of 32 bits. -/
def idOf (n : Int) : Except Issue Nat :=
  if 0 ≤ n ∧ n < 4294967296 then .ok n.toNat else .error (.wrongValue (.int n) "u32")

/-- A natural number of 32 bits. -/
def id : Decoder Nat := fun v =>
  match v.layer with
  | .scalar (.int n) => (idOf n).mapError .here
  | other => refuse (.ofLayer "u32" other)

/-- A number, written as an integer or as a double. -/
def number : Decoder Written := fun v =>
  match v.layer with
  | .scalar (.int n) => .ok (.num (Num.ofRat n))
  | .scalar (.float w) => .ok w
  | other => refuse (.ofLayer "f64" other)

/-- Null, or a value. -/
def nullable (decoder : Decoder α) : Decoder (Option α) := fun v =>
  match v.layer with
  | .scalar .null => .ok none
  | _ => (decoder v).map some

/-- Items from a position on. -/
def items (decoder : Decoder α) : (position : Nat) → List Input → Except DecodeError (List α)
  | _, [] => .ok []
  | position, v :: rest => do
    let a ← below (.index position) (decoder v)
    return a :: (← items decoder (position + 1) rest)

/-- A list. -/
def list (decoder : Decoder α) : Decoder (List α) := fun v =>
  match v.layer with
  | .items parts flaw => do
    let as ← items decoder 0 parts
    ended flaw
    return as
  | other => refuse (.ofLayer "a sequence" other)

/-- The key of an entry. -/
def nameOf (entry : Entry) : Except DecodeError String := below .unknown (sound entry.key.name)

/-- The value of an entry with a given key. -/
def valueOf (decoder : Decoder α) (name : String) (entry : Entry) : Except DecodeError α := do
  below (.key name) (decoder (← sound entry.value))

/-- Demands that the entries of an object do not end in a flaw. -/
def endedEntries (flaw : Option Flaw) : Except DecodeError Unit := below .unknown (ended flaw)

/-- Entries in order, none with a key seen before. -/
def distinctEntries (decoder : Decoder α) :
    (seen : List String) → List Entry → Except DecodeError (List (String × α))
  | _, [] => .ok []
  | seen, entry :: rest => do
    let name ← nameOf entry
    let a ← valueOf decoder name entry
    if name ∈ seen then refuse (.repeatedField name)
    else return (name, a) :: (← distinctEntries decoder (name :: seen) rest)

/-- An object with distinct keys. -/
def entries (decoder : Decoder α) : Decoder (List (String × α)) := fun v =>
  match v.layer with
  | .entries parts flaw => do
    let as ← distinctEntries decoder [] parts
    endedEntries flaw
    return as
  | other => refuse (.ofLayer "an object" other)

/-- Entries in order, added to those seen before. The key is decoded too. -/
def keyedEntries {κ : Type} [DecidableEq κ] (key : Key → Except DecodeError κ)
    (keyText : κ → String) (decoder : Decoder α) :
    (seen : List (κ × α)) → List Entry → Except DecodeError (List (κ × α))
  | seen, [] => .ok seen
  | seen, entry :: rest => do
    let k ← key entry.key
    let a ← valueOf decoder (keyText k) entry
    keyedEntries key keyText decoder (setEntry k a seen) rest

/-- An object; a repeated key replaces its value. -/
def mapOf {κ : Type} [DecidableEq κ] (key : Key → Except DecodeError κ) (keyText : κ → String)
    (decoder : Decoder α) : Decoder (List (κ × α)) := fun v =>
  match v.layer with
  | .entries parts flaw => do
    let as ← keyedEntries key keyText decoder [] parts
    endedEntries flaw
    return as
  | other => refuse (.ofLayer "a map" other)

/-- An object whose keys are texts. -/
def keyed (decoder : Decoder α) : Decoder (List (String × α)) :=
  mapOf (fun key => below .unknown (sound key.name)) (fun name => name) decoder

/-- The characters in which a key has its number. A key in a text is not read before, so that
its number has no escapes. -/
def keyChars : Key → List Char
  | .written _ cs => cs
  | .known name => name.toList

/-- The flaw of a key that goes on after its number, if it does. -/
def keyFlaw : Key → (rest : List Char) → Option Flaw
  | .written _ _, rest => if rest.head? = some '"' then none else some .quoteExpected
  | .known _, rest => if rest.isEmpty then none else some .numericKeyExpected

/-- A key that is a natural number of 32 bits. -/
def idKey (key : Key) : Except DecodeError Nat :=
  let cs := keyChars key
  if (cs.head?.any fun c => c.isDigit || c = '-') then do
    let (j, rest) ← below .unknown (sound (Json.Reader.number cs))
    match j with
    | .int n =>
      let k ← below (.key n.repr) ((idOf n).mapError .here)
      below (.key n.repr) (ended (keyFlaw key rest))
      return k
    | j => below .unknown (refuse (.wrongKind j "u32"))
  else below .unknown (refuse (.flaw .numericKeyExpected))

/-- An object whose keys are numbers. -/
def numbered (decoder : Decoder α) : Decoder (List (Nat × α)) := mapOf idKey Nat.repr decoder

end Decoder

/-- Why the fields of a structure could not be read. -/
inductive Fault where
  /-- The part at this position of the document is refused. -/
  | refused (position : Nat) (error : DecodeError)
  /-- The field of this name and number is not there. -/
  | absent (name : String) (index : Nat)

/-- The fault that counts: the first refusal in the document, then the first absent field. -/
def Fault.first : Fault → Fault → Fault
  | refused p e, refused q f => if p ≤ q then refused p e else refused q f
  | refused p e, absent _ _ => refused p e
  | absent _ _, refused q f => refused q f
  | absent n i, absent m j => if i ≤ j then absent n i else absent m j

/-- The fields of a structure. -/
structure Fields (α : Type) where
  /-- Their names. -/
  names : List String
  /-- Finds them by name; the number of the first of them is given. -/
  ofEntries : List Entry → (first : Nat) → Except Fault α
  /-- Finds them by position; the position of the first of them is given. -/
  ofItems : List Input → (first : Nat) → Except Fault α

namespace Fields

variable {α β : Type}

/-- How many fields there are. -/
def count (fields : Fields α) : Nat := fields.names.length

/-- Both results, or the fault that counts. -/
def both (f : Except Fault (α → β)) (a : Except Fault α) : Except Fault β :=
  match f, a with
  | .ok f, .ok a => .ok (f a)
  | .ok _, .error e => .error e
  | .error e, .ok _ => .error e
  | .error e, .error e' => .error (e.first e')

/-- Fields one after the other. -/
instance : Applicative Fields where
  pure a := ⟨[], fun _ _ => .ok a, fun _ _ => .ok a⟩
  seq f a :=
    let a := a ()
    { names := f.names ++ a.names
      ofEntries := fun es first =>
        both (f.ofEntries es first) (a.ofEntries es (first + f.count))
      ofItems := fun vs first =>
        both (f.ofItems vs first) (a.ofItems vs (first + f.count)) }

/-- The entries of a name with their positions. -/
def locate (name : String) (entries : List Entry) : List (Nat × Entry) :=
  entries.zipIdx.filterMap fun (entry, position) =>
    if entry.key.name.toOption = some name then some (position, entry) else none

/-- A field, with what stands for it where it is absent. -/
def field (name : String) (default : Option α) (decoder : Decoder α) : Fields α where
  names := [name]
  ofEntries es first :=
    match locate name es with
    | [] => default.elim (.error (.absent name first)) .ok
    | (position, entry) :: others =>
      match Decoder.valueOf decoder name entry, others with
      | .error e, _ => .error (.refused position e)
      | .ok a, [] => .ok a
      | .ok _, (again, _) :: _ => .error (.refused again (.here (.repeatedField name)))
  ofItems vs first :=
    match vs[first]? with
    | none => default.elim (.error (.absent name first)) .ok
    | some v =>
      (Decoder.below (.index first) (decoder v)).mapError (.refused first)

/-- A field that has to be there. -/
def required (name : String) (decoder : Decoder α) : Fields α := field name none decoder

/-- A field with a default. -/
def withDefault (name : String) (default : α) (decoder : Decoder α) : Fields α :=
  field name (some default) decoder

/-- A field that may be absent or null. -/
def optional (name : String) (decoder : Decoder α) : Fields (Option α) :=
  field name (some none) decoder.nullable

/-- What is kept of the entries that are no fields, from a position on. -/
def others (keep : Input → Except Flaw β) (names : List String) (flaw : Option Flaw) :
    (position : Nat) → List Entry → Except Fault (List (String × β))
  | position, [] => ((Decoder.endedEntries flaw).map fun _ => []).mapError (.refused position)
  | position, entry :: rest => do
    let name ← (Decoder.nameOf entry).mapError (.refused position)
    if name ∈ names then others keep names flaw (position + 1) rest
    else
      let kept ← (Decoder.valueOf (fun v => Decoder.sound (keep v)) name entry).mapError
        (.refused position)
      return (name, kept) :: (← others keep names flaw (position + 1) rest)

/-- The error for a fault in an object. -/
def entryError : Fault → DecodeError
  | .refused _ e => e
  | .absent name _ => .here (.missingField name)

/-- The fields of an object, and what is kept of its other entries. -/
def ofObject (keep : Input → Except Flaw β) (fields : Fields α) (parts : List Entry)
    (flaw : Option Flaw) : Except DecodeError (α × List (String × β)) :=
  let rest := others keep fields.names flaw 0 parts
  (both (rest.map fun kept a => (a, kept)) (fields.ofEntries parts 0)).mapError entryError

/-- The error for a fault in a list. -/
def itemError (title : String) (count : Nat) (flaw : Option Flaw) : Fault → DecodeError
  | .refused _ e => e
  | .absent _ index =>
    .here (flaw.elim (.wrongLength index (title ++ " with " ++ elementsText count)) .flaw)

/-- The issue of a list that is too long. -/
def tooLong (length count : Nat) : Input → Issue
  | .text _ _ _ => .flaw .trailing
  | .value .tree _ => .wrongLength length "fewer elements in array"
  | .value .aside _ => .wrongLength length (elementsText count ++ " in sequence")

/-- A structure, written as an object or as a list of its fields. -/
def decoder (title : String) (fields : Fields α) : Decoder α := fun v =>
  match v.layer with
  | .entries parts flaw => (fields.ofObject Input.passOver parts flaw).map (·.1)
  | .items parts flaw => do
    let a ← (fields.ofItems parts 0).mapError (itemError title fields.count flaw)
    if fields.count < parts.length then
      Decoder.refuse (tooLong parts.length fields.count v)
    else
      Decoder.ended flaw
      return a
  | other => Decoder.refuse (.ofLayer title other)

end Fields

/-- What follows the tag of a variant. -/
inductive Content (α : Type) where
  /-- Nothing that matters. -/
  | nothing (value : α)
  /-- Fields; the title names the variant in messages. -/
  | fields (title : String) (fields : Fields α)

/-- One of the forms of a tagged value. -/
structure Variant (α : Type) where
  name : String
  /-- What follows the tag. -/
  content : Content α

namespace Decoder

variable {α : Type}

/-- The content of a variant without its tag. -/
def content : Content α → Decoder α
  | .nothing a => fun v =>
    match v.layer with
    | .items (_ :: parts) _ =>
      refuse (.wrongLength (parts.length + 1) (elementsText 0 ++ " in sequence"))
    | _ => .ok a
  | .fields title fields => fields.decoder title

/-- The variant of a name. -/
def variantOf (variants : List (Variant α)) (name : String) : Except DecodeError (Variant α) :=
  match variants.find? fun v => v.name = name with
  | some v => .ok v
  | none => refuse (.unknownVariant name (variants.map (·.name)))

/-- The variant of a number. -/
def variantAt (variants : List (Variant α)) (n : Int) : Except DecodeError (Variant α) :=
  if n < 0 then refuse (.wrongKind (.int n) "variant identifier")
  else
    match variants[n.toNat]? with
    | some v => .ok v
    | none => refuse (.wrongValue (.int n) ("variant index 0 <= i < " ++ variants.length.repr))

/-- The variant that a tag names. In a part that was set aside, numbers are tags too. -/
def tag (variants : List (Variant α)) : Decoder (Variant α)
  | .value .aside (.int n) => variantAt variants n
  | v =>
    match v.layer with
    | .scalar (.string name) => variantOf variants name
    | other => refuse (.ofLayer "variant identifier" other)

/-- A tagged value: an object with the tag among its entries, or a list that
starts with the tag. All that is not the tag is set aside. -/
def tagged (key title : String) (variants : List (Variant α)) : Decoder α := fun v =>
  match v.layer with
  | .entries parts flaw => do
    let (variant, rest) ← (Fields.required key (tag variants)).ofObject Input.whole parts flaw
    aside (content variant.content) (.object rest)
  | .items [] flaw => do
    ended flaw
    refuse (.missingField key)
  | .items (first :: parts) flaw => do
    let variant ← below (.index 0) (tag variants first)
    let rest ← items (fun v => sound v.whole) 1 parts
    ended flaw
    aside (content variant.content) (.array rest)
  | other => refuse (.ofLayer ("internally tagged enum " ++ title) other)

/-- The first of several forms that fits. -/
def firstOf (title : String) (forms : List (Decoder α)) : Decoder α := fun v => do
  let j ← sound v.whole
  match forms.findSome? fun form => (form (.value .aside j)).toOption with
  | some a => .ok a
  | none => refuse (.noForm title)

end Decoder

/-- Why a document cannot be decoded. -/
structure ParseError where
  error : DecodeError
  /-- Whether the document begins with a JSON value at all. -/
  isJson : Bool

namespace ParseError

/-- What is said about the failure. -/
def message (e : ParseError) : String := e.error.message

/-- What is said about a failure to decode; nothing about text that is no JSON. -/
def message? (e : ParseError) : Option String := if e.isJson then some e.message else none

end ParseError

namespace Decoder

variable {α : Type}

/-- Decodes the value at the front of a text. -/
def parse (decoder : Decoder α) (text : String) : Except ParseError α :=
  (decoder (.ofText text)).mapError fun e => ⟨e, (Json.parse? text).isSome⟩

/-- Decodes the value at the front of some octets. -/
def parseOctets (decoder : Decoder α) (octets : List UInt8) : Except ParseError α :=
  decoder.parse (String.ofList (Text.ofOctets octets))

/-- Decodes a tree of values. -/
def ofTree (decoder : Decoder α) (j : Json) : Except ParseError α :=
  (decoder (.value .tree j)).mapError fun e => ⟨e, true⟩

end Decoder
end TypeFlow
