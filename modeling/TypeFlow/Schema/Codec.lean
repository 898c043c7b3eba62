import TypeFlow.Schema.Basic
import TypeFlow.Expr.Codec

/-!
# Schemas as JSON

Absent fields take their defaults when a schema is decoded. Encoding writes
every field but the options that are not set, so that decoding gives the same
schema again.
-/

namespace TypeFlow

/-- An entry that is left out when there is no value. -/
def entryOf {α : Type} (key : String) (encode : α → Json) (value : Option α) :
    List (String × Json) :=
  (value.map fun a => (key, encode a)).toList

/-- A number as an integer. -/
def encodeId (id : Nat) : Json := .int id

namespace Decoder

variable {α : Type}

/-- One of several words by its name. -/
def wordOf (words : List (String × α)) (name : String) : Except DecodeError α :=
  match valueAt? name words with
  | some a => .ok a
  | none => refuse (.unknownVariant name (words.map (·.1)))

/-- A value that says nothing. -/
def unit : Decoder Unit := fun v =>
  match v.layer with
  | .scalar .null => .ok ()
  | other => refuse (.ofLayer "unit" other)

/-- A word that is the key of an entry. -/
def wordEntry (words : List (String × α)) (entry : Entry) : Except DecodeError α := do
  let name ← sound entry.key.name
  let a ← wordOf words name
  valueOf unit name entry
  return a

/-- The issue of what is written where a word should be. -/
def notWord : Input → Layer → Issue
  | _, .flawed flaw => .flaw flaw
  | .text _ _ _, _ => .flaw .valueExpected
  | .value _ _, .entries _ _ => .wrongValue (.object []) "map with a single key"
  | .value _ _, other => .ofLayer "string or map" other

/-- One of several words, written as a string or as an object with the word for
its only key and no value. -/
def word (words : List (String × α)) : Decoder α := fun v =>
  match v.layer with
  | .scalar (.string name) => wordOf words name
  | .entries [entry] flaw => do
    let a ← wordEntry words entry
    ended flaw
    return a
  | .entries (entry :: more) flaw => do
    match v with
    | .text _ _ _ => let _ ← wordEntry words entry
    | .value _ _ => pure ()
    refuse (notWord v (.entries (entry :: more) flaw))
  | other => refuse (notWord v other)

end Decoder

namespace Literal

/-- The encoding of a value. -/
def encode : Literal → Json
  | number w => .float w
  | string s => .string s

/-- Decodes a value. -/
def decoder : Decoder Literal :=
  .firstOf "InputValue" [Decoder.number.map number, Decoder.string.map string]

end Literal

namespace NodeKind

/-- The roles by name. -/
def names : List (String × NodeKind) :=
  [("regular", regular), ("generator", generator), ("collector", collector),
    ("transformer", transformer)]

/-- The encoding of a role. -/
def encode : NodeKind → Json
  | regular => .string "regular"
  | generator => .string "generator"
  | collector => .string "collector"
  | transformer => .string "transformer"

/-- Decodes a role. -/
def decoder : Decoder NodeKind := .word names

end NodeKind

namespace DropdownOption

/-- The encoding of a choice. -/
def encode (o : DropdownOption) : Json :=
  .object (("value", o.value.encode) :: entryOf "label" .string o.label
    ++ entryOf "type" Expr.encode o.type)

/-- Decodes a choice. -/
def decoder : Decoder DropdownOption :=
  Fields.decoder "struct DropdownOption" <|
    DropdownOption.mk <$> .required "value" Literal.decoder <*> .optional "label" .string
      <*> .optional "type" Expr.decoder

end DropdownOption

namespace InputKind

/-- The encoding of a kind of input. -/
def encode : InputKind → Json
  | generic => Expr.encodeAs "generic" []
  | number => Expr.encodeAs "number" []
  | text => Expr.encodeAs "text" []
  | dropdown options =>
    Expr.encodeAs "dropdown" [("options", .array (options.map DropdownOption.encode))]

/-- Decodes a kind of input. -/
def decoder : Decoder InputKind :=
  .tagged "type" "InputKind" [⟨"generic", .nothing generic⟩, ⟨"number", .nothing number⟩,
    ⟨"text", .nothing text⟩,
    ⟨"dropdown", .fields "struct variant InputKind::Dropdown" <|
      dropdown <$> .required "options" (.list DropdownOption.decoder)⟩]

end InputKind

namespace InputSchema

/-- The encoding of an input. -/
def encode (i : InputSchema) : Json :=
  .object ([("id", encodeId i.id), ("label", .string i.label), ("type", i.type.encode),
    ("kind", i.kind.encode), ("optional", .bool i.optional), ("hasHandle", .bool i.hasHandle),
    ("nullable", .bool i.nullable)] ++ entryOf "fusedOutput" encodeId i.fusedOutput)

/-- Decodes an input. -/
def decoder : Decoder InputSchema :=
  Fields.decoder "struct InputSchema" <|
    InputSchema.mk <$> .required "id" .id <*> .required "label" .string
      <*> .required "type" Expr.decoder <*> .withDefault "kind" .generic InputKind.decoder
      <*> .withDefault "optional" false .bool <*> .withDefault "hasHandle" true .bool
      <*> .withDefault "nullable" false .bool <*> .optional "fusedOutput" .id

end InputSchema

namespace PassthroughSource

/-- The encoding of a source. -/
def encode : PassthroughSource → Json
  | input id => encodeId id
  | auto => .string "auto"
  | none => .string "none"

/-- Decodes a source. -/
def decoder : Decoder PassthroughSource :=
  .firstOf "PassthroughSource"
    [Decoder.id.map input, Decoder.word [("auto", auto), ("none", none)]]

end PassthroughSource

namespace OutputSchema

/-- The encoding of an output. -/
def encode (o : OutputSchema) : Json :=
  .object ([("id", encodeId o.id), ("label", .string o.label), ("type", o.type.encode),
    ("hasHandle", .bool o.hasHandle)] ++
    entryOf "passthrough" PassthroughSource.encode o.passthrough)

/-- Decodes an output. -/
def decoder : Decoder OutputSchema :=
  Fields.decoder "struct OutputSchema" <|
    OutputSchema.mk <$> .required "id" .id <*> .required "label" .string
      <*> .required "type" Expr.decoder <*> .withDefault "hasHandle" true .bool
      <*> .optional "passthrough" PassthroughSource.decoder

end OutputSchema

namespace Condition

mutual
/-- The encoding of a condition. -/
def encode : Condition → Json
  | .and items => Expr.encodeAs "and" [("items", .array (encodeItems items))]
  | .or items => Expr.encodeAs "or" [("items", .array (encodeItems items))]
  | .not condition => Expr.encodeAs "not" [("condition", encode condition)]
  | .oneOf input values =>
    Expr.encodeAs "enum" [("input", encodeId input), ("values", .array (values.map Literal.encode))]
  | .hasType input condition ifNotConnected =>
    Expr.encodeAs "type" [("input", encodeId input), ("condition", condition.encode),
      ("ifNotConnected", .bool ifNotConnected)]
/-- The encodings of conditions. -/
def encodeItems : List Condition → List Json
  | [] => []
  | c :: rest => encode c :: encodeItems rest
end

/-- One level of decoding, given the decoder of the parts. -/
def decoderOver (part : Decoder Condition) : Decoder Condition :=
  .tagged "type" "Condition" [
    ⟨"and", .fields "struct variant Condition::And" <| .and <$> .required "items" (.list part)⟩,
    ⟨"or", .fields "struct variant Condition::Or" <| .or <$> .required "items" (.list part)⟩,
    ⟨"not", .fields "struct variant Condition::Not" <| .not <$> .required "condition" part⟩,
    ⟨"enum", .fields "struct variant Condition::Enum" <|
      .oneOf <$> .required "input" .id <*> .required "values" (.list Literal.decoder)⟩,
    ⟨"type", .fields "struct variant Condition::Type" <|
      .hasType <$> .required "input" .id <*> .required "condition" Expr.decoder
        <*> .withDefault "ifNotConnected" false .bool⟩]

/-- Decodes conditions that are nested less than `levels` deep. -/
def decoderAt : (levels : Nat) → Decoder Condition
  | 0 => fun _ => Decoder.refuse (.flaw .tooDeep)
  | levels + 1 => decoderOver (decoderAt levels)

/-- Decodes a condition. -/
def decoder : Decoder Condition := fun v => decoderAt (v.depth + 1) v

end Condition

namespace GroupKind

/-- The entries that a kind adds to its group. -/
def entries : GroupKind → List (String × Json)
  | ordinary => [("kind", .string "ordinary")]
  | conditional condition => [("kind", .string "conditional"), ("condition", condition.encode)]
  | required condition => [("kind", .string "required"), ("condition", condition.encode)]

/-- Decodes the kind from the entries of a group. -/
def decoder : Decoder GroupKind :=
  .tagged "kind" "GroupKind" [⟨"ordinary", .nothing ordinary⟩,
    ⟨"conditional", .fields "struct variant GroupKind::Conditional" <|
      conditional <$> .required "condition" Condition.decoder⟩,
    ⟨"required", .fields "struct variant GroupKind::Required" <|
      required <$> .required "condition" Condition.decoder⟩]

end GroupKind

namespace LayoutItem

mutual
/-- The encoding of a part of the layout. -/
def encode : LayoutItem → Json
  | .input id => encodeId id
  | .group kind items => .object (kind.entries ++ [("items", .array (encodeItems items))])
/-- The encodings of parts. -/
def encodeItems : List LayoutItem → List Json
  | [] => []
  | item :: rest => encode item :: encodeItems rest
end

end LayoutItem

namespace Group

/-- The encoding of a group. -/
def encode (g : Group) : Json := LayoutItem.encode (.group g.kind g.items)

/-- Decodes a group, given the decoder of its items. The items have a path of their
own; all other entries belong to the kind. -/
def decoderOver (item : Decoder LayoutItem) : Decoder Group := fun v =>
  match v.layer with
  | .entries parts flaw => do
    let (items, rest) ← (Fields.withDefault "items" [] (.list item)).ofObject Input.whole parts flaw
    let kind ← Decoder.aside GroupKind.decoder (.object rest)
    return ⟨kind, items⟩
  | other => Decoder.refuse (.ofLayer "struct Group" other)

end Group

namespace LayoutItem

/-- Decodes parts that are nested less than `levels` deep. -/
def decoderAt : (levels : Nat) → Decoder LayoutItem
  | 0 => fun _ => Decoder.refuse (.flaw .tooDeep)
  | levels + 1 =>
    .firstOf "GroupItem" [Decoder.id.map input,
      (Group.decoderOver (decoderAt levels)).map fun g => group g.kind g.items]

end LayoutItem

/-- Decodes a group. -/
def Group.decoder : Decoder Group := fun v =>
  Group.decoderOver (LayoutItem.decoderAt (v.depth + 1)) v

namespace NodeSchema

/-- The encoding of a schema. -/
def encode (s : NodeSchema) : Json :=
  .object [("schemaId", .string s.id), ("name", .string s.name),
    ("inputs", .array (s.inputs.map InputSchema.encode)),
    ("outputs", .array (s.outputs.map OutputSchema.encode)),
    ("sideEffects", .bool s.sideEffects), ("kind", s.kind.encode),
    ("groups", .array (s.groups.map Group.encode))]

/-- Decodes a schema. -/
def decoder : Decoder NodeSchema :=
  Fields.decoder "struct NodeSchema" <|
    NodeSchema.mk <$> .required "schemaId" .string <*> .required "name" .string
      <*> .withDefault "inputs" [] (.list InputSchema.decoder)
      <*> .withDefault "outputs" [] (.list OutputSchema.decoder)
      <*> .withDefault "sideEffects" false .bool
      <*> .withDefault "kind" .regular NodeKind.decoder
      <*> .withDefault "groups" [] (.list Group.decoder)

end NodeSchema
end TypeFlow
