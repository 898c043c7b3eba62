import TypeFlow.Expr.Basic
import TypeFlow.Json.Decode

/-!
# Expressions as JSON

An expression is an object with its form under `type` and its parts beside it.
Numbers that JSON cannot hold are the strings `"inf"`, `"-inf"` and `"NaN"`. A
nested expression is decoded one level down; a value is decoded at a level above
its depth.
-/

namespace TypeFlow

namespace Written

/-- A number, with a string for each number that JSON cannot hold. -/
def encode : Written → Json
  | num .posInf => .string "inf"
  | num .negInf => .string "-inf"
  | num .nan => .string "NaN"
  | w => .float w

/-- The number that a string stands for. -/
def ofText (text : String) : Except Issue Written :=
  if text = "inf" then .ok (num .posInf)
  else if text = "-inf" then .ok (num .negInf)
  else if text = "NaN" then .ok (num .nan)
  else .error (.noNumber text)

/-- Decodes a number or a string that stands for one. -/
def decoder : Decoder Written :=
  (Decoder.firstOf "Repr" [Decoder.number.map Sum.inl, Decoder.string.map Sum.inr]).refine fun
    | .inl w => .ok w
    | .inr text => ofText text

end Written

namespace Expr

/-- An object with a tag. -/
def encodeAs (tag : String) (entries : List (String × Json)) : Json :=
  .object (("type", .string tag) :: entries)

/-- The encoding of a number type. -/
def encodeNumber : NumberTy → Json
  | .literal v => encodeAs "numeric-literal" [("value", (Written.num v).encode)]
  | .ints min max =>
    encodeAs "int-interval" [("min", (Written.num min).encode), ("max", (Written.num max).encode)]
  | .reals min max =>
    encodeAs "interval" [("min", (Written.num min).encode), ("max", (Written.num max).encode)]
  | .all => encodeAs "number" []

/-- The encoding of a string type. -/
def encodeString : StringTy → Json
  | .literal s => encodeAs "string-literal" [("value", .string s)]
  | .all => encodeAs "string" []

mutual
/-- The encoding of an expression. -/
def encode : Expr → Json
  | .never => encodeAs "never" []
  | .any => encodeAs "any" []
  | .number n => encodeNumber n
  | .string s => encodeString s
  | .named name [] => encodeAs "named" [("name", .string name)]
  | .named name (f :: fs) =>
    encodeAs "named" [("name", .string name), ("fields", .object (encodeFields (f :: fs)))]
  | .union items => encodeAs "union" [("items", .array (encodeItems items))]
  | .intersection items => encodeAs "intersection" [("items", .array (encodeItems items))]
  | .access of field => encodeAs "field-access" [("of", encode of), ("field", .string field)]
  | .call name args =>
    encodeAs "function-call" [("name", .string name), ("args", .array (encodeItems args))]
  | .choose of arms => encodeAs "match" [("of", encode of), ("arms", .array (encodeArms arms))]
/-- The encodings of fields. -/
def encodeFields : List (String × Expr) → List (String × Json)
  | [] => []
  | (name, e) :: rest => (name, encode e) :: encodeFields rest
/-- The encodings of items. -/
def encodeItems : List Expr → List Json
  | [] => []
  | e :: rest => encode e :: encodeItems rest
/-- The encodings of arms. -/
def encodeArms : List (Arm Expr) → List Json
  | [] => []
  | ⟨pattern, binding, body⟩ :: rest =>
    .object (("pattern", encode pattern)
      :: (binding.map fun name => ("binding", .string name)).toList
      ++ [("body", encode body)])
      :: encodeArms rest
end

/-- A form of expression with fields. -/
def form (name title : String) (fields : Fields (Except Issue Expr)) :
    Variant (Except Issue Expr) :=
  ⟨name, .fields ("struct variant ExpressionJson::" ++ title) fields⟩

/-- A form of expression without fields. -/
def plainForm (name : String) (e : Expr) : Variant (Except Issue Expr) :=
  ⟨name, .nothing (.ok e)⟩

/-- A range, or the reason why its bounds make none. -/
def ofBounds (range : Except InvalidBounds NumberTy) : Except Issue Expr :=
  (range.map number).mapError .bounds

/-- An arm of a choice. -/
def armDecoder (part : Decoder Expr) : Decoder (Arm Expr) :=
  Fields.decoder "struct MatchArmJson" <|
    Arm.mk <$> .required "pattern" part <*> .optional "binding" .string <*> .required "body" part

/-- The forms of expressions, given the decoder of their parts. -/
def forms (part : Decoder Expr) : List (Variant (Except Issue Expr)) := [
  plainForm "never" never,
  plainForm "any" any,
  plainForm "number" (number .all),
  form "numeric-literal" "NumericLiteral" <|
    (fun w => .ok (number (.literal w.value))) <$> .required "value" Written.decoder,
  form "interval" "Interval" <|
    (fun min max => ofBounds (NumberTy.interval min max))
      <$> .required "min" Written.decoder <*> .required "max" Written.decoder,
  form "int-interval" "IntInterval" <|
    (fun min max => ofBounds (NumberTy.intInterval min max))
      <$> .required "min" Written.decoder <*> .required "max" Written.decoder,
  plainForm "string" (string .all),
  form "string-literal" "StringLiteral" <|
    (fun s => .ok (string (.literal s))) <$> .required "value" .string,
  form "named" "Named" <|
    (fun name fields => .ok (named name fields))
      <$> .required "name" .string <*> .withDefault "fields" [] (.entries part),
  form "union" "Union" <| (fun items => .ok (union items)) <$> .required "items" (.list part),
  form "intersection" "Intersection" <|
    (fun items => .ok (intersection items)) <$> .required "items" (.list part),
  form "field-access" "FieldAccess" <|
    (fun of field => .ok (access of field))
      <$> .required "of" part <*> .required "field" .string,
  form "function-call" "FunctionCall" <|
    (fun name args => .ok (call name args))
      <$> .required "name" .string <*> .withDefault "args" [] (.list part),
  form "match" "Match" <|
    (fun of arms => .ok (choose of arms))
      <$> .required "of" part <*> .required "arms" (.list (armDecoder part))]

/-- One level of decoding, given the decoder of the parts. -/
def decoderOver (part : Decoder Expr) : Decoder Expr :=
  (Decoder.tagged "type" "ExpressionJson" (forms part)).refine fun result => result

/-- Decodes values that are nested less than `levels` deep. -/
def decoderAt : (levels : Nat) → Decoder Expr
  | 0 => fun _ => Decoder.refuse (.flaw .tooDeep)
  | levels + 1 => decoderOver (decoderAt levels)

/-- Decodes an expression. -/
def decoder : Decoder Expr := fun v => decoderAt (v.depth + 1) v

end Expr
end TypeFlow
