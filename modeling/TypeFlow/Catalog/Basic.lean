import TypeFlow.Json.Decode
import TypeFlow.Signature

/-!
# Catalogs

A catalog holds definitions and node schemas from one or more files. Structs,
aliases and functions share one frame on top of the prelude and may refer to
each other in any order. Variables are evaluated in that frame and live in a
frame of their own inside it.
-/

namespace TypeFlow

/-- A definition in a catalog file. -/
inductive CatalogEntry where
  /-- A struct with its fields. -/
  | struct (name : String) (fields : List (String × Expr))
  /-- Another name for an expression. -/
  | alias (name : String) (type : Expr)
  /-- A name for the type of an expression. -/
  | variable (name : String) (value : Expr)
  | function (name : String) (parameters : List (String × Expr)) (body : Expr)

/-- The content of a catalog file. -/
structure CatalogFile where
  definitions : List CatalogEntry
  schemas : List NodeSchema

/-- Why there is no catalog. -/
inductive CatalogError where
  /-- A file cannot be read. -/
  | unreadable (path reason : String)
  /-- A file cannot be decoded. -/
  | file (path : String) (error : ParseError)
  /-- A text cannot be decoded. -/
  | parse (error : ParseError)
  | definition (error : DefinitionError)
  /-- A variable has no type. -/
  | variable (name : String) (error : EvalError)
  /-- A schema has no signature. -/
  | schema (id : SchemaId) (error : EvalError)
  /-- Two schemas have the same name. -/
  | repeatedSchema (id : SchemaId)

namespace CatalogError

/-- What is said about a catalog that there is not. -/
def message : CatalogError → String
  | .unreadable path reason => "cannot read catalog file " ++ path ++ ": " ++ reason
  | .file path e => "catalog file " ++ path ++ ": " ++ e.message
  | .parse e => e.message
  | .definition e => e.message
  | .variable name e => "variable " ++ Text.ticked name ++ ": " ++ e.message
  | .schema id e => "node schema " ++ Text.ticked id ++ ": " ++ e.message
  | .repeatedSchema id => "node schema " ++ Text.ticked id ++ " is defined more than once"

/-- What is said about a catalog that there is not; nothing where a text is no JSON. -/
def message? (e : CatalogError) : Option String :=
  match e with
  | .file _ cause | .parse cause => if cause.isJson then some e.message else none
  | _ => some e.message

end CatalogError

/-- Definitions and signatures. -/
structure Catalog where
  scope : Scope
  /-- Signatures of nodes in order. -/
  signatures : List (SchemaId × Signature)
  /-- What signatures pass through. -/
  passthrough : List (SchemaId × Passthrough)

namespace Catalog

/-- Adds a definition to a frame; variables come later. -/
def addEntry (builder : Builder) : CatalogEntry → Except DefinitionError Builder
  | .struct name fields => builder.add name (.struct fields)
  | .alias name type => builder.add name (.alias type)
  | .function name parameters body => builder.add name (.function parameters body)
  | .variable _ _ => .ok builder

/-- Name and value of a variable. -/
def asVariable : CatalogEntry → Option (String × Expr)
  | .variable name value => some (name, value)
  | _ => none

/-- Evaluates a variable and adds it to a frame. -/
def addVariable (definitions : Scope) (builder : Builder) (entry : String × Expr) :
    Run CatalogError Builder := do
  let (name, e) := entry
  if (definitions.local? name).isSome then
    Run.fail (.definition (.repeatedName name (definitions.name?.getD "")))
  else
    let value ← (definitions.evaluate [] e).mapError (.variable name)
    Run.mapError .definition (Run.ofExcept (builder.add name (.variable value)))

/-- The scope of definitions. -/
def scopeOf (entries : List CatalogEntry) : Run CatalogError Scope := do
  let builder ← Run.mapError .definition <| Run.ofExcept <|
    entries.foldlM addEntry (Builder.new "catalog" Prelude.scope)
  let definitions := builder.build
  match entries.filterMap asVariable with
  | [] => return definitions
  | named =>
    return (← named.foldlM (addVariable definitions)
      (Builder.new "variables" definitions)).build

/-- The name of the first schema that is there twice. -/
def repeatedSchema? (schemas : List NodeSchema) : Option SchemaId :=
  firstRepeated [] (schemas.map (·.id))

/-- The signatures of schemas with their names. -/
def signaturesOf (scope : Scope) (schemas : List NodeSchema) :
    Run CatalogError (List (SchemaId × Signature)) :=
  schemas.mapM fun schema => do
    return (schema.id, ← (Signature.ofSchema schema scope).mapError (.schema schema.id))

/-- What signatures pass through, for those that do. -/
def passthroughOf (signatures : List (SchemaId × Signature)) :
    Checked (List (SchemaId × Passthrough)) := do
  let all ← signatures.mapM fun (id, s) => do return (← s.passthrough?).map fun p => (id, p)
  return all.filterMap fun entry => entry

/-- The catalog of files. -/
def ofFiles (files : List CatalogFile) : Run CatalogError Catalog := do
  let schemas := files.flatMap (·.schemas)
  match repeatedSchema? schemas with
  | some id => Run.fail (.repeatedSchema id)
  | none =>
    let scope ← scopeOf (files.flatMap (·.definitions))
    let signatures ← signaturesOf scope schemas
    return ⟨scope, signatures, ← Run.ofChecked (passthroughOf signatures)⟩

/-- The signature of a schema. -/
def signature? (c : Catalog) (id : SchemaId) : Option Signature := valueAt? id c.signatures

/-- What a schema passes through. -/
def passthrough? (c : Catalog) (id : SchemaId) : Option Passthrough := valueAt? id c.passthrough

end Catalog
end TypeFlow
