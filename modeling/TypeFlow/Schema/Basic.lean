import TypeFlow.Expr.Basic
import TypeFlow.Text.Quoted

/-!
# Node schemas

A schema declares the inputs, outputs and layout of a kind of node. It is plain
data: types are expressions that have not been evaluated yet.
-/

namespace TypeFlow

/-- Number of an input in its schema. -/
abbrev InputId := Nat

/-- Number of an output in its schema. -/
abbrev OutputId := Nat

/-- Name of a schema. -/
abbrev SchemaId := String

/-- A value entered into a node. -/
inductive Literal where
  | number (value : Written)
  | string (value : String)
  deriving DecidableEq

/-- The roles of nodes. -/
inductive NodeKind where
  /-- Runs once. -/
  | regular
  /-- Produces a sequence. -/
  | generator
  /-- Consumes a sequence. -/
  | collector
  /-- Turns one sequence into another. -/
  | transformer
  deriving DecidableEq

/-- One choice of a dropdown. -/
structure DropdownOption where
  /-- The value that is stored. -/
  value : Literal
  /-- The text that is shown. -/
  label : Option String
  /-- The type that the choice stands for; that of the value if there is none. -/
  type : Option Expr

/-- How a value entered into a node is understood. -/
inductive InputKind where
  /-- No kind of value is preferred; an entered one counts as it is. -/
  | generic
  | number
  | text
  | dropdown (options : List DropdownOption)

/-- A declared input. -/
structure InputSchema where
  id : InputId
  label : String
  type : Expr
  kind : InputKind
  /-- Whether it may stay unset. -/
  optional : Bool
  /-- Whether edges can be attached. -/
  hasHandle : Bool
  /-- Whether it is null when unset. -/
  nullable : Bool
  /-- The output drawn together with it. -/
  fusedOutput : Option OutputId

/-- Where an output takes its type from. -/
inductive PassthroughSource where
  | input (id : InputId)
  /-- From the first required input with a handle that can have a value of the output's type. -/
  | auto
  | none
  deriving DecidableEq

/-- A declared output. -/
structure OutputSchema where
  id : OutputId
  label : String
  type : Expr
  /-- Whether edges can be attached. -/
  hasHandle : Bool
  /-- Where the type is taken from. -/
  passthrough : Option PassthroughSource

/-- A condition on the state of a node. -/
inductive Condition where
  /-- All items hold. -/
  | and (items : List Condition)
  /-- Some item holds. -/
  | or (items : List Condition)
  /-- The condition does not hold. -/
  | not (condition : Condition)
  /-- The value entered for an input is one of the given ones. -/
  | oneOf (input : InputId) (values : List Literal)
  /-- The type of an input fits an expression; a given answer without a connection. -/
  | hasType (input : InputId) (condition : Expr) (ifNotConnected : Bool)

/-- What a group does to its items. -/
inductive GroupKind where
  /-- Nothing. -/
  | ordinary
  /-- Shows them only while the condition holds. -/
  | conditional (condition : Condition)
  /-- Makes optional ones required while the condition holds. -/
  | required (condition : Condition)

/-- A part of the layout: an input or a group of parts. -/
inductive LayoutItem where
  | input (id : InputId)
  | group (kind : GroupKind) (items : List LayoutItem)

/-- A group of inputs and groups. -/
structure Group where
  /-- What it does to its items. -/
  kind : GroupKind
  items : List LayoutItem

/-- A kind of node. -/
structure NodeSchema where
  id : SchemaId
  name : String
  inputs : List InputSchema
  outputs : List OutputSchema
  /-- Whether running a node does more than produce outputs. -/
  sideEffects : Bool
  /-- Role of its nodes. -/
  kind : NodeKind
  /-- Groups of the layout. -/
  groups : List Group

namespace Literal

/-- The text of a value: numbers plain, texts in quotes. -/
def text : Literal → String
  | number w => w.text
  | string s => Text.quoted s

/-- The type of a single value. -/
def type : Literal → Ty
  | number w => .literal w.value
  | string s => .text s

end Literal

namespace NodeSchema

/-- The declared input of a number. -/
def input? (schema : NodeSchema) (id : InputId) : Option InputSchema :=
  schema.inputs.find? fun i => i.id = id

/-- The declared output of a number. -/
def output? (schema : NodeSchema) (id : OutputId) : Option OutputSchema :=
  schema.outputs.find? fun o => o.id = id

end NodeSchema

/-- The name of an input's type in the expressions of outputs. -/
def InputId.parameter (id : InputId) : String := "Input" ++ id.repr

end TypeFlow
