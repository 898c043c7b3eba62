import TypeFlow.Eval.Error
import TypeFlow.Expr.Text

/-!
# Evaluation

An expression has a type in a scope. Names mean what the generic parameters say,
and then what the scope says. Aliases and structs are resolved in the scope that
owns them, without generic parameters, and remembered; one that needs itself is
an error. While a definition is being resolved it is marked, and the mark goes
when that has succeeded or failed. Assignments, arguments and patterns are
evaluated where they stand; the body of a function sees its parameters and the
scope that owns it.

Evaluation follows the expression. Where it goes on with another expression, of
a definition or a function, it goes one level down. Definitions that are being
resolved are never entered again, so as many levels as there are definitions are
enough, apart from calls; those may be nested `maxCalls` deep.
-/

namespace TypeFlow

/-- Types of names that go before the scope. -/
abbrev Generics := List (String × Ty)

/-- A definition in a scope: how many frames its owner has, and its name. -/
abbrev EntryKey := Nat × String

/-- What is known of a definition. -/
inductive Cell where
  /-- It is being resolved. -/
  | resolving
  /-- It was resolved to this type. -/
  | resolved (type : Ty)

/-- What is known of definitions. -/
abbrev Memo := List (EntryKey × Cell)

/-- Evaluation: it remembers what was resolved, also when it fails later. -/
abbrev EvalM (α : Type) := ExceptT (Halt EvalError) (StateM Memo) α

namespace EvalM

variable {α : Type}

/-- Ends with an error. -/
def fail (e : EvalError) : EvalM α := throw (.error e)

/-- A computation that remembers nothing. -/
def lift (run : Run EvalError α) : EvalM α := fun memo => (run, memo)

/-- A computation that only a clash can end. -/
def checked (result : Checked α) : EvalM α := lift (Run.ofChecked result)

end EvalM

namespace Ty

/-- Type of a field of one member. -/
def accessMember (field : String) : Ty → Except EvalError Ty
  | .struct name fields =>
    match valueAt? field fields with
    | some t => .ok t
    | none => .error (.unknownField name field)
  | t => .error (.accessOnNonStruct t field)

/-- Type of a field. -/
def access (field : String) : Ty → Run EvalError Ty
  | .never => .ok .never
  | .any => Run.fail (.accessOnAny field)
  | t => do Run.ofChecked (unionOf (← Run.ofExcept (t.members.mapM (accessMember field))))

end Ty

namespace Eval

/-- How evaluation goes on outside an expression. -/
structure Reach where
  /-- Evaluates an expression of a definition in the scope that owns it. -/
  enter : Scope → Expr → EvalM Ty
  /-- Resolves a definition by the given computation. -/
  resolve : EntryKey → EvalM Ty → EvalM Ty

/-- Where an expression is evaluated. -/
structure Context where
  scope : Scope
  /-- Names that go before the scope. -/
  generics : Generics

/-- Records how the resolution of a definition ended. -/
def settle (key : EntryKey) : Run EvalError Ty × Memo → Run EvalError Ty × Memo
  | (.ok t, memo) => (.ok t, setEntry key (.resolved t) memo)
  | (.error (.error e), memo) => (.error (.error e), dropEntry key memo)
  | (.error (.fatal f), memo) => (.error (.fatal f), memo)

/-- Resolves a definition, unless that was done before or is being done. -/
def once (key : EntryKey) (resolve : EvalM Ty) : EvalM Ty := fun memo =>
  match valueAt? key memo with
  | some (.resolved t) => (.ok t, memo)
  | some .resolving => (Run.fail (.recursive key.2), memo)
  | none => settle key (resolve (setEntry key .resolving memo))

/-- The type of a struct with its declared fields. -/
def skeleton (reach : Reach) (owner : Scope) (name : String) (fields : List (String × Expr)) :
    EvalM Ty := do
  let types ← fields.mapM fun (field, e) => do return (field, ← reach.enter owner e)
  return Record.build name types

/-- Demands that there are no field assignments. -/
def noFields (name : String) (fields : List (String × Expr)) : EvalM Unit :=
  if fields.isEmpty then return else EvalM.fail (.unexpectedFields name)

/-- Demands that arguments are part of the types of their parameters. -/
def checkArguments (function : String) (parameters : List (String × Ty)) (varargs : Ty) :
    (index : Nat) → List Ty → EvalM Unit
  | _, [] => return
  | index, value :: rest => do
    let (parameter, expected) := parameters.getD index ("#" ++ index.repr, varargs)
    if ← EvalM.checked (value.subset expected) then
      checkArguments function parameters varargs (index + 1) rest
    else EvalM.fail (.invalidArgument function parameter value expected)

/-- The error for a wrong number of arguments, if it is wrong. -/
def countError (function : String) (fixed : Nat) (more : Bool) (actual : Nat) :
    Option EvalError :=
  if more then
    if fixed ≤ actual then none
    else some (.argumentCount function ("at least " ++ fixed.repr) actual)
  else if actual = fixed then none
  else some (.argumentCount function fixed.repr actual)

/-- The result of a computed function. -/
def callBuiltin (name : String) (parameters : List (String × Ty)) (varargs : Option Ty)
    (run : List Ty → Checked Ty) (values : List Ty) : EvalM Ty := do
  checkArguments name parameters (varargs.getD .any) 0 values
  if values.any Ty.isNever then return .never
  else EvalM.checked (run values)

/-- Defines and sets the parameters of a function one by one. -/
def bindParameters (reach : Reach) (owner : Scope) (function : String) :
    Builder → List ((String × Expr) × Ty) → EvalM Builder
  | builder, [] => return builder
  | builder, ((parameter, type), value) :: rest => do
    let bound ← reach.enter owner type
    if ← EvalM.checked (value.subset bound) then
      let builder ← EvalM.lift <| Run.mapError .definition <| Run.ofExcept <|
        builder.add parameter (.parameter bound none)
      let builder ← EvalM.lift <| Run.mapError .assignment <| builder.assign parameter value
      bindParameters reach owner function builder rest
    else EvalM.fail (.invalidArgument function parameter value bound)

/-- The result of a function with a body. -/
def callFunction (reach : Reach) (owner : Scope) (name : String) (parameters : List (String × Expr))
    (body : Expr) (values : List Ty) : EvalM Ty := do
  let builder ← bindParameters reach owner name (Builder.new (name ++ "()") owner)
    (parameters.zip values)
  if values.any Ty.isNever then return .never
  else reach.enter builder.build body

mutual
/-- The type of an expression. -/
def expr (reach : Reach) (context : Context) : Expr → EvalM Ty
  | .never => return .never
  | .any => return .any
  | .number n => return .number n
  | .string s => return .string s
  | .union items => do EvalM.checked (Ty.unionOf (← exprs reach context items))
  | .intersection items => do EvalM.checked (Ty.intersectionOf (← exprs reach context items))
  | .named name fields =>
    match valueAt? name context.generics with
    | some t => do
      noFields name fields
      return t
    | none => do
      let (owner, definition) ← EvalM.lift <| Run.mapError .unknownName <| Run.ofExcept <|
        context.scope.resolve name
      let key := (owner.length, name)
      match definition with
      | .alias type =>
        noFields name fields
        reach.resolve key (reach.enter owner type)
      | .variable value =>
        noFields name fields
        return value
      | .parameter bound value =>
        noFields name fields
        return value.getD bound
      | .struct declared =>
        match ← reach.resolve key (skeleton reach owner name declared) with
        | .struct name types =>
          return Record.build name (← assignments reach context ⟨name, types⟩ [] types fields)
        | t => return t
      | _ => EvalM.fail (.notType name)
  | .access of field => do EvalM.lift (Ty.access field (← expr reach context of))
  | .call name args => do
    let (owner, definition) ← EvalM.lift <| Run.mapError .unknownName <| Run.ofExcept <|
      context.scope.resolve name
    match definition with
    | .builtin parameters varargs run =>
      match countError name parameters.length varargs.isSome args.length with
      | some e => EvalM.fail e
      | none => callBuiltin name parameters varargs run (← exprs reach context args)
    | .function parameters body =>
      match countError name parameters.length false args.length with
      | some e => EvalM.fail e
      | none =>
        callFunction reach owner name parameters body (← exprs reach context args)
    | _ => EvalM.fail (.notFunction name)
  | .choose of arms' => do
    EvalM.checked (Ty.unionOf (← arms reach context (← expr reach context of) arms'))
/-- The types of expressions in order. -/
def exprs (reach : Reach) (context : Context) : List Expr → EvalM (List Ty)
  | [] => return []
  | e :: rest => do
    let t ← expr reach context e
    return t :: (← exprs reach context rest)
/-- The fields of a struct after assignments; the names assigned so far are given. -/
def assignments (reach : Reach) (context : Context) (declared : Record) (seen : List String)
    (fields : List (String × Ty)) : List (String × Expr) → EvalM (List (String × Ty))
  | [] => return fields
  | (field, e) :: rest =>
    match declared.field? field with
    | none => EvalM.fail (.unknownField declared.name field)
    | some type =>
      if field ∈ seen then EvalM.fail (.repeatedAssignment declared.name field)
      else do
        let value ← expr reach context e
        if ← EvalM.checked (value.subset type) then
          assignments reach context declared (field :: seen) (setEntry field value fields) rest
        else EvalM.fail (.fieldNotSubset declared.name field value type)
/-- The results of the arms that some value takes, given the values left for them. -/
def arms (reach : Reach) (context : Context) (left : Ty) : List (Arm Expr) → EvalM (List Ty)
  | [] => return []
  | ⟨patternExpr, binding, body⟩ :: rest => do
    let pattern ← expr reach context patternExpr
    let matched ← EvalM.checked (Ty.intersectionOf [left, pattern])
    let result ←
      if matched.isNever then pure []
      else
        let inner := match binding with
          | some name => { context with generics := setEntry name matched context.generics }
          | none => context
        pure [← expr reach inner body]
    let left ← EvalM.checked (left.without pattern)
    return result ++ (← arms reach context left rest)
end

/-- Evaluation with a given number of levels, given how definitions are resolved. -/
def levelBy (resolve : EntryKey → EvalM Ty → EvalM Ty) :
    (levels : Nat) → Context → Expr → EvalM Ty
  | 0, _, _ => throw (.fatal .exhausted)
  | levels + 1, context, e =>
    expr ⟨fun scope e => levelBy resolve levels ⟨scope, []⟩ e, resolve⟩ context e

/-- Evaluation with a given number of levels that resolves definitions once. -/
def level : (levels : Nat) → Context → Expr → EvalM Ty := levelBy once

/-- How deep calls of functions with bodies may be nested. -/
def maxCalls : Nat := 100000

end Eval

namespace Scope

/-- The type of an expression, given what is known of definitions. -/
def evaluateWith (scope : Scope) (generics : Generics) (e : Expr) : EvalM Ty :=
  Eval.level (scope.size + Eval.maxCalls + 1) ⟨scope, generics⟩ e

/-- The type of an expression. -/
def evaluate (scope : Scope) (generics : Generics) (e : Expr) : Run EvalError Ty :=
  (scope.evaluateWith generics e []).1

end Scope

namespace Expr

mutual
/-- The type of an expression that needs no scope. -/
def evaluateStatic : Expr → Run EvalError Ty
  | .never => return .never
  | .any => return .any
  | .number n => return .number n
  | .string s => return .string s
  | .union items => do Run.ofChecked (Ty.unionOf (← evaluateStaticItems items))
  | .intersection items => do Run.ofChecked (Ty.intersectionOf (← evaluateStaticItems items))
  | .named name fields => Run.fail (.notStatic (text (.named name fields)))
  | .access of field => Run.fail (.notStatic (text (.access of field)))
  | .call name args => Run.fail (.notStatic (text (.call name args)))
  | .choose of arms => Run.fail (.notStatic (text (.choose of arms)))
/-- The types of expressions that need no scope. -/
def evaluateStaticItems : List Expr → Run EvalError (List Ty)
  | [] => return []
  | e :: rest => do
    let t ← evaluateStatic e
    return t :: (← evaluateStaticItems rest)
end

end Expr
end TypeFlow
