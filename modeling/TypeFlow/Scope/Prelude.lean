import TypeFlow.Arithmetic
import TypeFlow.Scope.Basic

/-!
# The prelude

The outermost frame of every catalog: the structs without fields that stand for
null and the truth values, errors, common aliases, and arithmetic on types.
-/

namespace TypeFlow.Prelude

/-- Name of the struct that stands for an absent value. -/
def nullName : String := "null"

/-- The type of an absent value. -/
def null : Ty := .struct nullName []

/-- A name without fields. -/
def named (name : String) : Expr := .named name []

/-- The whole numbers from a bound on. -/
def intsFrom (min : Num) : Expr := .number (.ints min .posInf)

/-- Applies an operation from left to right. -/
def leftFold (op : Ty → Ty → Ty) : List Ty → Ty
  | [] => .never
  | first :: rest => rest.foldl op first

/-- The texts that follow each other; all texts unless every one is known. -/
def concat (args : List Ty) : Ty :=
  let literal? : Ty → Option String
    | .string (.literal s) => some s
    | _ => none
  match args.mapM literal? with
  | some texts => .text (String.join texts)
  | none => .strings

/-- A function of one number. -/
def unary (op : Ty → Ty) : Definition :=
  .builtin [("a", .numbers)] none fun
    | [a] => .ok (op a)
    | _ => .ok .never

/-- A function of two numbers. -/
def binary (op : Ty → Ty → Ty) : Definition :=
  .builtin [("a", .numbers), ("b", .numbers)] none fun
    | [a, b] => .ok (op a b)
    | _ => .ok .never

/-- A function of one or more numbers. -/
def variadic (op : Ty → Ty → Ty) : Definition :=
  .builtin [("a", .numbers)] (some .numbers) fun args => .ok (leftFold op args)

/-- The definitions of the prelude. -/
def entries : List (String × Definition) := [
  (nullName, .struct []),
  ("true", .struct []),
  ("false", .struct []),
  ("Error", .struct [("message", .string .all)]),
  ("bool", .alias (.union [named "true", named "false"])),
  ("int", .alias (intsFrom .negInf)),
  ("uint", .alias (intsFrom 0)),
  ("real", .alias (.number .real)),
  ("number::add", variadic Ty.add),
  ("number::mul", variadic Ty.multiply),
  ("number::min", variadic Ty.minimum),
  ("number::max", variadic Ty.maximum),
  ("number::neg", unary Ty.negate),
  ("number::rec", unary Ty.reciprocal),
  ("number::round", unary Ty.round),
  ("number::sub", binary Ty.subtract),
  ("number::div", binary Ty.divide),
  ("string::concat", .builtin [] (some .strings) fun args => .ok (concat args))]

/-- The scope of the prelude alone. -/
def scope : Scope := [⟨"prelude", entries⟩]

end TypeFlow.Prelude
