import TypeFlow.Expr.Basic
import TypeFlow.Ty.Id

/-!
# Expressions as text

Operands of unions, intersections and field access that are themselves unions,
intersections or choices stand in parentheses. A union without items is written
as `never` and an intersection without items as `any`, which is what they mean.
-/

namespace TypeFlow.Expr

/-- Parentheses around a text where they are needed. -/
def enclosed (compound : Bool) (s : String) : String :=
  if compound then "(" ++ s ++ ")" else s

mutual
/-- The text of an expression. -/
def text : Expr → String
  | .never => "never"
  | .any => "any"
  | .number n => n.text
  | .string s => s.text
  | .named name [] => name
  | .named name (f :: fs) =>
    name ++ " \x7b " ++ Text.joined ", " (textFields (f :: fs)) ++ " \x7d"
  | .union [] => "never"
  | .union (e :: es) => Text.joined " | " (textOperands (e :: es))
  | .intersection [] => "any"
  | .intersection (e :: es) => Text.joined " & " (textOperands (e :: es))
  | .access of field => enclosed of.isCompound (text of) ++ "." ++ field
  | .call name args => name ++ "(" ++ Text.joined ", " (textItems args) ++ ")"
  | .choose of arms => "match " ++ text of ++ " \x7b" ++ textArms arms ++ " \x7d"
/-- The texts of fields. -/
def textFields : List (String × Expr) → List String
  | [] => []
  | (name, e) :: rest => (name ++ ": " ++ text e) :: textFields rest
/-- The texts of items. -/
def textItems : List Expr → List String
  | [] => []
  | e :: rest => text e :: textItems rest
/-- The texts of operands. -/
def textOperands : List Expr → List String
  | [] => []
  | e :: rest => enclosed e.isCompound (text e) :: textOperands rest
/-- The text of arms. -/
def textArms : List (Arm Expr) → String
  | [] => ""
  | ⟨pattern, binding, body⟩ :: rest =>
    " " ++ text pattern ++ binding.elim "" (" as " ++ ·) ++ " => " ++ text body ++ ","
      ++ textArms rest
end

end TypeFlow.Expr
