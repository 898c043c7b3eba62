import TypeFlow.Ty.Order
import TypeFlow.Text.Quoted

/-!
# Type ids

The text of a type: names, numbers and quoted texts, fields between braces, and
a bar between the members of a union. Equal types have equal ids.
-/

namespace TypeFlow

open Text

/-- A literal text is quoted. -/
def StringTy.text : StringTy → String
  | .literal s => quoted s
  | .all => "string"

namespace Ty

mutual
/-- The id of a type. -/
def id : Ty → String
  | .never => "never"
  | .number n => n.text
  | .string s => s.text
  | .struct name fields => name ++ fieldList (idFields fields)
  | .union items => joined " | " (idItems items)
  | .any => "any"
/-- Each field with its type. -/
def idFields : List (String × Ty) → List String
  | [] => []
  | (name, t) :: rest => (name ++ ": " ++ id t) :: idFields rest
/-- The id of each item. -/
def idItems : List Ty → List String
  | [] => []
  | t :: rest => id t :: idItems rest
/-- Fields between braces; nothing when there are none. -/
def fieldList : List String → String
  | [] => ""
  | fields => " \x7b " ++ joined ", " fields ++ " \x7d"
end

end Ty
end TypeFlow
