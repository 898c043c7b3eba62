import TypeFlow.Graph.Basic
import TypeFlow.Text.Quoted

/-!
# Handles on the command line

A handle is the name of a node, a colon and the number of an input or output.
The last colon counts, since names may have colons. A number has 32 bits, may
start with a plus sign and with zeros.
-/

namespace TypeFlow

/-- What is wrong with the number of a handle. -/
inductive NumeralError where
  | empty
  /-- A character is no digit. -/
  | notDigit
  /-- It has more than 32 bits. -/
  | tooLarge
  deriving DecidableEq

/-- What is said about a number that there is not. -/
def NumeralError.message : NumeralError → String
  | empty => "cannot parse integer from empty string"
  | notDigit => "invalid digit found in string"
  | tooLarge => "number too large to fit in target type"

/-- What is wrong with a handle. -/
inductive HandleError where
  /-- It has no colon. -/
  | noColon (text : String)
  /-- The number is wrong. -/
  | number (text : String) (error : NumeralError)
  deriving DecidableEq

/-- What is said about a wrong handle. -/
def HandleError.message : HandleError → String
  | noColon text => "expected <node>:<handle>, got " ++ Text.ticked text
  | number text e => "invalid handle id in " ++ Text.ticked text ++ ": " ++ e.message

namespace Handle

/-- A number with more digits at its end. -/
def numberFrom : (value : Nat) → List Char → Except NumeralError Nat
  | value, [] => .ok value
  | value, c :: rest =>
    if !c.isDigit then .error .notDigit
    else
      let value := value * 10 + (c.toNat - '0'.toNat)
      if value < 4294967296 then numberFrom value rest else .error .tooLarge

/-- The number that some characters write. -/
def number : List Char → Except NumeralError Nat
  | [] => .error .empty
  | ['+'] => .error .notDigit
  | '+' :: digits => numberFrom 0 digits
  | digits => numberFrom 0 digits

/-- The node and the number of a handle. -/
def ofString (text : String) : Except HandleError (NodeId × Nat) :=
  match text.toList.reverse.span (· ≠ ':') with
  | (_, []) => .error (.noColon text)
  | (digits, _ :: name) =>
    match number digits.reverse with
    | .error e => .error (.number text e)
    | .ok n => .ok (String.ofList name.reverse, n)

end Handle
end TypeFlow
