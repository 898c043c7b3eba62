/-!
# Flaws of JSON text

What can be wrong with a text that should begin with a JSON value.
-/

namespace TypeFlow

/-- What is wrong with a text that should be JSON. -/
inductive Flaw where
  /-- It ends within a list. -/
  | endInList
  /-- It ends within an object. -/
  | endInObject
  /-- It ends within a string. -/
  | endInString
  /-- It ends where a value should be, or within one. -/
  | endInValue
  /-- A key has no colon after it. -/
  | colonExpected
  /-- An item of a list is followed by neither a comma nor the end of the list. -/
  | commaExpectedInList
  /-- An entry of an object is followed by neither a comma nor the end of the object. -/
  | commaExpectedInObject
  /-- A word is none that stands for a value. -/
  | wordExpected
  /-- Something is no value. -/
  | valueExpected
  /-- A key goes on where it should end. -/
  | quoteExpected
  /-- A backslash is followed by the wrong characters. -/
  | wrongEscape
  | wrongNumber
  /-- A number is beyond the doubles. -/
  | hugeNumber
  /-- A string has a control character in it. -/
  | controlCharacter
  /-- Something is no key. -/
  | keyExpected
  /-- A key is no number. -/
  | numericKeyExpected
  /-- Half of a character stands for itself. -/
  | loneHalf
  /-- Half of a character is not followed by the other. -/
  | missingHalf
  /-- A comma is followed by the end. -/
  | commaAtEnd
  /-- A list goes on after its last part. -/
  | trailing
  /-- Lists and objects are nested too deeply. -/
  | tooDeep
  deriving DecidableEq

/-- What is said about a flaw. -/
def Flaw.message : Flaw → String
  | endInList => "EOF while parsing a list"
  | endInObject => "EOF while parsing an object"
  | endInString => "EOF while parsing a string"
  | endInValue => "EOF while parsing a value"
  | colonExpected => "expected `:`"
  | commaExpectedInList => "expected `,` or `]`"
  | commaExpectedInObject => "expected `,` or `\x7d`"
  | wordExpected => "expected ident"
  | valueExpected => "expected value"
  | quoteExpected => "expected `\"`"
  | wrongEscape => "invalid escape"
  | wrongNumber => "invalid number"
  | hugeNumber => "number out of range"
  | controlCharacter => "control character (\\u0000-\\u001F) found while parsing a string"
  | keyExpected => "key must be a string"
  | numericKeyExpected => "invalid value: expected key to be a number in quotes"
  | loneHalf => "lone leading surrogate in hex escape"
  | missingHalf => "unexpected end of hex escape"
  | commaAtEnd => "trailing comma"
  | trailing => "trailing characters"
  | tooDeep => "recursion limit exceeded"

end TypeFlow
