import SoapBinding.DateTime.Text
import SoapBinding.Error
import SoapBinding.Primitive.Basic

/-!
# Primitive values in text

`TextType.render?` writes a value as the text of a primitive type, if its kind belongs there, and
`TextType.parse` reads such a text. An integer kind is also accepted where a wider number is expected:
a 32-bit integer as a long, and either integer as a decimal or an integer of any size. What is read
is always of the type's own kind, so numbers of the last two types come back as decimals.

Blanks around a text do not count, except in a string, which keeps them.
-/

namespace SoapBinding.TextType

/-- The text of a value, if values of its kind belong to the type. -/
def render? : TextType → Value → Option String
  | .boolean, .boolean b => some (if b then "true" else "false")
  | .int, .int i => some (toString i.toInt)
  | .long, .long i => some (toString i.toInt)
  | .long, .int i => some (toString i.toInt)
  | .double, .double d => some d.render
  | .decimal, .decimal d => some d.text
  | .decimal, .int i => some (toString i.toInt)
  | .decimal, .long i => some (toString i.toInt)
  | .integer, .decimal d => if d.isInteger then some d.text else none
  | .integer, .int i => some (toString i.toInt)
  | .integer, .long i => some (toString i.toInt)
  | .dateTime, .dateTime t => some t.render
  | .string, .string s => some s
  | _, _ => none

/-- The truth value that a text writes. -/
def parseBoolean (text : String) : Except LexicalFault Value :=
  if text == "true" || text == "1" then .ok (.boolean true)
  else if text == "false" || text == "0" then .ok (.boolean false)
  else .error (.notBoolean text)

/-- The integer of some width that a text writes. -/
def parseInteger (low high : Int) (make : Int → Value) (text : String) : Except LexicalFault Value :=
  match Text.readInteger low high text.toList with
  | .ok n => .ok (make n)
  | .error fault => .error (.integer text fault)

/-- The double that a text writes. -/
def parseDouble (text : String) : Except LexicalFault Value :=
  match Double.read text.toList with
  | .ok d => .ok (.double d)
  | .error fault => .error (.double text fault)

/-- The decimal that a text writes. -/
def parseDecimal (text : String) : Except LexicalFault Decimal :=
  match Decimal.ofString? text with
  | some d => .ok d
  | none => .error (.notDecimal text)

/-- The dateTime that a text writes. -/
def parseDateTime (text : String) : Except LexicalFault Value :=
  match DateTime.read? text.toList with
  | some t => .ok (.dateTime t)
  | none => .error (.notDateTime text)

/-- The value of a type that a text writes. -/
def parse (type : TextType) (text : String) : Except LexicalFault Value :=
  let trimmed := Text.trim text
  match type with
  | .boolean => parseBoolean trimmed
  | .int => parseInteger Int32.minValue.toInt Int32.maxValue.toInt (fun n => .int (.ofInt n)) trimmed
  | .long => parseInteger Int64.minValue.toInt Int64.maxValue.toInt (fun n => .long (.ofInt n)) trimmed
  | .double => parseDouble trimmed
  | .decimal => (parseDecimal trimmed).map .decimal
  | .integer => do
    let d ← parseDecimal trimmed
    if d.isInteger then .ok (.decimal d) else .error (.fractional trimmed)
  | .dateTime => parseDateTime trimmed
  | .string => .ok (.string text)

end SoapBinding.TextType
