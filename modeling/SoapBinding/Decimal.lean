import SoapBinding.Text.Blank

/-!
# Decimals

An `xs:decimal`, or a number of the `xs:integer` family, of any precision. It is kept as the text it
was written with: `1.0` and `1.00` are two decimals. The text has one optional sign and then ASCII
digits with at most one point among them, at least one digit in all.
-/

namespace SoapBinding

namespace Decimal

/-- Digits with at most one point, and at least one digit. -/
def isUnsigned (cs : List Char) : Bool :=
  let whole := cs.takeWhile (· != '.')
  match cs.dropWhile (· != '.') with
  | [] => whole.all Char.isDigit && !whole.isEmpty
  | _ :: fraction =>
    whole.all Char.isDigit && fraction.all Char.isDigit && !(whole.isEmpty && fraction.isEmpty)

/-- Without one sign in front. -/
def unsigned : List Char → List Char
  | '+' :: cs => cs
  | '-' :: cs => cs
  | cs => cs

/-- Whether a text is a decimal. -/
def isLexical (cs : List Char) : Bool := isUnsigned (unsigned cs)

end Decimal

/-- A decimal, as its text. -/
structure Decimal where
  /-- The text, without blanks around it. -/
  text : String
  /-- The text is a decimal's. -/
  lexical : Decimal.isLexical text.toList = true
  deriving DecidableEq

namespace Decimal

/-- The decimal that a text shows between blanks. -/
def ofString? (s : String) : Option Decimal :=
  if h : isLexical (Text.trim s).toList = true then some ⟨Text.trim s, h⟩ else none

/-- Whether no point is written. -/
def isInteger (d : Decimal) : Bool := !d.text.toList.contains '.'

example : isLexical "-.5".toList = true := by decide +kernel
example : isLexical "+.".toList = false := by decide +kernel

end Decimal
end SoapBinding
