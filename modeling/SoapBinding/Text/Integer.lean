/-!
# Integers in text

An optional sign and ASCII digits. A text that is no integer, or not one between the given bounds, is
refused for what goes wrong first from left to right: a character that is no digit, or the digit that
takes the number out of bounds.
-/

namespace SoapBinding.Text

/-- Why a text is no integer between the bounds. -/
inductive IntegerFault where
  /-- There is no text. -/
  | empty
  /-- A character is no digit, or a sign stands alone. -/
  | invalidDigit
  /-- The number is above the upper bound. -/
  | tooLarge
  /-- The number is below the lower bound. -/
  | tooSmall
  deriving Repr, DecidableEq

/-- What the fault is called. -/
def IntegerFault.message : IntegerFault → String
  | .empty => "cannot parse integer from empty string"
  | .invalidDigit => "invalid digit found in string"
  | .tooLarge => "number too large to fit in target type"
  | .tooSmall => "number too small to fit in target type"

/-- The value of a digit. -/
def digitValue (c : Char) : Nat := c.toNat - 48

/-- The number that digits write. -/
def digitsValue (cs : List Char) : Nat := cs.foldl (fun n c => n * 10 + digitValue c) 0

/-- Reads on behind the number `n`, which is at most `high`. -/
def readUp (high : Int) : Int → List Char → Except IntegerFault Int
  | n, [] => .ok n
  | n, c :: cs =>
    if !c.isDigit then .error .invalidDigit
    else
      let next := n * 10 + digitValue c
      if high < next then .error .tooLarge else readUp high next cs

/-- Reads on behind the number `n`, which is at least `low`, away from zero. -/
def readDown (low : Int) : Int → List Char → Except IntegerFault Int
  | n, [] => .ok n
  | n, c :: cs =>
    if !c.isDigit then .error .invalidDigit
    else
      let next := n * 10 - digitValue c
      if next < low then .error .tooSmall else readDown low next cs

/-- The integer between `low` and `high` that a text writes. -/
def readInteger (low high : Int) : List Char → Except IntegerFault Int
  | [] => .error .empty
  | ['+'] => .error .invalidDigit
  | ['-'] => .error .invalidDigit
  | '+' :: cs => readUp high 0 cs
  | '-' :: cs => readDown low 0 cs
  | cs => readUp high 0 cs

example : readInteger (-128) 127 "-129x".toList = .error .tooSmall := by cbv
example : readInteger (-128) 127 "12x9".toList = .error .invalidDigit := by cbv

end SoapBinding.Text
