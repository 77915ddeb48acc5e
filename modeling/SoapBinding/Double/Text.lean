import SoapBinding.Double.Shortest
import SoapBinding.Text.Integer

/-!
# Doubles in text

A double is written with the fewest digits that read back, always in positional notation: there is
no exponent, and no point where the number is whole. The infinities are `INF` and `-INF`, and every
NaN is `NaN`.

Reading accepts an optional sign, digits with at most one point and at least one digit in all, and an
optional exponent, and rounds correctly. It also accepts `inf`, `infinity` and `nan` in any case.
-/

namespace SoapBinding.Double

/-- Writes `n · 10 ^ t` without an exponent. -/
def positional (n : Nat) (t : Int) : List Char :=
  let digits := Nat.toDigits 10 n
  let point := digits.length + t
  if 0 ≤ t then digits ++ List.replicate t.toNat '0'
  else if 0 < point then digits.take point.toNat ++ '.' :: digits.drop point.toNat
  else ['0', '.'] ++ List.replicate (-point).toNat '0' ++ digits

/-- The text of a double. -/
def render (d : Double) : String :=
  if d.isNaN then "NaN"
  else if d.isInfinite then (if d.isNegative then "-INF" else "INF")
  else
    let (m, q) := d.parts
    let (n, t) := if m = 0 then (0, 0) else shortest m q
    String.ofList ((if d.isNegative then ['-'] else []) ++ positional n t)

/-- Why a text is no double. -/
inductive Fault where
  /-- There is no text. -/
  | empty
  /-- The text has another form. -/
  | malformed
  deriving Repr, DecidableEq

/-- What the fault is called. -/
def Fault.message : Fault → String
  | .empty => "cannot parse float from empty string"
  | .malformed => "invalid float literal"

/-- The exponent that stands behind the mark `e`, or zero where no mark stands. -/
def exponent? : List Char → Option Int
  | [] => some 0
  | c :: cs =>
    if c.toLower != 'e' then none
    else
      let read (cs : List Char) : Option Int :=
        if cs.isEmpty || !cs.all Char.isDigit then none else some (Text.digitsValue cs)
      match cs with
      | '+' :: cs => read cs
      | '-' :: cs => (read cs).map (- ·)
      | cs => read cs

/-- The number that digits write, shifted by a power of ten. -/
def ofDigits (digits : List Char) (exponent : Int) : Nat :=
  let significant := digits.dropWhile (· == '0')
  let top := significant.length + exponent
  if significant.isEmpty then 0
  else if 310 < top then infinityBits
  else if top < -330 then 0
  else nearest (Text.digitsValue significant * tenTo exponent) (tenTo (-exponent))

/-- The magnitude that an unsigned text in digits writes. -/
def unsignedDigits? (cs : List Char) : Option Nat := do
  let whole := cs.takeWhile Char.isDigit
  let (fraction, rest) := match cs.dropWhile Char.isDigit with
    | '.' :: cs => (cs.takeWhile Char.isDigit, cs.dropWhile Char.isDigit)
    | cs => ([], cs)
  if whole.isEmpty && fraction.isEmpty then none
  else
    let exponent ← exponent? rest
    some (ofDigits (whole ++ fraction) (exponent - fraction.length))

/-- The magnitude that an unsigned text writes, in digits or as a word. -/
def unsigned? (cs : List Char) : Option Nat :=
  match String.ofList (cs.map Char.toLower) with
  | "inf" | "infinity" => some infinityBits
  | "nan" => some nan.magnitude
  | _ => unsignedDigits? cs

/-- The double that a text writes. -/
def read (cs : List Char) : Except Fault Double :=
  let signed (negative : Bool) (cs : List Char) : Except Fault Double :=
    match unsigned? cs with
    | some magnitude => .ok (ofMagnitude negative magnitude)
    | none => .error .malformed
  match cs with
  | [] => .error .empty
  | '+' :: cs => signed false cs
  | '-' :: cs => signed true cs
  | cs => signed false cs

end SoapBinding.Double
