import SoapBinding.Text.Utf8

/-!
# Base64, one-shot

The standard alphabet with `+` and `/`, written with canonical padding. Reading is strict: the text
comes in whole quanta of four characters, `=` stands only at the very end, and the bits that the
padding leaves over are zero. So each byte string has exactly one written form.
-/

namespace SoapBinding.Base64

/-- The character of a six-bit value. -/
def letter (n : Nat) : Char :=
  if n < 26 then Char.ofNat (n + 65)
  else if n < 52 then Char.ofNat (n + 71)
  else if n < 62 then Char.ofNat (n - 4)
  else if n = 62 then '+'
  else '/'

/-- The six-bit value of a character of the alphabet. -/
def value? (c : Char) : Option Nat :=
  let n := c.toNat
  if 65 ≤ n && n ≤ 90 then some (n - 65)
  else if 97 ≤ n && n ≤ 122 then some (n - 71)
  else if 48 ≤ n && n ≤ 57 then some (n + 4)
  else if c == '+' then some 62
  else if c == '/' then some 63
  else none

/-- Writes three bytes as four characters; one or two bytes at the end are padded. -/
def encode : Bytes → List Char
  | [] => []
  | [a] => [letter (a.toNat / 4), letter (a.toNat % 4 * 16), '=', '=']
  | [a, b] =>
    [letter (a.toNat / 4), letter (a.toNat % 4 * 16 + b.toNat / 16), letter (b.toNat % 16 * 4), '=']
  | a :: b :: c :: rest =>
    letter (a.toNat / 4) :: letter (a.toNat % 4 * 16 + b.toNat / 16) ::
      letter (b.toNat % 16 * 4 + c.toNat / 64) :: letter (c.toNat % 64) :: encode rest

/-- Reads one quantum of four letters. -/
def quantum? (a b c d : Char) : Option Bytes := do
  let a ← value? a
  let b ← value? b
  let c ← value? c
  let d ← value? d
  some [UInt8.ofNat (a * 4 + b / 16), UInt8.ofNat (b % 16 * 16 + c / 4), UInt8.ofNat (c % 4 * 64 + d)]

/-- Reads a closing quantum with one `=`. -/
def closing2? (a b c : Char) : Option Bytes := do
  let a ← value? a
  let b ← value? b
  let c ← value? c
  if c % 4 = 0 then some [UInt8.ofNat (a * 4 + b / 16), UInt8.ofNat (b % 16 * 16 + c / 4)] else none

/-- Reads a closing quantum with two `=`. -/
def closing1? (a b : Char) : Option Bytes := do
  let a ← value? a
  let b ← value? b
  if b % 16 = 0 then some [UInt8.ofNat (a * 4 + b / 16)] else none

/-- Reads what `encode` writes and nothing else. -/
def decode? : List Char → Option Bytes
  | [] => some []
  | [a, b, '=', '='] => closing1? a b
  | [a, b, c, '='] => closing2? a b c
  | a :: b :: c :: d :: rest => do
    let bytes ← quantum? a b c d
    (decode? rest).map (bytes ++ ·)
  | _ => none

example : encode (Utf8.ofString "hello") = "aGVsbG8=".toList := by decide +kernel
example : decode? "aGVsbG8=".toList = some (Utf8.ofString "hello") := by decide +kernel
example : decode? "aGVsbG9=".toList = none := by decide +kernel
example : decode? "aGVsbG8".toList = none := by decide +kernel

end SoapBinding.Base64
