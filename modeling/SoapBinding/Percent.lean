import SoapBinding.Text.Utf8

/-!
# Percent escapes in content references

A content is referenced as `cid:` and its id, where every byte of the id that a URL does not admit
there is written `%XX` with capital hexadecimal digits. Reading goes from left to right: a `%` with
an escape behind it stands for that byte and any other byte for itself, and the bytes are then read
as UTF-8, leniently.

The escape that is read is wider than the one that is written. Its digits may be small letters, and
the first of them may be a `+` sign in front of a single digit, so `%+4` reads as byte four.
-/

namespace SoapBinding.Percent

/-- The punctuation that stands for itself in a reference. -/
def plainMarks : List Char := "-._~!$&'()*+,;=:@/".toList

/-- Whether a byte stands for itself in a reference. -/
def isPlain (b : UInt8) : Bool :=
  let c := Char.ofNat b.toNat
  b < 0x80 && (c.isAlphanum || plainMarks.contains c)

/-- The capital hexadecimal digit of a value below sixteen. -/
def hexDigit (n : Nat) : Char := if n < 10 then Char.ofNat (n + 48) else Char.ofNat (n + 55)

/-- One byte as it is written. -/
def encodeByte (b : UInt8) : List Char :=
  if isPlain b then [Char.ofNat b.toNat] else ['%', hexDigit (b.toNat / 16), hexDigit (b.toNat % 16)]

/-- A content id as it is written in a reference. -/
def encode (id : String) : String := String.ofList ((Utf8.ofString id).flatMap encodeByte)

/-- The value of a hexadecimal digit in either case. -/
def hexValue? (b : UInt8) : Option Nat :=
  if 0x30 ≤ b && b ≤ 0x39 then some (b.toNat - 0x30)
  else if 0x41 ≤ b && b ≤ 0x46 then some (b.toNat - 0x37)
  else if 0x61 ≤ b && b ≤ 0x66 then some (b.toNat - 0x57)
  else none

/-- The byte that two bytes behind a `%` stand for. -/
def escape? (a b : UInt8) : Option UInt8 :=
  if a == 0x2B then (hexValue? b).map UInt8.ofNat
  else do
    let high ← hexValue? a
    let low ← hexValue? b
    some (UInt8.ofNat (high * 16 + low))

/-- Replaces the escapes. -/
def decodeBytes : Bytes → Bytes
  | [] => []
  | x :: rest =>
    if x == 0x25 then
      match rest with
      | a :: b :: rest' =>
        match escape? a b with
        | some byte => byte :: decodeBytes rest'
        | none => x :: decodeBytes (a :: b :: rest')
      | short => x :: decodeBytes short
    else x :: decodeBytes rest

/-- The content id that a reference names. -/
def decode (reference : String) : String := Utf8.toStringLossy (decodeBytes (Utf8.ofString reference))

end SoapBinding.Percent
