import SoapBinding.Base64.Basic
import SoapBinding.Text.Blank

/-!
# Base64, piece by piece

Base64 text may arrive in pieces that are cut anywhere and broken by ASCII blanks. A `Decoder` keeps
the letters that do not yet make a quantum; whole quanta are decoded as soon as they are complete,
unless one of the waiting letters is `=`, which may only stand at the end of the text and is judged
there.
-/

namespace SoapBinding.Base64

/-- Why a piece, or the text as a whole, is refused. -/
inductive Fault where
  /-- A character outside ASCII. -/
  | nonAscii
  /-- Letters that are no canonical base64. -/
  | malformed
  deriving Repr, DecidableEq

/-- A base64 text read so far. -/
structure Decoder where
  /-- Letters not decoded yet. -/
  pending : List Char
  /-- The bytes decoded so far. -/
  decoded : Array UInt8

namespace Decoder

/-- Nothing read yet. -/
def start : Decoder := ⟨[], #[]⟩

/-- The letters of a piece: all but its ASCII blanks. -/
def letters (piece : List Char) : List Char := piece.filter fun c => !Text.isAsciiBlank c

/-- Whether a character lies in ASCII. -/
def isAscii (c : Char) : Bool := c.toNat < 128

/-- Takes the next piece of the text. -/
def push (d : Decoder) (piece : List Char) : Except Fault Decoder :=
  let fresh := letters piece
  if !fresh.all isAscii then .error .nonAscii
  else
    let pending := d.pending ++ fresh
    let ready := pending.length / 4 * 4
    let now := pending.take ready
    if now.isEmpty || now.contains '=' then .ok { d with pending }
    else match decode? now with
      | none => .error .malformed
      | some bytes => .ok ⟨pending.drop ready, d.decoded ++ bytes⟩

/-- Ends the text: the waiting letters must be whole quanta, the last one padded as needed. -/
def finish (d : Decoder) : Except Fault Bytes :=
  match decode? d.pending with
  | none => .error .malformed
  | some bytes => .ok (d.decoded.toList ++ bytes)

/-- Takes all pieces in order and ends the text. -/
def run (pieces : List (List Char)) : Except Fault Bytes :=
  (pieces.foldlM push start).bind finish

end Decoder
end SoapBinding.Base64
