import SoapBinding.Source

/-!
# Lines through a bounded buffer

A body is read in lines, which end at CR LF, through a buffer of a fixed capacity. What the buffer
holds at a time is a `Chunk`: a whole line, the rest of one, or as much of one as fits. The buffer is
handed on as soon as it is full, so a line exactly as long as the capacity is a full chunk followed by
an empty one. A CR is judged by what follows it, wherever the capacity cuts.
-/

namespace SoapBinding.Multipart

/-- Why a chunk ends where it ends. -/
inductive ChunkEnd where
  /-- The line ends there, with a CR LF. -/
  | lineBreak
  /-- The buffer is full. -/
  | full
  /-- The input ends there. -/
  | inputEnd
  /-- The input fails there. -/
  | failed
  deriving Repr, DecidableEq

/-- What the buffer holds at a time. -/
structure Chunk where
  /-- The bytes, without a line break. -/
  bytes : Bytes
  /-- Why the chunk ends. -/
  ending : ChunkEnd
  deriving Repr, DecidableEq

/-- Carriage return. -/
def cr : UInt8 := 13

/-- Line feed. -/
def lf : UInt8 := 10

/-- A line break. -/
def crlf : Bytes := [cr, lf]

namespace Chunk

/-- What stands behind the last byte. -/
def lastEnd (fails : Bool) : ChunkEnd := if fails then .failed else .inputEnd

/-- The chunks of the bytes ahead. `line` holds what the buffer holds already, the last byte first,
and `room` how many more bytes fit. A CR at the end of an input that fails is not judged. -/
def scan (capacity : Nat) (fails : Bool) (line : Bytes) (room : Nat) : Bytes → List Chunk
  | [] => [⟨line.reverse, lastEnd fails⟩]
  | [b] =>
    if b = cr ∧ fails then [⟨line.reverse, .failed⟩]
    else if room ≤ 1 then [⟨(b :: line).reverse, .full⟩, ⟨[], lastEnd fails⟩]
    else [⟨(b :: line).reverse, lastEnd fails⟩]
  | b :: c :: rest =>
    if b = cr ∧ c = lf then ⟨line.reverse, .lineBreak⟩ :: scan capacity fails [] capacity rest
    else if room ≤ 1 then ⟨(b :: line).reverse, .full⟩ :: scan capacity fails [] capacity (c :: rest)
    else scan capacity fails (b :: line) (room - 1) (c :: rest)

/-- The chunks of a body. -/
def ofSource (capacity : Nat) (s : Source) : List Chunk := scan capacity s.fails [] capacity s.bytes

end Chunk

/-! ### Delimiters -/

/-- A line that separates parts. -/
inductive Delimiter where
  /-- Another part follows. -/
  | next
  /-- The last part is over. -/
  | terminal
  deriving Repr, DecidableEq

/-- Space or tab. -/
def isPadding (b : UInt8) : Bool := b == 0x20 || b == 0x09

/-- A line without the padding at its end. -/
def unpadded (line : Bytes) : Bytes := (line.reverse.dropWhile isPadding).reverse

/-- Two hyphens. -/
def hyphens : Bytes := [0x2D, 0x2D]

/-- The delimiter that a line is. -/
def delimiter? (boundary line : Bytes) : Option Delimiter :=
  let line := unpadded line
  if line = hyphens ++ boundary then some .next
  else if line = hyphens ++ boundary ++ hyphens then some .terminal
  else none

/-- The delimiter that a chunk is. It has to be a whole line, so it begins where a line begins and
does not end because the buffer is full. -/
def Chunk.delimiter? (boundary : Bytes) (atLineStart : Bool) (c : Chunk) : Option Delimiter :=
  if atLineStart && c.ending != .full then Multipart.delimiter? boundary c.bytes else none

end SoapBinding.Multipart
