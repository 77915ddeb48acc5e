import SoapBinding.Multipart.Chunk
import SoapBinding.Multipart.Headers

/-!
# Parts of a body

A body in parts is a preamble, which does not count, and parts between delimiter lines. A part is its
headers, up to the first empty line, and its content. The line break in front of a delimiter belongs
to the delimiter, and every other one to the content. Behind the terminal delimiter nothing is read.

The readers go through chunks. None of them asks for a chunk behind the end of the input: there the
input ends once more.
-/

namespace SoapBinding.Multipart

/-- A part of a body. -/
structure Part where
  /-- The headers. -/
  headers : Headers
  /-- The content, decoded. -/
  content : Bytes
  deriving Repr, DecidableEq

/-! ### Preamble -/

/-- Skips everything up to the first delimiter. -/
def skipPreamble (boundary : Bytes) (atLineStart : Bool) : List Chunk → Except Error (List Chunk)
  | [] => .error (.attachment .noParts)
  | c :: rest =>
    if c.ending = .failed then .error .io
    else match c.delimiter? boundary atLineStart with
      | some .next => .ok rest
      | some .terminal => .error (.attachment .noParts)
      | none =>
        if c.ending = .inputEnd then .error (.attachment .noParts)
        else skipPreamble boundary (c.ending == .lineBreak) rest

/-! ### Headers -/

/-- Reads headers up to an empty line. `line` holds what has been read of a line already. -/
def readHeaders (headers : Headers) (line : Bytes) :
    List Chunk → Except Error (Headers × List Chunk)
  | [] => .error (.attachment .endedInHeaders)
  | c :: rest =>
    let line := line ++ c.bytes
    match c.ending with
    | .failed => .error .io
    | .inputEnd => .error (.attachment .endedInHeaders)
    | .full => readHeaders headers line rest
    | .lineBreak =>
      if line.isEmpty then .ok (headers, rest)
      else match headers.addLine (Utf8.decodeLossy line) with
        | .error fault => .error (.attachment fault)
        | .ok headers => readHeaders headers [] rest

/-! ### Contents -/

/-- The content of a part, read so far. -/
inductive Content where
  /-- Content that is kept as it stands. -/
  | plain (bytes : Array UInt8)
  /-- Content in base64. -/
  | base64 (decoder : Base64.Decoder)

namespace Content

/-- Nothing read yet. -/
def start : Encoding → Content
  | .plain => .plain #[]
  | .base64 => .base64 .start

/-- With a line break behind. It means nothing in base64. -/
def breakLine : Content → Content
  | .plain bytes => .plain (bytes ++ crlf)
  | .base64 decoder => .base64 decoder

/-- With more bytes behind. -/
def push (bytes : Bytes) : Content → Except AttachmentFault Content
  | .plain content => .ok (.plain (content ++ bytes))
  | .base64 decoder =>
    match Utf8.decode? bytes with
    | none => .error .undecodableBase64
    | some cs =>
      match decoder.push cs with
      | .error fault => .error (.base64 fault)
      | .ok decoder => .ok (.base64 decoder)

/-- The whole content. -/
def finish : Content → Except AttachmentFault Bytes
  | .plain bytes => .ok bytes.toList
  | .base64 decoder =>
    match decoder.finish with
    | .error fault => .error (.base64 fault)
    | .ok bytes => .ok bytes

end Content

/-- Reads content up to a delimiter. `afterBreak` tells whether a line break waits to be kept or
dropped, and `atLineStart` whether a line begins here. -/
def readContent (boundary : Bytes) (content : Content) (atLineStart afterBreak : Bool) :
    List Chunk → Except Error (Bytes × Delimiter × List Chunk)
  | [] => .error (.attachment .unterminated)
  | c :: rest =>
    if c.ending = .failed then .error .io
    else match c.delimiter? boundary atLineStart with
      | some delimiter =>
        match content.finish with
        | .error fault => .error (.attachment fault)
        | .ok bytes => .ok (bytes, delimiter, rest)
      | none =>
        if c.ending = .inputEnd then .error (.attachment .unterminated)
        else
          match (if afterBreak then content.breakLine else content).push c.bytes with
          | .error fault => .error (.attachment fault)
          | .ok content =>
            let isBreak := c.ending == .lineBreak
            readContent boundary content isBreak isBreak rest

/-! ### Parts -/

/-- Reads a part, up to the delimiter behind it. -/
def readPart (boundary : Bytes) (chunks : List Chunk) :
    Except Error (Part × Delimiter × List Chunk) := do
  let (headers, chunks) ← readHeaders [] [] chunks
  match headers.encoding with
  | .error fault => .error (.attachment fault)
  | .ok encoding =>
    let (content, delimiter, chunks) ← readContent boundary (.start encoding) true false chunks
    .ok (⟨headers, content⟩, delimiter, chunks)

/-- Reads parts up to the terminal delimiter: at most `left` of the `limit` parts that a body may
have. -/
def readParts (boundary : Bytes) (limit : Nat) : Nat → List Chunk → Except Error (List Part)
  | 0, _ => .error (.attachment (.tooManyParts limit))
  | left + 1, chunks => do
    let (part, delimiter, chunks) ← readPart boundary chunks
    match delimiter with
    | .terminal => .ok [part]
    | .next =>
      let parts ← readParts boundary limit left chunks
      .ok (part :: parts)

/-- How much of a body is read at a time, and how many parts it may have. -/
structure Limits where
  /-- The capacity of the line buffer, in bytes. -/
  lineBuffer : Nat
  /-- The number of parts allowed. -/
  maxParts : Nat
  deriving Repr, DecidableEq

/-- The usual limits. -/
def Limits.usual : Limits := ⟨8192, 1024⟩

/-- The capacity of the line buffer: never too small for a delimiter with some padding. -/
def Limits.capacity (l : Limits) (boundary : Bytes) : Nat := max l.lineBuffer (boundary.length + 8)

/-- The parts of a body. -/
def Part.ofSource (limits : Limits) (boundary : Bytes) (s : Source) : Except Error (List Part) := do
  let chunks ← skipPreamble boundary true (Chunk.ofSource (limits.capacity boundary) s)
  readParts boundary limits.maxParts limits.maxParts chunks

end SoapBinding.Multipart
