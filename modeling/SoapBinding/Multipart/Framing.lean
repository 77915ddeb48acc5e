import SoapBinding.Base64.Chunks
import SoapBinding.Error
import SoapBinding.Multipart.Chunk

/-!
# Writing bodies in parts

A `Framing` is how a body in parts is written: with which boundary, and with attachments as they are
or in base64. The message comes first, and each attachment is a part with its id. In base64 a line has
seventy-six letters.
-/

namespace SoapBinding.Multipart

/-- How attachments are written. -/
inductive TransferEncoding where
  /-- As they are. -/
  | binary
  /-- In base64. -/
  | base64
  deriving Repr, DecidableEq

/-- The name of an encoding, as a header tells it. -/
def TransferEncoding.name : TransferEncoding → String
  | .binary => "binary"
  | .base64 => "base64"

/-- How a body in parts is written. -/
structure Framing where
  /-- The text that separates parts. -/
  boundary : String
  /-- How attachments are written. -/
  encoding : TransferEncoding
  deriving Repr, DecidableEq

namespace Framing

/-! ### Boundaries -/

/-- A digit, or a small letter for a number from ten to thirty-five. -/
def tokenLetter (n : Nat) : Char := Char.ofNat (if n < 10 then 48 + n else 87 + n)

/-- The number of letters of a token. -/
def tokenLength : Nat := 32

/-- The letters of a number, the lowest digit first, filled up with zeros. -/
def token (n : Nat) : String :=
  String.ofList ((List.range tokenLength).map fun i => tokenLetter (n / Nat.pow 36 i % 36))

/-- The text in front of the token in a boundary made here. -/
def boundaryLabel : String := "MIMEBoundary_"

/-- The boundary made after `n` others. -/
def boundaryAt (n : Nat) : String := boundaryLabel ++ token n

/-! ### Writing -/

/-- The content type of the body. -/
def contentType (f : Framing) (rootType : String) : String :=
  "multipart/related; type=\"" ++ rootType ++ "\"; boundary=\"" ++ f.boundary ++ "\""

/-- The number of bytes in a line of base64 text. -/
def bytesPerLine : Nat := 57

/-- What is written for the content of an attachment. -/
def encoded (encoding : TransferEncoding) (bytes : Bytes) : Bytes :=
  match encoding with
  | .binary => bytes
  | .base64 => Utf8.ofString ("\r\n".intercalate (Base64.encodeChunks bytesPerLine bytes))

/-- The beginning of the body, up to the message. -/
def opening (f : Framing) (primaryType : String) : Bytes :=
  Utf8.ofString ("--" ++ f.boundary ++ "\r\nContent-Type: " ++ primaryType ++
    "\r\nContent-Transfer-Encoding: binary\r\n\r\n")

/-- What stands in front of the content of an attachment. -/
def partOpening (f : Framing) (id : String) : Bytes :=
  Utf8.ofString ("\r\n--" ++ f.boundary ++ "\r\nContent-Type: application/octet-stream" ++
    "\r\nContent-Transfer-Encoding: " ++ f.encoding.name ++
    "\r\nContent-ID: <" ++ id ++ ">\r\n\r\n")

/-- The end of the body. -/
def closing (f : Framing) : Bytes := Utf8.ofString ("\r\n--" ++ f.boundary ++ "--\r\n")

/-- The parts of attachments, unless one of them stands in a file that is not there. -/
def renderAttachments (files : Files) (f : Framing) : List Binary → Option Bytes
  | [] => some []
  | b :: rest => do
    let bytes ← b.bytes? files
    let others ← renderAttachments files f rest
    some (f.partOpening b.id ++ encoded f.encoding bytes ++ others)

/-- The body, unless an attachment stands in a file that is not there. -/
def render? (files : Files) (f : Framing) (primary : Bytes) (primaryType : String)
    (attachments : List Binary) : Option Bytes := do
  let parts ← renderAttachments files f attachments
  some (f.opening primaryType ++ primary ++ parts ++ f.closing)

/-- Writes the body; `limit` is how many bytes can be written. -/
def write (files : Files) (limit : Option Nat) (f : Framing) (primary : Bytes) (primaryType : String)
    (attachments : List Binary) : Except Error Bytes :=
  match f.render? files primary primaryType attachments with
  | none => .error .io
  | some body => if limit.all (body.length ≤ ·) then .ok body else .error .io

end Framing
end SoapBinding.Multipart
