import SoapBinding.Error
import SoapBinding.Text.Split

/-!
# Headers of a part

The headers of a part are names with values, in order. A line that begins with a space or a tab goes
on with the header in front of it; where there is none, it is a header itself. Names are kept in small
letters, and blanks around names and values are dropped.
-/

namespace SoapBinding.Multipart

/-- Names with values, in order. -/
abbrev Headers := List (String × String)

/-- How the body of a part is encoded. -/
inductive Encoding where
  /-- The body is the content. -/
  | plain
  /-- The body is the base64 text of the content. -/
  | base64
  deriving Repr, DecidableEq

namespace Headers

/-- The value of the first header of a name. -/
def get? (headers : Headers) (name : String) : Option String := headers.lookup name

/-- Whether a line goes on with the header in front of it. -/
def isContinuation : List Char → Bool
  | c :: _ => c == ' ' || c == '\t'
  | [] => false

/-- The header that a line gives. -/
def ofLine (line : List Char) : Except AttachmentFault (String × String) :=
  match Text.splitFirst? ':' line with
  | none => .error (.malformedHeader (String.ofList (Text.trimChars line)))
  | some (name, value) =>
    .ok (Text.lowerAscii (String.ofList (Text.trimChars name)), String.ofList (Text.trimChars value))

/-- The headers with another line. -/
def addLine (headers : Headers) (line : List Char) : Except AttachmentFault Headers :=
  match isContinuation line, headers.getLast? with
  | true, some (name, value) =>
    .ok (headers.dropLast ++ [(name, value ++ " " ++ String.ofList (Text.trimChars line))])
  | _, _ => (ofLine line).map fun header => headers ++ [header]

/-- An id without one angle bracket at either end. -/
def withoutBrackets (id : List Char) : List Char :=
  let id := match id with
    | '<' :: rest => rest
    | _ => id
  if id.getLast? = some '>' then id.dropLast else id

/-- The id under which messages refer to the part. -/
def contentId? (headers : Headers) : Option String :=
  (headers.get? "content-id").map fun value =>
    String.ofList (withoutBrackets (Text.trimChars value.toList))

/-- How the body is encoded. Quoted-printable bodies are kept as they stand. -/
def encoding (headers : Headers) : Except AttachmentFault Encoding :=
  match headers.get? "content-transfer-encoding" with
  | none => .ok .plain
  | some value =>
    let name := Text.lowerAscii value
    if name = "base64" then .ok .base64
    else if ["7bit", "8bit", "binary", "quoted-printable"].contains name then .ok .plain
    else .error (.unsupportedEncoding name)

end Headers
end SoapBinding.Multipart
