import SoapBinding.Context
import SoapBinding.Multipart.ContentType
import SoapBinding.Multipart.Part

/-!
# Envelopes

An `Envelope` is what a transport body holds: the primary content, which is the message, and
attachments. Where the content type announces no parts, the body as a whole is the primary content
and is not read at all. Otherwise the first part is the primary content, and each other part is an
attachment under the id that its headers give.
-/

namespace SoapBinding.Multipart

/-- What a transport body holds. -/
structure Envelope where
  /-- The message. -/
  primary : Source
  /-- The content type of the part that holds the message. -/
  primaryType : Option String
  /-- The attachments, in order. -/
  attachments : List Binary
  /-- Whether the body was in parts. -/
  isMultipart : Bool
  deriving Repr, DecidableEq

namespace Envelope

/-- The attachments that parts hold. Ids have to be distinct; `met` holds those of the parts in front.
A part whose id is empty gets a fresh one. -/
def attachmentsOf (nonces : Nonces) (met : List String) :
    List Part → Except AttachmentFault (List Binary × Nonces)
  | [] => .ok ([], nonces)
  | part :: rest =>
    match part.headers.contentId? with
    | none => .error .partWithoutId
    | some id =>
      if met.contains id then .error (.duplicatePartId id)
      else do
        let (fresh, nonces) := nonces.next
        let (others, nonces) ← attachmentsOf nonces (id :: met) rest
        .ok ((Binary.ofBytes fresh part.content).withId id :: others, nonces)

/-- The envelope that parts make up. -/
def ofParts (nonces : Nonces) : List Part → Except AttachmentFault (Envelope × Nonces)
  | [] => .error .noParts
  | primary :: others => do
    let (attachments, nonces) ← attachmentsOf nonces [] others
    .ok (⟨.ofBytes primary.content, primary.headers.get? "content-type", attachments, true⟩, nonces)

/-- Reads the body that a content type describes. -/
def read (limits : Limits) (contentType : String) (nonces : Nonces) (s : Source) :
    Except Error (Envelope × Nonces) :=
  match relatedBoundary? contentType with
  | none => .ok (⟨s, none, [], false⟩, nonces)
  | some boundary => do
    let parts ← Part.ofSource limits (Utf8.ofString boundary) s
    (ofParts nonces parts).mapError .attachment

/-- Registers the attachments in a context, which then holds payloads as attachments if the body was
in parts. -/
def populate (e : Envelope) : EStateM Error Context Unit := fun c =>
  match c.addAll e.attachments with
  | .ok () c => .ok () (if e.isMultipart then { c with multipart := true } else c)
  | .error fault c => .error fault c

/-- The description of an envelope. -/
def describe (e : Envelope) : String :=
  Text.openRecord "MultipartEnvelope" [
    ("multipart", Text.truth e.isMultipart),
    ("primary_content_type", Text.optional (e.primaryType.map Text.quoted)),
    ("attachments", Text.listing (e.attachments.map Binary.describe))]

end Envelope
end SoapBinding.Multipart
