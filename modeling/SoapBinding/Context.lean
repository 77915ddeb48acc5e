import Std.Data.TreeMap
import SoapBinding.Error

/-!
# Contexts of an exchange

A `Context` holds what one exchange of messages shares: the attachments registered so far, whether
payloads travel as attachments or inline, how a message refers to attachments, and how many bytes of
an inline payload are encoded at a time.

An attachment is known by its id. Registering the same content again changes nothing; another content
under an id in use is refused. An index from ids to positions stands beside the list, so that looking
an id up does not search it.
-/

namespace SoapBinding

/-- How a message refers to an attachment. -/
inductive Reference where
  /-- By an `href` attribute of the property's element. -/
  | href
  /-- By an `xop:Include` element inside it. -/
  | xopInclude
  deriving Repr, DecidableEq

/-- The state of an exchange. -/
structure Context where
  /-- The attachments, in the order in which they were registered. -/
  attachments : List Binary
  /-- The position of each id among the attachments. -/
  index : Std.TreeMap String Nat
  /-- Whether payloads travel as attachments. -/
  multipart : Bool
  /-- How messages refer to attachments. -/
  reference : Reference
  /-- How many bytes of an inline payload are encoded at a time: a positive multiple of three. -/
  chunkSize : Nat

namespace Context

/-- The number of bytes encoded at a time, unless a setting tells otherwise. -/
def defaultChunkSize : Nat := 49152

/-- An inline context. The chunk size is rounded down to whole base64 quanta, and is at least one. -/
def ofSettings (reference : Reference) (chunkSize : Nat) : Context :=
  ⟨[], ∅, false, reference, max (chunkSize / 3 * 3) 3⟩

/-- An inline context with the usual settings. -/
def inline : Context := ofSettings .xopInclude defaultChunkSize

/-- A context whose payloads travel as attachments. -/
def withAttachments (reference : Reference) : Context := { inline with multipart := true, reference }

/-- The attachment of an id. -/
def attachment? (c : Context) (id : String) : Option Binary := do
  let position ← c.index[id]?
  c.attachments[position]?

/-- The attachment of an id, which has to be registered. -/
def resolve (c : Context) (id : String) : Except Error Binary :=
  match c.attachment? id with
  | some b => .ok b
  | none => .error (.attachment (.unknownId id))

/-- Registers an attachment. -/
def add (c : Context) (b : Binary) : Except Error Context :=
  match c.attachment? b.id with
  | some other => if other = b then .ok c else .error (.attachment (.duplicateId b.id))
  | none =>
    .ok { c with
      attachments := c.attachments ++ [b]
      index := c.index.insert b.id c.attachments.length }

/-- Registers attachments in order, up to the first that is refused. The context holds those in front
of it then. -/
def addAll (c : Context) : List Binary → EStateM.Result Error Context Unit
  | [] => .ok () c
  | b :: rest =>
    match c.add b with
    | .ok c => c.addAll rest
    | .error e => .error e c

/-- Hands out the attachments and forgets them. -/
def take (c : Context) : List Binary × Context :=
  (c.attachments, { c with attachments := [], index := ∅ })

end Context
end SoapBinding
