import SoapBinding.Base64.Basic
import SoapBinding.Text.Record

/-!
# Binary contents and their ids

A `Binary` is a payload with an id under which a message refers to it. Its bytes are held in memory
or stand in a file, which is looked up in a `Files` only when the bytes are needed. Two contents are
the same when they have one id and one storage; contents in files are compared by path.

A content that is not given an id gets one from a supply of nonces: the base64 text of forty-two
bytes, which is fifty-six letters without padding. The supply is a counter, so that the nonces it
hands out differ; the fixed bytes in front of the count keep the ids apart from ordinary text.
-/

namespace SoapBinding

/-! ### Ids -/

/-- A supply of nonces for ids: how many have been handed out. -/
structure Nonces where
  /-- The number of nonces handed out so far. -/
  used : Nat
  deriving Repr, DecidableEq

namespace Nonces

/-- The number of bytes of a nonce. -/
def nonceLength : Nat := 42

/-- The bytes in front of the count. -/
def label : Bytes := Utf8.ofString "urn:soap-binding:content-id:nonce:"

/-- A number in eight bytes, the highest first. -/
def counted (n : Nat) : Bytes :=
  [7, 6, 5, 4, 3, 2, 1, 0].map fun place => UInt8.ofNat (n / Nat.pow 256 place)

/-- The nonce handed out after `n` others. -/
def nonce (n : Nat) : Bytes := label ++ counted n

/-- The id that the nonce after `n` others gives. -/
def idAt (n : Nat) : String := String.ofList (Base64.encode (nonce n))

/-- No nonce handed out yet. -/
def fresh : Nonces := ⟨0⟩

/-- The next id, and the supply behind it. -/
def next (s : Nonces) : String × Nonces := (idAt s.used, ⟨s.used + 1⟩)

theorem length_nonce (n : Nat) : (nonce n).length = nonceLength := by
  have : label.length = 34 := by decide +kernel
  simp [nonce, counted, this, nonceLength]

end Nonces

/-! ### Contents -/

/-- Where the bytes of a content are. -/
inductive Storage where
  /-- In memory. -/
  | memory (bytes : Bytes)
  /-- In the file of a path. -/
  | file (path : String)
  deriving Repr, DecidableEq

/-- A payload with its id. -/
structure Binary where
  /-- The id under which messages refer to the content. -/
  id : String
  /-- The payload. -/
  storage : Storage
  deriving Repr, DecidableEq

/-- The files that can be read: the bytes at a path, if there is a file. -/
def Files : Type := String → Option Bytes

namespace Files

/-- No file at all. -/
def none : Files := fun _ => Option.none

/-- The files with the one at a path written or replaced. -/
def write (files : Files) (path : String) (bytes : Bytes) : Files :=
  fun p => if p = path then some bytes else files p

end Files

namespace Binary

/-- A content in memory under an id. -/
def ofBytes (id : String) (bytes : Bytes) : Binary := ⟨id, .memory bytes⟩

/-- The content under another id; an empty one keeps the id it has. -/
def withId (b : Binary) (id : String) : Binary := if id.isEmpty then b else { b with id }

/-- Whether the bytes stand in a file. -/
def isFile (b : Binary) : Bool :=
  match b.storage with
  | .file _ => true
  | .memory _ => false

/-- The bytes, unless they stand in a file that is not there. -/
def bytes? (files : Files) (b : Binary) : Option Bytes :=
  match b.storage with
  | .memory bytes => some bytes
  | .file path => files path

/-- The description of a content: its id, and its length or its path. -/
def describe (b : Binary) : String :=
  Text.record "BinaryContent" [("content_id", Text.quoted b.id),
    match b.storage with
    | .memory bytes => ("len", toString bytes.length)
    | .file path => ("file", Text.quoted path)]

end Binary
end SoapBinding
