import SoapBinding.Text.Utf8

/-!
# Sources

A `Source` is what a stream delivers: its bytes, and whether it then ends or fails. Whoever reads up
to the end of the bytes meets that ending; whoever stops before does not.
-/

namespace SoapBinding

/-- The bytes of a stream and its ending. -/
structure Source where
  /-- The bytes delivered. -/
  bytes : Bytes
  /-- Whether reading past the bytes fails, instead of finding the end. -/
  fails : Bool
  deriving Repr, DecidableEq

namespace Source

/-- A stream that delivers bytes and ends. -/
def ofBytes (bytes : Bytes) : Source := ⟨bytes, false⟩

/-- A stream that fails after a number of bytes, if there are as many. -/
def failingAfter (n : Nat) (bytes : Bytes) : Source :=
  if n ≤ bytes.length then ⟨bytes.take n, true⟩ else ⟨bytes, false⟩

/-- All bytes, unless the stream fails. -/
def all? (s : Source) : Option Bytes := if s.fails then none else some s.bytes

end Source
end SoapBinding
