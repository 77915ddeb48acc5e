import SoapBinding.Xml.Token

/-!
# Attributes as they are written

What stands behind the name in a start tag is a run of attributes: a key, an equals sign and a quoted
value, with white space around any of them. A key begins with any byte and ends in front of white
space or an equals sign. Scanning stops at the first attribute of another form; what stands in front
of it has been read by then.

`RawAttributes.keys` goes on behind a malformed attribute, up to the next white space, and tells which
keys a tag has in spite of it.
-/

namespace SoapBinding.Xml

/-- A key with its value, before anything in them is understood. -/
structure RawAttribute where
  /-- What stands in front of the equals sign. -/
  key : Bytes
  /-- What stands between the quotes. -/
  value : Bytes
  deriving Repr, DecidableEq

/-- The attributes of a tag up to the first that is malformed. -/
structure RawAttributes where
  /-- The attributes, in order. -/
  items : List RawAttribute
  /-- Whether a malformed one stands behind them. -/
  isFaulty : Bool
  deriving Repr, DecidableEq

namespace RawAttribute

/-- Whether a byte belongs to a key that has begun. -/
def inKey (b : UInt8) : Bool := b != 0x3D && !isSpace b

/-- The attribute whose key begins with a byte, and what stands behind it. -/
def read? (first : UInt8) (bs : Bytes) : Option (RawAttribute × Bytes) :=
  match (bs.dropWhile inKey).dropWhile isSpace with
  | [] => none
  | sign :: bs' =>
    if sign != 0x3D then none
    else match bs'.dropWhile isSpace with
      | [] => none
      | quote :: bs'' =>
        if quote != 0x22 && quote != 0x27 then none
        else match bs''.dropWhile (· != quote) with
          | [] => none
          | _ :: rest => some (⟨first :: bs.takeWhile inKey, bs''.takeWhile (· != quote)⟩, rest)

theorem length_of_read? {first : UInt8} {bs rest : Bytes} {a : RawAttribute}
    (h : read? first bs = some (a, rest)) : rest.length < bs.length := by
  simp only [read?] at h
  split at h
  · simp at h
  · next sign bs1 h1 =>
    split at h
    · simp at h
    · split at h
      · simp at h
      · next quote bs2 h2 =>
        split at h
        · simp at h
        · split at h
          · simp at h
          · next c rest' h3 =>
            cases h
            have l0 := Token.length_dropWhile_le inKey bs
            have l1 := Token.length_dropWhile_le isSpace (bs.dropWhile inKey)
            have l2 := Token.length_dropWhile_le isSpace bs1
            have l3 := Token.length_dropWhile_le (· != quote) bs2
            rw [h1] at l1
            rw [h2] at l2
            rw [h3] at l3
            simp only [List.length_cons] at l1 l2 l3
            omega

end RawAttribute

namespace RawAttributes

/-- One more attribute in front. -/
def cons (a : RawAttribute) (as : RawAttributes) : RawAttributes := ⟨a :: as.items, as.isFaulty⟩

/-- Scans what stands behind the name of a tag. -/
def scan (bs : Bytes) : RawAttributes :=
  match hs : bs.dropWhile isSpace with
  | [] => ⟨[], false⟩
  | first :: rest =>
    match ha : RawAttribute.read? first rest with
    | none => ⟨[], true⟩
    | some (a, rest') => (scan rest').cons a
termination_by bs.length
decreasing_by
  have l1 := Token.length_dropWhile_le isSpace bs
  have l2 := RawAttribute.length_of_read? ha
  rw [hs] at l1
  simp only [List.length_cons] at l1
  omega

/-- The keys that well-formed attributes have, in at most `steps` steps; `seen` are the keys that stand
in front of an equals sign before them. An attribute with such a key is passed over, as is one without
a quoted value; one without an equals sign ends where the next one begins. -/
def keysBehind (seen : List Bytes) : Nat → Bytes → List Bytes
  | 0, _ => []
  | steps + 1, bs =>
    match bs.dropWhile isSpace with
    | [] => []
    | first :: rest =>
      let key := first :: rest.takeWhile RawAttribute.inKey
      match (rest.dropWhile RawAttribute.inKey).dropWhile isSpace with
      | [] => []
      | sign :: value =>
        if sign != 0x3D then keysBehind seen steps (sign :: value)
        else if seen.contains key then keysBehind seen steps (value.dropWhile (!isSpace ·))
        else match value.dropWhile isSpace with
          | [] => []
          | quote :: rest =>
            if quote != 0x22 && quote != 0x27 then
              keysBehind (key :: seen) steps (rest.dropWhile (!isSpace ·))
            else match rest.dropWhile (· != quote) with
              | [] => []
              | _ :: rest => key :: keysBehind (key :: seen) steps rest

/-- The keys that the attributes behind the name of a tag have, in order. -/
def keys (bs : Bytes) : List Bytes := keysBehind [] bs.length bs

end RawAttributes
end SoapBinding.Xml
