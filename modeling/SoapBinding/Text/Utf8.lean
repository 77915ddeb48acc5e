/-!
# UTF-8 over lists of bytes

`encode` writes characters as bytes and `decode?` reads them back, refusing every ill-formed
sequence. `decodeLossy` never refuses: it writes U+FFFD once for each *maximal* ill-formed part,
that is, for the longest run of bytes that begins some well-formed character and cannot be
continued, or for a single byte that begins none.

Both readers take one character at a time off the front (`front`), so they differ only in what they
do with an ill-formed part.
-/

namespace SoapBinding

/-- A byte string. -/
abbrev Bytes := List UInt8

namespace Utf8

/-- The bytes of a text. -/
def encode (cs : List Char) : Bytes := cs.flatMap String.utf8EncodeChar

/-- What stands at the front of a non-empty byte string, with the bytes behind it. -/
inductive Front where
  /-- A well-formed character. -/
  | char (c : Char) (rest : Bytes)
  /-- A maximal part that is no character and cannot be completed to one. -/
  | broken (rest : Bytes)
  deriving Repr, DecidableEq

/-- Bytes that only continue a character. -/
def isTail (b : UInt8) : Bool := 0x80 ≤ b && b ≤ 0xBF

/-- For a byte that begins a longer character: how many bytes follow, the bounds of the first of
them, and the bits the lead byte contributes. The bounds shut out overlong forms, surrogates and
code points past the last plane. -/
def lead? (b : UInt8) : Option (Nat × UInt8 × UInt8 × Nat) :=
  if 0xC2 ≤ b && b ≤ 0xDF then some (1, 0x80, 0xBF, b.toNat - 0xC0)
  else if b == 0xE0 then some (2, 0xA0, 0xBF, 0)
  else if b == 0xED then some (2, 0x80, 0x9F, 0xD)
  else if 0xE1 ≤ b && b ≤ 0xEF then some (2, 0x80, 0xBF, b.toNat - 0xE0)
  else if b == 0xF0 then some (3, 0x90, 0xBF, 0)
  else if 0xF1 ≤ b && b ≤ 0xF3 then some (3, 0x80, 0xBF, b.toNat - 0xF0)
  else if b == 0xF4 then some (3, 0x80, 0x8F, 4)
  else none

/-- Reads `n` continuation bytes behind the bits `acc`; stops in front of the first byte that is
none. -/
def tails : Nat → Nat → Bytes → Front
  | 0, acc, bs => .char (Char.ofNat acc) bs
  | _ + 1, _, [] => .broken []
  | n + 1, acc, b :: bs =>
    if isTail b then tails n (acc * 64 + (b.toNat - 0x80)) bs else .broken (b :: bs)

/-- The character, or the ill-formed part, at the front of `b :: bs`. -/
def front (b : UInt8) (bs : Bytes) : Front :=
  if b < 0x80 then .char (Char.ofNat b.toNat) bs
  else match lead? b with
    | none => .broken bs
    | some (n, low, high, bits) =>
      match bs with
      | [] => .broken []
      | t :: rest =>
        if low ≤ t && t ≤ high then tails (n - 1) (bits * 64 + (t.toNat - 0x80)) rest
        else .broken (t :: rest)

/-- The bytes behind the front. -/
def Front.rest : Front → Bytes
  | .char _ rest => rest
  | .broken rest => rest

theorem length_rest_tails_le (n acc : Nat) (bs : Bytes) :
    (tails n acc bs).rest.length ≤ bs.length := by
  induction n generalizing acc bs with
  | zero => simp [tails, Front.rest]
  | succ n ih =>
    cases bs with
    | nil => simp [tails, Front.rest]
    | cons b bs =>
      simp only [tails]
      split
      · exact Nat.le_succ_of_le (ih _ bs)
      · simp [Front.rest]

/-- The front takes at least one byte. -/
theorem length_rest_front_le (b : UInt8) (bs : Bytes) :
    (front b bs).rest.length ≤ bs.length := by
  unfold front
  split
  · simp [Front.rest]
  · split
    · simp [Front.rest]
    · split
      · simp [Front.rest]
      · split
        · exact Nat.le_succ_of_le (length_rest_tails_le _ _ _)
        · simp [Front.rest]

theorem length_rest_lt {b : UInt8} {bs rest : Bytes} (h : (front b bs).rest = rest) :
    rest.length < (b :: bs).length := by
  have := length_rest_front_le b bs
  rw [h] at this
  simpa using Nat.lt_succ_of_le this

/-- The characters of a well-formed byte string. -/
def decode? : Bytes → Option (List Char)
  | [] => some []
  | b :: bs =>
    match h : front b bs with
    | .char c rest => (decode? rest).map (c :: ·)
    | .broken _ => none
termination_by bs => bs.length
decreasing_by exact length_rest_lt (by rw [h]; rfl)

/-- The characters of a byte string, with U+FFFD in place of each maximal ill-formed part. -/
def decodeLossy : Bytes → List Char
  | [] => []
  | b :: bs =>
    match h : front b bs with
    | .char c rest => c :: decodeLossy rest
    | .broken rest => '\ufffd' :: decodeLossy rest
termination_by bs => bs.length
decreasing_by all_goals exact length_rest_lt (by rw [h]; rfl)

/-- The bytes of a text. -/
def ofString (s : String) : Bytes := encode s.toList

/-- The text of a well-formed byte string. -/
def toString? (bs : Bytes) : Option String := (decode? bs).map String.ofList

/-- The text of a byte string, with U+FFFD in place of each maximal ill-formed part. -/
def toStringLossy (bs : Bytes) : String := String.ofList (decodeLossy bs)

/-! ### Small laws -/

@[simp] theorem encode_nil : encode [] = [] := rfl

@[simp] theorem encode_cons (c : Char) (cs : List Char) :
    encode (c :: cs) = String.utf8EncodeChar c ++ encode cs := rfl

@[simp] theorem encode_append (cs ds : List Char) : encode (cs ++ ds) = encode cs ++ encode ds := by
  simp [encode]

/-- A well-formed byte string reads the same either way. -/
theorem decodeLossy_of_decode? {bs : Bytes} {cs : List Char} (h : decode? bs = some cs) :
    decodeLossy bs = cs := by
  fun_induction decode? bs generalizing cs with
  | case1 => simp_all [decodeLossy]
  | case2 b bs c rest hf ih =>
    obtain ⟨ds, hd, rfl⟩ := Option.map_eq_some_iff.1 h
    rw [decodeLossy]
    split <;> simp_all
  | case3 => simp at h

end Utf8
end SoapBinding
