import SoapBinding.Percent
import SoapBinding.Proofs.Text.Integer
import SoapBinding.Proofs.Text.Utf8

/-!
# References name the ids they are written for

Every byte of an id is written as itself or as an escape, and reading takes either back: a byte that
stands for itself is no `%`, and the two digits behind a `%` are those of one byte.
-/

namespace SoapBinding.Percent

/-! ### Digits -/

/-- A digit as a byte. -/
def hexByte (n : Nat) : UInt8 := UInt8.ofNat (hexDigit n).toNat

theorem toNat_hexDigit {n : Nat} (h : n < 16) :
    (hexDigit n).toNat = if n < 10 then n + 48 else n + 55 := by
  unfold hexDigit
  split
  · exact Utf8.toNat_ofNat (.inl (by omega))
  · exact Utf8.toNat_ofNat (.inl (by omega))

theorem toNat_hexByte {n : Nat} (h : n < 16) :
    (hexByte n).toNat = if n < 10 then n + 48 else n + 55 := by
  rw [hexByte, UInt8.toNat_ofNat', toNat_hexDigit h]
  split <;> omega

theorem hexValue?_hexByte {n : Nat} (h : n < 16) : hexValue? (hexByte n) = some n := by
  have hb := toNat_hexByte h
  unfold hexValue?
  simp only [UInt8.le_iff_toNat_le, UInt8.reduceToNat, Bool.and_eq_true, decide_eq_true_eq]
  split at hb
  · rw [if_pos (by omega), hb]
    exact congrArg some (by omega)
  · rw [if_neg (by omega), if_pos (by omega), hb]
    exact congrArg some (by omega)

/-- The digits of a byte are an escape for it. -/
theorem escape?_hexByte (b : UInt8) :
    escape? (hexByte (b.toNat / 16)) (hexByte (b.toNat % 16)) = some b := by
  have hlt := b.toNat_lt
  have hhigh : b.toNat / 16 < 16 := by omega
  have hplus : (hexByte (b.toNat / 16) == 0x2B) = false := by
    rw [beq_eq_false_iff_ne]
    intro he
    have hb := toNat_hexByte hhigh
    rw [he] at hb
    split at hb <;> simp at hb
  rw [escape?, hplus, hexValue?_hexByte hhigh, hexValue?_hexByte (by omega)]
  refine congrArg some (UInt8.toNat_inj.1 ?_)
  rw [UInt8.toNat_ofNat']
  omega

/-! ### Bytes -/

/-- The bytes of a byte as it is written. -/
theorem encode_encodeByte (b : UInt8) :
    Utf8.encode (encodeByte b) =
      if isPlain b then [b] else [0x25, hexByte (b.toNat / 16), hexByte (b.toNat % 16)] := by
  have hlt := b.toNat_lt
  have hdigit {n : Nat} (hn : n < 16) : String.utf8EncodeChar (hexDigit n) = [hexByte n] := by
    refine Utf8.encodeChar_of_ascii ?_
    rw [toNat_hexDigit hn]
    split <;> omega
  unfold encodeByte
  split
  · next hplain =>
    have hascii : b.toNat < 0x80 := by
      simp only [isPlain, Bool.and_eq_true, decide_eq_true_eq, UInt8.lt_iff_toNat_lt] at hplain
      exact hplain.1
    have htoNat : (Char.ofNat b.toNat).toNat = b.toNat := Utf8.toNat_ofNat (.inl (by omega))
    rw [Utf8.encode_cons, Utf8.encodeChar_of_ascii (by omega), htoNat, UInt8.ofNat_toNat]
    rfl
  · rw [Utf8.encode_cons, Utf8.encode_cons, Utf8.encode_cons, hdigit (by omega), hdigit (by omega)]
    rfl

theorem isPlain_percent : isPlain 0x25 = false := by decide

/-- A written byte in front of others is read as that byte. -/
theorem decodeBytes_encodeByte (b : UInt8) (rest : Bytes) :
    decodeBytes (Utf8.encode (encodeByte b) ++ rest) = b :: decodeBytes rest := by
  rw [encode_encodeByte]
  split
  · next hplain =>
    have hne : (b == 0x25) = false := by
      rw [beq_eq_false_iff_ne]
      rintro rfl
      rw [isPlain_percent] at hplain
      cases hplain
    rw [List.singleton_append, decodeBytes.eq_def]
    dsimp only
    rw [if_neg (by rw [hne]; decide)]
  · rw [List.cons_append, List.cons_append, List.singleton_append, decodeBytes.eq_def]
    dsimp only
    rw [if_pos (by decide), escape?_hexByte]

theorem decodeBytes_encode (bytes : Bytes) :
    decodeBytes (Utf8.encode (bytes.flatMap encodeByte)) = bytes := by
  induction bytes with
  | nil => rfl
  | cons b bytes ih =>
    rw [List.flatMap_cons, Utf8.encode_append, decodeBytes_encodeByte, ih]

/-- **A reference names the id it is written for.** -/
theorem decode_encode (id : String) : decode (encode id) = id := by
  rw [decode, encode, Utf8.ofString, String.toList_ofList, decodeBytes_encode,
    Utf8.toStringLossy_ofString]

/-! ### Trimming -/

/-- Nothing in a reference is blank. -/
theorem isBlank_of_mem_encodeByte {b : UInt8} {c : Char} (h : c ∈ encodeByte b) :
    Text.isBlank c = false := by
  have hlt := b.toNat_lt
  have hdigit {n : Nat} (hn : n < 16) : Text.isBlank (hexDigit n) = false := by
    have := toNat_hexDigit hn
    simp only [Text.isBlank, Bool.or_eq_false_iff, Bool.and_eq_false_iff, decide_eq_false_iff_not,
      beq_eq_false_iff_ne]
    split at this <;> omega
  unfold encodeByte at h
  split at h
  · next hplain =>
    rw [List.mem_singleton.1 h]
    have hascii : b.toNat < 0x80 := by
      simp only [isPlain, Bool.and_eq_true, decide_eq_true_eq, UInt8.lt_iff_toNat_lt] at hplain
      exact hplain.1
    cases hblank : Text.isBlank (Char.ofNat b.toNat) with
    | false => rfl
    | true =>
      -- the blank characters of ASCII are six, and none of them is written as itself
      have htoNat : (Char.ofNat b.toNat).toNat = b.toNat := Utf8.toNat_ofNat (.inl (by omega))
      simp only [Text.isBlank, htoNat, Bool.or_eq_true, Bool.and_eq_true, decide_eq_true_eq,
        beq_iff_eq] at hblank
      have hb : b ∈ [9, 10, 11, 12, 13, (32 : UInt8)] := by
        simp only [List.mem_cons, List.not_mem_nil, or_false, ← UInt8.toNat_inj, UInt8.reduceToNat]
        omega
      have hblanks : [9, 10, 11, 12, 13, (32 : UInt8)].any isPlain = false := by decide
      exact absurd hplain (List.any_eq_false.1 hblanks b hb)
  · simp only [List.mem_cons, List.not_mem_nil, or_false] at h
    rcases h with rfl | rfl | rfl
    · decide
    · exact hdigit (by omega)
    · exact hdigit (by omega)

theorem isBlank_of_mem_encode {id : String} {c : Char} (h : c ∈ (encode id).toList) :
    Text.isBlank c = false := by
  rw [encode, String.toList_ofList, List.mem_flatMap] at h
  obtain ⟨b, _, hb⟩ := h
  exact isBlank_of_mem_encodeByte hb

end SoapBinding.Percent
