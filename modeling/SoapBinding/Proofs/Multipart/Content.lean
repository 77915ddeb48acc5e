import SoapBinding.Multipart.Part
import SoapBinding.Proofs.Base64.Pieces
import SoapBinding.Proofs.Text.Utf8

/-!
# The content of a part, decoded as a whole

A content is read in pieces that may be cut anywhere, also in the middle of a character. What it is
decoded to depends on the bytes of all the pieces alone: `Encoding.decode?` says how. A `Content` that
has taken pieces `Holds` their bytes; a piece that is refused shows that no content which begins with
the bytes up to there can be decoded.
-/

namespace SoapBinding.Multipart

/-- The content that an encoded body stands for. Blanks mean nothing in base64. -/
def Encoding.decode? : Encoding → Bytes → Option Bytes
  | .plain, bytes => some bytes
  | .base64, bytes =>
    (Utf8.decode? bytes).bind fun cs => Base64.decode? (cs.filter fun c => !Text.isAsciiBlank c)

/-! ### Bytes outside ASCII -/

/-- Bytes in ASCII are a text. -/
theorem exists_encode_of_ascii {bytes : Bytes} (h : ∀ b ∈ bytes, b.toNat < 0x80) :
    ∃ cs, bytes = Utf8.encode cs := by
  induction bytes with
  | nil => exact ⟨[], rfl⟩
  | cons b bytes ih =>
    have hb : b.toNat < 0x80 := h b List.mem_cons_self
    obtain ⟨cs, rfl⟩ := ih fun b' hb' => h b' (List.mem_cons_of_mem b hb')
    refine ⟨Char.ofNat b.toNat :: cs, ?_⟩
    have htoNat : (Char.ofNat b.toNat).toNat = b.toNat := Utf8.toNat_ofNat (.inl (by omega))
    rcases Utf8.encodeChar_cases (Char.ofNat b.toNat) with ⟨-, he⟩ | ⟨hc, -⟩
    · rw [Utf8.encode_cons, he, htoNat, UInt8.ofNat_toNat]
      rfl
    · omega

/-- A byte outside ASCII leaves no base64 text to be read. -/
theorem decode?_base64_eq_none {bytes : Bytes} {b : UInt8} (h : b ∈ bytes) (hb : 0x80 ≤ b.toNat) :
    Encoding.base64.decode? bytes = none := by
  cases hd : Utf8.decode? bytes with
  | none => rw [Encoding.decode?, hd, Option.bind_none]
  | some cs =>
    rw [Encoding.decode?, hd, Option.bind_some]
    rw [Utf8.eq_encode_of_decode? hd, Utf8.encode, List.mem_flatMap] at h
    obtain ⟨c, hc, hmem⟩ := h
    rcases Utf8.encodeChar_cases c with ⟨hlt, he⟩ | ⟨hge, -⟩
    · rw [he, List.mem_singleton] at hmem
      rw [hmem, UInt8.toNat_ofNat'] at hb
      omega
    · have hblank : Text.isAsciiBlank c = false := by
        by_contra hblank
        simp only [Bool.not_eq_false, Text.isAsciiBlank, Bool.or_eq_true, beq_iff_eq] at hblank
        rcases hblank with (((rfl | rfl) | rfl) | rfl) | rfl <;> exact absurd hge (by decide)
      apply Base64.decode?_eq_none_of_mem (c := c)
      · simp [hc, hblank]
      · cases hv : Base64.value? c with
        | none => rfl
        | some n => exact absurd (Base64.toNat_lt_of_value? hv) (by omega)
      · rintro rfl
        exact absurd hge (by decide)

/-! ### Contents that hold bytes -/

namespace Content

/-- A content that is decoded so has taken these bytes. -/
def Holds : Encoding → Content → Bytes → Prop
  | .plain, .plain content, bytes => content.toList = bytes
  | .base64, .base64 decoder, bytes =>
    ∃ cs, bytes = Utf8.encode cs ∧ decoder.StandsFor (Base64.Decoder.letters cs)
  | _, _, _ => False

theorem holds_start (encoding : Encoding) : Holds encoding (start encoding) [] := by
  cases encoding with
  | plain => rfl
  | base64 => exact ⟨[], rfl, Base64.Decoder.standsFor_start⟩

variable {encoding : Encoding} {content : Content} {bytes : Bytes}

/-- A line break is taken with the rest; in base64 it has no letters. -/
theorem Holds.breakLine (h : Holds encoding content bytes) :
    Holds encoding content.breakLine (bytes ++ crlf) := by
  match encoding, content, h with
  | .plain, .plain content, h =>
    show (content ++ crlf).toList = bytes ++ crlf
    rw [Array.toList_appendList, h]
  | .base64, .base64 decoder, ⟨cs, hbytes, hd⟩ =>
    refine ⟨cs ++ ['\r', '\n'], ?_, ?_⟩
    · rw [hbytes, Utf8.encode_append]
      rfl
    · have hletters : Base64.Decoder.letters (cs ++ ['\r', '\n']) = Base64.Decoder.letters cs := by
        rw [Base64.Decoder.letters, List.filter_append]
        exact List.append_nil _
      rw [hletters]
      exact hd

/-- A piece that is taken adds its bytes. -/
theorem Holds.push {piece : Bytes} {content' : Content} (h : Holds encoding content bytes)
    (hp : content.push piece = .ok content') : Holds encoding content' (bytes ++ piece) := by
  match encoding, content, h with
  | .plain, .plain content, h =>
    cases hp
    show (content ++ piece).toList = bytes ++ piece
    rw [Array.toList_appendList, h]
  | .base64, .base64 decoder, ⟨cs, hbytes, hd⟩ =>
    simp only [Content.push] at hp
    split at hp
    · cases hp
    · next ds hds =>
      split at hp
      · cases hp
      · next decoder' hdecoder =>
        cases hp
        refine ⟨cs ++ ds, ?_, ?_⟩
        · rw [hbytes, Utf8.eq_encode_of_decode? hds, Utf8.encode_append]
        · have := hd.push hdecoder
          rwa [Base64.Decoder.letters, Base64.Decoder.letters, ← List.filter_append] at this

/-- A piece that is refused leaves nothing to be read, whatever comes next. -/
theorem Holds.refused {piece : Bytes} {fault : AttachmentFault} (h : Holds encoding content bytes)
    (hp : content.push piece = .error fault) (next : Bytes) :
    encoding.decode? (bytes ++ piece ++ next) = none := by
  match encoding, content, h with
  | .plain, .plain content, h => cases hp
  | .base64, .base64 decoder, ⟨cs, hbytes, hd⟩ =>
    simp only [Content.push] at hp
    split at hp
    · next hnone =>
      obtain ⟨b, hb, hlarge⟩ : ∃ b ∈ piece, 0x80 ≤ b.toNat := by
        by_contra hall
        have hascii : ∀ b ∈ piece, b.toNat < 0x80 := fun b hb =>
          Nat.lt_of_not_le fun h => hall ⟨b, hb, h⟩
        obtain ⟨ds, hds⟩ := exists_encode_of_ascii hascii
        rw [hds, Utf8.decode?_encode] at hnone
        cases hnone
      exact decode?_base64_eq_none (by simp [hb]) hlarge
    · next ds hds =>
      split at hp
      · next fault hfault =>
        rw [hbytes, Utf8.eq_encode_of_decode? hds, ← Utf8.encode_append, Encoding.decode?,
          Utf8.decode?_encode_append]
        cases Utf8.decode? next with
        | none => rfl
        | some es =>
          have hnone := hd.refused hfault (Base64.Decoder.letters es)
          rw [Base64.Decoder.letters, Base64.Decoder.letters, Base64.Decoder.letters,
            ← List.filter_append, ← List.filter_append] at hnone
          exact hnone
      · cases hp

/-- **The whole content is what its bytes are decoded to.** -/
theorem Holds.finish (h : Holds encoding content bytes) :
    (∃ decoded, encoding.decode? bytes = some decoded ∧ content.finish = .ok decoded) ∨
      (encoding.decode? bytes = none ∧ ∃ fault, content.finish = .error fault) := by
  match encoding, content, h with
  | .plain, .plain content, h => exact .inl ⟨bytes, rfl, by rw [Content.finish, h]⟩
  | .base64, .base64 decoder, ⟨cs, hbytes, hd⟩ =>
    have hfinish := Base64.Decoder.finish_of_standsFor hd
    rw [Base64.Decoder.letters] at hfinish
    rw [hbytes, Encoding.decode?, Utf8.decode?_encode, Option.bind_some]
    simp only [Content.finish]
    cases hdec : Base64.decode? (cs.filter fun c => !Text.isAsciiBlank c) with
    | none =>
      rw [hdec] at hfinish
      exact .inr ⟨rfl, .base64 .malformed, by rw [hfinish]⟩
    | some decoded =>
      rw [hdec] at hfinish
      exact .inl ⟨decoded, rfl, by rw [hfinish]⟩

end Content
end SoapBinding.Multipart
