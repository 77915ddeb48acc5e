import SoapBinding.Proofs.Codec.Instants

/-!
# Numerals in elements

What decimals are read from, alone and as the content of elements. A decimal is a numeral that is kept as its text, and
the text of an element is read as an integer of any size if its numeral has no point. The two ways to fail are told
apart: a text that is no numeral, and a numeral with a point where an integer is expected.
-/

namespace SoapBinding

open Text (IsNumeral)

/-- A text is refused as an integer for its point, or because it is no numeral at all. -/
theorem TextType.parse_integer_eq_error_iff {text : String} {fault : LexicalFault} : parse .integer text = .error fault ↔
    IsNumeral true (Text.trim text).toList ∧ fault = .fractional (Text.trim text) ∨
      (∀ pointed, ¬IsNumeral pointed (Text.trim text).toList) ∧ fault = .notDecimal (Text.trim text) := by
  unfold parse
  dsimp only
  rw [parseDecimal, Decimal.ofString?_trim]
  cases hread : Decimal.ofString? text with
  | none =>
    have hnone (pointed : Bool) : ¬IsNumeral pointed (Text.trim text).toList := by
      intro h
      obtain ⟨d, hd⟩ := Decimal.exists_ofString?_iff.2 ⟨pointed, h⟩
      cases hread.symm.trans hd
    rw [or_iff_right fun h => hnone true h.1, and_iff_right hnone]
    show Except.error (.notDecimal (Text.trim text)) = Except.error fault ↔ _
    rw [Except.error.injEq, eq_comm]
  | some d =>
    have htext : d.text = Text.trim text := Decimal.ofString?_eq_some_iff.1 hread
    have hnumeral : IsNumeral (!d.isInteger) (Text.trim text).toList :=
      htext ▸ Decimal.isNumeral_text_iff.2 (Bool.not_not _).symm
    rw [or_iff_left fun h => h.1 _ hnumeral, ← htext, Decimal.isNumeral_text_iff, Bool.not_true]
    show (if d.isInteger then .ok (Value.decimal d) else .error (.fractional d.text)) = Except.error fault ↔ _
    cases hinteger : d.isInteger with
    | true =>
      rw [if_pos rfl]
      constructor
      · intro h
        cases h
      · rintro ⟨h, -⟩
        cases h
    | false => rw [if_neg Bool.false_ne_true, Except.error.injEq, and_iff_right rfl, eq_comm]

/-- **Decimals are read from numerals** with any blanks around them, and from no other text. The text is kept as it is
without the blanks, and read from its own text a decimal is the same. It is an integer exactly if no point is written, so
what the integer types read is a sign at most and digits, of which there is one at least. -/
theorem Decimal.accepts_numerals :
    (∀ s, (∃ d, ofString? s = some d) ↔ ∃ pointed front core back, s.toList = front ++ core ++ back ∧
      (∀ c ∈ front, Text.isBlank c = true) ∧ (∀ c ∈ back, Text.isBlank c = true) ∧ IsNumeral pointed core) ∧
    (∀ s d, ofString? s = some d ↔ d.text = Text.trim s) ∧
    (∀ d, ofString? d.text = some d) ∧
    (∀ (d : Decimal) pointed, IsNumeral pointed d.text.toList ↔ d.isInteger = !pointed) ∧
    (∀ text v, TextType.parse .integer text = .ok v ↔
      IsNumeral false (Text.trim text).toList ∧ ∃ d : Decimal, d.text = Text.trim text ∧ v = .decimal d) ∧
    ∀ context st v st', Decoding.readPrimitive context (.text .integer) st = .ok v st' ↔
      ∃ text, Decoding.onCursor Xml.Cursor.readText st = .ok text st' ∧
        IsNumeral false (Text.trim text).toList ∧ ∃ d : Decimal, d.text = Text.trim text ∧ v = .decimal d := by
  refine ⟨fun s => ?_, fun s d => ofString?_eq_some_iff, ofString?_text, fun d pointed => isNumeral_text_iff,
    fun text v => TextType.parse_integer_iff, fun context st v st' => ?_⟩
  · rw [exists_ofString?_iff]
    exact exists_congr fun pointed => Text.isNumeral_trim_iff
  · rw [Decoding.readPrimitive, Decoding.readTextType_eq_ok_iff]
    exact exists_congr fun text => and_congr_right fun _ => TextType.parse_integer_iff

end SoapBinding
