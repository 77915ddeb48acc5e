import SoapBinding.Primitive.Text
import SoapBinding.Proofs.Codec.Conveyed
import SoapBinding.Proofs.Codec.Typing
import SoapBinding.Proofs.Decimal
import SoapBinding.Proofs.Double.Text
import SoapBinding.Proofs.Outcome

/-!
# Primitive values in text

Which texts numbers are read from is known exactly: a decimal is read from a numeral, and an integer of any width from
one without a point, an int or a long if it writes one.

The text of a value of a text type's own kind is read as that value (`parse_render?`). Trimming has nothing to do there:
but for strings, which are not trimmed, no text that is written holds a blank.
-/

namespace SoapBinding

open Outcome

namespace TextType

open Text (IsNumeral number)

variable {files : Files} {attached : Bool} {type : TextType} {v : Value} {text : String}

/-! ### Numbers -/

/-- What is read between two bounds is the number of a numeral without a point. -/
theorem parseInteger_eq_ok_iff {low high : Int} {make : Int → Value} (hlow : low ≤ 0) (hhigh : 0 ≤ high) :
    parseInteger low high make text = .ok v ↔ IsNumeral false text.toList ∧
      ∃ n, number text.toList = n ∧ low ≤ n ∧ n ≤ high ∧ v = make n := by
  unfold parseInteger
  constructor
  · intro h
    split at h
    · next n hread =>
      obtain ⟨hnumeral, hn, hbounds⟩ := (Text.readInteger_eq_ok_iff hlow hhigh).1 hread
      exact ⟨hnumeral, n, hn, hbounds.1, hbounds.2, (Except.ok.inj h).symm⟩
    · cases h
  · rintro ⟨hnumeral, n, hn, hbelow, habove, rfl⟩
    rw [(Text.readInteger_eq_ok_iff hlow hhigh).2 ⟨hnumeral, hn, hbelow, habove⟩]

/-- An int is read from the numerals without a point that write it. -/
theorem parse_int_iff : parse .int text = .ok v ↔ IsNumeral false (Text.trim text).toList ∧
    ∃ i : Int32, number (Text.trim text).toList = i.toInt ∧ v = .int i := by
  unfold parse
  dsimp only
  rw [parseInteger_eq_ok_iff (by decide) (by decide)]
  refine and_congr_right fun _ => ⟨?_, ?_⟩
  · rintro ⟨n, hn, hbelow, habove, rfl⟩
    exact ⟨.ofInt n, by rw [hn, Int32.toInt_ofInt_of_le hbelow (Int.lt_add_one_of_le habove)], rfl⟩
  · rintro ⟨i, hi, rfl⟩
    exact ⟨i.toInt, hi, i.minValue_le_toInt, i.toInt_le, by rw [Int32.ofInt_toInt]⟩

/-- A long is read from the numerals without a point that write it. -/
theorem parse_long_iff : parse .long text = .ok v ↔ IsNumeral false (Text.trim text).toList ∧
    ∃ i : Int64, number (Text.trim text).toList = i.toInt ∧ v = .long i := by
  unfold parse
  dsimp only
  rw [parseInteger_eq_ok_iff (by decide) (by decide)]
  refine and_congr_right fun _ => ⟨?_, ?_⟩
  · rintro ⟨n, hn, hbelow, habove, rfl⟩
    exact ⟨.ofInt n, by rw [hn, Int64.toInt_ofInt_of_le hbelow (Int.lt_add_one_of_le habove)], rfl⟩
  · rintro ⟨i, hi, rfl⟩
    exact ⟨i.toInt, hi, i.minValue_le_toInt, i.toInt_le, by rw [Int64.ofInt_toInt]⟩

theorem parseDecimal_trim_eq_ok_iff {d : Decimal} : parseDecimal (Text.trim text) = .ok d ↔ d.text = Text.trim text := by
  rw [parseDecimal, Decimal.ofString?_trim, ← Decimal.ofString?_eq_some_iff]
  split
  · next d' hread => rw [hread, Except.ok.injEq, Option.some.injEq]
  · next hread =>
    rw [hread]
    exact iff_of_false nofun nofun

/-- A decimal is read from its own text with any blanks around it. -/
theorem parse_decimal_iff : parse .decimal text = .ok v ↔ ∃ d : Decimal, d.text = Text.trim text ∧ v = .decimal d := by
  unfold parse
  dsimp only
  rw [except_map_eq_ok]
  exact exists_congr fun d => and_congr parseDecimal_trim_eq_ok_iff eq_comm

/-- An integer of any size is read from the numerals without a point. -/
theorem parse_integer_iff : parse .integer text = .ok v ↔ IsNumeral false (Text.trim text).toList ∧
    ∃ d : Decimal, d.text = Text.trim text ∧ v = .decimal d := by
  unfold parse
  dsimp only
  rw [except_bind_eq_ok, ← exists_and_left]
  refine exists_congr fun d => ?_
  rw [parseDecimal_trim_eq_ok_iff, and_left_comm]
  refine and_congr_right fun htext => ?_
  rw [← htext, Decimal.isNumeral_text_iff, Bool.not_false]
  by_cases hinteger : d.isInteger = true
  · rw [if_pos hinteger, Except.ok.injEq, and_iff_right hinteger, eq_comm]
  · rw [if_neg hinteger]
    exact iff_of_false nofun fun h => hinteger h.1

/-! ### Values written -/

/-- A value of a text type's own kind has a text. -/
theorem render?_of_holds (h : type.holds v = true) : ∃ text, type.render? v = some text := by
  cases type <;> cases v <;> first | exact ⟨_, rfl⟩ | exact ⟨_, if_pos h⟩ | cases h

/-- **A value of a text type's own kind is read from its text.** -/
theorem parse_render? (h : type.holds v = true) (hinstants : v.HasWritableInstants)
    (hrender : type.render? v = some text) :
    ∃ v', type.parse text = .ok v' ∧ v.ConveyedAs files attached v' := by
  cases type with
  | boolean =>
    cases v <;> cases h
    next b =>
      obtain rfl : (if b then "true" else "false") = text := Option.some.inj hrender
      refine ⟨_, ?_, .same⟩
      cases b <;> rfl
  | int =>
    cases v <;> cases h
    next i =>
      obtain rfl : toString i.toInt = text := Option.some.inj hrender
      refine ⟨.int i, parse_int_iff.2 ?_, .same⟩
      rw [Text.trim_toString]
      exact ⟨Text.isNumeral_toString _, i, Text.number_toString _, rfl⟩
  | long =>
    cases v <;> cases h
    next i =>
      obtain rfl : toString i.toInt = text := Option.some.inj hrender
      refine ⟨.long i, parse_long_iff.2 ?_, .same⟩
      rw [Text.trim_toString]
      exact ⟨Text.isNumeral_toString _, i, Text.number_toString _, rfl⟩
  | double =>
    cases v <;> cases h
    next d =>
      obtain rfl : d.render = text := Option.some.inj hrender
      obtain ⟨d', hread, hd'⟩ := Double.read_render d
      have hparse : parse .double d.render = .ok (.double d') := by
        unfold parse
        dsimp only
        rw [Text.trim_of_not_blank fun c hc => Double.isBlank_of_mem_render hc, parseDouble, hread]
      refine ⟨_, hparse, ?_⟩
      rcases hd' with rfl | ⟨hnan, hnan'⟩
      · exact .same
      · exact .nan hnan hnan'
  | decimal =>
    cases v <;> cases h
    next d =>
      obtain rfl : d.text = text := Option.some.inj hrender
      exact ⟨.decimal d, parse_decimal_iff.2 ⟨d, d.trim_text.symm, rfl⟩, .same⟩
  | integer =>
    cases v <;> try cases h
    next d =>
      have hinteger : d.isInteger = true := h
      have htext : text = d.text := by
        rw [render?, if_pos hinteger] at hrender
        exact (Option.some.inj hrender).symm
      rw [htext]
      refine ⟨.decimal d, parse_integer_iff.2 ?_, .same⟩
      rw [d.trim_text]
      exact ⟨Decimal.isNumeral_text_iff.2 hinteger, d, rfl, rfl⟩
  | dateTime =>
    cases v <;> cases h
    next t =>
      obtain rfl : t.render = text := Option.some.inj hrender
      refine ⟨.dateTime t, ?_, .same⟩
      have hwritable : t.IsWritable := hinstants t List.mem_cons_self
      have hblank : ∀ c ∈ t.render.toList, Text.isBlank c = false := by
        rw [DateTime.render, String.toList_ofList]
        exact fun c hc => DateTime.isBlank_of_mem_renderChars hc
      unfold parse
      dsimp only
      rw [Text.trim_of_not_blank hblank, parseDateTime, DateTime.render, String.toList_ofList,
        DateTime.read?_renderChars hwritable]
  | string =>
    cases v <;> cases h
    cases hrender
    exact ⟨_, rfl, .same⟩

end TextType
end SoapBinding
