import Mathlib.Data.List.TakeWhile
import SoapBinding.Decimal
import SoapBinding.Proofs.Text.Numeral

/-!
# Decimals are numerals

The check that a text has to pass to be a decimal looks for one sign, cuts the rest at the first point, and asks for
digits on both sides that are not both missing. What passes are the numerals, and whether one has a point can be told
by looking for it anywhere:

    isNumeral_iff : IsNumeral pointed cs ↔ isLexical cs = true ∧ cs.contains '.' = pointed

So a decimal is a numeral that is kept as its text, and trimming a text is all that is left of reading it.
-/

namespace SoapBinding.Decimal

open Text (IsDigits IsMagnitude IsNumeral)

variable {pointed : Bool} {cs : List Char} {s : String} {d : Decimal}

/-! ### The check -/

/-- A text without a point is not cut. -/
theorem isUnsigned_of_notMem (h : '.' ∉ cs) : isUnsigned cs = true ↔ cs ≠ [] ∧ IsDigits cs := by
  have hpoint : ∀ c ∈ cs, (c != '.') = true := fun c hc => bne_iff_ne.2 (ne_of_mem_of_not_mem hc h)
  unfold isUnsigned
  rw [List.dropWhile_eq_nil_iff.2 hpoint, List.takeWhile_eq_self_iff.2 hpoint]
  simp [IsDigits, and_comm]

/-- A text is cut at its first point. -/
theorem isUnsigned_append {whole : List Char} (h : '.' ∉ whole) (fraction : List Char) :
    isUnsigned (whole ++ '.' :: fraction) = true ↔
      IsDigits whole ∧ IsDigits fraction ∧ (whole ≠ [] ∨ fraction ≠ []) := by
  have hpoint : ∀ c ∈ whole, (c != '.') = true := fun c hc => bne_iff_ne.2 (ne_of_mem_of_not_mem hc h)
  unfold isUnsigned
  rw [List.dropWhile_append_of_pos hpoint, List.takeWhile_append_of_pos hpoint]
  simp [IsDigits, and_assoc, ← Decidable.not_and_iff_not_or_not]

/-- A text that passes without a sign is a magnitude. -/
theorem isMagnitude_iff : IsMagnitude pointed cs ↔ isUnsigned cs = true ∧ cs.contains '.' = pointed := by
  constructor
  · intro h
    cases h with
    | whole hne hdigits =>
      have hpoint := hdigits.notMem (c := '.') (by decide)
      exact ⟨(isUnsigned_of_notMem hpoint).2 ⟨hne, hdigits⟩, by simpa using hpoint⟩
    | @pointed digits fraction hne hdigits hfraction =>
      have hpoint := hdigits.notMem (c := '.') (by decide)
      exact ⟨(isUnsigned_append hpoint fraction).2 ⟨hdigits, hfraction, .inl hne⟩, by simp⟩
    | @fraction fraction hne hfraction =>
      exact ⟨(isUnsigned_append List.not_mem_nil fraction).2 ⟨nofun, hfraction, .inr hne⟩, by simp⟩
  · rintro ⟨h, rfl⟩
    by_cases hpoint : '.' ∈ cs
    · obtain ⟨whole, fraction, rfl, hwhole⟩ := List.eq_append_cons_of_mem hpoint
      obtain ⟨hdigits, hfraction, hne⟩ := (isUnsigned_append hwhole fraction).1 h
      rw [show (whole ++ '.' :: fraction).contains '.' = true by simp]
      -- Without digits in front of the point there are some behind it.
      cases whole with
      | nil => exact .fraction (hne.resolve_left fun hnil => hnil rfl) hfraction
      | cons c whole => exact .pointed (List.cons_ne_nil c whole) hdigits hfraction
    · obtain ⟨hne, hdigits⟩ := (isUnsigned_of_notMem hpoint).1 h
      rw [show cs.contains '.' = false by simpa using hpoint]
      exact .whole hne hdigits

/-- **The texts of decimals are the numerals.** -/
theorem isNumeral_iff : IsNumeral pointed cs ↔ isLexical cs = true ∧ cs.contains '.' = pointed := by
  unfold isLexical unsigned
  split
  · rw [Text.isNumeral_plus, isMagnitude_iff, List.contains_cons]
    rfl
  · rw [Text.isNumeral_minus, isMagnitude_iff, List.contains_cons]
    rfl
  · next hplus hminus => rw [Text.isNumeral_bare hplus hminus, isMagnitude_iff]

instance : Decidable (IsNumeral pointed cs) := decidable_of_iff _ isNumeral_iff.symm

example : IsNumeral true "+12.".toList ∧ ¬IsNumeral true "+.".toList := by decide +kernel

theorem isLexical_iff : isLexical cs = true ↔ ∃ pointed, IsNumeral pointed cs := by
  simp [isNumeral_iff]

/-- A decimal is an integer exactly if its numeral has no point. -/
theorem isNumeral_text_iff : IsNumeral pointed d.text.toList ↔ d.isInteger = !pointed := by
  rw [isNumeral_iff, and_iff_right d.lexical, isInteger, Bool.not_inj_iff]

/-! ### Reading -/

/-- A decimal has no blank character, so nothing is trimmed off it. -/
theorem trim_text (d : Decimal) : Text.trim d.text = d.text := by
  obtain ⟨pointed, hnumeral⟩ := isLexical_iff.1 d.lexical
  exact Text.trim_of_not_blank hnumeral.isBlank_of_mem

/-- A decimal is what a text is without the blanks around it. -/
theorem ofString?_eq_some_iff : ofString? s = some d ↔ d.text = Text.trim s := by
  unfold ofString?
  split
  · rw [Option.some.injEq, eq_comm, mk.injEq]
  · next h => exact iff_of_false nofun fun htext => h (htext ▸ d.lexical)

/-- Blanks around a text do not count. -/
theorem ofString?_trim (s : String) : ofString? (Text.trim s) = ofString? s := by
  ext d
  rw [ofString?_eq_some_iff, ofString?_eq_some_iff, Text.trim_trim]

/-- A decimal is read from its text as itself. -/
theorem ofString?_text (d : Decimal) : ofString? d.text = some d :=
  ofString?_eq_some_iff.2 d.trim_text.symm

/-- A text is read as a decimal exactly if it is a numeral between blanks. -/
theorem exists_ofString?_iff : (∃ d, ofString? s = some d) ↔ ∃ pointed, IsNumeral pointed (Text.trim s).toList := by
  rw [← isLexical_iff]
  constructor
  · rintro ⟨d, hd⟩
    rw [← ofString?_eq_some_iff.1 hd]
    exact d.lexical
  · exact fun h => ⟨⟨Text.trim s, h⟩, ofString?_eq_some_iff.2 rfl⟩

end SoapBinding.Decimal
