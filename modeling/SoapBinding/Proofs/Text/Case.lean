import Mathlib.Data.List.Forall2
import SoapBinding.Text.Blank

/-!
# Letters in either case

A capital letter of ASCII is thirty-two in front of its small one, and changing the case of a text changes no other
character. So a text in small letters is the same up to case as those that it writes with some letters capital
(`sameUpToCase_iff`).
-/

namespace SoapBinding.Text

/-- A capital letter is made small, and any other character stays. -/
theorem toNat_toLower (c : Char) :
    c.toLower.toNat = if 65 ≤ c.toNat ∧ c.toNat ≤ 90 then c.toNat + 32 else c.toNat := by
  unfold Char.toLower
  split
  · next h =>
    have hrange : 65 ≤ c.toNat ∧ c.toNat ≤ 90 := h
    rw [if_pos hrange]
    show (c.val + ('a'.val - 'A'.val)).toNat = _
    rw [UInt32.toNat_add, show ('a'.val - 'A'.val).toNat = 32 by decide, show c.val.toNat = c.toNat from rfl]
    omega
  · next h => exact (if_neg h).symm

/-- A small letter is made a capital one, and any other character stays. -/
theorem toNat_toUpper (c : Char) :
    c.toUpper.toNat = if 97 ≤ c.toNat ∧ c.toNat ≤ 122 then c.toNat - 32 else c.toNat := by
  unfold Char.toUpper
  split
  · next h =>
    have hrange : 97 ≤ c.toNat ∧ c.toNat ≤ 122 := h
    rw [if_pos hrange]
    show (c.val + ('A'.val - 'a'.val)).toNat = _
    rw [UInt32.toNat_add, show ('A'.val - 'a'.val).toNat = 4294967264 by decide, show c.val.toNat = c.toNat from rfl]
    omega
  · next h => exact (if_neg h).symm

theorem isBlank_toLower (c : Char) : isBlank c.toLower = isBlank c := by
  rw [Bool.eq_iff_iff]
  simp only [isBlank, toNat_toLower, Bool.or_eq_true, Bool.and_eq_true, decide_eq_true_eq, beq_iff_eq]
  split <;> omega

theorem toLower_toLower (c : Char) : c.toLower.toLower = c.toLower := by
  have hsmall := toNat_toLower c
  rw [← Char.toNat_inj, toNat_toLower]
  split at hsmall <;> split <;> omega

/-- A small letter is made of itself and of its capital. -/
theorem toLower_eq_iff {c d : Char} (hd : d.toLower = d) : c.toLower = d ↔ c = d ∨ c = d.toUpper := by
  have hsmall := toNat_toLower d
  rw [hd] at hsmall
  simp only [← Char.toNat_inj, toNat_toLower c, toNat_toUpper d]
  split at hsmall <;> split <;> split <;> omega

/-! ### Texts -/

/-- A text in small letters is written with any of its letters capital. -/
def InAnyCase (written text : List Char) : Prop := List.Forall₂ (fun c d => c = d ∨ c = d.toUpper) written text

/-- What holds of small letters and of their capitals holds of a text in any case. -/
theorem InAnyCase.all {p : Char → Bool} {written text : List Char} (h : InAnyCase written text)
    (htext : text.all (fun d => p d && p d.toUpper) = true) : written.all p = true := by
  induction h with
  | nil => rfl
  | @cons c d written text hcd _ ih =>
    rw [List.all_cons, Bool.and_eq_true, Bool.and_eq_true] at htext
    obtain ⟨⟨hsmall, hcapital⟩, htext⟩ := htext
    rw [List.all_cons, ih htext, Bool.and_true]
    rcases hcd with rfl | rfl
    · exact hsmall
    · exact hcapital

/-- Comparison up to the case of letters, for a text in small letters. -/
theorem sameUpToCase_iff {written : List Char} {text : String} (htext : lowerAscii text = text) :
    sameUpToCase (String.ofList written) text = true ↔ InAnyCase written text.toList := by
  have hsmall : text.toList.map Char.toLower = text.toList := by
    rw [← String.toList_ofList (l := text.toList.map Char.toLower)]
    exact congrArg String.toList htext
  unfold sameUpToCase lowerAscii
  rw [beq_iff_eq, String.toList_ofList, String.ofList_inj]
  unfold InAnyCase
  generalize text.toList = letters at hsmall
  induction written generalizing letters with
  | nil => cases letters <;> simp
  | cons c written ih =>
    cases letters with
    | nil => simp
    | cons d letters =>
      obtain ⟨hd, hletters⟩ := List.cons.inj hsmall
      have hrest : written.map Char.toLower = letters.map Char.toLower ↔ _ := ih letters hletters
      rw [List.map_cons, List.map_cons, List.cons.injEq, List.forall₂_cons, hrest, hd, toLower_eq_iff hd]

end SoapBinding.Text
