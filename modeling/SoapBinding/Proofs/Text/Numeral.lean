import SoapBinding.Proofs.Text.Integer

/-!
# Numerals

How numbers are written, said without a reader: digits, digits with a point and any number of digits behind it, or a
point and at least one digit (`IsMagnitude`), and one sign at most in front (`IsNumeral`). Digits are the ten of ASCII,
and there may be any number of them.

Integers of a fixed width are read from numerals without a point, and from no other text:

    readInteger_eq_ok_iff : readInteger low high cs = .ok n ↔ IsNumeral false cs ∧ number cs = n ∧ low ≤ n ∧ n ≤ high
-/

namespace SoapBinding.Text

variable {pointed : Bool} {c : Char} {cs : List Char}

/-! ### The grammar -/

/-- Digits and nothing else. -/
def IsDigits (cs : List Char) : Prop := ∀ c ∈ cs, c.isDigit = true

/-- A number without a sign. It is `pointed` if a point is written. -/
inductive IsMagnitude : (pointed : Bool) → List Char → Prop where
  | whole {digits : List Char} : digits ≠ [] → IsDigits digits → IsMagnitude false digits
  | pointed {digits fraction : List Char} : digits ≠ [] → IsDigits digits → IsDigits fraction →
      IsMagnitude true (digits ++ '.' :: fraction)
  | fraction {fraction : List Char} : fraction ≠ [] → IsDigits fraction → IsMagnitude true ('.' :: fraction)

/-- A number with one sign in front, or none. -/
inductive IsNumeral (pointed : Bool) : List Char → Prop where
  | bare {cs : List Char} : IsMagnitude pointed cs → IsNumeral pointed cs
  | plus {cs : List Char} : IsMagnitude pointed cs → IsNumeral pointed ('+' :: cs)
  | minus {cs : List Char} : IsMagnitude pointed cs → IsNumeral pointed ('-' :: cs)

theorem isDigits_cons : IsDigits (c :: cs) ↔ c.isDigit = true ∧ IsDigits cs := List.forall_mem_cons

/-- A character that is no digit does not stand among digits. -/
theorem IsDigits.notMem (h : IsDigits cs) (hc : c.isDigit = false) : c ∉ cs := by
  intro hmem
  rw [h c hmem] at hc
  cases hc

theorem isMagnitude_false_iff : IsMagnitude false cs ↔ cs ≠ [] ∧ IsDigits cs := by
  constructor
  · rintro ⟨hne, hdigits⟩
    exact ⟨hne, hdigits⟩
  · rintro ⟨hne, hdigits⟩
    exact .whole hne hdigits

theorem IsMagnitude.eq_or_isDigit (h : IsMagnitude pointed cs) : ∀ c ∈ cs, c = '.' ∨ c.isDigit = true := by
  intro c hc
  cases h with
  | whole _ hdigits => exact .inr (hdigits c hc)
  | pointed _ hdigits hfraction =>
    rcases List.mem_append.1 hc with hc | hc
    · exact .inr (hdigits c hc)
    · exact (List.mem_cons.1 hc).imp_right (hfraction c)
  | fraction _ hfraction => exact (List.mem_cons.1 hc).imp_right (hfraction c)

theorem isNumeral_plus : IsNumeral pointed ('+' :: cs) ↔ IsMagnitude pointed cs := by
  refine ⟨fun h => ?_, .plus⟩
  cases h with
  | bare h => exact absurd (h.eq_or_isDigit '+' List.mem_cons_self) (by decide)
  | plus h => exact h

theorem isNumeral_minus : IsNumeral pointed ('-' :: cs) ↔ IsMagnitude pointed cs := by
  refine ⟨fun h => ?_, .minus⟩
  cases h with
  | bare h => exact absurd (h.eq_or_isDigit '-' List.mem_cons_self) (by decide)
  | minus h => exact h

theorem isNumeral_bare (hplus : ∀ rest, cs = '+' :: rest → False) (hminus : ∀ rest, cs = '-' :: rest → False) :
    IsNumeral pointed cs ↔ IsMagnitude pointed cs := by
  refine ⟨fun h => ?_, .bare⟩
  cases h with
  | bare h => exact h
  | plus _ => exact (hplus _ rfl).elim
  | minus _ => exact (hminus _ rfl).elim

/-- No character of a numeral is blank. -/
theorem IsNumeral.isBlank_of_mem (h : IsNumeral pointed cs) : ∀ c ∈ cs, isBlank c = false := by
  have hmagnitude {cs : List Char} (h : IsMagnitude pointed cs) : ∀ c ∈ cs, isBlank c = false := by
    intro c hc
    rcases h.eq_or_isDigit c hc with rfl | hdigit
    · decide
    · exact isBlank_of_isDigit hdigit
  cases h with
  | bare h => exact hmagnitude h
  | plus h => exact List.forall_mem_cons.2 ⟨by decide, hmagnitude h⟩
  | minus h => exact List.forall_mem_cons.2 ⟨by decide, hmagnitude h⟩

/-- Trimming leaves a numeral of a text that is one between blank characters. -/
theorem isNumeral_trim_iff {s : String} : IsNumeral pointed (trim s).toList ↔ ∃ front core back,
    s.toList = front ++ core ++ back ∧ (∀ c ∈ front, isBlank c = true) ∧ (∀ c ∈ back, isBlank c = true) ∧
      IsNumeral pointed core := by
  rw [trim, String.toList_ofList]
  constructor
  · intro h
    obtain ⟨-, front, back, heq, hfront, hback⟩ := trimChars_eq_iff.1 (@rfl _ (trimChars s.toList))
    exact ⟨front, _, back, heq, hfront, hback, h⟩
  · rintro ⟨front, core, back, heq, hfront, hback, h⟩
    have hcore : IsTrimmed core :=
      ⟨fun c hc => h.isBlank_of_mem c (List.mem_of_mem_head? hc), fun c hc => h.isBlank_of_mem c (List.mem_of_mem_getLast? hc)⟩
    rwa [trimChars_eq_iff.2 ⟨hcore, front, back, heq, hfront, hback⟩]

/-! ### Integers -/

/-- The number that a numeral without a point writes. -/
def number : List Char → Int
  | '+' :: cs => digitsValue cs
  | '-' :: cs => -digitsValue cs
  | cs => digitsValue cs

theorem number_bare (hplus : ∀ rest, cs = '+' :: rest → False) (hminus : ∀ rest, cs = '-' :: rest → False) :
    number cs = digitsValue cs := by
  unfold number
  split
  · exact (hplus _ rfl).elim
  · exact (hminus _ rfl).elim
  · rfl

/-- An integer is written as a numeral without a point. -/
theorem isNumeral_toString (i : Int) : IsNumeral false (toString i).toList := by
  have hdigits : IsMagnitude false (Nat.toDigits 10 i.natAbs) :=
    .whole Nat.toDigits_ne_nil fun c hc => isDigit_of_mem_toDigits hc
  rw [toList_toString]
  split
  · exact .bare hdigits
  · exact .minus hdigits

/-- The numeral of an integer writes it. -/
theorem number_toString (i : Int) : number (toString i).toList = i := by
  have hdigits : IsDigits (Nat.toDigits 10 i.natAbs) := fun c hc => isDigit_of_mem_toDigits hc
  rw [toList_toString]
  split
  · rw [number_bare, digitsValue_toDigits]
    · omega
    · intro rest hrest
      exact hdigits.notMem (c := '+') (by decide) (hrest ▸ List.mem_cons_self)
    · intro rest hrest
      exact hdigits.notMem (c := '-') (by decide) (hrest ▸ List.mem_cons_self)
  · rw [number, digitsValue_toDigits]
    omega

/-- Nothing is trimmed off it. -/
theorem trim_toString (i : Int) : trim (toString i) = toString i :=
  trim_of_not_blank (isNumeral_toString i).isBlank_of_mem

/-! ### Reading -/

/-- Behind a number, digits are read that write one up to the upper bound. -/
theorem readUp_eq_ok_iff {high n : Int} {read : Nat} (hread : (read : Int) ≤ high) :
    readUp high read cs = .ok n ↔ IsDigits cs ∧ (Nat.ofDigitChars 10 cs read : Int) = n ∧ n ≤ high := by
  induction cs generalizing read with
  | nil =>
    rw [readUp, Except.ok.injEq, Nat.ofDigitChars_nil]
    constructor
    · rintro rfl
      exact ⟨nofun, rfl, hread⟩
    · exact fun h => h.2.1
  | cons c cs ih =>
    have hnext : (read : Int) * 10 + digitValue c = ((10 * read + (c.toNat - '0'.toNat) : Nat) : Int) := by
      rw [show digitValue c = c.toNat - '0'.toNat from rfl]
      omega
    rw [readUp, isDigits_cons, Nat.ofDigitChars_cons]
    dsimp only
    rw [hnext]
    by_cases hc : c.isDigit = true
    · rw [if_neg (by simp [hc])]
      by_cases hhigh : high < ((10 * read + (c.toNat - '0'.toNat) : Nat) : Int)
      · -- The number only grows with the digits behind.
        have hgrows := le_ofDigitChars (10 * read + (c.toNat - '0'.toNat)) cs
        rw [if_pos hhigh]
        refine iff_of_false nofun fun h => ?_
        omega
      · rw [if_neg hhigh, ih (by omega), and_iff_right hc]
    · rw [if_pos (by simpa using hc)]
      exact iff_of_false nofun fun h => hc h.1.1

/-- Reading downwards mirrors reading upwards. -/
theorem readDown_eq_ok_iff {low n read : Int} : readDown low read cs = .ok n ↔ readUp (-low) (-read) cs = .ok (-n) := by
  induction cs generalizing read with
  | nil => rw [readDown, readUp, Except.ok.injEq, Except.ok.injEq, Int.neg_inj]
  | cons c cs ih =>
    have hnext : -read * 10 + digitValue c = -(read * 10 - digitValue c) := by omega
    rw [readDown, readUp]
    dsimp only
    rw [hnext]
    by_cases hc : (!c.isDigit) = true
    · rw [if_pos hc, if_pos hc]
      exact iff_of_false nofun nofun
    · rw [if_neg hc, if_neg hc]
      by_cases hlow : read * 10 - digitValue c < low
      · rw [if_pos hlow, if_pos (by omega)]
        exact iff_of_false nofun nofun
      · rw [if_neg hlow, if_neg (by omega)]
        exact ih

/-- **Integers between two bounds are read from numerals without a point**, and from nothing else. -/
theorem readInteger_eq_ok_iff {low high n : Int} (hlow : low ≤ 0) (hhigh : 0 ≤ high) :
    readInteger low high cs = .ok n ↔ IsNumeral false cs ∧ number cs = n ∧ low ≤ n ∧ n ≤ high := by
  have hup {high m : Int} (hhigh : 0 ≤ high) (cs : List Char) :
      readUp high 0 cs = .ok m ↔ IsDigits cs ∧ (digitsValue cs : Int) = m ∧ m ≤ high := by
    rw [digitsValue_eq]
    exact @readUp_eq_ok_iff cs high m 0 hhigh
  unfold readInteger
  split
  · rw [@isNumeral_bare false [] nofun nofun, isMagnitude_false_iff]
    exact iff_of_false nofun fun h => h.1.1 rfl
  · rw [isNumeral_plus, isMagnitude_false_iff]
    exact iff_of_false nofun fun h => h.1.1 rfl
  · rw [isNumeral_minus, isMagnitude_false_iff]
    exact iff_of_false nofun fun h => h.1.1 rfl
  · next cs hne =>
    rw [isNumeral_plus, isMagnitude_false_iff, number, and_iff_right hne, hup hhigh]
    exact and_congr_right fun _ => by omega
  · next cs hne =>
    rw [isNumeral_minus, isMagnitude_false_iff, number, and_iff_right hne, readDown_eq_ok_iff, Int.neg_zero, hup (by omega)]
    exact and_congr_right fun _ => by omega
  · next hne _ _ hplus hminus =>
    rw [isNumeral_bare hplus hminus, isMagnitude_false_iff, number_bare hplus hminus, and_iff_right hne, hup hhigh]
    exact and_congr_right fun _ => by omega

end SoapBinding.Text
