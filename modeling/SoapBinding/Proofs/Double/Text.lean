import SoapBinding.Double.Text
import SoapBinding.Proofs.Double.Shortest
import SoapBinding.Proofs.Text.Integer

/-!
# Doubles read back

The text of a double is read as the double (`read_render`), sign and all: the text of a finite one
stands for a decimal that rounds to it, and what is read is rounded. All that is lost is which NaN it
was.
-/

namespace SoapBinding.Double

variable {m : Nat} {q : Int}

/-! ### Digits as a ratio -/

theorem isDigit_zero_append {cs : List Char} (h : ∀ c ∈ cs, c.isDigit = true) (count : Nat) :
    ∀ c ∈ List.replicate count '0' ++ cs, c.isDigit = true := by
  intro c hc
  rcases List.mem_append.1 hc with hzero | hdigit
  · rw [List.eq_of_mem_replicate hzero]
    decide
  · exact h c hdigit

/-- Without the zeros in front, digits write the same number. -/
theorem digitsValue_dropWhile (cs : List Char) :
    Text.digitsValue (cs.dropWhile (· == '0')) = Text.digitsValue cs := by
  have hzeros : cs.takeWhile (· == '0') = List.replicate (cs.takeWhile (· == '0')).length '0' := by
    rw [List.eq_replicate_iff]
    refine ⟨rfl, fun c hc => ?_⟩
    have := List.all_eq_true.1 (@List.all_takeWhile _ (· == '0') cs) c hc
    simpa using this
  have hsplit := @List.takeWhile_append_dropWhile _ (· == '0') cs
  rw [hzeros] at hsplit
  rw [← hsplit, Text.digitsValue_zeros, hsplit]

/-- Digits that do not begin with a zero write a number that has all of them. -/
theorem pow_le_digitsValue {c : Char} {cs : List Char} (hc : c.isDigit = true) (hne : c ≠ '0') :
    10 ^ cs.length ≤ Text.digitsValue (c :: cs) := by
  rw [Text.digitsValue_eq, Nat.ofDigitChars_cons, Nat.ofDigitChars_eq_ofDigitChars_zero]
  have hdigit := Char.isDigit_iff_toNat.1 hc
  have hzero : c.toNat ≠ 48 := fun h => hne (Char.toNat_inj.1 h)
  simp only [Char.reduceToNat] at hdigit
  have hfirst : 1 ≤ 10 * 0 + (c.toNat - '0'.toNat) := by
    simp only [Char.reduceToNat]
    omega
  have := Nat.mul_le_mul_left (10 ^ cs.length) hfirst
  omega

/-- Powers of two below one are no less than powers of ten that are a little smaller. -/
theorem zpow_ten_le (k : Nat) : (10 : ℚ) ^ (-(7 * k : Int)) ≤ 2 ^ (-(23 * k : Int)) := by
  rw [zpow_neg, zpow_neg, zpow_mul, zpow_mul, zpow_natCast, zpow_natCast]
  exact inv_anti₀ (by positivity) (pow_le_pow_left₀ (by norm_num) (by norm_num) k)

/-- Powers of two above one are no more than powers of ten that are a little larger. -/
theorem zpow_two_le_ten (k : Nat) : (2 : ℚ) ^ (53 * k : Int) ≤ 10 ^ (16 * k : Int) := by
  rw [zpow_mul, zpow_mul, zpow_natCast, zpow_natCast]
  exact pow_le_pow_left₀ (by norm_num) (by norm_num) k

/-- Numbers that round to a double lie between the smallest and the largest one. -/
theorem RoundsTo.bounds {x : ℚ} (hx : RoundsTo m q x) (hm : IsFinite m q) (hpos : 0 < m) :
    (10 : ℚ) ^ (-330 : Int) ≤ x ∧ x < 10 ^ (310 : Int) := by
  have hreach := reach_le m q
  have hmem := hm.exponent_mem
  have hone : (1 : ℚ) ≤ m := by exact_mod_cast hpos
  have hlt : (m : ℚ) + 1 ≤ 2 * leadingBit := by exact_mod_cast hm.lt
  have hpow : (0 : ℚ) < 2 ^ q := by positivity
  constructor
  · refine le_trans ?_ hx.low
    calc (10 : ℚ) ^ (-330 : Int) ≤ 10 ^ (-(7 * (47 : Nat) : Int)) :=
          zpow_le_zpow_right₀ (by norm_num) (by norm_num)
      _ ≤ 2 ^ (-(23 * (47 : Nat) : Int)) := zpow_ten_le 47
      _ ≤ 2 ^ (q - 1) := zpow_two_le (by omega)
      _ = 1 / 2 * 2 ^ q := by
          rw [zpow_sub₀ (by norm_num)]
          ring
      _ ≤ (m - reach m q) * 2 ^ q := mul_le_mul_of_nonneg_right (by linarith) hpow.le
  · refine lt_of_le_of_lt hx.high ?_
    calc ((m : ℚ) + 1 / 2) * 2 ^ q < 2 * leadingBit * 2 ^ q :=
          mul_lt_mul_of_pos_right (by linarith) hpow
      _ = 2 ^ (1 + 52 + q) := by
          rw [cast_leadingBit, zpow_add₀ (by norm_num), zpow_add₀ (by norm_num), zpow_one]
      _ ≤ 2 ^ (53 * (19 : Nat) + 17 : Int) := zpow_two_le (by omega)
      _ = 2 ^ (53 * (19 : Nat) : Int) * 2 ^ (17 : Int) := zpow_add₀ (by norm_num) _ _
      _ ≤ 10 ^ (16 * (19 : Nat) : Int) * 10 ^ (6 : Int) :=
          mul_le_mul (zpow_two_le_ten 19) (by norm_num) (by positivity) (by positivity)
      _ = 10 ^ (310 : Int) := by
          rw [← zpow_add₀ (by norm_num)]
          norm_num

/-- **Digits that write a number that rounds to a double are read as the double.** -/
theorem ofDigits_eq {digits : List Char} {exponent : Int} (hm : IsFinite m q) (hpos : 0 < m)
    (hdigits : ∀ c ∈ digits, c.isDigit = true)
    (hx : RoundsTo m q (Text.digitsValue digits * 10 ^ exponent)) :
    ofDigits digits exponent = bitsOf m q := by
  obtain ⟨hlow, hhigh⟩ := hx.bounds hm hpos
  rw [← digitsValue_dropWhile] at hx hlow hhigh
  unfold ofDigits
  dsimp only
  have hsub : ∀ c ∈ digits.dropWhile (· == '0'), c.isDigit = true := fun c hc =>
    hdigits c ((List.dropWhile_sublist _).subset hc)
  cases hcs : digits.dropWhile (· == '0') with
  | nil =>
    -- no digit but zeros writes nothing that is large enough
    rw [hcs] at hlow
    exact absurd hlow (by
      rw [not_le, show Text.digitsValue [] = 0 from rfl, Nat.cast_zero, zero_mul]
      positivity)
  | cons c cs =>
    rw [hcs] at hx hlow hhigh hsub
    have hne : c ≠ '0' := by
      have := List.head?_dropWhile_not (· == '0') digits
      rw [hcs] at this
      simpa using this
    have hlower : (10 : ℚ) ^ (cs.length : Int) ≤ Text.digitsValue (c :: cs) := by
      rw [zpow_natCast]
      exact_mod_cast pow_le_digitsValue (hsub c List.mem_cons_self) hne
    have hupper : (Text.digitsValue (c :: cs) : ℚ) < 10 ^ ((cs.length + 1 : Nat) : Int) := by
      rw [zpow_natCast]
      exact_mod_cast Text.digitsValue_lt hsub
    have hten : (0 : ℚ) < 10 ^ exponent := by positivity
    have htop : ((c :: cs).length : Int) + exponent ≤ 310 := by
      by_contra hgt
      rw [List.length_cons] at hgt
      have hpow : (10 : ℚ) ^ (310 : Int) ≤ 10 ^ ((cs.length : Int) + exponent) :=
        zpow_le_zpow_right₀ (by norm_num) (by push_cast at hgt; omega)
      rw [zpow_add₀ (by norm_num)] at hpow
      nlinarith
    have hbottom : -330 ≤ ((c :: cs).length : Int) + exponent := by
      by_contra hlt
      rw [List.length_cons] at hlt
      have hpow : (10 : ℚ) ^ (((cs.length + 1 : Nat) : Int) + exponent) ≤ 10 ^ (-330 : Int) :=
        zpow_le_zpow_right₀ (by norm_num) (by omega)
      rw [zpow_add₀ (by norm_num)] at hpow
      nlinarith
    rw [if_neg (by simp), if_neg (by omega), if_neg (by omega)]
    have hvalue : 0 < Text.digitsValue (c :: cs) :=
      lt_of_lt_of_le (by positivity) (pow_le_digitsValue (hsub c List.mem_cons_self) hne)
    refine nearest_eq hm (Nat.mul_pos hvalue (tenTo_pos _)) (tenTo_pos _) ?_
    have hratio : ((Text.digitsValue (c :: cs) * tenTo exponent : Nat) : ℚ) / tenTo (-exponent) =
        Text.digitsValue (c :: cs) * 10 ^ exponent := by
      have hcast : (tenTo (-exponent) : ℚ) ≠ 0 := by exact_mod_cast (tenTo_pos _).ne'
      rw [div_eq_iff hcast]
      push_cast
      rw [cast_tenTo exponent, mul_assoc]
    rw [hratio]
    exact hx

/-! ### Positional notation -/

/-- Digits in front of a character that is none, or of nothing. -/
theorem takeWhile_digits {digits rest : List Char} (h : ∀ c ∈ digits, c.isDigit = true)
    (hrest : ∀ c ∈ rest.head?, c.isDigit = false) :
    (digits ++ rest).takeWhile Char.isDigit = digits ∧
      (digits ++ rest).dropWhile Char.isDigit = rest := by
  rw [List.takeWhile_append_of_pos h, List.dropWhile_append_of_pos h]
  cases rest with
  | nil => simp
  | cons c rest =>
    have hc := hrest c rfl
    rw [List.takeWhile_cons, List.dropWhile_cons, hc]
    simp

theorem unsignedDigits?_whole {whole : List Char} (h : ∀ c ∈ whole, c.isDigit = true)
    (hne : whole ≠ []) : unsignedDigits? whole = some (ofDigits whole 0) := by
  obtain ⟨htake, hdrop⟩ := @takeWhile_digits whole [] h nofun
  rw [List.append_nil] at htake hdrop
  have hempty : whole.isEmpty = false := by simpa using hne
  unfold unsignedDigits?
  rw [htake, hdrop]
  dsimp only
  rw [hempty]
  show some (ofDigits (whole ++ []) (0 - ((0 : Nat) : Int))) = _
  rw [List.append_nil]
  rfl

theorem unsignedDigits?_fraction {whole fraction : List Char} (h : ∀ c ∈ whole, c.isDigit = true)
    (hfraction : ∀ c ∈ fraction, c.isDigit = true) (hne : whole ≠ []) :
    unsignedDigits? (whole ++ '.' :: fraction) =
      some (ofDigits (whole ++ fraction) (-fraction.length)) := by
  obtain ⟨htake, hdrop⟩ := @takeWhile_digits whole ('.' :: fraction) h (by
    intro c hc
    cases hc
    decide)
  obtain ⟨htake', hdrop'⟩ := @takeWhile_digits fraction [] hfraction nofun
  rw [List.append_nil] at htake' hdrop'
  have hempty : whole.isEmpty = false := by simpa using hne
  simp [unsignedDigits?, htake, hdrop, htake', hdrop', hempty, exponent?]

theorem isDigit_take {cs : List Char} (h : ∀ c ∈ cs, c.isDigit = true) (k : Nat) :
    ∀ c ∈ cs.take k, c.isDigit = true := fun c hc => h c (List.mem_of_mem_take hc)

theorem isDigit_drop {cs : List Char} (h : ∀ c ∈ cs, c.isDigit = true) (k : Nat) :
    ∀ c ∈ cs.drop k, c.isDigit = true := fun c hc => h c (List.mem_of_mem_drop hc)

/-- What positional notation shows is digits that write the number. -/
theorem unsignedDigits?_positional (n : Nat) (t : Int) :
    ∃ digits exponent, unsignedDigits? (positional n t) = some (ofDigits digits exponent) ∧
      (∀ c ∈ digits, c.isDigit = true) ∧
      (Text.digitsValue digits : ℚ) * 10 ^ exponent = n * 10 ^ t := by
  have hdigits : ∀ c ∈ Nat.toDigits 10 n, c.isDigit = true := fun c hc =>
    Text.isDigit_of_mem_toDigits hc
  have hne : Nat.toDigits 10 n ≠ [] := Nat.toDigits_ne_nil
  have hvalue := Text.digitsValue_toDigits n
  unfold positional
  dsimp only
  generalize Nat.toDigits 10 n = digits at *
  by_cases hwhole : 0 ≤ t
  · obtain ⟨k, rfl⟩ := Int.eq_ofNat_of_zero_le hwhole
    have hzeros : ∀ c ∈ digits ++ List.replicate k '0', c.isDigit = true := by
      intro c hc
      rcases List.mem_append.1 hc with hdigit | hzero
      · exact hdigits c hdigit
      · rw [List.eq_of_mem_replicate hzero]
        decide
    rw [if_pos hwhole]
    refine ⟨digits ++ List.replicate k '0', 0, unsignedDigits?_whole hzeros (by simp [hne]), hzeros, ?_⟩
    rw [Text.digitsValue_append_zeros, hvalue, zpow_zero, mul_one, zpow_natCast]
    push_cast
    rfl
  · rw [if_neg hwhole]
    by_cases hpoint : 0 < (digits.length : Int) + t
    · rw [if_pos hpoint]
      generalize hk : ((digits.length : Int) + t).toNat = k
      have hlength : ((digits.drop k).length : Int) = -t := by
        rw [List.length_drop]
        omega
      have htake : digits.take k ≠ [] := by
        rw [ne_eq, List.take_eq_nil_iff, not_or]
        exact ⟨by omega, hne⟩
      refine ⟨digits, t, ?_, hdigits, by rw [hvalue]⟩
      rw [unsignedDigits?_fraction (isDigit_take hdigits k) (isDigit_drop hdigits k) htake, hlength,
        List.take_append_drop, neg_neg]
    · rw [if_neg hpoint]
      generalize hk : (-((digits.length : Int) + t)).toNat = k
      have hzeros := isDigit_zero_append hdigits k
      have hlength : ((List.replicate k '0' ++ digits).length : Int) = -t := by
        rw [List.length_append, List.length_replicate]
        omega
      have hread : unsignedDigits? (['0'] ++ '.' :: (List.replicate k '0' ++ digits)) = _ :=
        unsignedDigits?_fraction (List.forall_mem_singleton.2 rfl) hzeros (by decide)
      rw [hlength, neg_neg] at hread
      refine ⟨_, t, hread, isDigit_zero_append hzeros 1, ?_⟩
      rw [show ['0'] = List.replicate 1 '0' from rfl, Text.digitsValue_zeros, Text.digitsValue_zeros,
        hvalue]

/-- The first character of positional notation is a digit. -/
theorem exists_positional_eq_cons (n : Nat) (t : Int) :
    ∃ c cs, positional n t = c :: cs ∧ c.isDigit = true := by
  have hdigits : ∀ c ∈ Nat.toDigits 10 n, c.isDigit = true := fun c hc =>
    Text.isDigit_of_mem_toDigits hc
  have hne : Nat.toDigits 10 n ≠ [] := Nat.toDigits_ne_nil
  unfold positional
  dsimp only
  generalize Nat.toDigits 10 n = digits at *
  cases digits with
  | nil => exact absurd rfl hne
  | cons c cs =>
    split
    · exact ⟨c, _, rfl, hdigits c List.mem_cons_self⟩
    · split
      · next hpoint =>
        obtain ⟨k, hk⟩ := Nat.exists_eq_succ_of_ne_zero
          (show (((c :: cs).length : Int) + t).toNat ≠ 0 by omega)
        rw [hk]
        exact ⟨c, _, rfl, hdigits c List.mem_cons_self⟩
      · exact ⟨'0', _, rfl, by decide⟩

/-- Positional notation is made of digits and a point. -/
theorem mem_positional {n : Nat} {t : Int} {c : Char} (h : c ∈ positional n t) :
    c.isDigit = true ∨ c = '.' := by
  have hdigits : ∀ c ∈ Nat.toDigits 10 n, c.isDigit = true := fun c hc =>
    Text.isDigit_of_mem_toDigits hc
  have hzero (k : Nat) (hc : c ∈ List.replicate k '0') : c.isDigit = true := by
    rw [List.eq_of_mem_replicate hc]
    decide
  unfold positional at h
  dsimp only at h
  split at h
  · rcases List.mem_append.1 h with hc | hc
    · exact .inl (hdigits c hc)
    · exact .inl (hzero _ hc)
  · split at h
    · rcases List.mem_append.1 h with hc | hc
      · exact .inl (hdigits c (List.mem_of_mem_take hc))
      · rcases List.mem_cons.1 hc with rfl | hc
        · exact .inr rfl
        · exact .inl (hdigits c (List.mem_of_mem_drop hc))
    · rcases List.mem_append.1 h with hc | hc
      · rcases List.mem_append.1 hc with hc | hc
        · simp only [List.mem_cons, List.not_mem_nil, or_false] at hc
          rcases hc with rfl | rfl
          · exact .inl (by decide)
          · exact .inr rfl
        · exact .inl (hzero _ hc)
      · exact .inl (hdigits c hc)

/-! ### The whole text -/

theorem toLower_digit {c : Char} (h : c.isDigit = true) : c.toLower = c := by
  have hc := Char.isDigit_iff_toNat.1 h
  simp only [Char.reduceToNat] at hc
  refine dif_neg ?_
  rintro ⟨hlow, -⟩
  have : 65 ≤ c.toNat := UInt32.le_iff_toNat_le.1 hlow
  omega

/-- A text that begins with a digit is no word. -/
theorem unsigned?_digit {c : Char} {cs : List Char} (h : c.isDigit = true) :
    unsigned? (c :: cs) = unsignedDigits? (c :: cs) := by
  have hword (word : String) (first : Char) (rest : List Char) (hword : word.toList = first :: rest)
      (hfirst : first.isDigit = false) :
      String.ofList ((c :: cs).map Char.toLower) ≠ word := by
    intro he
    have hlist := congrArg String.toList he
    rw [String.toList_ofList, hword, List.map_cons, List.cons.injEq] at hlist
    rw [← hlist.1, toLower_digit h] at hfirst
    rw [h] at hfirst
    cases hfirst
  unfold unsigned?
  split
  · next he => exact absurd he (hword "inf" 'i' ['n', 'f'] rfl (by decide))
  · next he =>
    exact absurd he (hword "infinity" 'i' ['n', 'f', 'i', 'n', 'i', 't', 'y'] rfl (by decide))
  · next he => exact absurd he (hword "nan" 'n' ['a', 'n'] rfl (by decide))
  · rfl

/-- The significand and the exponent of a double that is no infinity and no NaN. -/
theorem parts_spec {d : Double} (h : d.magnitude < infinityBits) :
    IsFinite d.parts.1 d.parts.2 ∧ bitsOf d.parts.1 d.parts.2 = d.magnitude := by
  have hlt : d.magnitude < 2047 * 4503599627370496 := h
  have hparts : d.parts =
      if d.magnitude / 4503599627370496 = 0 then (d.magnitude % 4503599627370496, -1074)
      else (d.magnitude % 4503599627370496 + 4503599627370496,
        ((d.magnitude / 4503599627370496 : Nat) : Int) - 1075) := rfl
  rw [hparts]
  split
  · refine ⟨⟨?_, ?_, .inl rfl⟩, ?_⟩
    · show d.magnitude % 4503599627370496 < 2 * 4503599627370496
      omega
    · show (-1074 : Int) ≤ -1074 ∧ (-1074 : Int) ≤ 971
      decide
    · show ((-1074 : Int) + 1074).toNat * 4503599627370496 + d.magnitude % 4503599627370496 = _
      omega
  · refine ⟨⟨?_, ?_, .inr ?_⟩, ?_⟩
    · show d.magnitude % 4503599627370496 + 4503599627370496 < 2 * 4503599627370496
      omega
    · dsimp only
      omega
    · show 4503599627370496 ≤ d.magnitude % 4503599627370496 + 4503599627370496
      omega
    · show (((d.magnitude / 4503599627370496 : Nat) : Int) - 1075 + 1074).toNat * 4503599627370496 +
        (d.magnitude % 4503599627370496 + 4503599627370496) = _
      omega

/-- A double is its sign and the bits behind it. -/
theorem ofMagnitude_magnitude (d : Double) : ofMagnitude d.isNegative d.magnitude = d := by
  have hlt := d.bits.toNat_lt
  unfold ofMagnitude isNegative magnitude
  unfold signBit at *
  refine congrArg Double.mk (UInt64.toNat_inj.1 ?_)
  rw [UInt64.toNat_ofNat']
  split <;> simp only [decide_eq_true_eq] at * <;> omega

/-- A sign and digits are read as the double with the sign that the digits write. -/
theorem read_signed {negative : Bool} {c : Char} {cs : List Char} {magnitude : Nat}
    (h : c.isDigit = true) (hread : unsignedDigits? (c :: cs) = some magnitude) :
    read ((if negative then ['-'] else []) ++ c :: cs) = .ok (ofMagnitude negative magnitude) := by
  rw [← unsigned?_digit h] at hread
  cases negative with
  | true =>
    show read ('-' :: c :: cs) = _
    simp only [read, hread]
  | false =>
    show read (c :: cs) = _
    unfold read
    split
    · next heq => cases heq
    · next heq =>
      cases heq
      exact absurd h (by decide)
    · next heq =>
      cases heq
      exact absurd h (by decide)
    · dsimp only
      rw [hread]

/-- What the shortest decimal of a finite double shows is read as its bits. -/
theorem unsignedDigits?_shortest {d : Double} (h : d.magnitude < infinityBits) {n : Nat} {t : Int}
    (hshown : (if d.parts.1 = 0 then (0, 0) else shortest d.parts.1 d.parts.2) = (n, t)) :
    unsignedDigits? (positional n t) = some d.magnitude := by
  obtain ⟨hfinite, hbits⟩ := parts_spec h
  by_cases hzero : d.parts.1 = 0
  · rw [if_pos hzero] at hshown
    cases hshown
    have hmagnitude : d.magnitude = 0 := by
      rw [← hbits, hzero, bitsOf]
      rcases hfinite.normal with hleast | hnormal
      · rw [hleast]
        rfl
      · rw [hzero, leadingBit] at hnormal
        omega
    rw [hmagnitude]
    rfl
  · rw [if_neg hzero] at hshown
    have hpos : 0 < d.parts.1 := Nat.pos_of_ne_zero hzero
    have hround := shortest_roundsTo hfinite hpos
    rw [hshown] at hround
    obtain ⟨digits, exponent, hread, hdigits, hvalue⟩ := unsignedDigits?_positional n t
    rw [hread, ofDigits_eq hfinite hpos hdigits (by rw [hvalue]; exact hround), hbits]

/-- **A double is read from its text as itself, up to which NaN it is.** -/
theorem read_render (d : Double) :
    ∃ d', read d.render.toList = .ok d' ∧ (d' = d ∨ (d.isNaN = true ∧ d'.isNaN = true)) := by
  have hsign := ofMagnitude_magnitude d
  unfold render
  by_cases hnan : d.isNaN = true
  · rw [if_pos hnan]
    exact ⟨nan, rfl, .inr ⟨hnan, rfl⟩⟩
  · rw [if_neg hnan]
    by_cases hinfinite : d.isInfinite = true
    · rw [if_pos hinfinite]
      have hbits : d.magnitude = infinityBits := by simpa [isInfinite] using hinfinite
      rw [hbits] at hsign
      refine ⟨d, ?_, .inl rfl⟩
      cases hnegative : d.isNegative with
      | true =>
        rw [if_pos rfl, ← hsign, hnegative]
        rfl
      | false =>
        rw [if_neg (by decide), ← hsign, hnegative]
        rfl
    · rw [if_neg hinfinite]
      have hfinite : d.magnitude < infinityBits := by
        simp only [isNaN, isInfinite, decide_eq_true_eq, beq_iff_eq] at hnan hinfinite
        omega
      dsimp only
      generalize hshown : (if d.parts.1 = 0 then (0, 0) else shortest d.parts.1 d.parts.2) = shown
      obtain ⟨n, t⟩ := shown
      obtain ⟨c, cs, hcons, hdigit⟩ := exists_positional_eq_cons n t
      have hread := unsignedDigits?_shortest hfinite hshown
      refine ⟨d, ?_, .inl rfl⟩
      rw [String.toList_ofList]
      rw [hcons] at hread ⊢
      rw [read_signed hdigit hread, hsign]

/-- Nothing in the text of a double is blank. -/
theorem isBlank_of_mem_render {d : Double} {c : Char} (h : c ∈ d.render.toList) :
    Text.isBlank c = false := by
  have hwords : ("NaN".toList ++ "-INF".toList).any Text.isBlank = false := by decide
  unfold render at h
  split at h
  · exact Text.isBlank_of_any hwords (List.mem_append_left _ h)
  · split at h
    · split at h
      · exact Text.isBlank_of_any hwords (List.mem_append_right _ h)
      · exact Text.isBlank_of_any hwords (List.mem_append_right _ (List.mem_cons_of_mem _ h))
    · dsimp only at h
      rw [String.toList_ofList] at h
      rcases List.mem_append.1 h with hsign | hdigit
      · split at hsign
        · rw [List.mem_singleton.1 hsign]
          decide
        · cases hsign
      · rcases mem_positional hdigit with hc | rfl
        · exact Text.isBlank_of_isDigit hc
        · decide

end SoapBinding.Double
