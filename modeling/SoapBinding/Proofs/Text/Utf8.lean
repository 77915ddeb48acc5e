import SoapBinding.Text.Utf8

/-!
# UTF-8 is read as it is written

`decode?` and `encode` are inverse to each other, so a byte string has at most one text and every text
has exactly one byte string:

    decode?_eq_some_iff : decode? bs = some cs ↔ bs = encode cs

Both directions go through the front of a byte string, one character at a time. A character is written
with the digits of its code point to the base sixty-four, the first of them together with a mark that
tells how many follow (`lead?`); the code point is what `tails` has gathered when it is done.
-/

namespace SoapBinding.Utf8

/-! ### Continuation bytes -/

/-- The continuation byte that carries six bits. -/
def tail (m : Nat) : UInt8 := UInt8.ofNat (m + 0x80)

theorem toNat_tail {m : Nat} (h : m < 64) : (tail m).toNat = m + 0x80 := by
  rw [tail, UInt8.toNat_ofNat']
  omega

theorem isTail_tail {m : Nat} (h : m < 64) : isTail (tail m) = true := by
  simp only [isTail, UInt8.le_iff_toNat_le, toNat_tail h, Bool.and_eq_true, decide_eq_true_eq]
  simp
  omega

/-- A continuation byte carries six bits. -/
theorem eq_tail_of_isTail {b : UInt8} (h : isTail b = true) :
    b.toNat - 0x80 < 64 ∧ b = tail (b.toNat - 0x80) := by
  simp only [isTail, UInt8.le_iff_toNat_le, Bool.and_eq_true, decide_eq_true_eq] at h
  simp at h
  refine ⟨by omega, ?_⟩
  apply UInt8.toNat_inj.1
  rw [toNat_tail (by omega)]
  omega

theorem tails_tail {n acc m : Nat} (h : m < 64) (bs : Bytes) :
    tails (n + 1) acc (tail m :: bs) = tails n (acc * 64 + m) bs := by
  rw [tails, if_pos (isTail_tail h), toNat_tail h]
  simp

/-- What is read to its end begins with a continuation byte. -/
theorem tails_eq_char {n acc : Nat} {bs rest : Bytes} {c : Char}
    (h : tails (n + 1) acc bs = .char c rest) :
    ∃ m bs', m < 64 ∧ bs = tail m :: bs' ∧ tails n (acc * 64 + m) bs' = .char c rest := by
  cases bs with
  | nil => cases h
  | cons b bs =>
    rw [tails] at h
    split at h
    · next hb =>
      obtain ⟨hm, he⟩ := eq_tail_of_isTail hb
      exact ⟨b.toNat - 0x80, bs, hm, by rw [← he], h⟩
    · cases h

/-! ### The bytes of a code point -/

/-- The bytes of a code point. -/
def codeBytes (v : Nat) : Bytes :=
  if v ≤ 0x7F then [UInt8.ofNat v]
  else if v ≤ 0x7FF then [UInt8.ofNat (v / 64 % 0x20 + 0xC0), tail (v % 64)]
  else if v ≤ 0xFFFF then
    [UInt8.ofNat (v / 4096 % 0x10 + 0xE0), tail (v / 64 % 64), tail (v % 64)]
  else
    [UInt8.ofNat (v / 262144 % 0x08 + 0xF0), tail (v / 4096 % 64), tail (v / 64 % 64), tail (v % 64)]

/-- A character is written as its code point. -/
theorem encodeChar_eq (c : Char) : String.utf8EncodeChar c = codeBytes c.toNat := rfl

/-- The code points that are characters. -/
def IsScalar (v : Nat) : Prop := v < 0xD800 ∨ 0xDFFF < v ∧ v < 0x110000

theorem isScalar_toNat (c : Char) : IsScalar c.toNat := c.valid

theorem toNat_ofNat {v : Nat} (h : IsScalar v) : (Char.ofNat v).toNat = v := by
  have hv : v.isValidChar := h
  rw [Char.ofNat, dif_pos hv]
  rfl

/-- The lead byte of a character in two bytes. -/
theorem lead?_two {v : Nat} (h1 : 0x7F < v) (h2 : v ≤ 0x7FF) :
    0x80 ≤ UInt8.ofNat (v / 64 % 0x20 + 0xC0) ∧
      lead? (UInt8.ofNat (v / 64 % 0x20 + 0xC0)) = some (1, 0x80, 0xBF, v / 64) := by
  have hb : (UInt8.ofNat (v / 64 % 0x20 + 0xC0)).toNat = v / 64 + 0xC0 := by
    rw [UInt8.toNat_ofNat']
    omega
  constructor
  · rw [UInt8.le_iff_toNat_le, hb]
    simp
  · unfold lead?
    simp only [UInt8.le_iff_toNat_le, hb, Bool.and_eq_true, decide_eq_true_eq]
    rw [if_pos (by simp; omega)]
    simp

/-- The lead byte of a character in three bytes, and the bounds that it sets to the second. -/
theorem lead?_three {v : Nat} (h1 : 0x7FF < v) (h2 : v ≤ 0xFFFF) (h3 : IsScalar v) :
    0x80 ≤ UInt8.ofNat (v / 4096 % 0x10 + 0xE0) ∧
      ∃ low high, lead? (UInt8.ofNat (v / 4096 % 0x10 + 0xE0)) = some (2, low, high, v / 4096) ∧
        low ≤ tail (v / 64 % 64) ∧ tail (v / 64 % 64) ≤ high := by
  unfold IsScalar at h3
  have hb : (UInt8.ofNat (v / 4096 % 0x10 + 0xE0)).toNat = v / 4096 + 0xE0 := by
    rw [UInt8.toNat_ofNat']
    omega
  have ht := toNat_tail (m := v / 64 % 64) (by omega)
  constructor
  · rw [UInt8.le_iff_toNat_le, hb]
    simp
  · unfold lead?
    simp only [UInt8.le_iff_toNat_le, ← UInt8.toNat_inj, beq_iff_eq, hb, ht, Bool.and_eq_true,
      decide_eq_true_eq]
    rw [if_neg (by simp)]
    by_cases hzero : v / 4096 = 0
    · rw [if_pos (by simp [hzero])]
      exact ⟨0xA0, 0xBF, by rw [hzero], by simp; omega, by simp; omega⟩
    · rw [if_neg (by simp [hzero])]
      by_cases hd : v / 4096 = 0xD
      · rw [if_pos (by simp [hd])]
        exact ⟨0x80, 0x9F, by rw [hd], by simp, by simp; omega⟩
      · rw [if_neg (by simp; omega), if_pos (by simp; omega)]
        exact ⟨0x80, 0xBF, by simp, by simp, by simp; omega⟩

/-- The lead byte of a character in four bytes, and the bounds that it sets to the second. -/
theorem lead?_four {v : Nat} (h1 : 0xFFFF < v) (h2 : IsScalar v) :
    0x80 ≤ UInt8.ofNat (v / 262144 % 0x08 + 0xF0) ∧
      ∃ low high, lead? (UInt8.ofNat (v / 262144 % 0x08 + 0xF0)) = some (3, low, high, v / 262144) ∧
        low ≤ tail (v / 4096 % 64) ∧ tail (v / 4096 % 64) ≤ high := by
  unfold IsScalar at h2
  have hb : (UInt8.ofNat (v / 262144 % 0x08 + 0xF0)).toNat = v / 262144 + 0xF0 := by
    rw [UInt8.toNat_ofNat']
    omega
  have ht := toNat_tail (m := v / 4096 % 64) (by omega)
  constructor
  · rw [UInt8.le_iff_toNat_le, hb]
    simp
  · unfold lead?
    simp only [UInt8.le_iff_toNat_le, ← UInt8.toNat_inj, beq_iff_eq, hb, ht, Bool.and_eq_true,
      decide_eq_true_eq]
    rw [if_neg (by simp), if_neg (by simp), if_neg (by simp),
      if_neg (by simp)]
    by_cases hzero : v / 262144 = 0
    · rw [if_pos (by simp [hzero])]
      exact ⟨0x90, 0xBF, by rw [hzero], by simp; omega, by simp; omega⟩
    · rw [if_neg (by simp [hzero])]
      by_cases hlast : v / 262144 = 4
      · rw [if_neg (by simp [hlast]), if_pos (by simp [hlast])]
        exact ⟨0x80, 0x8F, by rw [hlast], by simp, by simp; omega⟩
      · rw [if_pos (by simp; omega)]
        exact ⟨0x80, 0xBF, by simp, by simp, by simp; omega⟩

/-! ### The front of what is written -/

theorem front_of_lead? {b t low high : UInt8} {n bits : Nat} {rest : Bytes} (hb : 0x80 ≤ b)
    (hl : lead? b = some (n, low, high, bits)) (ht : low ≤ t ∧ t ≤ high) :
    front b (t :: rest) = tails (n - 1) (bits * 64 + (t.toNat - 0x80)) rest := by
  have hlt : ¬b < 0x80 := by
    rw [UInt8.lt_iff_toNat_lt]
    rw [UInt8.le_iff_toNat_le] at hb
    omega
  rw [front, if_neg hlt, hl]
  simp [ht.1, ht.2]

/-- A code point is read from the front of its bytes. -/
theorem front_codeBytes {v : Nat} (hv : IsScalar v) (rest : Bytes) :
    ∃ b bs, codeBytes v ++ rest = b :: bs ∧ front b bs = .char (Char.ofNat v) rest := by
  unfold codeBytes
  split
  · next h1 =>
    have hb : (UInt8.ofNat v).toNat = v := by
      rw [UInt8.toNat_ofNat']
      omega
    refine ⟨_, _, rfl, ?_⟩
    rw [front, if_pos (by rw [UInt8.lt_iff_toNat_lt, hb]; simp; omega), hb]
    rfl
  · split
    · next h1 h2 =>
      obtain ⟨hle, hl⟩ := lead?_two (by omega) h2
      have ht := isTail_tail (m := v % 64) (by omega)
      simp only [isTail, Bool.and_eq_true, decide_eq_true_eq] at ht
      refine ⟨_, tail (v % 64) :: rest, rfl, ?_⟩
      rw [front_of_lead? hle hl ht, toNat_tail (by omega)]
      show Front.char (Char.ofNat (v / 64 * 64 + (v % 64 + 0x80 - 0x80))) rest = _
      rw [show v / 64 * 64 + (v % 64 + 0x80 - 0x80) = v by omega]
    · split
      · next h1 h2 h3 =>
        obtain ⟨hle, low, high, hl, ht⟩ := lead?_three (by omega) h3 hv
        refine ⟨_, tail (v / 64 % 64) :: tail (v % 64) :: rest, rfl, ?_⟩
        rw [front_of_lead? hle hl ht, toNat_tail (by omega), tails_tail (by omega)]
        simp only [tails]
        rw [show (v / 4096 * 64 + (v / 64 % 64 + 0x80 - 0x80)) * 64 + v % 64 = v by omega]
      · next h1 h2 h3 =>
        obtain ⟨hle, low, high, hl, ht⟩ := lead?_four (by omega) hv
        have hlt : v < 0x110000 := by
          unfold IsScalar at hv
          omega
        refine ⟨_, tail (v / 4096 % 64) :: tail (v / 64 % 64) :: tail (v % 64) :: rest, rfl, ?_⟩
        rw [front_of_lead? hle hl ht, toNat_tail (by omega), tails_tail (by omega),
          tails_tail (by omega)]
        simp only [tails]
        rw [show ((v / 262144 * 64 + (v / 4096 % 64 + 0x80 - 0x80)) * 64 + v / 64 % 64) * 64 +
          v % 64 = v by omega]

/-! ### The front of what is read -/

/-- A code point from its lead bits and its continuation bytes. -/
theorem codeBytes_two {bits m : Nat} (hm : m < 64) (hb : 2 ≤ bits ∧ bits < 0x20) :
    IsScalar (bits * 64 + m) ∧
      codeBytes (bits * 64 + m) = [UInt8.ofNat (bits + 0xC0), tail m] := by
  constructor
  · unfold IsScalar
    omega
  · rw [codeBytes, if_neg (by omega), if_pos (by omega),
      show (bits * 64 + m) / 64 % 0x20 = bits by omega, show (bits * 64 + m) % 64 = m by omega]

theorem codeBytes_three {bits m n : Nat} (hm : m < 64) (hn : n < 64) (hb : bits < 0x10)
    (hlow : bits = 0 → 32 ≤ m) (hsurrogate : bits = 0xD → m < 32) :
    IsScalar ((bits * 64 + m) * 64 + n) ∧
      codeBytes ((bits * 64 + m) * 64 + n) = [UInt8.ofNat (bits + 0xE0), tail m, tail n] := by
  constructor
  · unfold IsScalar
    omega
  · rw [codeBytes, if_neg (by omega), if_neg (by omega), if_pos (by omega),
      show ((bits * 64 + m) * 64 + n) / 4096 % 0x10 = bits by omega,
      show ((bits * 64 + m) * 64 + n) / 64 % 64 = m by omega,
      show ((bits * 64 + m) * 64 + n) % 64 = n by omega]

theorem codeBytes_four {bits m n k : Nat} (hm : m < 64) (hn : n < 64) (hk : k < 64) (hb : bits ≤ 4)
    (hlow : bits = 0 → 16 ≤ m) (hhigh : bits = 4 → m < 16) :
    IsScalar (((bits * 64 + m) * 64 + n) * 64 + k) ∧
      codeBytes (((bits * 64 + m) * 64 + n) * 64 + k) =
        [UInt8.ofNat (bits + 0xF0), tail m, tail n, tail k] := by
  constructor
  · unfold IsScalar
    omega
  · rw [codeBytes, if_neg (by omega), if_neg (by omega), if_neg (by omega),
      show (((bits * 64 + m) * 64 + n) * 64 + k) / 262144 % 0x08 = bits by omega,
      show (((bits * 64 + m) * 64 + n) * 64 + k) / 4096 % 64 = m by omega,
      show (((bits * 64 + m) * 64 + n) * 64 + k) / 64 % 64 = n by omega,
      show (((bits * 64 + m) * 64 + n) * 64 + k) % 64 = k by omega]

/-- What a lead byte tells: it is the mark of a length with the lead bits, and the bounds that it sets
to the next byte shut out what is no character. -/
theorem lead?_cases {b low high : UInt8} {n bits : Nat} (h : lead? b = some (n, low, high, bits)) :
    (n = 1 ∧ b = UInt8.ofNat (bits + 0xC0) ∧ (2 ≤ bits ∧ bits < 0x20) ∧ low = 0x80 ∧ high = 0xBF) ∨
    (n = 2 ∧ b = UInt8.ofNat (bits + 0xE0) ∧ bits < 0x10 ∧ 0x80 ≤ low ∧ high ≤ 0xBF ∧
      (bits = 0 → low = 0xA0) ∧ (bits = 0xD → high = 0x9F)) ∨
    (n = 3 ∧ b = UInt8.ofNat (bits + 0xF0) ∧ bits ≤ 4 ∧ 0x80 ≤ low ∧ high ≤ 0xBF ∧
      (bits = 0 → low = 0x90) ∧ (bits = 4 → high = 0x8F)) := by
  have hof (m k : Nat) (hk : b.toNat = m + k) : b = UInt8.ofNat (m + k) := by
    rw [← hk, UInt8.ofNat_toNat]
  unfold lead? at h
  simp only [UInt8.le_iff_toNat_le, ← UInt8.toNat_inj, beq_iff_eq, Bool.and_eq_true,
    decide_eq_true_eq, UInt8.reduceToNat] at h
  split at h
  · next hb =>
    cases h
    exact .inl ⟨rfl, hof _ _ (by omega), by omega, rfl, rfl⟩
  · split at h
    · next hb =>
      cases h
      exact .inr (.inl ⟨rfl, hof _ _ (by omega), by omega, by decide, by decide, fun _ => rfl,
        by omega⟩)
    · split at h
      · next hb =>
        cases h
        exact .inr (.inl ⟨rfl, hof _ _ (by omega), by omega, by decide, by decide, by omega,
          fun _ => rfl⟩)
      · split at h
        · next hb =>
          cases h
          exact .inr (.inl ⟨rfl, hof _ _ (by omega), by omega, by decide, by decide, by omega,
            by omega⟩)
        · split at h
          · next hb =>
            cases h
            exact .inr (.inr ⟨rfl, hof _ _ (by omega), by omega, by decide, by decide,
              fun _ => rfl, by omega⟩)
          · split at h
            · next hb =>
              cases h
              exact .inr (.inr ⟨rfl, hof _ _ (by omega), by omega, by decide, by decide, by omega,
                by omega⟩)
            · split at h
              · next hb =>
                cases h
                exact .inr (.inr ⟨rfl, hof _ _ (by omega), by omega, by decide, by decide,
                  by omega, fun _ => rfl⟩)
              · cases h

/-- A character is read only from its own bytes. -/
theorem eq_of_front {b : UInt8} {bs rest : Bytes} {c : Char} (h : front b bs = .char c rest) :
    b :: bs = String.utf8EncodeChar c ++ rest := by
  have hof {v : Nat} {front : Bytes} (hv : IsScalar v ∧ codeBytes v = front) :
      String.utf8EncodeChar (Char.ofNat v) = front := by
    rw [encodeChar_eq, toNat_ofNat hv.1, hv.2]
  unfold front at h
  split at h
  · next hb =>
    cases h
    rw [UInt8.lt_iff_toNat_lt] at hb
    simp only [UInt8.reduceToNat] at hb
    rw [hof ⟨.inl (by omega), rfl⟩, codeBytes, if_pos (by omega), UInt8.ofNat_toNat]
    rfl
  · split at h
    · cases h
    · next n low high bits hl =>
      cases bs with
      | nil => cases h
      | cons t ts =>
        dsimp only at h
        split at h
        · next ht =>
          simp only [Bool.and_eq_true, decide_eq_true_eq, UInt8.le_iff_toNat_le] at ht
          rcases lead?_cases hl with ⟨rfl, rfl, hbits, rfl, rfl⟩ |
            ⟨rfl, rfl, hbits, hlow, hhigh, hzero, hd⟩ | ⟨rfl, rfl, hbits, hlow, hhigh, hzero, hlast⟩
          · have hm := eq_tail_of_isTail (b := t) (by
              simp only [isTail, UInt8.le_iff_toNat_le, ht, decide_true, Bool.and_self])
            generalize t.toNat - 0x80 = m at hm h
            obtain ⟨hm, rfl⟩ := hm
            cases h
            rw [hof (codeBytes_two hm hbits)]
            rfl
          · rw [UInt8.le_iff_toNat_le] at hlow hhigh
            have hm := eq_tail_of_isTail (b := t) (by
              simp only [isTail, UInt8.le_iff_toNat_le, Bool.and_eq_true, decide_eq_true_eq]
              omega)
            have hzero' : bits = 0 → 32 ≤ t.toNat - 0x80 := by
              intro hz
              rw [hzero hz] at ht
              simp only [UInt8.reduceToNat] at ht
              omega
            have hd' : bits = 0xD → t.toNat - 0x80 < 32 := by
              intro hz
              rw [hd hz] at ht
              simp only [UInt8.reduceToNat] at ht
              omega
            generalize t.toNat - 0x80 = m at hm h hzero' hd'
            obtain ⟨hm, rfl⟩ := hm
            obtain ⟨k, us, hk, rfl, hus⟩ := tails_eq_char h
            cases hus
            rw [hof (codeBytes_three hm hk hbits hzero' hd')]
            rfl
          · rw [UInt8.le_iff_toNat_le] at hlow hhigh
            have hm := eq_tail_of_isTail (b := t) (by
              simp only [isTail, UInt8.le_iff_toNat_le, Bool.and_eq_true, decide_eq_true_eq]
              omega)
            have hzero' : bits = 0 → 16 ≤ t.toNat - 0x80 := by
              intro hz
              rw [hzero hz] at ht
              simp only [UInt8.reduceToNat] at ht
              omega
            have hlast' : bits = 4 → t.toNat - 0x80 < 16 := by
              intro hz
              rw [hlast hz] at ht
              simp only [UInt8.reduceToNat] at ht
              omega
            generalize t.toNat - 0x80 = m at hm h hzero' hlast'
            obtain ⟨hm, rfl⟩ := hm
            obtain ⟨k, us, hk, rfl, hus⟩ := tails_eq_char h
            obtain ⟨l, ws, hl', rfl, hws⟩ := tails_eq_char hus
            cases hws
            rw [hof (codeBytes_four hm hk hl' hbits hzero' hlast')]
            rfl
        · cases h

/-! ### Texts -/

/-- What is written is read back, and what follows it after it. -/
theorem decode?_encode_append (cs : List Char) (rest : Bytes) :
    decode? (encode cs ++ rest) = (decode? rest).map (cs ++ ·) := by
  induction cs with
  | nil => simp
  | cons c cs ih =>
    obtain ⟨b, bs, hbs, hf⟩ := front_codeBytes (isScalar_toNat c) (encode cs ++ rest)
    rw [encode_cons, encodeChar_eq, List.append_assoc, hbs, decode?]
    split
    · next d ds h =>
      rw [hf] at h
      cases h
      rw [ih, Char.ofNat_toNat, Option.map_map]
      rfl
    · next ds h =>
      rw [hf] at h
      cases h

/-- What is written is read back. -/
@[simp] theorem decode?_encode (cs : List Char) : decode? (encode cs) = some cs := by
  have h := decode?_encode_append cs []
  rw [List.append_nil, decode?, Option.map_some, List.append_nil] at h
  exact h

/-- What is read has been written. -/
theorem eq_encode_of_decode? {bs : Bytes} {cs : List Char} (h : decode? bs = some cs) :
    bs = encode cs := by
  fun_induction decode? bs generalizing cs with
  | case1 =>
    cases h
    rfl
  | case2 b bs c rest hf ih =>
    obtain ⟨ds, hd, rfl⟩ := Option.map_eq_some_iff.1 h
    rw [eq_of_front hf, ih hd, encode_cons]
  | case3 => cases h

/-- **A byte string is read as a text exactly when the text is written so.** -/
theorem decode?_eq_some_iff {bs : Bytes} {cs : List Char} : decode? bs = some cs ↔ bs = encode cs := by
  constructor
  · exact eq_encode_of_decode?
  · rintro rfl
    exact decode?_encode cs

@[simp] theorem decodeLossy_encode (cs : List Char) : decodeLossy (encode cs) = cs :=
  decodeLossy_of_decode? (decode?_encode cs)

@[simp] theorem toString?_ofString (s : String) : toString? (ofString s) = some s := by
  simp [toString?, ofString]

@[simp] theorem toStringLossy_ofString (s : String) : toStringLossy (ofString s) = s := by
  simp [toStringLossy, ofString]

/-- Different texts have different bytes. -/
theorem ofString_inj {s t : String} (h : ofString s = ofString t) : s = t := by
  have hread := congrArg toString? h
  rw [toString?_ofString, toString?_ofString] at hread
  exact Option.some.inj hread

/-- The bytes of a character in front tell the character. -/
theorem encodeChar_append_inj {c d : Char} {bs cs : Bytes}
    (h : String.utf8EncodeChar c ++ bs = String.utf8EncodeChar d ++ cs) : c = d ∧ bs = cs := by
  obtain ⟨b, rest, hc, hfront⟩ := front_codeBytes (isScalar_toNat c) bs
  obtain ⟨b', rest', hd, hfront'⟩ := front_codeBytes (isScalar_toNat d) cs
  rw [← encodeChar_eq] at hc hd
  rw [hc, hd] at h
  obtain ⟨rfl, rfl⟩ := List.cons.inj h
  rw [hfront, Char.ofNat_toNat, Char.ofNat_toNat] at hfront'
  cases hfront'
  exact ⟨rfl, rfl⟩

theorem ofString_append (s t : String) : ofString (s ++ t) = ofString s ++ ofString t := by
  simp [ofString]

/-- A text that is written out is put together from its characters, and need not be taken apart. -/
theorem ofString_ofList (cs : List Char) : ofString (String.ofList cs) = encode cs := by
  rw [ofString, String.toList_ofList]

theorem ofString_ofList_append (cs ds : List Char) :
    ofString (String.ofList cs ++ String.ofList ds) = encode cs ++ encode ds := by
  rw [ofString_append, ofString_ofList, ofString_ofList]

/-! ### ASCII -/

/-- A character of ASCII is written as one byte, and any other as bytes outside ASCII. -/
theorem encodeChar_cases (c : Char) :
    (c.toNat < 0x80 ∧ String.utf8EncodeChar c = [UInt8.ofNat c.toNat]) ∨
    (0x80 ≤ c.toNat ∧ ∀ b ∈ String.utf8EncodeChar c, 0x80 ≤ b.toNat) := by
  have htail (m : Nat) : 0x80 ≤ (tail (m % 64)).toNat := by
    rw [toNat_tail (Nat.mod_lt m (by decide))]
    omega
  have hlead (m k : Nat) (h : 0x80 ≤ k) (hk : m + k < 256) : 0x80 ≤ (UInt8.ofNat (m + k)).toNat := by
    rw [UInt8.toNat_ofNat']
    omega
  rw [encodeChar_eq]
  unfold codeBytes
  by_cases h : c.toNat ≤ 0x7F
  · rw [if_pos h]
    exact .inl ⟨by omega, rfl⟩
  · rw [if_neg h]
    refine .inr ⟨by omega, ?_⟩
    split
    · intro b hb
      simp only [List.mem_cons, List.not_mem_nil, or_false] at hb
      rcases hb with rfl | rfl
      · exact hlead _ _ (by decide) (by omega)
      · exact htail _
    · split
      · intro b hb
        simp only [List.mem_cons, List.not_mem_nil, or_false] at hb
        rcases hb with rfl | rfl | rfl
        · exact hlead _ _ (by decide) (by omega)
        · exact htail _
        · exact htail _
      · intro b hb
        simp only [List.mem_cons, List.not_mem_nil, or_false] at hb
        rcases hb with rfl | rfl | rfl | rfl
        · exact hlead _ _ (by decide) (by omega)
        · exact htail _
        · exact htail _
        · exact htail _

/-- A character is written in at least one byte. -/
theorem encodeChar_of_ascii {c : Char} (h : c.toNat < 0x80) :
    String.utf8EncodeChar c = [UInt8.ofNat c.toNat] := by
  rcases encodeChar_cases c with ⟨-, he⟩ | ⟨hc, -⟩
  · exact he
  · omega

theorem exists_encodeChar_eq_cons (c : Char) : ∃ b bs, String.utf8EncodeChar c = b :: bs := by
  obtain ⟨b, bs, h, -⟩ := front_codeBytes (isScalar_toNat c) []
  rw [List.append_nil] at h
  exact ⟨b, bs, h⟩

/-- A byte of ASCII stands in a written text only for its own character. -/
theorem mem_encode_iff {n : Nat} (h : n < 0x80) (cs : List Char) :
    UInt8.ofNat n ∈ encode cs ↔ Char.ofNat n ∈ cs := by
  have hn : (UInt8.ofNat n).toNat = n := by
    rw [UInt8.toNat_ofNat']
    omega
  have hscalar : (Char.ofNat n).toNat = n := toNat_ofNat (.inl (by omega))
  induction cs with
  | nil => simp
  | cons c cs ih =>
    rw [encode_cons, List.mem_append, List.mem_cons]
    have hhead : UInt8.ofNat n ∈ String.utf8EncodeChar c ↔ Char.ofNat n = c := by
      rcases encodeChar_cases c with ⟨hc, he⟩ | ⟨hc, he⟩
      · rw [he, List.mem_singleton]
        constructor
        · intro heq
          have := congrArg UInt8.toNat heq
          rw [hn, UInt8.toNat_ofNat', Nat.mod_eq_of_lt (by omega)] at this
          rw [this, Char.ofNat_toNat]
        · rintro rfl
          rw [hscalar]
      · constructor
        · intro hmem
          have := he _ hmem
          omega
        · rintro rfl
          omega
    exact or_congr hhead ih

/-! ### Bytes of ASCII -/

/-- A front with more bytes behind. -/
def Front.before (behind : Bytes) : Front → Front
  | .char c rest => .char c (rest ++ behind)
  | .broken rest => .broken (rest ++ behind)

/-- A byte of ASCII continues no character, so what stands in front of it is read as if nothing followed. -/
theorem tails_append {b : UInt8} (h : b < 0x80) (n acc : Nat) (bs behind : Bytes) :
    tails n acc (bs ++ b :: behind) = (tails n acc bs).before (b :: behind) := by
  induction n generalizing acc bs with
  | zero => rfl
  | succ n ih =>
    cases bs with
    | nil =>
      have htail : isTail b = false := by
        unfold isTail
        rw [Bool.and_eq_false_iff, decide_eq_false_iff_not]
        exact .inl (UInt8.not_le.2 h)
      show (if isTail b then _ else _) = _
      rw [htail]
      rfl
    | cons c bs =>
      show (if isTail c then tails n _ (bs ++ b :: behind) else _) = _
      rw [tails, ih]
      cases isTail c <;> rfl

theorem front_append {b : UInt8} (h : b < 0x80) (c : UInt8) (bs behind : Bytes) :
    front c (bs ++ b :: behind) = (front c bs).before (b :: behind) := by
  unfold front
  split
  · rfl
  · cases hlead : lead? c with
    | none => rfl
    | some lead =>
      obtain ⟨n, low, high, bits⟩ := lead
      dsimp only
      cases bs with
      | nil =>
        have hlow : ¬low ≤ b := by
          have : 0x80 ≤ low := by
            rcases lead?_cases hlead with ⟨-, -, -, rfl, -⟩ | ⟨-, -, -, hlow, -⟩ | ⟨-, -, -, hlow, -⟩
            · decide
            · exact hlow
            · exact hlow
          rw [UInt8.not_le]
          exact UInt8.lt_of_lt_of_le h this
        show (if (low ≤ b && b ≤ high) = true then _ else _) = _
        rw [if_neg (by simp [hlow])]
        rfl
      | cons d bs =>
        rw [List.cons_append]
        dsimp only
        rw [tails_append h]
        cases (low ≤ d && d ≤ high : Bool) <;> rfl

/-- **A byte of ASCII cuts a byte string**: what stands in front of it is read on its own. -/
theorem decodeLossy_append {b : UInt8} (h : b < 0x80) (bs behind : Bytes) :
    decodeLossy (bs ++ b :: behind) = decodeLossy bs ++ Char.ofNat b.toNat :: decodeLossy behind := by
  fun_induction decodeLossy bs with
  | case1 =>
    have hfront : front b behind = .char (Char.ofNat b.toNat) behind := by rw [front, if_pos h]
    rw [List.nil_append, decodeLossy]
    split
    · next heq =>
      rw [hfront] at heq
      cases heq
      rfl
    · next heq =>
      rw [hfront] at heq
      cases heq
  | case2 c bs d rest hfront ih =>
    have hmore := front_append h c bs behind
    rw [hfront] at hmore
    rw [List.cons_append, decodeLossy]
    split
    · next heq =>
      rw [hmore] at heq
      cases heq
      rw [ih, List.cons_append]
    · next heq =>
      rw [hmore] at heq
      cases heq
  | case3 c bs rest hfront ih =>
    have hmore := front_append h c bs behind
    rw [hfront] at hmore
    rw [List.cons_append, decodeLossy]
    split
    · next heq =>
      rw [hmore] at heq
      cases heq
    · next heq =>
      rw [hmore] at heq
      cases heq
      rw [ih, List.cons_append]

/-- Bytes of ASCII are read as their characters. -/
theorem decodeLossy_ascii_append {run : Bytes} (h : ∀ b ∈ run, b < 0x80) (behind : Bytes) :
    decodeLossy (run ++ behind) = run.map (fun b => Char.ofNat b.toNat) ++ decodeLossy behind := by
  induction run with
  | nil => rfl
  | cons b run ih =>
    obtain ⟨hb, hrun⟩ := List.forall_mem_cons.1 h
    have hcut := decodeLossy_append hb [] (run ++ behind)
    rw [List.nil_append, decodeLossy, List.nil_append] at hcut
    rw [List.cons_append, hcut, ih hrun]
    rfl

/-- Bytes that are no character hold none of ASCII. -/
theorem eq_of_tails_broken {n acc : Nat} {bs rest : Bytes} (h : tails n acc bs = .broken rest) :
    ∃ dropped, bs = dropped ++ rest ∧ ∀ b ∈ dropped, 0x80 ≤ b := by
  induction n generalizing acc bs with
  | zero => cases h
  | succ n ih =>
    cases bs with
    | nil =>
      cases h
      exact ⟨[], rfl, nofun⟩
    | cons b bs =>
      rw [tails] at h
      split at h
      · next htail =>
        obtain ⟨dropped, rfl, hdropped⟩ := ih h
        have hb : 0x80 ≤ b := by
          rw [isTail, Bool.and_eq_true, decide_eq_true_eq] at htail
          exact htail.1
        exact ⟨b :: dropped, rfl, List.forall_mem_cons.2 ⟨hb, hdropped⟩⟩
      · cases h
        exact ⟨[], rfl, nofun⟩

theorem eq_of_front_broken {b : UInt8} {bs rest : Bytes} (h : front b bs = .broken rest) :
    ∃ dropped, b :: bs = dropped ++ rest ∧ ∀ c ∈ dropped, 0x80 ≤ c := by
  unfold front at h
  split at h
  · cases h
  · next hb =>
    have hb : 0x80 ≤ b := UInt8.not_lt.1 hb
    split at h
    · cases h
      exact ⟨[b], rfl, by simpa using hb⟩
    · next n low high bits hlead =>
      split at h
      · cases h
        exact ⟨[b], rfl, by simpa using hb⟩
      · next t behind =>
        split at h
        · next ht =>
          obtain ⟨dropped, rfl, hdropped⟩ := eq_of_tails_broken h
          have hlow : 0x80 ≤ low := by
            rcases lead?_cases hlead with ⟨-, -, -, rfl, -⟩ | ⟨-, -, -, hlow, -⟩ | ⟨-, -, -, hlow, -⟩
            · decide
            · exact hlow
            · exact hlow
          rw [Bool.and_eq_true, decide_eq_true_eq] at ht
          have ht : 0x80 ≤ t := UInt8.le_trans hlow ht.1
          exact ⟨b :: t :: dropped, rfl, List.forall_mem_cons.2 ⟨hb, List.forall_mem_cons.2 ⟨ht, hdropped⟩⟩⟩
        · cases h
          exact ⟨[b], rfl, by simpa using hb⟩

/-- A character of ASCII stands in a text exactly where its byte does, however the other bytes are read. -/
theorem count_decodeLossy {n : Nat} (h : n < 0x80) (bs : Bytes) :
    (decodeLossy bs).count (Char.ofNat n) = bs.count (UInt8.ofNat n) := by
  have hn : (UInt8.ofNat n).toNat = n := by
    rw [UInt8.toNat_ofNat']
    omega
  have hchar : (Char.ofNat n).toNat = n := toNat_ofNat (.inl (by omega))
  fun_induction decodeLossy bs with
  | case1 => rfl
  | case2 b bs c rest hfront ih =>
    rw [eq_of_front hfront, List.count_append, ← ih, List.count_cons, Nat.add_comm]
    refine congrArg (· + _) ?_
    rcases encodeChar_cases c with ⟨hc, he⟩ | ⟨hc, he⟩
    · have hiff : c = Char.ofNat n ↔ UInt8.ofNat c.toNat = UInt8.ofNat n := by
        rw [← Char.toNat_inj, hchar, ← UInt8.toNat_inj, hn, UInt8.toNat_ofNat', Nat.mod_eq_of_lt (by omega)]
      rw [he, List.count_singleton]
      simp only [beq_iff_eq, hiff]
    · have hne : c ≠ Char.ofNat n := by
        rintro rfl
        omega
      rw [if_neg (by simpa using hne), List.count_eq_zero_of_not_mem]
      intro hmem
      have := he _ hmem
      omega
  | case3 b bs rest hfront ih =>
    obtain ⟨dropped, heq, hdropped⟩ := eq_of_front_broken hfront
    have hfffd : ('\ufffd' == Char.ofNat n) = false := by
      rw [beq_eq_false_iff_ne, ne_eq, ← Char.toNat_inj, hchar]
      simp only [Char.reduceToNat]
      omega
    have hnone : dropped.count (UInt8.ofNat n) = 0 := by
      rw [List.count_eq_zero]
      intro hmem
      have := UInt8.le_iff_toNat_le.1 (hdropped _ hmem)
      rw [hn] at this
      simp only [UInt8.reduceToNat] at this
      omega
    rw [heq, List.count_append, hnone, ← ih, List.count_cons, hfffd, Nat.zero_add]
    rfl

end SoapBinding.Utf8
