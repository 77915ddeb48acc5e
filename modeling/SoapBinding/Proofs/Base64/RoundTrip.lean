import SoapBinding.Base64.Chunks
import SoapBinding.Text.Blank
import Mathlib.Tactic.ByContra

/-!
# Base64 is read as it is written

    decode?_eq_some_iff : decode? cs = some bs ↔ cs = encode bs

Reading goes quantum by quantum. A quantum in which no `=` stands can be split off in front of any
text (`decode?_append`), so a text that begins with whole quanta is read as these are read, and then
as the rest is. This is what reading piece by piece rests on; that writing chunk by chunk gives the
text of all the bytes rests on the same law for `encode`, where a chunk has to be whole triples.
-/

namespace SoapBinding.Base64

/-! ### Letters -/

/-- A letter has its value. -/
theorem value?_letter {n : Nat} (h : n < 64) : value? (letter n) = some n := by
  revert n
  decide

/-- A letter is neither the padding nor outside ASCII. -/
theorem letter_cases {n : Nat} (h : n < 64) : letter n ≠ '=' ∧ (letter n).toNat < 128 := by
  revert n
  decide

/-- What has a value is written in ASCII. -/
theorem toNat_lt_of_value? {c : Char} {n : Nat} (h : value? c = some n) : c.toNat < 128 := by
  unfold value? at h
  simp only [Bool.and_eq_true, decide_eq_true_eq, beq_iff_eq] at h
  split at h
  · omega
  · split at h
    · omega
    · split at h
      · omega
      · split at h
        · next he =>
          rw [he]
          decide
        · split at h
          · next he =>
            rw [he]
            decide
          · cases h

/-! ### Quanta -/

theorem quantum?_eq_none {a b c d : Char}
    (h : value? a = none ∨ value? b = none ∨ value? c = none ∨ value? d = none) :
    quantum? a b c d = none := by
  unfold quantum?
  cases ha : value? a <;> cases hb : value? b <;> cases hc : value? c <;> cases hd : value? d <;>
    simp_all

/-- Where the fourth letter is no padding, the text goes on behind the quantum. -/
theorem decode?_quantum {a b c d : Char} (hd : d ≠ '=') (rest : List Char) :
    decode? (a :: b :: c :: d :: rest) =
      (quantum? a b c d).bind fun bytes => (decode? rest).map (bytes ++ ·) := by
  rw [decode?]
  · rfl
  · intro _ h
    exact absurd h hd
  · intro h
    exact absurd h hd

/-- A list of whole quanta is empty or begins with one. -/
theorem whole_cases {cs : List Char} (h : cs.length % 4 = 0) :
    cs = [] ∨ ∃ a b c d rest, cs = a :: b :: c :: d :: rest ∧ rest.length % 4 = 0 := by
  match cs with
  | [] => exact .inl rfl
  | [_] | [_, _] | [_, _, _] => simp at h
  | a :: b :: c :: d :: rest =>
    refine .inr ⟨a, b, c, d, rest, rfl, ?_⟩
    simp only [List.length_cons] at h
    omega

/-- Whole quanta without padding are read on their own, and what follows them after them. -/
theorem decode?_append {front : List Char} (hwhole : front.length % 4 = 0) (hpad : '=' ∉ front)
    (rest : List Char) :
    decode? (front ++ rest) =
      (decode? front).bind fun bytes => (decode? rest).map (bytes ++ ·) := by
  induction hn : front.length using Nat.strongRecOn generalizing front with
  | ind n ih =>
    rcases whole_cases hwhole with rfl | ⟨a, b, c, d, tail, rfl, htail⟩
    · simp [decode?]
    · have hd : d ≠ '=' := by
        rintro rfl
        simp at hpad
      have hmem : '=' ∉ tail := by
        intro h
        exact hpad (by simp [h])
      have hlt : tail.length < n := by
        simp only [List.length_cons] at hn
        omega
      show decode? (a :: b :: c :: d :: (tail ++ rest)) = _
      rw [decode?_quantum hd, decode?_quantum hd, ih _ hlt htail hmem rfl]
      cases quantum? a b c d with
      | none => rfl
      | some bytes =>
        cases decode? tail with
        | none => rfl
        | some more => simp [Function.comp_def]

/-- A character that is neither a letter nor padding spoils the text. -/
theorem decode?_eq_none_of_mem {cs : List Char} {c : Char} (h : c ∈ cs) (hv : value? c = none)
    (hc : c ≠ '=') : decode? cs = none := by
  fun_induction decode? cs with
  | case1 => cases h
  | case2 a b =>
    simp only [List.mem_cons, List.not_mem_nil, or_false, hc] at h
    rcases h with rfl | rfl
    · simp [closing1?, hv]
    · cases value? a <;> simp [closing1?, hv]
  | case3 a b c' =>
    simp only [List.mem_cons, List.not_mem_nil, or_false, hc] at h
    rcases h with rfl | rfl | rfl
    · simp [closing2?, hv]
    · cases value? a <;> simp [closing2?, hv]
    · cases value? a <;> cases value? b <;> simp [closing2?, hv]
  | case4 a b c' d rest _ _ ih =>
    simp only [List.mem_cons] at h
    rcases h with rfl | rfl | rfl | rfl | h
    · rw [quantum?_eq_none (.inl hv)]
      rfl
    · rw [quantum?_eq_none (.inr (.inl hv))]
      rfl
    · rw [quantum?_eq_none (.inr (.inr (.inl hv)))]
      rfl
    · rw [quantum?_eq_none (.inr (.inr (.inr hv)))]
      rfl
    · rw [ih h]
      cases quantum? a b c' d <;> rfl
  | case5 => rfl

/-! ### What is written -/

/-- A byte is its two parts. -/
theorem ofNat_toNat_of_eq {b : UInt8} {n : Nat} (h : n = b.toNat) : UInt8.ofNat n = b := by
  rw [h, UInt8.ofNat_toNat]

/-- A triple of bytes is read back from its four letters. -/
theorem quantum?_letters (a b c : UInt8) :
    quantum? (letter (a.toNat / 4)) (letter (a.toNat % 4 * 16 + b.toNat / 16))
      (letter (b.toNat % 16 * 4 + c.toNat / 64)) (letter (c.toNat % 64)) = some [a, b, c] := by
  have ha := a.toNat_lt
  have hb := b.toNat_lt
  have hc := c.toNat_lt
  unfold quantum?
  rw [value?_letter (by omega), value?_letter (by omega), value?_letter (by omega),
    value?_letter (by omega)]
  show some [_, _, _] = _
  rw [ofNat_toNat_of_eq (b := a) (by omega), ofNat_toNat_of_eq (b := b) (by omega),
    ofNat_toNat_of_eq (b := c) (by omega)]

/-- What is written is read back. -/
@[simp] theorem decode?_encode (bs : Bytes) : decode? (encode bs) = some bs := by
  fun_induction encode bs with
  | case1 => rfl
  | case2 a =>
    have ha := a.toNat_lt
    show closing1? _ _ = _
    unfold closing1?
    rw [value?_letter (by omega), value?_letter (by omega)]
    show (if _ then some [_] else none) = _
    rw [if_pos (by omega), ofNat_toNat_of_eq (b := a) (by omega)]
  | case3 a b =>
    have ha := a.toNat_lt
    have hb := b.toNat_lt
    have hthird := (letter_cases (n := b.toNat % 16 * 4) (by omega)).1
    rw [decode?]
    · unfold closing2?
      rw [value?_letter (by omega), value?_letter (by omega), value?_letter (by omega)]
      show (if _ then some [_, _] else none) = _
      rw [if_pos (by omega), ofNat_toNat_of_eq (b := a) (by omega),
        ofNat_toNat_of_eq (b := b) (by omega)]
    · intro h
      exact absurd h hthird
  | case4 a b c rest ih =>
    have hlast := (letter_cases (n := c.toNat % 64) (by omega)).1
    rw [decode?_quantum hlast, quantum?_letters, ih]
    rfl

/-- What is written is in ASCII, without blanks. -/
theorem toNat_lt_of_mem_encode {bs : Bytes} {c : Char} (h : c ∈ encode bs) : c.toNat < 128 := by
  rcases hv : value? c with _ | n
  · by_cases hc : c = '='
    · rw [hc]
      decide
    · have := decode?_eq_none_of_mem h hv hc
      rw [decode?_encode] at this
      cases this
  · exact toNat_lt_of_value? hv

theorem isBlank_of_mem_encode {bs : Bytes} {c : Char} (h : c ∈ encode bs) :
    Text.isBlank c = false := by
  by_contra hblank
  rw [Bool.not_eq_false] at hblank
  have hlt := toNat_lt_of_mem_encode h
  -- The blank characters of ASCII are six, and none of them is a letter.
  have hmem : c.toNat ∈ [9, 10, 11, 12, 13, 32] := by
    simp only [Text.isBlank, Bool.or_eq_true, Bool.and_eq_true, decide_eq_true_eq, beq_iff_eq] at hblank
    simp only [List.mem_cons, List.not_mem_nil, or_false]
    omega
  have hc : c ∈ [9, 10, 11, 12, 13, 32].map Char.ofNat := by
    rw [← Char.ofNat_toNat c]
    exact List.mem_map_of_mem hmem
  have hall : ([9, 10, 11, 12, 13, 32].map Char.ofNat).all (fun c => decide (value? c = none ∧ c ≠ '=')) = true := by
    decide
  have hnone : value? c = none ∧ c ≠ '=' := of_decide_eq_true (List.all_eq_true.1 hall c hc)
  have := decode?_eq_none_of_mem h hnone.1 hnone.2
  rw [decode?_encode] at this
  cases this

theorem isAsciiBlank_of_mem_encode {bs : Bytes} {c : Char} (h : c ∈ encode bs) :
    Text.isAsciiBlank c = false := by
  by_contra hblank
  rw [Bool.not_eq_false] at hblank
  have := isBlank_of_mem_encode h
  rw [Text.isBlank_of_isAsciiBlank hblank] at this
  cases this

/-- Whole triples are written on their own, and what follows them after them. -/
theorem encode_append {front : Bytes} (h : front.length % 3 = 0) (rest : Bytes) :
    encode (front ++ rest) = encode front ++ encode rest := by
  fun_induction encode front with
  | case1 => rfl
  | case2 => simp at h
  | case3 => simp at h
  | case4 a b c front ih =>
    have hfront : front.length % 3 = 0 := by
      simp only [List.length_cons] at h
      omega
    show encode (a :: b :: c :: (front ++ rest)) = _
    rw [encode, ih hfront]
    rfl

/-! ### What is read -/

/-- A character that has a value is the letter of that value. -/
theorem letter_of_value? {c : Char} {n : Nat} (h : value? c = some n) : letter n = c ∧ n < 64 := by
  have hself := Char.ofNat_toNat c
  unfold value? at h
  simp only [Bool.and_eq_true, decide_eq_true_eq, beq_iff_eq] at h
  unfold letter
  split at h
  · cases h
    rw [if_pos (by omega), Nat.sub_add_cancel (by omega)]
    exact ⟨hself, by omega⟩
  · split at h
    · cases h
      rw [if_neg (by omega), if_pos (by omega), show c.toNat - 71 + 71 = c.toNat by omega]
      exact ⟨hself, by omega⟩
    · split at h
      · cases h
        rw [if_neg (by omega), if_neg (by omega), if_pos (by omega), Nat.add_sub_cancel]
        exact ⟨hself, by omega⟩
      · split at h
        · next hplus =>
          cases h
          exact ⟨hplus.symm, by decide⟩
        · split at h
          · next hslash =>
            cases h
            exact ⟨hslash.symm, by decide⟩
          · cases h

/-- Bytes that a quantum is read as are written as that quantum. -/
theorem encode_of_quantum? {a b c d : Char} {bytes : Bytes} (h : quantum? a b c d = some bytes) (rest : Bytes) :
    encode (bytes ++ rest) = a :: b :: c :: d :: encode rest := by
  simp only [quantum?, Option.bind_eq_bind, Option.bind_eq_some_iff, Option.some.injEq] at h
  obtain ⟨w, hw, x, hx, y, hy, z, hz, rfl⟩ := h
  obtain ⟨rfl, hw⟩ := letter_of_value? hw
  obtain ⟨rfl, hx⟩ := letter_of_value? hx
  obtain ⟨rfl, hy⟩ := letter_of_value? hy
  obtain ⟨rfl, hz⟩ := letter_of_value? hz
  simp only [List.cons_append, List.nil_append, encode]
  rw [UInt8.toNat_ofNat_of_lt' (show _ < 256 by omega), UInt8.toNat_ofNat_of_lt' (show _ < 256 by omega),
    UInt8.toNat_ofNat_of_lt' (show _ < 256 by omega)]
  rw [show (w * 4 + x / 16) / 4 = w by omega,
    show (w * 4 + x / 16) % 4 * 16 + (x % 16 * 16 + y / 4) / 16 = x by omega,
    show (x % 16 * 16 + y / 4) % 16 * 4 + (y % 4 * 64 + z) / 64 = y by omega,
    show (y % 4 * 64 + z) % 64 = z by omega]

/-- The bits that one `=` leaves over are zero, so the letters are those of the bytes. -/
theorem encode_of_closing2? {a b c : Char} {bytes : Bytes} (h : closing2? a b c = some bytes) :
    encode bytes = [a, b, c, '='] := by
  simp only [closing2?, Option.bind_eq_bind, Option.bind_eq_some_iff] at h
  obtain ⟨w, hw, x, hx, y, hy, hrest⟩ := h
  obtain ⟨rfl, hw⟩ := letter_of_value? hw
  obtain ⟨rfl, hx⟩ := letter_of_value? hx
  obtain ⟨rfl, hy⟩ := letter_of_value? hy
  split at hrest
  · next hzero =>
    cases hrest
    rw [encode, UInt8.toNat_ofNat_of_lt' (show _ < 256 by omega), UInt8.toNat_ofNat_of_lt' (show _ < 256 by omega)]
    rw [show (w * 4 + x / 16) / 4 = w by omega,
      show (w * 4 + x / 16) % 4 * 16 + (x % 16 * 16 + y / 4) / 16 = x by omega,
      show (x % 16 * 16 + y / 4) % 16 * 4 = y by omega]
  · cases hrest

/-- So it is with two `=`. -/
theorem encode_of_closing1? {a b : Char} {bytes : Bytes} (h : closing1? a b = some bytes) :
    encode bytes = [a, b, '=', '='] := by
  simp only [closing1?, Option.bind_eq_bind, Option.bind_eq_some_iff] at h
  obtain ⟨w, hw, x, hx, hrest⟩ := h
  obtain ⟨rfl, hw⟩ := letter_of_value? hw
  obtain ⟨rfl, hx⟩ := letter_of_value? hx
  split at hrest
  · next hzero =>
    cases hrest
    rw [encode, UInt8.toNat_ofNat_of_lt' (show _ < 256 by omega), show (w * 4 + x / 16) / 4 = w by omega,
      show (w * 4 + x / 16) % 4 * 16 = x by omega]
  · cases hrest

/-- What is read is what the bytes are written as. -/
theorem encode_of_decode? {cs : List Char} {bs : Bytes} (h : decode? cs = some bs) : encode bs = cs := by
  fun_induction decode? cs generalizing bs with
  | case1 =>
    cases h
    rfl
  | case2 a b => exact encode_of_closing1? h
  | case3 a b c => exact encode_of_closing2? h
  | case4 a b c d rest _ _ ih =>
    simp only [Option.bind_eq_bind, Option.bind_eq_some_iff, Option.map_eq_some_iff] at h
    obtain ⟨bytes, hquantum, more, hmore, rfl⟩ := h
    rw [encode_of_quantum? hquantum, ih hmore]
  | case5 => cases h

/-- **Base64 text is canonical.** It is read as some bytes just if it is what they are written as. -/
theorem decode?_eq_some_iff {cs : List Char} {bs : Bytes} : decode? cs = some bs ↔ cs = encode bs :=
  ⟨fun h => (encode_of_decode? h).symm, fun h => h ▸ decode?_encode bs⟩

/-! ### Chunks -/

/-- A chunk is as long as the size, unless it is the last one. -/
theorem encode_chunksOfSucc {size : Nat} (h : (size + 1) % 3 = 0) (bs : Bytes) :
    ((chunksOfSucc size bs).map encode).flatten = encode bs := by
  fun_induction chunksOfSucc size bs with
  | case1 => rfl
  | case2 b bs ih =>
    rw [List.map_cons, List.flatten_cons, ih]
    by_cases hlen : size ≤ bs.length
    · have hwhole : (b :: bs.take size).length % 3 = 0 := by
        rw [List.length_cons, List.length_take_of_le hlen]
        exact h
      rw [← encode_append hwhole, List.cons_append, List.take_append_drop]
    · rw [List.take_of_length_le (by omega), List.drop_of_length_le (by omega)]
      simp [encode]

/-- **Chunks of whole triples are written as all the bytes are.** -/
theorem encode_chunks {size : Nat} (hpos : 0 < size) (h : size % 3 = 0) (bs : Bytes) :
    ((chunks size bs).map encode).flatten = encode bs := by
  apply encode_chunksOfSucc
  rw [Nat.sub_add_cancel hpos]
  exact h

end SoapBinding.Base64
