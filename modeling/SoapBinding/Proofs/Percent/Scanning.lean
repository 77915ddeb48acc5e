import SoapBinding.Proofs.Percent

/-!
# References read by scanning

What a reference is read as, said without a reader: it is scanned from left to right, a percent sign with an escape
behind it stands for a byte, and every other byte for itself (`Scans`). What counts as an escape is a parameter. Two
hexadecimal digits do (`IsPair`), and `decodeBytes` takes a sign in front of a single digit for one as well
(`IsSigned`). So it scans for more escapes than there are:

    scans_iff : Scans (fun a b byte => IsPair a b byte ∨ IsSigned a b byte) bytes out ↔ decodeBytes bytes = out

A reference is read by its escapes if and only if no percent sign in it has a plus sign and a digit behind it
(`decode_scans`). References that are written here hold no such sign, as each percent sign of an id is escaped.
-/

namespace SoapBinding.Percent

/-! ### Escapes -/

/-- A hexadecimal digit of some value, in either case. -/
def IsDigit (digit : UInt8) (value : Nat) : Prop :=
  (Utf8.ofString "0123456789ABCDEF")[value]? = some digit ∨ (Utf8.ofString "0123456789abcdef")[value]? = some digit

/-- Two digits are an escape of a byte. -/
def IsPair (a b byte : UInt8) : Prop :=
  ∃ high low, IsDigit a high ∧ IsDigit b low ∧ byte = UInt8.ofNat (high * 16 + low)

/-- A plus sign and one digit, which are read as an escape too. -/
def IsSigned (a b byte : UInt8) : Prop := a = 0x2B ∧ ∃ low, IsDigit b low ∧ byte = UInt8.ofNat low

/-- What scanning makes of a byte string from left to right: it replaces each percent sign that has an escape behind
it, together with the escape, and keeps every other byte. -/
inductive Scans (IsEscape : UInt8 → UInt8 → UInt8 → Prop) : Bytes → Bytes → Prop where
  | nil : Scans IsEscape [] []
  | escape {a b byte : UInt8} {behind out : Bytes} : IsEscape a b byte → Scans IsEscape behind out →
      Scans IsEscape (0x25 :: a :: b :: behind) (byte :: out)
  | copy {x : UInt8} {behind out : Bytes} :
      (∀ a b byte rest, x :: behind = 0x25 :: a :: b :: rest → ¬IsEscape a b byte) → Scans IsEscape behind out →
      Scans IsEscape (x :: behind) (x :: out)

/-- There are sixteen digits. -/
theorem IsDigit.lt {digit : UInt8} {value : Nat} (h : IsDigit digit value) : value < 16 := by
  have hlength (text : String) (h : (Utf8.ofString text).length = 16) :
      (Utf8.ofString text)[value]? = some digit → value < 16 := by
    intro hget
    rw [← h]
    exact (List.getElem?_eq_some_iff.1 hget).1
  exact h.elim (hlength _ (by decide +kernel)) (hlength _ (by decide +kernel))

/-- The digits are those that are read as such. -/
theorem isDigit_iff {digit : UInt8} {value : Nat} : IsDigit digit value ↔ hexValue? digit = some value := by
  constructor
  · intro h
    have hread {text : String} (hall : ∀ value < 16, (Utf8.ofString text)[value]?.bind hexValue? = some value)
        (hdigit : (Utf8.ofString text)[value]? = some digit) : hexValue? digit = some value := by
      have hvalue := hall value h.lt
      rwa [hdigit] at hvalue
    exact h.elim (hread (by decide +kernel)) (hread (by decide +kernel))
  · intro h
    -- There are 256 bytes.
    have hall : ∀ code < 256, ∀ value ∈ hexValue? (UInt8.ofNat code), IsDigit (UInt8.ofNat code) value := by
      unfold IsDigit
      decide +kernel
    have hdigit := hall digit.toNat digit.toNat_lt value
    rw [UInt8.ofNat_toNat] at hdigit
    exact hdigit h

theorem IsDigit.ofNat_ne_percent {digit : UInt8} {value : Nat} (h : IsDigit digit value) : UInt8.ofNat value ≠ 0x25 := by
  intro heq
  have hlt := h.lt
  have hvalue := congrArg UInt8.toNat heq
  rw [UInt8.toNat_ofNat'] at hvalue
  simp only [UInt8.reduceToNat] at hvalue
  omega

theorem IsDigit.ne_plus {digit : UInt8} {value : Nat} (h : IsDigit digit value) : digit ≠ 0x2B := by
  rintro rfl
  cases isDigit_iff.1 h

theorem IsDigit.ne_percent {digit : UInt8} {value : Nat} (h : IsDigit digit value) : digit ≠ 0x25 := by
  rintro rfl
  cases isDigit_iff.1 h

theorem isPair_iff {a b byte : UInt8} : IsPair a b byte ↔ a ≠ 0x2B ∧ escape? a b = some byte := by
  unfold IsPair escape?
  simp only [isDigit_iff]
  constructor
  · rintro ⟨high, low, ha, hb, rfl⟩
    have hne : a ≠ 0x2B := (isDigit_iff.2 ha).ne_plus
    refine ⟨hne, ?_⟩
    rw [if_neg (by simpa using hne), ha, hb]
    rfl
  · rintro ⟨hne, h⟩
    rw [if_neg (by simpa using hne)] at h
    obtain ⟨high, ha, h⟩ := Option.bind_eq_some_iff.1 h
    obtain ⟨low, hb, h⟩ := Option.bind_eq_some_iff.1 h
    exact ⟨high, low, ha, hb, (Option.some.inj h).symm⟩

theorem isSigned_iff {a b byte : UInt8} : IsSigned a b byte ↔ a = 0x2B ∧ escape? a b = some byte := by
  unfold IsSigned escape?
  simp only [isDigit_iff]
  refine and_congr_right ?_
  rintro rfl
  rw [if_pos (by decide), Option.map_eq_some_iff]
  simp only [eq_comm]

/-- What is read as an escape is one, or has a sign in place of its first digit. -/
theorem isPair_or_isSigned_iff {a b byte : UInt8} : IsPair a b byte ∨ IsSigned a b byte ↔ escape? a b = some byte := by
  rw [isPair_iff, isSigned_iff, ← or_and_right]
  exact and_iff_right (Decidable.em _).symm

/-! ### Scanning -/

variable {IsEscape : UInt8 → UInt8 → UInt8 → Prop} {bytes out other : Bytes}

/-- Every byte string can be scanned. -/
theorem exists_scans (IsEscape : UInt8 → UInt8 → UInt8 → Prop) : ∀ bytes, ∃ out, Scans IsEscape bytes out
  | [] => ⟨[], .nil⟩
  | x :: behind => by
    by_cases h : ∃ a b byte rest, x :: behind = 0x25 :: a :: b :: rest ∧ IsEscape a b byte
    · obtain ⟨a, b, byte, rest, heq, hescape⟩ := h
      obtain ⟨rfl, rfl⟩ := List.cons.inj heq
      obtain ⟨out, hout⟩ := exists_scans IsEscape rest
      exact ⟨byte :: out, .escape hescape hout⟩
    · obtain ⟨out, hout⟩ := exists_scans IsEscape behind
      refine ⟨x :: out, .copy (fun a b byte rest heq hescape => h ⟨a, b, byte, rest, heq, hescape⟩) hout⟩
termination_by bytes => bytes.length

/-- A byte that is no percent sign is kept. -/
theorem Scans.copy_of_ne {x : UInt8} (hx : x ≠ 0x25) (h : Scans IsEscape bytes out) :
    Scans IsEscape (x :: bytes) (x :: out) :=
  .copy (fun _ _ _ _ heq _ => hx (List.cons.inj heq).1) h

/-- There is one way to scan a byte string where an escape is of one byte. -/
theorem Scans.unique (hone : ∀ {a b byte byte'}, IsEscape a b byte → IsEscape a b byte' → byte = byte')
    (h : Scans IsEscape bytes out) (h' : Scans IsEscape bytes other) : other = out := by
  induction h generalizing other with
  | nil =>
    cases h'
    rfl
  | escape hescape _ ih =>
    cases h' with
    | escape hescape' h' => rw [hone hescape hescape', ih h']
    | copy hcopy _ => exact absurd hescape (hcopy _ _ _ _ rfl)
  | copy hcopy _ ih =>
    cases h' with
    | escape hescape' _ => exact absurd hescape' (hcopy _ _ _ _ rfl)
    | copy _ h' => rw [ih h']

/-- Reading scans for the escapes that are and for those with a sign. -/
theorem scans_decodeBytes (bytes : Bytes) :
    Scans (fun a b byte => IsPair a b byte ∨ IsSigned a b byte) bytes (decodeBytes bytes) := by
  simp only [isPair_or_isSigned_iff]
  fun_induction decodeBytes bytes with
  | case1 => exact .nil
  | case2 x hx a b rest byte hescape ih =>
    obtain rfl : x = 0x25 := by simpa using hx
    exact .escape hescape ih
  | case3 x hx a b rest hnone ih =>
    refine .copy (fun a' b' byte rest' heq hescape => ?_) ih
    obtain ⟨-, rfl, rfl, -⟩ : x = 0x25 ∧ a = a' ∧ b = b' ∧ rest = rest' := by simpa using heq
    rw [hnone] at hescape
    cases hescape
  | case4 x short hx hshort ih =>
    refine .copy (fun a b byte rest heq _ => ?_) ih
    exact hshort a b rest (List.cons.inj heq).2
  | case5 x rest hx ih =>
    refine .copy (fun a b byte rest heq _ => ?_) ih
    exact hx (by simp [(List.cons.inj heq).1])

theorem scans_iff :
    Scans (fun a b byte => IsPair a b byte ∨ IsSigned a b byte) bytes out ↔ decodeBytes bytes = out := by
  constructor
  · intro h
    refine h.unique (fun hescape hescape' => ?_) (scans_decodeBytes bytes)
    rw [isPair_or_isSigned_iff] at hescape hescape'
    exact Option.some.inj (hescape.symm.trans hescape')
  · rintro rfl
    exact scans_decodeBytes bytes

/-- Where no two digits stand behind a percent sign, scanning keeps everything. -/
theorem scans_self (h : ∀ a b byte, IsPair a b byte → ¬[0x25, a, b] <:+: bytes) : Scans IsPair bytes bytes := by
  induction bytes with
  | nil => exact .nil
  | cons x behind ih =>
    refine .copy (fun a b byte rest heq hpair => ?_) (ih fun a b byte hpair hsub => ?_)
    · exact h a b byte hpair (heq ▸ ⟨[], rest, rfl⟩)
    · exact h a b byte hpair (hsub.trans (List.suffix_cons x behind).isInfix)

/-! ### Signs -/

/-- No percent sign has a plus sign and a digit behind it. -/
def IsUnsigned (bytes : Bytes) : Prop := ∀ digit value, IsDigit digit value → ¬[0x25, 0x2B, digit] <:+: bytes

theorem IsUnsigned.of_suffix {behind : Bytes} (h : IsUnsigned bytes) (hsuffix : behind <:+ bytes) : IsUnsigned behind :=
  fun digit value hdigit hsub => h digit value hdigit (hsub.trans hsuffix.isInfix)

/-- A byte in front makes no sign if it is no percent sign in front of one. -/
theorem IsUnsigned.cons {x : UInt8} {behind : Bytes} (h : IsUnsigned behind)
    (hx : ∀ digit value rest, IsDigit digit value → x :: behind ≠ 0x25 :: 0x2B :: digit :: rest) :
    IsUnsigned (x :: behind) := by
  intro digit value hdigit hsub
  rcases List.infix_cons_iff.1 hsub with ⟨rest, heq⟩ | hbehind
  · exact hx digit value rest hdigit heq.symm
  · exact h digit value hdigit hbehind

/-- Without signs, scanning for the escapes that are is reading. -/
theorem Scans.decodeBytes_eq (h : Scans IsPair bytes out) (hsigns : IsUnsigned bytes) : decodeBytes bytes = out := by
  rw [← scans_iff]
  induction h with
  | nil => exact .nil
  | @escape a b byte behind out hpair _ ih => exact .escape (.inl hpair) (ih (hsigns.of_suffix ⟨[0x25, a, b], rfl⟩))
  | @copy x behind out hcopy _ ih =>
    refine .copy (fun a b byte rest heq hescape => ?_) (ih (hsigns.of_suffix (List.suffix_cons x behind)))
    rcases hescape with hpair | ⟨rfl, low, hlow, -⟩
    · exact hcopy a b byte rest heq hpair
    · exact hsigns b low hlow (heq ▸ ⟨[], rest, rfl⟩)

/-- Reading loses a percent sign for each sign that it takes for an escape. -/
theorem Scans.count_decodeBytes (h : Scans IsPair bytes out) :
    (decodeBytes bytes).count 0x25 ≤ out.count 0x25 ∧
      (¬IsUnsigned bytes → (decodeBytes bytes).count 0x25 < out.count 0x25) := by
  induction h with
  | nil =>
    refine ⟨Nat.le_refl _, fun hsigns => absurd (fun digit value _ hsub => ?_) hsigns⟩
    cases List.infix_nil.1 hsub
  | @escape a b byte behind out hpair _ ih =>
    have hread : decodeBytes (0x25 :: a :: b :: behind) = byte :: decodeBytes behind :=
      scans_iff.1 (.escape (.inl hpair) (scans_decodeBytes behind))
    obtain ⟨high, low, ha, hb, -⟩ := hpair
    rw [hread, List.count_cons, List.count_cons]
    refine ⟨Nat.add_le_add_right ih.1 _, fun hsigns => Nat.add_lt_add_right (ih.2 fun hbehind => hsigns ?_) _⟩
    -- Neither a digit nor a percent sign with a digit behind it begins a sign.
    refine ((hbehind.cons ?_).cons ?_).cons ?_
    · rintro digit value rest - ⟨⟩
      exact hb.ne_percent rfl
    · rintro digit value rest - ⟨⟩
      exact ha.ne_percent rfl
    · rintro digit value rest - ⟨⟩
      exact ha.ne_plus rfl
  | @copy x behind out hcopy _ ih =>
    by_cases hsign : ∃ digit value rest, IsDigit digit value ∧ x :: behind = 0x25 :: 0x2B :: digit :: rest
    · obtain ⟨digit, value, rest, hdigit, heq⟩ := hsign
      obtain ⟨rfl, rfl⟩ := List.cons.inj heq
      -- The sign is gone with its digit, neither of which is a percent sign, and so is the byte in their place.
      have hread : decodeBytes (0x25 :: 0x2B :: digit :: rest) = UInt8.ofNat value :: decodeBytes rest :=
        scans_iff.1 (.escape (.inr ⟨rfl, value, hdigit, rfl⟩) (scans_decodeBytes rest))
      have hkept : decodeBytes (0x2B :: digit :: rest) = 0x2B :: digit :: decodeBytes rest :=
        scans_iff.1 (.copy_of_ne (by decide) (.copy_of_ne hdigit.ne_percent (scans_decodeBytes rest)))
      have hle := ih.1
      rw [hkept, List.count_cons_of_ne (by decide), List.count_cons_of_ne hdigit.ne_percent] at hle
      rw [hread, List.count_cons_of_ne hdigit.ofNat_ne_percent, List.count_cons_self]
      exact ⟨Nat.le_succ_of_le hle, fun _ => Nat.lt_succ_of_le hle⟩
    · have hread : decodeBytes (x :: behind) = x :: decodeBytes behind := by
        refine scans_iff.1 (.copy (fun a b byte rest heq hescape => ?_) (scans_decodeBytes behind))
        rcases hescape with hpair | ⟨rfl, low, hlow, -⟩
        · exact hcopy a b byte rest heq hpair
        · exact hsign ⟨b, low, rest, hlow, heq⟩
      rw [hread, List.count_cons, List.count_cons]
      refine ⟨Nat.add_le_add_right ih.1 _, fun hsigns => Nat.add_lt_add_right (ih.2 fun hbehind => hsigns ?_) _⟩
      exact hbehind.cons fun digit value rest hdigit heq => hsign ⟨digit, value, rest, hdigit, heq⟩

/-- Reading a reference is scanning it if and only if it has no signs. -/
theorem Scans.decode_eq_iff {reference : String} (h : Scans IsPair (Utf8.ofString reference) out) :
    decode reference = Utf8.toStringLossy out ↔ IsUnsigned (Utf8.ofString reference) := by
  refine ⟨fun heq => Classical.byContradiction fun hsigns => ?_, fun hsigns => by rw [decode, h.decodeBytes_eq hsigns]⟩
  -- A text has as many percent signs as its bytes.
  have hcount (bytes : Bytes) : (Utf8.decodeLossy bytes).count '%' = bytes.count 0x25 :=
    @Utf8.count_decodeLossy 0x25 (by decide) bytes
  have hfewer := h.count_decodeBytes.2 hsigns
  have hchars : Utf8.decodeLossy (decodeBytes (Utf8.ofString reference)) = Utf8.decodeLossy out :=
    String.ofList_injective heq
  rw [← hcount, ← hcount, hchars] at hfewer
  exact Nat.lt_irrefl _ hfewer

/-- **A reference is read by its escapes, and by signs that are none.** Scanning it from left to right replaces each
percent sign that has two hexadecimal digits behind it by their byte and keeps every other byte; it comes to one byte
string. Reading comes to the text of those bytes if and only if no percent sign in the reference has a plus sign and
a digit behind it; whatever the reference, reading scans for these as well, and puts the digit's byte in their place. So
a reference with neither is read as it stands. -/
theorem decode_scans (reference : String) :
    ∃ out, (∀ other, Scans IsPair (Utf8.ofString reference) other ↔ other = out) ∧
      (decode reference = Utf8.toStringLossy out ↔ IsUnsigned (Utf8.ofString reference)) ∧
      (∃ read, (∀ other, Scans (fun a b byte => IsPair a b byte ∨ IsSigned a b byte) (Utf8.ofString reference) other ↔
        other = read) ∧ decode reference = Utf8.toStringLossy read) ∧
      ((∀ a b byte, IsPair a b byte → ¬[0x25, a, b] <:+: Utf8.ofString reference) →
        IsUnsigned (Utf8.ofString reference) → decode reference = reference) := by
  obtain ⟨out, hout⟩ := exists_scans IsPair (Utf8.ofString reference)
  have hone {a b byte byte' : UInt8} (h : IsPair a b byte) (h' : IsPair a b byte') : byte = byte' := by
    rw [isPair_iff] at h h'
    exact Option.some.inj (h.2.symm.trans h'.2)
  refine ⟨out, fun other => ⟨hout.unique hone, ?_⟩, hout.decode_eq_iff, ⟨_, fun other => ?_, rfl⟩, fun hnone hsigns => ?_⟩
  · rintro rfl
    exact hout
  · rw [scans_iff, eq_comm]
  · rw [(scans_self hnone).decode_eq_iff.2 hsigns, Utf8.toStringLossy_ofString]

/-- A percent sign with a plus sign and a digit behind it has no two digits behind it, and is not kept. -/
theorem not_decode_scans :
    Scans IsPair (Utf8.ofString "a%+4") (Utf8.ofString "a%+4") ∧ decode "a%+4" = "a\x04" ∧
      decode "a%+4" ≠ Utf8.toStringLossy (Utf8.ofString "a%+4") := by
  have htext : Utf8.ofString "a%+4" = [0x61, 0x25, 0x2B, 0x34] := by decide +kernel
  refine ⟨?_, by decide +kernel, by decide +kernel⟩
  rw [htext]
  refine .copy_of_ne (by decide) (.copy ?_ (.copy_of_ne (by decide) (.copy_of_ne (by decide) .nil)))
  rintro a b byte rest ⟨⟩ ⟨high, low, ha, -⟩
  exact ha.ne_plus rfl

end SoapBinding.Percent
