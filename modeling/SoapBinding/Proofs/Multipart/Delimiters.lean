import SoapBinding.Proofs.Multipart.Lines
import SoapBinding.Proofs.Text.Utf8

/-!
# Delimiter lines and texts in one line

A delimiter begins with a hyphen, and a line made of hyphens and a boundary is one: the boundary must
not end in padding, which would be dropped with the padding of the line. A text is one line when no line
break stands in it; in UTF-8 the bytes of a line break stand only for one.
-/

namespace SoapBinding.Multipart

/-! ### Delimiters -/

/-- The padding is dropped from the end of a line. -/
theorem unpadded_prefix (line : Bytes) : unpadded line <+: line := by
  have h := (List.dropWhile_suffix isPadding (l := line.reverse)).reverse
  rwa [List.reverse_reverse] at h

/-- A line that does not end in padding stays. -/
theorem unpadded_concat {b : UInt8} (h : isPadding b = false) (front : Bytes) :
    unpadded (front ++ [b]) = front ++ [b] := by
  rw [unpadded, List.reverse_append, List.reverse_singleton, List.singleton_append,
    List.dropWhile_cons, if_neg (by simp [h]), List.reverse_cons, List.reverse_reverse]

/-- A delimiter holds a hyphen, and begins with it. -/
theorem head?_of_delimiter? {boundary line : Bytes} (h : delimiter? boundary line ≠ none) :
    line.head? = some 0x2D := by
  have hunpadded : (unpadded line).head? = some 0x2D := by
    unfold delimiter? at h
    dsimp only at h
    split at h
    · next he =>
      rw [he]
      rfl
    · split at h
      · next he =>
        rw [he]
        rfl
      · exact absurd rfl h
  obtain ⟨padding, hline⟩ := unpadded_prefix line
  rw [← hline, List.head?_append, hunpadded]
  rfl

theorem delimiter?_eq_none_of_head {boundary rest : Bytes} {b : UInt8} (h : b ≠ 0x2D) :
    delimiter? boundary (b :: rest) = none := by
  cases hd : delimiter? boundary (b :: rest) with
  | none => rfl
  | some delimiter =>
    have hsome : delimiter? boundary (b :: rest) ≠ none := by
      rw [hd]
      nofun
    have hhead := head?_of_delimiter? hsome
    exact absurd (Option.some.inj hhead) h

/-- The line in front of another part. -/
def nextLine (boundary : Bytes) : Bytes := hyphens ++ boundary

/-- The line behind the last part. -/
def terminalLine (boundary : Bytes) : Bytes := hyphens ++ boundary ++ hyphens

theorem delimiter?_nextLine {boundary front : Bytes} {b : UInt8} (hlast : boundary = front ++ [b])
    (hb : isPadding b = false) : delimiter? boundary (nextLine boundary) = some .next := by
  have h : unpadded (nextLine boundary) = hyphens ++ boundary := by
    rw [nextLine, hlast, ← List.append_assoc, unpadded_concat hb]
  rw [delimiter?, h]
  exact if_pos rfl

theorem delimiter?_terminalLine (boundary : Bytes) :
    delimiter? boundary (terminalLine boundary) = some .terminal := by
  have h : unpadded (terminalLine boundary) = hyphens ++ boundary ++ hyphens :=
    by
      have := unpadded_concat (b := 0x2D) (by decide) (hyphens ++ boundary ++ [0x2D])
      rwa [List.append_assoc _ [0x2D]] at this
  have hne : ¬hyphens ++ boundary ++ hyphens = hyphens ++ boundary := by
    intro he
    have := congrArg List.length he
    simp [hyphens] at this
  rw [delimiter?, h, if_neg hne, if_pos rfl]

/-! ### Texts in one line -/

/-- Where a line break stands in front of bytes outside ASCII, it stands in front of what follows. -/
theorem crlf_infix_append {front rest : Bytes} (hfront : cr ∉ front)
    (h : crlf <:+: front ++ rest) : crlf <:+: rest := by
  induction front with
  | nil => exact h
  | cons b front ih =>
    rw [List.mem_cons, not_or] at hfront
    rw [List.cons_append, List.infix_cons_iff] at h
    rcases h with h | h
    · exact absurd (List.cons_prefix_cons.1 h).1 hfront.1
    · exact ih hfront.2 h

/-- The bytes of a line break stand in a text only for a line break. -/
theorem crlf_infix_of_encode {cs : List Char} (h : crlf <:+: Utf8.encode cs) :
    ['\r', '\n'] <:+: cs := by
  induction cs with
  | nil => exact absurd (List.eq_nil_of_infix_nil h) (by decide)
  | cons c cs ih =>
    rw [Utf8.encode_cons] at h
    by_cases hc : c = '\r'
    · subst hc
      have hcons : crlf <:+: cr :: Utf8.encode cs := h
      rcases List.infix_cons_iff.1 hcons with hprefix | hsub
      · have hlf := (List.cons_prefix_cons.1 hprefix).2
        cases cs with
        | nil => exact absurd (List.eq_nil_of_prefix_nil hlf) (by decide)
        | cons d ds =>
          obtain ⟨b, bs, hd⟩ := Utf8.exists_encodeChar_eq_cons d
          rw [Utf8.encode_cons, hd] at hlf
          have hmem : UInt8.ofNat 10 ∈ Utf8.encode [d] := by
            rw [Utf8.encode_cons, hd, ← (List.cons_prefix_cons.1 hlf).1]
            exact List.mem_cons_self
          rw [Utf8.mem_encode_iff (by decide), List.mem_singleton] at hmem
          rw [← hmem]
          exact (List.prefix_append ['\r', '\n'] ds).isInfix
      · exact (ih hsub).trans (List.suffix_cons '\r' cs).isInfix
    · have hcr : cr ∉ String.utf8EncodeChar c := by
        intro hmem
        have hencode : UInt8.ofNat 13 ∈ Utf8.encode [c] := by
          rw [Utf8.encode_cons]
          exact List.mem_append_left _ hmem
        rw [Utf8.mem_encode_iff (by decide), List.mem_singleton] at hencode
        exact hc hencode.symm
      exact (ih (crlf_infix_append hcr h)).trans (List.suffix_cons c cs).isInfix

/-- A text without line breaks is one line. -/
theorem lines_ofString {s : String} (h : ¬['\r', '\n'] <:+: s.toList) :
    lines (Utf8.ofString s) = [Utf8.ofString s] :=
  lines_of_not_infix fun hsub => h (crlf_infix_of_encode hsub)

end SoapBinding.Multipart
