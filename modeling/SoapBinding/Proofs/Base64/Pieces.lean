import SoapBinding.Base64.Incremental
import SoapBinding.Proofs.Base64.RoundTrip

/-!
# Reading base64 piece by piece

A `Decoder` that has taken some pieces *stands for* the letters of them all: whatever letters come
next, the whole text reads as what the decoder has decoded, followed by what its waiting letters and
the next ones read as (`StandsFor`). A piece that is taken keeps this (`StandsFor.push`), so ending
the text gives what the whole text reads as (`finish_of_standsFor`); and a piece that is refused
shows that no text which begins with the letters up to there can be read (`StandsFor.refused`).

So all pieces in a row read as the letters of the whole text do, wherever it has been cut:

    toOption_run : (run pieces).toOption = decode? (letters pieces.flatten)
-/

namespace SoapBinding.Base64.Decoder

/-- What a decoder knows of the letters that it has taken. -/
def StandsFor (d : Decoder) (taken : List Char) : Prop :=
  ∀ next, decode? (taken ++ next) =
    (decode? (d.pending ++ next)).map (d.decoded.toList ++ ·)

theorem standsFor_start : StandsFor start [] := by
  intro next
  simp [start]

/-- A letter outside ASCII spoils every text that it stands in. -/
theorem decode?_of_not_isAscii {cs : List Char} (h : cs.all isAscii = false) (front next : List Char) :
    decode? (front ++ cs ++ next) = none := by
  rw [List.all_eq_false] at h
  obtain ⟨c, hc, hascii⟩ := h
  simp only [isAscii, decide_eq_true_eq] at hascii
  apply decode?_eq_none_of_mem (c := c)
  · simp [hc]
  · cases hv : value? c with
    | none => rfl
    | some n => exact absurd (toNat_lt_of_value? hv) hascii
  · rintro rfl
    exact hascii (by decide)

/-- The letters that are ready make whole quanta. -/
theorem length_ready (cs : List Char) : (cs.take (cs.length / 4 * 4)).length % 4 = 0 := by
  rw [List.length_take_of_le (by omega)]
  omega

/-- The letters that are ready are read in front of those that wait. -/
theorem decode?_ready {cs : List Char} (hpad : (cs.take (cs.length / 4 * 4)).contains '=' = false)
    (next : List Char) :
    decode? (cs ++ next) =
      (decode? (cs.take (cs.length / 4 * 4))).bind fun bytes =>
        (decode? (cs.drop (cs.length / 4 * 4) ++ next)).map (bytes ++ ·) := by
  have hmem : '=' ∉ cs.take (cs.length / 4 * 4) := by
    intro h
    rw [List.contains_eq_mem, decide_eq_false_iff_not] at hpad
    exact hpad h
  rw [← decode?_append (length_ready cs) hmem, ← List.append_assoc, List.take_append_drop]

/-- A piece that is taken adds its letters. -/
theorem StandsFor.push {d d' : Decoder} {taken piece : List Char} (h : StandsFor d taken)
    (hp : d.push piece = .ok d') : StandsFor d' (taken ++ letters piece) := by
  intro next
  rw [List.append_assoc, h, ← List.append_assoc]
  unfold Decoder.push at hp
  dsimp only at hp
  generalize d.pending ++ letters piece = pending at hp ⊢
  split at hp
  · cases hp
  · split at hp
    · cases hp
      rfl
    · next hwait =>
      split at hp
      · cases hp
      · next bytes hb =>
        cases hp
        simp only [Bool.or_eq_true, not_or, Bool.not_eq_true] at hwait
        rw [decode?_ready hwait.2, hb]
        simp [Function.comp_def]

/-- A piece that is refused leaves no text to be read, whatever comes next. -/
theorem StandsFor.refused {d : Decoder} {taken piece : List Char} {fault : Fault}
    (h : StandsFor d taken) (hp : d.push piece = .error fault) (next : List Char) :
    decode? (taken ++ letters piece ++ next) = none := by
  unfold Decoder.push at hp
  dsimp only at hp
  split at hp
  · next hascii =>
    rw [Bool.not_eq_true'] at hascii
    exact decode?_of_not_isAscii hascii taken next
  · rw [List.append_assoc, h, ← List.append_assoc]
    generalize d.pending ++ letters piece = pending at hp ⊢
    split at hp
    · cases hp
    · next hwait =>
      split at hp
      · next hnone =>
        simp only [Bool.or_eq_true, not_or, Bool.not_eq_true] at hwait
        rw [decode?_ready hwait.2, hnone]
        rfl
      · cases hp

/-- **Ending the text gives what the letters taken read as.** -/
theorem finish_of_standsFor {d : Decoder} {taken : List Char} (h : StandsFor d taken) :
    d.finish = match decode? taken with
      | some bytes => .ok bytes
      | none => .error .malformed := by
  have hend := h []
  rw [List.append_nil, List.append_nil] at hend
  rw [hend, finish]
  cases decode? d.pending <;> rfl

/-! ### All pieces -/

theorem letters_append (front back : List Char) : letters (front ++ back) = letters front ++ letters back :=
  List.filter_append front back

/-- Behind what has been taken, the other pieces and the end read as their letters do. -/
theorem StandsFor.toOption_run {d : Decoder} {taken : List Char} (h : StandsFor d taken) (pieces : List (List Char)) :
    ((pieces.foldlM Decoder.push d).bind Decoder.finish).toOption = decode? (taken ++ letters pieces.flatten) := by
  induction pieces generalizing d taken with
  | nil =>
    show d.finish.toOption = decode? (taken ++ [])
    rw [finish_of_standsFor h, List.append_nil]
    cases decode? taken <;> rfl
  | cons piece pieces ih =>
    rw [List.foldlM_cons, List.flatten_cons, letters_append, ← List.append_assoc]
    cases hpush : d.push piece with
    | error fault => exact (h.refused hpush _).symm
    | ok d' => exact ih (h.push hpush)

/-- Pieces read as the letters of the whole text. -/
theorem toOption_run (pieces : List (List Char)) : (run pieces).toOption = decode? (letters pieces.flatten) :=
  standsFor_start.toOption_run pieces

theorem run_eq_ok_iff {pieces : List (List Char)} {bytes : Bytes} :
    run pieces = .ok bytes ↔ decode? (letters pieces.flatten) = some bytes := by
  rw [← toOption_run]
  cases run pieces <;> simp [Except.toOption]

/-- **Base64 text is read alike however it is cut.** All pieces are taken and the end is accepted just if the letters of the
whole text are what some bytes are written as; the bytes are then those that the letters read as at once. So two cuttings of
one text give the same bytes, or are both refused. -/
theorem run_iff_canonical (pieces : List (List Char)) :
    ((∃ bytes, run pieces = .ok bytes) ↔ ∃ bytes, letters pieces.flatten = encode bytes) ∧
    (∀ bytes, run pieces = .ok bytes ↔ decode? (letters pieces.flatten) = some bytes) ∧
    ∀ pieces' : List (List Char), pieces'.flatten = pieces.flatten → (run pieces').toOption = (run pieces).toOption := by
  refine ⟨exists_congr fun bytes => run_eq_ok_iff.trans decode?_eq_some_iff, fun bytes => run_eq_ok_iff, ?_⟩
  intro pieces' htext
  rw [toOption_run, toOption_run, htext]

/-- One text cut inside a quantum, between two `=`, around blanks and into empty pieces, and the same text in one piece. -/
theorem run_iff_canonical_cut :
    ["aGVsb".toList, [], "G8 \n".toList, "hI".toList, "Q=".toList, [], "=".toList].flatten =
      ["aGVsbG8 \nhIQ==".toList].flatten ∧
    run ["aGVsb".toList, [], "G8 \n".toList, "hI".toList, "Q=".toList, [], "=".toList] = .ok (Utf8.ofString "hello!!") ∧
    run ["aGVsbG8 \nhIQ==".toList] = .ok (Utf8.ofString "hello!!") := by
  obtain ⟨-, hdecode, hcut⟩ := run_iff_canonical ["aGVsbG8 \nhIQ==".toList]
  have hwhole : run ["aGVsbG8 \nhIQ==".toList] = .ok (Utf8.ofString "hello!!") := (hdecode _).2 (by decide +kernel)
  have htext : ["aGVsb".toList, [], "G8 \n".toList, "hI".toList, "Q=".toList, [], "=".toList].flatten =
      ["aGVsbG8 \nhIQ==".toList].flatten := by decide +kernel
  refine ⟨htext, ?_, hwhole⟩
  have hsame := hcut _ htext
  rw [hwhole] at hsame
  revert hsame
  cases run ["aGVsb".toList, [], "G8 \n".toList, "hI".toList, "Q=".toList, [], "=".toList] <;> simp [Except.toOption]

/-! ### What is written -/

/-- What is written is read from one piece. -/
theorem push_encode (bytes : Bytes) :
    ∃ d, start.push (encode bytes) = .ok d ∧ d.finish = .ok bytes := by
  have hletters : letters (encode bytes) = encode bytes := by
    rw [letters, List.filter_eq_self]
    intro c hc
    rw [isAsciiBlank_of_mem_encode hc]
    rfl
  cases hpush : start.push (encode bytes) with
  | ok d =>
    have hfinish := finish_of_standsFor (standsFor_start.push hpush)
    rw [List.nil_append, hletters, decode?_encode] at hfinish
    exact ⟨d, rfl, hfinish⟩
  | error fault =>
    have hnone := standsFor_start.refused hpush []
    rw [List.nil_append, hletters, List.append_nil, decode?_encode] at hnone
    cases hnone

end SoapBinding.Base64.Decoder
