import SoapBinding.Multipart.Chunk

/-!
# Chunks are pieces of lines

A body is a list of lines, cut at each CR LF and nowhere else. The bounded buffer hands each line on in
pieces: full ones, and at the end what is left, which may be nothing. What has been read is therefore
known from the lines alone:

    scan_eq_ofLines : scan capacity false [] capacity bytes = ofLines capacity (lines bytes)

The buffer never looks past a CR without the byte behind it, so the capacity moves no line break.
-/

namespace SoapBinding.Multipart

/-! ### Lines -/

/-- The first line of a body, and the lines behind it. -/
def cutLines : Bytes → Bytes × List Bytes
  | [] => ([], [])
  | [b] => ([b], [])
  | b :: c :: rest =>
    if b = cr ∧ c = lf then ([], (cutLines rest).1 :: (cutLines rest).2)
    else (b :: (cutLines (c :: rest)).1, (cutLines (c :: rest)).2)

/-- The lines of a body, without their line breaks. The last one ends with the body. -/
def lines (bytes : Bytes) : List Bytes := (cutLines bytes).1 :: (cutLines bytes).2

/-- A body is its lines with a line break between each two. -/
theorem intercalate_lines (bytes : Bytes) : crlf.intercalate (lines bytes) = bytes := by
  fun_induction cutLines bytes with
  | case1 => rfl
  | case2 b => rfl
  | case3 b c rest h ih =>
    obtain ⟨rfl, rfl⟩ := h
    rw [lines, cutLines, if_pos ⟨rfl, rfl⟩]
    show crlf.intercalate ([] :: lines rest) = _
    rw [lines, List.intercalate_cons_cons, ← lines, ih]
    rfl
  | case4 b c rest h ih =>
    rw [lines, cutLines, if_neg h]
    rw [lines] at ih
    cases hl : (cutLines (c :: rest)).2 with
    | nil =>
      rw [hl, List.intercalate_singleton] at ih
      rw [List.intercalate_singleton, ih]
    | cons next others =>
      rw [hl, List.intercalate_cons_cons] at ih
      rw [List.intercalate_cons_cons, List.cons_append, List.cons_append, ih]

/-- A line that a line break follows ends there. -/
theorem cutLines_append_crlf (x y : Bytes) :
    cutLines (x ++ crlf ++ y) = ((cutLines x).1, (cutLines x).2 ++ lines y) := by
  fun_induction cutLines x with
  | case1 => rfl
  | case2 b =>
    show cutLines (b :: cr :: lf :: y) = _
    rw [cutLines, if_neg (by rintro ⟨-, h⟩; exact absurd h (by decide)), cutLines,
      if_pos ⟨rfl, rfl⟩]
    rfl
  | case3 b c rest h ih =>
    show cutLines (b :: c :: (rest ++ crlf ++ y)) = _
    rw [cutLines, if_pos h, ih]
    rfl
  | case4 b c rest h ih =>
    show cutLines (b :: c :: (rest ++ crlf ++ y)) = _
    rw [cutLines, if_neg h]
    show (b :: (cutLines (c :: rest ++ crlf ++ y)).1, (cutLines (c :: rest ++ crlf ++ y)).2) = _
    rw [ih]

/-- The lines on both sides of a line break. -/
theorem lines_append_crlf (x y : Bytes) : lines (x ++ crlf ++ y) = lines x ++ lines y := by
  rw [lines, cutLines_append_crlf]
  rfl

/-- Pieces behind a line break each are cut on their own. -/
theorem lines_append_flatMap (x : Bytes) (pieces : List Bytes) :
    lines (x ++ pieces.flatMap (crlf ++ ·)) = lines x ++ pieces.flatMap lines := by
  induction pieces generalizing x with
  | nil => rw [List.flatMap_nil, List.flatMap_nil, List.append_nil, List.append_nil]
  | cons piece pieces ih =>
    rw [List.flatMap_cons, ← List.append_assoc, ih, ← List.append_assoc, lines_append_crlf,
      List.flatMap_cons, List.append_assoc]

/-- What stands in a line stands in the body. -/
theorem mem_of_mem_lines {bytes line : Bytes} {b : UInt8} (hline : line ∈ lines bytes)
    (h : b ∈ line) : b ∈ bytes := by
  rw [← intercalate_lines bytes]
  generalize lines bytes = ls at hline
  induction ls with
  | nil => cases hline
  | cons first rest ih =>
    cases rest with
    | nil =>
      rw [List.mem_singleton] at hline
      rwa [List.intercalate_singleton, ← hline]
    | cons next rest =>
      rw [List.intercalate_cons_cons, List.mem_append, List.mem_append]
      rcases List.mem_cons.1 hline with rfl | hline
      · exact .inl (.inl h)
      · exact .inr (ih hline)

/-- Bytes in which no line break stands are one line. -/
theorem lines_of_not_infix {x : Bytes} (h : ¬crlf <:+: x) : lines x = [x] := by
  fun_induction cutLines x with
  | case1 => rfl
  | case2 b => rfl
  | case3 b c rest hbc ih =>
    obtain ⟨rfl, rfl⟩ := hbc
    exact absurd (List.prefix_append crlf rest).isInfix h
  | case4 b c rest hbc ih =>
    have htail : ¬crlf <:+: c :: rest := by
      intro hi
      exact h (hi.trans (List.suffix_cons b _).isInfix)
    have hl := ih htail
    rw [lines, List.cons.injEq] at hl
    rw [lines, cutLines, if_neg hbc, hl.1, hl.2]

/-! ### The chunks of lines -/

namespace Chunk

/-- The chunks of a line: as many full ones as it fills, and what is left. -/
def ofLine (capacity : Nat) (ending : ChunkEnd) (line : Bytes) : List Chunk :=
  if capacity = 0 ∨ line.length < capacity then [⟨line, ending⟩]
  else ⟨line.take capacity, .full⟩ :: ofLine capacity ending (line.drop capacity)
termination_by line.length
decreasing_by simp only [List.length_drop]; omega

/-- The chunks of lines in a row; the input ends with the last. -/
def ofLines (capacity : Nat) : List Bytes → List Chunk
  | [] => []
  | [line] => ofLine capacity .inputEnd line
  | line :: next :: rest => ofLine capacity .lineBreak line ++ ofLines capacity (next :: rest)

variable {capacity : Nat}

/-- A line that fits with room to spare is one chunk. -/
theorem ofLine_of_lt {ending : ChunkEnd} {line : Bytes} (h : line.length < capacity) :
    ofLine capacity ending line = [⟨line, ending⟩] := by
  rw [ofLine, if_pos (.inr h)]

/-- A line that begins with a full buffer goes on behind it. -/
theorem ofLine_append {ending : ChunkEnd} {piece line : Bytes} (hpos : 0 < capacity)
    (h : piece.length = capacity) :
    ofLine capacity ending (piece ++ line) = ⟨piece, .full⟩ :: ofLine capacity ending line := by
  have hlong : ¬(capacity = 0 ∨ (piece ++ line).length < capacity) := by
    rw [List.length_append]
    omega
  rw [ofLine, if_neg hlong, List.take_left' h, List.drop_left' h]

/-- The chunks of the first line, and of the lines behind it. -/
theorem ofLines_cons (line : Bytes) (others : List Bytes) :
    ofLines capacity (line :: others) =
      ofLine capacity (if others.isEmpty then .inputEnd else .lineBreak) line ++
        ofLines capacity others := by
  cases others with
  | nil =>
    show ofLine capacity .inputEnd line = _ ++ []
    rw [List.append_nil]
    rfl
  | cons next others => rfl

/-- The first line takes its full pieces from the front. -/
theorem ofLines_append {piece line : Bytes} {others : List Bytes} (hpos : 0 < capacity)
    (h : piece.length = capacity) :
    ofLines capacity ((piece ++ line) :: others) =
      ⟨piece, .full⟩ :: ofLines capacity (line :: others) := by
  rw [ofLines_cons, ofLines_cons, ofLine_append hpos h, List.cons_append]

/-- A first line that fits is one chunk. -/
theorem ofLines_cons_of_lt {line : Bytes} {others : List Bytes} (h : line.length < capacity) :
    ofLines capacity (line :: others) =
      ⟨line, if others.isEmpty then .inputEnd else .lineBreak⟩ :: ofLines capacity others := by
  rw [ofLines_cons, ofLine_of_lt h, List.singleton_append]

/-- What the buffer holds already belongs to the first line ahead. -/
theorem scan_eq_append (held : Bytes) (room : Nat) (bytes : Bytes) (hroom : 0 < room)
    (h : held.length + room = capacity) :
    scan capacity false held room bytes =
      ofLines capacity ((held.reverse ++ (cutLines bytes).1) :: (cutLines bytes).2) := by
  have hpos : 0 < capacity := by omega
  have hheld : held.reverse.length < capacity := by
    rw [List.length_reverse]
    omega
  fun_induction scan capacity false held room bytes with
  | case1 held room =>
    rw [cutLines, List.append_nil, ofLines, ofLine_of_lt hheld]
    rfl
  | case2 held room b hb => exact absurd hb.2 (by decide)
  | case3 held room b _ hfull =>
    have hlen : (held.reverse ++ [b]).length = capacity := by
      rw [List.length_append, List.length_reverse, List.length_singleton]
      omega
    show _ = ofLines capacity [held.reverse ++ [b]]
    rw [← List.append_nil (held.reverse ++ [b]), ofLines_append hpos hlen, ofLines,
      ofLine_of_lt (show ([] : Bytes).length < capacity from hpos), List.reverse_cons]
    rfl
  | case4 held room b _ hfits =>
    have hlen : (held.reverse ++ [b]).length < capacity := by
      rw [List.length_append, List.length_reverse, List.length_singleton]
      omega
    show _ = ofLines capacity [held.reverse ++ [b]]
    rw [ofLines, ofLine_of_lt hlen, List.reverse_cons]
    rfl
  | case5 held room b c rest hbc ih =>
    rw [cutLines, if_pos hbc, List.append_nil, ofLines_cons_of_lt hheld,
      ih hpos (by simp) (by simpa using hpos)]
    rfl
  | case6 held room b c rest hbc hfull ih =>
    have hlen : (held.reverse ++ [b]).length = capacity := by
      rw [List.length_append, List.length_reverse, List.length_singleton]
      omega
    rw [cutLines, if_neg hbc, List.append_cons, ofLines_append hpos hlen,
      ih hpos (by simp) (by simpa using hpos), List.reverse_cons]
    rfl
  | case7 held room b c rest hbc hfits ih =>
    rw [ih (by omega) (by rw [List.length_cons]; omega)
      (by rw [List.length_reverse, List.length_cons]; omega), cutLines, if_neg hbc, List.reverse_cons,
      List.append_assoc]
    rfl

/-- **The chunks of a body are the pieces of its lines.** -/
theorem scan_eq_ofLines (hpos : 0 < capacity) (bytes : Bytes) :
    scan capacity false [] capacity bytes = ofLines capacity (lines bytes) := by
  rw [scan_eq_append [] capacity bytes hpos (by simp)]
  rfl

end Chunk
end SoapBinding.Multipart
