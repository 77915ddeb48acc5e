import SoapBinding.Proofs.Multipart.Unbuffered

/-!
# The buffered reader follows the lines

The reader through the bounded buffer gives what the unbuffered reader gives, and where that gives
nothing it refuses the body (`Follows`). Each of the three loops is taken line by line: the chunks of
one line, in whatever pieces, do to the loop what the line does.

A line that fills the buffer is not judged, so it is no delimiter for the buffered reader
(`heldDelimiter?`). What the loops do is therefore told first for lines that are cut where the buffer
holds a delimiter; that is where delimiters stand if every one of them is shorter than the buffer.
-/

namespace SoapBinding.Multipart

/-! ### What it means to follow -/

/-- A reader gives what another one gives, and where that gives nothing it refuses the body. -/
def Follows {α : Type} (work : Except Error α) : Option α → Prop
  | some a => work = .ok a
  | none => ∃ fault, work = .error (.attachment fault)

namespace Follows

variable {α β : Type}

/-- A step that follows, and then steps that follow. -/
theorem bind {work : Except Error α} {reference : Option α} {next : α → Except Error β}
    {reference' : α → Option β} (h : Follows work reference)
    (hnext : ∀ a, reference = some a → Follows (next a) (reference' a)) :
    Follows (work >>= next) (reference.bind reference') := by
  cases reference with
  | none =>
    obtain ⟨fault, rfl⟩ := h
    exact ⟨fault, rfl⟩
  | some a =>
    rw [show work = .ok a from h]
    exact hnext a rfl

/-- Where the first step is refused, nothing comes of the steps behind it. -/
theorem refused {work : Except Error α} {next : α → Except Error β} (h : Follows work none) :
    Follows (work >>= next) none := by
  obtain ⟨fault, rfl⟩ := h
  exact ⟨fault, rfl⟩

theorem iff_ok {work : Except Error α} {reference : Option α} (h : Follows work reference) (a : α) :
    work = .ok a ↔ reference = some a := by
  cases reference with
  | none =>
    obtain ⟨fault, rfl⟩ := h
    simp
  | some b =>
    rw [show work = .ok b from h]
    simp

theorem iff_refused {work : Except Error α} {reference : Option α} (h : Follows work reference) :
    (∃ fault, work = .error (.attachment fault)) ↔ reference = none := by
  cases reference with
  | none => exact ⟨fun _ => rfl, fun _ => h⟩
  | some b =>
    rw [show work = .ok b from h]
    simp

end Follows

open Unbuffered

variable {boundary : Bytes} {capacity : Nat}

/-- Every delimiter among the lines is shorter than the buffer. -/
def DelimitersFit (capacity : Nat) (boundary : Bytes) (ls : List Bytes) : Prop :=
  ∀ line ∈ ls, delimiter? boundary line ≠ none → line.length < capacity

/-! ### Delimiters that the buffer holds -/

/-- The delimiter that the buffered reader takes a line for. The line has to be shorter than the
buffer. -/
def heldDelimiter? (capacity : Nat) (boundary line : Bytes) : Option Delimiter :=
  if line.length < capacity then delimiter? boundary line else none

theorem heldDelimiter?_eq_some_iff {line : Bytes} {delimiter : Delimiter} :
    heldDelimiter? capacity boundary line = some delimiter ↔
      line.length < capacity ∧ delimiter? boundary line = some delimiter := by
  unfold heldDelimiter?
  split <;> simp [*]

theorem delimiter?_eq_none_of_held {line : Bytes} (h : heldDelimiter? capacity boundary line = none)
    (hlt : line.length < capacity) : delimiter? boundary line = none := by
  rwa [heldDelimiter?, if_pos hlt] at h

/-- Where delimiters fit, they are what the buffer holds. -/
theorem DelimitersFit.held {ls : List Bytes} (h : DelimitersFit capacity boundary ls) :
    ∀ line ∈ ls, heldDelimiter? capacity boundary line = delimiter? boundary line := by
  intro line hline
  by_cases hnone : delimiter? boundary line = none
  · rw [heldDelimiter?, hnone, ite_self]
  · exact if_pos (h line hline hnone)

/-- The lines in front of the first one that is judged a delimiter, the delimiter, and the lines behind
it. -/
def cutWhere (judge : Bytes → Option Delimiter) : List Bytes → Option (List Bytes × Delimiter × List Bytes)
  | [] => none
  | line :: rest =>
    match judge line with
    | some delimiter => some ([], delimiter, rest)
    | none => (cutWhere judge rest).map fun (front, delimiter, behind) => (line :: front, delimiter, behind)

/-- Lines are cut alike where they are judged alike. -/
theorem cutWhere_congr {judge judge' : Bytes → Option Delimiter} {ls : List Bytes}
    (h : ∀ line ∈ ls, judge line = judge' line) : cutWhere judge ls = cutWhere judge' ls := by
  induction ls with
  | nil => rfl
  | cons line rest ih =>
    rw [cutWhere, cutWhere, h line List.mem_cons_self, ih fun l hl => h l (List.mem_cons_of_mem line hl)]

theorem cutWhere_delimiter? (boundary : Bytes) (ls : List Bytes) :
    cutWhere (delimiter? boundary) ls = cutAtDelimiter boundary ls := by
  induction ls with
  | nil => rfl
  | cons line rest ih =>
    cases hline : delimiter? boundary line <;> simp [cutWhere, cutAtDelimiter, hline, ih]

theorem DelimitersFit.cutWhere_eq {ls : List Bytes} (h : DelimitersFit capacity boundary ls) :
    cutWhere (heldDelimiter? capacity boundary) ls = cutAtDelimiter boundary ls := by
  rw [cutWhere_congr h.held, cutWhere_delimiter?]

/-- Lines behind a cut stand in the lines that were cut. -/
theorem subset_of_cutWhere {judge : Bytes → Option Delimiter} {ls front behind : List Bytes}
    {delimiter : Delimiter} (h : cutWhere judge ls = some (front, delimiter, behind)) :
    behind ⊆ ls := by
  induction ls generalizing front with
  | nil => cases h
  | cons line rest ih =>
    rw [cutWhere] at h
    split at h
    · cases h
      exact List.subset_cons_self line _
    · obtain ⟨⟨front', delimiter', behind'⟩, hcut, heq⟩ := Option.map_eq_some_iff.1 h
      cases heq
      exact List.subset_cons_of_subset line (ih hcut)

/-- What ends a line is a line break or the end of the input. -/
def lineEnd (others : List Bytes) : ChunkEnd := if others.isEmpty then .inputEnd else .lineBreak

theorem lineEnd_cases (others : List Bytes) :
    (others = [] ∧ lineEnd others = .inputEnd) ∨ (others ≠ [] ∧ lineEnd others = .lineBreak) := by
  cases others with
  | nil => exact .inl ⟨rfl, rfl⟩
  | cons next others => exact .inr ⟨List.cons_ne_nil next others, rfl⟩

/-- The chunks of the first line, and of the lines behind it. -/
theorem ofLines_cons_lineEnd (line : Bytes) (others : List Bytes) :
    Chunk.ofLines capacity (line :: others) =
      Chunk.ofLine capacity (lineEnd others) line ++ Chunk.ofLines capacity others :=
  Chunk.ofLines_cons line others

/-- A piece is no delimiter unless it is a line that is one. -/
theorem chunk_delimiter?_eq_none {atLineStart : Bool} {bytes : Bytes} {ending : ChunkEnd}
    (h : atLineStart = true → ending ≠ .full → delimiter? boundary bytes = none) :
    Chunk.delimiter? boundary atLineStart ⟨bytes, ending⟩ = none := by
  unfold Chunk.delimiter?
  split
  · next hline =>
    rw [Bool.and_eq_true, bne_iff_ne] at hline
    exact h hline.1 hline.2
  · rfl

/-- A delimiter that fits is one chunk, and that is the delimiter. -/
theorem chunk_delimiter?_lineEnd (line : Bytes) (others : List Bytes) :
    Chunk.delimiter? boundary true ⟨line, lineEnd others⟩ = delimiter? boundary line := by
  rcases lineEnd_cases others with ⟨-, he⟩ | ⟨-, he⟩ <;> rw [he] <;> rfl

/-! ### Preamble -/

/-- A line that is taken for no delimiter is skipped. -/
theorem skipPreamble_line (hpos : 0 < capacity) {atLineStart : Bool} {line : Bytes} (others : List Bytes)
    (h : atLineStart = true → heldDelimiter? capacity boundary line = none) :
    skipPreamble boundary atLineStart (Chunk.ofLines capacity (line :: others)) =
      skipPreamble boundary true (Chunk.ofLines capacity others) := by
  rw [ofLines_cons_lineEnd]
  fun_induction Chunk.ofLine capacity (lineEnd others) line generalizing atLineStart with
  | case1 line hshort =>
    have hlt : line.length < capacity := by omega
    rw [List.singleton_append, skipPreamble,
      chunk_delimiter?_eq_none fun hs _ => delimiter?_eq_none_of_held (h hs) hlt]
    rcases lineEnd_cases others with ⟨rfl, he⟩ | ⟨-, he⟩ <;> rw [he] <;> rfl
  | case2 line hlong ih =>
    rw [List.cons_append, skipPreamble, chunk_delimiter?_eq_none fun _ hfull => absurd rfl hfull]
    exact ih nofun

/-- The preamble ends behind the first delimiter that the buffer holds, which must not be the terminal
one. -/
theorem skipPreamble_held (hpos : 0 < capacity) (ls : List Bytes) :
    Follows (skipPreamble boundary true (Chunk.ofLines capacity ls))
      ((cutWhere (heldDelimiter? capacity boundary) ls).bind fun (_, delimiter, behind) =>
        if delimiter = .next then some (Chunk.ofLines capacity behind) else none) := by
  induction ls with
  | nil => exact ⟨.noParts, rfl⟩
  | cons line others ih =>
    rw [cutWhere]
    cases hheld : heldDelimiter? capacity boundary line with
    | none =>
      rw [skipPreamble_line hpos others fun _ => hheld]
      cases hcut : cutWhere (heldDelimiter? capacity boundary) others with
      | none => rwa [hcut] at ih
      | some cut => rwa [hcut] at ih
    | some delimiter =>
      obtain ⟨hlt, hd⟩ := heldDelimiter?_eq_some_iff.1 hheld
      rw [ofLines_cons_lineEnd, Chunk.ofLine_of_lt hlt, List.singleton_append, skipPreamble,
        chunk_delimiter?_lineEnd, hd]
      have hok : lineEnd others ≠ .failed := by
        rcases lineEnd_cases others with ⟨-, he⟩ | ⟨-, he⟩ <;> rw [he] <;> decide
      rw [if_neg hok]
      cases delimiter with
      | next => rfl
      | terminal => exact ⟨.noParts, rfl⟩

/-- The preamble ends behind the first delimiter, which must not be the terminal one. -/
theorem skipPreamble_follows (hpos : 0 < capacity) {ls : List Bytes}
    (hfit : DelimitersFit capacity boundary ls) :
    Follows (skipPreamble boundary true (Chunk.ofLines capacity ls))
      ((cutAtDelimiter boundary ls).bind fun (_, delimiter, behind) =>
        if delimiter = .next then some (Chunk.ofLines capacity behind) else none) :=
  hfit.cutWhere_eq ▸ skipPreamble_held hpos ls

/-! ### Headers -/

/-- A header line is added as it is read on its own. -/
theorem addLine_follows (headers : Headers) (line : Bytes) :
    (∃ headers', withLine? headers line = some headers' ∧
      headers.addLine (Utf8.decodeLossy line) = .ok headers') ∨
    (withLine? headers line = none ∧
      ∃ fault, headers.addLine (Utf8.decodeLossy line) = .error fault) := by
  have hheader (text : List Char) :
      (∃ headers', withLine?.header? headers text = some headers' ∧
        (Headers.ofLine text).map (fun header => headers ++ [header]) = .ok headers') ∨
      (withLine?.header? headers text = none ∧
        ∃ fault, (Headers.ofLine text).map (fun header => headers ++ [header]) = .error fault) := by
    unfold withLine?.header? Headers.ofLine
    cases Text.splitFirst? ':' text with
    | none => exact .inr ⟨rfl, _, rfl⟩
    | some split => exact .inl ⟨_, rfl, rfl⟩
  unfold withLine? Headers.addLine
  dsimp only
  cases headers.getLast? with
  | none =>
    cases Headers.isContinuation (Utf8.decodeLossy line) <;> exact hheader _
  | some last =>
    cases Headers.isContinuation (Utf8.decodeLossy line) with
    | true => exact .inl ⟨_, rfl, rfl⟩
    | false => exact hheader _

/-- The pieces of a header line are read as the line. -/
theorem readHeaders_line (headers : Headers) (held line : Bytes) {others : List Bytes}
    (hmore : others ≠ []) :
    readHeaders headers held (Chunk.ofLines capacity (line :: others)) =
      if (held ++ line).isEmpty then .ok (headers, Chunk.ofLines capacity others)
      else match headers.addLine (Utf8.decodeLossy (held ++ line)) with
        | .error fault => .error (.attachment fault)
        | .ok headers => readHeaders headers [] (Chunk.ofLines capacity others) := by
  rw [ofLines_cons_lineEnd]
  fun_induction Chunk.ofLine capacity (lineEnd others) line generalizing held with
  | case1 line hshort =>
    have he : lineEnd others = .lineBreak := by
      rcases lineEnd_cases others with ⟨h, -⟩ | ⟨-, he⟩
      · exact absurd h hmore
      · exact he
    rw [List.singleton_append, he]
    rfl
  | case2 line hlong ih =>
    rw [List.cons_append, readHeaders]
    show readHeaders headers (held ++ line.take capacity) _ = _
    rw [ih, List.append_assoc, List.take_append_drop]

/-- The last line ends inside the headers. -/
theorem readHeaders_last (headers : Headers) (held line : Bytes) :
    readHeaders headers held (Chunk.ofLines capacity [line]) =
      .error (.attachment .endedInHeaders) := by
  show readHeaders headers held (Chunk.ofLine capacity .inputEnd line) = _
  fun_induction Chunk.ofLine capacity .inputEnd line generalizing held with
  | case1 line hshort => rfl
  | case2 line hlong ih =>
    rw [readHeaders]
    exact ih _

/-- The headers are those of the lines in front of the first empty line. -/
theorem readHeaders_follows (headers : Headers) (ls : List Bytes) :
    Follows (readHeaders headers [] (Chunk.ofLines capacity ls))
      ((cutAtEmpty ls).bind fun (front, behind) =>
        (front.foldlM withLine? headers).map fun headers =>
          (headers, Chunk.ofLines capacity behind)) := by
  fun_induction cutAtEmpty ls generalizing headers with
  | case1 line next rest hempty =>
    rw [readHeaders_line headers [] line (List.cons_ne_nil next rest), List.nil_append,
      if_pos hempty]
    rfl
  | case2 line next rest hempty ih =>
    rw [readHeaders_line headers [] line (List.cons_ne_nil next rest), List.nil_append,
      if_neg hempty]
    rcases addLine_follows headers line with ⟨headers', hwith, hadd⟩ | ⟨hwith, fault, hadd⟩
    · rw [hadd]
      have := ih headers'
      cases hcut : cutAtEmpty (next :: rest) with
      | none => rwa [hcut] at this
      | some cut =>
        rw [hcut] at this
        show Follows _ (((line :: cut.1).foldlM withLine? headers).map _)
        rw [List.foldlM_cons, hwith]
        exact this
    · rw [hadd]
      cases cutAtEmpty (next :: rest) with
      | none => exact ⟨fault, rfl⟩
      | some cut =>
        show Follows _ (((line :: cut.1).foldlM withLine? headers).map _)
        rw [List.foldlM_cons, hwith]
        exact ⟨fault, rfl⟩
  | case3 ls hnone =>
    cases ls with
    | nil => exact ⟨.endedInHeaders, rfl⟩
    | cons line others =>
      cases others with
      | nil => exact ⟨.endedInHeaders, readHeaders_last headers [] line⟩
      | cons next rest => exact absurd rfl (hnone line next rest)

/-! ### Contents -/

/-- The line break that waits in front of a line. -/
def waiting (afterBreak : Bool) : Bytes := if afterBreak then crlf else []

theorem append_waiting_false (bytes : Bytes) : bytes ++ waiting false = bytes := List.append_nil bytes

/-- A piece either is taken, and then the content holds it too, or is refused, and then nothing that
begins with it can be decoded. -/
theorem readContent_piece {encoding : Encoding} {content : Content} {bytes piece : Bytes}
    {atLineStart afterBreak : Bool} {ending : ChunkEnd} (rest : List Chunk)
    (hholds : Content.Holds encoding content bytes) (hend : ending = .full ∨ ending = .lineBreak)
    (hnone : Chunk.delimiter? boundary atLineStart ⟨piece, ending⟩ = none) :
    (∃ content', Content.Holds encoding content' (bytes ++ waiting afterBreak ++ piece) ∧
      readContent boundary content atLineStart afterBreak (⟨piece, ending⟩ :: rest) =
        readContent boundary content' (ending == .lineBreak) (ending == .lineBreak) rest) ∨
    ((∃ fault, readContent boundary content atLineStart afterBreak (⟨piece, ending⟩ :: rest) =
        .error (.attachment fault)) ∧
      ∀ next, encoding.decode? (bytes ++ waiting afterBreak ++ piece ++ next) = none) := by
  have hbreak : Content.Holds encoding (if afterBreak then content.breakLine else content)
      (bytes ++ waiting afterBreak) := by
    cases afterBreak with
    | true => exact hholds.breakLine
    | false => rwa [append_waiting_false]
  have hfailed : ¬ending = .failed := by
    rcases hend with rfl | rfl <;> nofun
  have hinput : ¬ending = .inputEnd := by
    rcases hend with rfl | rfl <;> nofun
  rw [readContent, if_neg hfailed, hnone]
  dsimp only
  rw [if_neg hinput]
  cases hp : (if afterBreak then content.breakLine else content).push piece with
  | ok content' => exact .inl ⟨content', hbreak.push hp, rfl⟩
  | error fault => exact .inr ⟨⟨fault, rfl⟩, hbreak.refused hp⟩

/-- The pieces of a line are taken or refused as the line is. -/
theorem readContent_line (hpos : 0 < capacity) {encoding : Encoding} {content : Content}
    {bytes line : Bytes} {atLineStart afterBreak : Bool} {others : List Bytes} (hmore : others ≠ [])
    (hholds : Content.Holds encoding content bytes)
    (h : atLineStart = true → heldDelimiter? capacity boundary line = none) :
    (∃ content', Content.Holds encoding content' (bytes ++ waiting afterBreak ++ line) ∧
      readContent boundary content atLineStart afterBreak (Chunk.ofLines capacity (line :: others)) =
        readContent boundary content' true true (Chunk.ofLines capacity others)) ∨
    ((∃ fault, readContent boundary content atLineStart afterBreak
        (Chunk.ofLines capacity (line :: others)) = .error (.attachment fault)) ∧
      ∀ next, encoding.decode? (bytes ++ waiting afterBreak ++ line ++ next) = none) := by
  have he : lineEnd others = .lineBreak := by
    rcases lineEnd_cases others with ⟨h, -⟩ | ⟨-, he⟩
    · exact absurd h hmore
    · exact he
  rw [ofLines_cons_lineEnd, he]
  fun_induction Chunk.ofLine capacity .lineBreak line
    generalizing content bytes atLineStart afterBreak with
  | case1 line hshort =>
    have hlt : line.length < capacity := by omega
    rw [List.singleton_append]
    exact readContent_piece _ hholds (.inr rfl)
      (chunk_delimiter?_eq_none fun hs _ => delimiter?_eq_none_of_held (h hs) hlt)
  | case2 line hlong ih =>
    have hline : bytes ++ waiting afterBreak ++ line =
        bytes ++ waiting afterBreak ++ line.take capacity ++ line.drop capacity := by
      rw [List.append_assoc _ (line.take capacity), List.take_append_drop]
    rw [List.cons_append]
    -- No line break waits between the pieces of a line.
    rcases readContent_piece (Chunk.ofLine capacity .lineBreak (line.drop capacity) ++
        Chunk.ofLines capacity others) hholds (.inl rfl)
        (chunk_delimiter?_eq_none fun _ hfull => absurd rfl hfull) with
      ⟨content', hholds', hread⟩ | ⟨hread, hnone⟩
    · have hrest := @ih content' _ false false hholds' nofun
      rw [append_waiting_false] at hrest
      rw [hread]
      rcases hrest with ⟨content'', hholds'', hread'⟩ | ⟨hread', hnone'⟩
      · exact .inl ⟨content'', by rwa [hline], hread'⟩
      · exact .inr ⟨hread', by rwa [hline]⟩
    · refine .inr ⟨hread, fun next => ?_⟩
      rw [hline, List.append_assoc _ (line.drop capacity)]
      exact hnone _

/-- A last line that is no delimiter leaves the content without an end. -/
theorem readContent_last (hpos : 0 < capacity) {content : Content} {line : Bytes}
    {atLineStart afterBreak : Bool}
    (h : atLineStart = true → heldDelimiter? capacity boundary line = none) :
    ∃ fault, readContent boundary content atLineStart afterBreak (Chunk.ofLines capacity [line]) =
      .error (.attachment fault) := by
  show ∃ fault, readContent boundary content atLineStart afterBreak
    (Chunk.ofLine capacity .inputEnd line) = .error (.attachment fault)
  fun_induction Chunk.ofLine capacity .inputEnd line
    generalizing content atLineStart afterBreak with
  | case1 line hshort =>
    have hlt : line.length < capacity := by omega
    rw [readContent, chunk_delimiter?_eq_none fun hs _ => delimiter?_eq_none_of_held (h hs) hlt]
    exact ⟨.unterminated, rfl⟩
  | case2 line hlong ih =>
    rw [readContent, chunk_delimiter?_eq_none fun _ hfull => absurd rfl hfull]
    cases hp : (if afterBreak then content.breakLine else content).push (line.take capacity) with
    | ok content' => exact ih nofun
    | error fault => exact ⟨fault, rfl⟩

/-- A delimiter that fits ends the content. -/
theorem readContent_delimiter {encoding : Encoding} {content : Content} {bytes line : Bytes}
    {afterBreak : Bool} {others : List Bytes} {delimiter : Delimiter}
    (hholds : Content.Holds encoding content bytes) (hlt : line.length < capacity)
    (hd : delimiter? boundary line = some delimiter) :
    Follows (readContent boundary content true afterBreak (Chunk.ofLines capacity (line :: others)))
      ((encoding.decode? bytes).map fun decoded =>
        (decoded, delimiter, Chunk.ofLines capacity others)) := by
  have hok : lineEnd others ≠ .failed := by
    rcases lineEnd_cases others with ⟨-, he⟩ | ⟨-, he⟩ <;> rw [he] <;> nofun
  rw [ofLines_cons_lineEnd, Chunk.ofLine_of_lt hlt, List.singleton_append, readContent,
    chunk_delimiter?_lineEnd, hd, if_neg hok]
  rcases hholds.finish with ⟨decoded, hdecoded, hfinish⟩ | ⟨hnone, fault, hfinish⟩
  · rw [hdecoded]
    simp only [hfinish]
    rfl
  · rw [hnone]
    simp only [hfinish]
    exact ⟨fault, rfl⟩

/-- The bytes of lines in a row, behind a line break that waits. -/
def joined (afterBreak : Bool) (ls : List Bytes) : Bytes :=
  if afterBreak then ls.flatMap (crlf ++ ·) else crlf.intercalate ls

theorem joined_nil (afterBreak : Bool) : joined afterBreak [] = [] := by
  cases afterBreak <;> rfl

/-- Behind the first line there waits a line break. -/
theorem joined_cons (afterBreak : Bool) (line : Bytes) (rest : List Bytes) :
    joined afterBreak (line :: rest) = waiting afterBreak ++ line ++ joined true rest := by
  cases afterBreak with
  | true => rfl
  | false =>
    show crlf.intercalate (line :: rest) = line ++ joined true rest
    induction rest generalizing line with
    | nil =>
      rw [List.intercalate_singleton]
      exact (List.append_nil line).symm
    | cons next rest ih =>
      rw [List.intercalate_cons_cons, ih, List.append_assoc]
      rfl

/-- The content of a part is that of the lines in front of the next delimiter that the buffer holds. -/
theorem readContent_held (hpos : 0 < capacity) {encoding : Encoding} {content : Content} {bytes : Bytes}
    {afterBreak : Bool} {ls : List Bytes} (hholds : Content.Holds encoding content bytes) :
    Follows (readContent boundary content true afterBreak (Chunk.ofLines capacity ls))
      ((cutWhere (heldDelimiter? capacity boundary) ls).bind fun (front, delimiter, behind) =>
        (encoding.decode? (bytes ++ joined afterBreak front)).map fun decoded =>
          (decoded, delimiter, Chunk.ofLines capacity behind)) := by
  induction ls generalizing content bytes afterBreak with
  | nil => exact ⟨.unterminated, rfl⟩
  | cons line others ih =>
    rw [cutWhere]
    cases hheld : heldDelimiter? capacity boundary line with
    | some delimiter =>
      obtain ⟨hlt, hd⟩ := heldDelimiter?_eq_some_iff.1 hheld
      show Follows _ ((encoding.decode? (bytes ++ joined afterBreak [])).map _)
      rw [joined_nil, List.append_nil]
      exact readContent_delimiter hholds hlt hd
    | none =>
      dsimp only
      by_cases hmore : others = []
      · subst hmore
        exact readContent_last hpos fun _ => hheld
      · rcases readContent_line hpos hmore hholds (fun _ => hheld) with
          ⟨content', hholds', hread⟩ | ⟨hread, hnone⟩
        · rw [hread]
          have hrest := @ih content' _ true hholds'
          cases hcut : cutWhere (heldDelimiter? capacity boundary) others with
          | none => rwa [hcut] at hrest
          | some cut =>
            rw [hcut] at hrest
            show Follows _ ((encoding.decode? (bytes ++ joined afterBreak (line :: cut.1))).map _)
            rw [joined_cons, ← List.append_assoc, ← List.append_assoc]
            exact hrest
        · -- What is refused inside a line is refused wherever the content ends.
          cases cutWhere (heldDelimiter? capacity boundary) others with
          | none => exact hread
          | some cut =>
            show Follows _ ((encoding.decode? (bytes ++ joined afterBreak (line :: cut.1))).map _)
            rw [joined_cons, ← List.append_assoc, ← List.append_assoc, hnone]
            exact hread

/-- The content of a part is that of the lines in front of the next delimiter. -/
theorem readContent_follows (hpos : 0 < capacity) {encoding : Encoding} {content : Content} {bytes : Bytes}
    {afterBreak : Bool} {ls : List Bytes} (hholds : Content.Holds encoding content bytes)
    (hfit : DelimitersFit capacity boundary ls) :
    Follows (readContent boundary content true afterBreak (Chunk.ofLines capacity ls))
      ((cutAtDelimiter boundary ls).bind fun (front, delimiter, behind) =>
        (encoding.decode? (bytes ++ joined afterBreak front)).map fun decoded =>
          (decoded, delimiter, Chunk.ofLines capacity behind)) :=
  hfit.cutWhere_eq ▸ readContent_held hpos hholds

/-! ### Parts -/

theorem subset_of_cutAtDelimiter {ls front behind : List Bytes} {delimiter : Delimiter}
    (h : cutAtDelimiter boundary ls = some (front, delimiter, behind)) : behind ⊆ ls := by
  rw [← cutWhere_delimiter?] at h
  exact subset_of_cutWhere h

theorem subset_of_cutAtEmpty {ls front behind : List Bytes}
    (h : cutAtEmpty ls = some (front, behind)) : behind ⊆ ls := by
  fun_induction cutAtEmpty ls generalizing front with
  | case1 line next others hempty =>
    cases h
    exact List.subset_cons_self line (next :: others)
  | case2 line next rest hempty ih =>
    obtain ⟨⟨front', behind'⟩, hcut, heq⟩ := Option.map_eq_some_iff.1 h
    cases heq
    exact List.subset_cons_of_subset line (ih hcut)
  | case3 => cases h

theorem subset_of_part? {ls behind : List Bytes} {part : Part} {delimiter : Delimiter}
    (h : part? boundary ls = some (part, delimiter, behind)) : behind ⊆ ls := by
  obtain ⟨front, ls', body, hempty, hcut⟩ := cuts_of_part? h
  exact List.Subset.trans (subset_of_cutAtDelimiter hcut) (subset_of_cutAtEmpty hempty)

theorem DelimitersFit.mono {ls ls' : List Bytes} (h : DelimitersFit capacity boundary ls)
    (hsub : ls' ⊆ ls) : DelimitersFit capacity boundary ls' :=
  fun line hline => h line (hsub hline)

/-- A part is read as it is read from its lines. -/
theorem readPart_follows (hpos : 0 < capacity) {ls : List Bytes} (hfit : DelimitersFit capacity boundary ls) :
    Follows (readPart boundary (Chunk.ofLines capacity ls))
      ((part? boundary ls).map fun (part, delimiter, behind) =>
        (part, delimiter, Chunk.ofLines capacity behind)) := by
  have hheaders : Follows (readHeaders [] [] (Chunk.ofLines capacity ls)) _ :=
    readHeaders_follows [] ls
  unfold readPart part?
  cases hempty : cutAtEmpty ls with
  | none =>
    rw [hempty] at hheaders
    exact hheaders.refused
  | some cut =>
    obtain ⟨front, behind⟩ := cut
    rw [hempty, Option.bind_some] at hheaders
    dsimp only at hheaders
    simp only [Option.bind_eq_bind, Option.bind_some]
    cases hfold : front.foldlM withLine? [] with
    | none =>
      rw [hfold] at hheaders
      exact hheaders.refused
    | some headers =>
      rw [hfold] at hheaders
      rw [show readHeaders [] [] (Chunk.ofLines capacity ls) =
        .ok (headers, Chunk.ofLines capacity behind) from hheaders, Option.bind_some]
      dsimp only [bind, Except.bind, Except.mapError]
      cases headers.encoding with
      | error fault => exact ⟨fault, rfl⟩
      | ok encoding =>
        have hfit' : DelimitersFit capacity boundary behind :=
          hfit.mono (subset_of_cutAtEmpty hempty)
        have hcontent : Follows (readContent boundary (.start encoding) true false
            (Chunk.ofLines capacity behind)) _ :=
          readContent_follows hpos (Content.holds_start encoding) hfit'
        show Follows (readContent boundary (.start encoding) true false _ >>= _)
          (((cutAtDelimiter boundary behind).bind _).map _)
        cases hcut : cutAtDelimiter boundary behind with
        | none =>
          rw [hcut] at hcontent
          exact hcontent.refused
        | some cut =>
          rw [hcut, Option.bind_some] at hcontent
          dsimp only at hcontent
          rw [List.nil_append, show joined false cut.1 = crlf.intercalate cut.1 from rfl]
            at hcontent
          simp only [Option.bind_some]
          cases hdecode : encoding.decode? (crlf.intercalate cut.1) with
          | none =>
            rw [hdecode] at hcontent
            exact hcontent.refused
          | some content =>
            rw [hdecode] at hcontent
            rw [show readContent boundary (.start encoding) true false _ = .ok _ from hcontent]
            rfl

/-- The parts are those of the lines, as long as there are not too many of them. -/
theorem readParts_follows (hpos : 0 < capacity) {limit left : Nat} {ls : List Bytes}
    (hfit : DelimitersFit capacity boundary ls) :
    Follows (readParts boundary limit left (Chunk.ofLines capacity ls))
      ((parts? boundary ls).bind fun parts => if parts.length ≤ left then some parts else none) := by
  induction left generalizing ls with
  | zero =>
    cases hparts : parts? boundary ls with
    | none => exact ⟨.tooManyParts limit, rfl⟩
    | some parts =>
      -- There is always one part, which is one too many.
      have hlen : ¬parts.length ≤ 0 := by
        rw [Nat.le_zero, List.length_eq_zero_iff]
        exact ne_nil_of_parts? hparts
      rw [Option.bind_some, if_neg hlen]
      exact ⟨.tooManyParts limit, rfl⟩
  | succ left ih =>
    have hpart : Follows (readPart boundary (Chunk.ofLines capacity ls)) _ := readPart_follows hpos hfit
    rw [readParts, parts?_eq]
    cases hp : part? boundary ls with
    | none =>
      rw [hp] at hpart
      exact hpart.refused
    | some found =>
      obtain ⟨part, delimiter, rest⟩ := found
      rw [hp] at hpart
      rw [show readPart boundary (Chunk.ofLines capacity ls) = .ok _ from hpart]
      cases delimiter with
      | terminal =>
        show Follows _ (if 1 ≤ left + 1 then some [part] else none)
        rw [if_pos (by omega)]
        rfl
      | next =>
        have hrest := ih (hfit.mono (subset_of_part? hp))
        show Follows (readParts boundary limit left (Chunk.ofLines capacity rest) >>= _)
          (((parts? boundary rest).map (part :: ·)).bind _)
        cases hparts : parts? boundary rest with
        | none =>
          rw [hparts] at hrest
          exact hrest.refused
        | some parts =>
          rw [hparts, Option.bind_some] at hrest
          show Follows _ (if parts.length + 1 ≤ left + 1 then some (part :: parts) else none)
          by_cases hlen : parts.length ≤ left
          · rw [if_pos hlen] at hrest
            rw [if_pos (by omega), show readParts boundary limit left _ = .ok parts from hrest]
            rfl
          · rw [if_neg hlen] at hrest
            rw [if_neg (by omega)]
            exact hrest.refused

/-! ### Envelopes -/

theorem mapError_bind {α β : Type} (work : Except AttachmentFault α)
    (next : α → Except AttachmentFault β) :
    Except.mapError Error.attachment (work >>= next) =
      work.mapError .attachment >>= fun a => (next a).mapError .attachment := by
  cases work <;> rfl

/-- The first attachment, and those behind it. -/
theorem attachments_cons (nonces : Nonces) (part : Part) (rest : List Part) (id : String)
    (ids : List String) :
    attachments nonces (part :: rest) (id :: ids) =
      (Binary.ofBytes nonces.next.1 part.content).withId id ::
        attachments nonces.next.2 rest ids := by
  rw [attachments, attachments, List.zip_cons_cons, List.mapIdx_cons]
  refine congrArg₂ List.cons ?_ (congrArg (List.mapIdx · (rest.zip ids)) ?_)
  · show Binary.mk (if id.isEmpty then nonces.next.1 else id) (.memory part.content) =
      if id.isEmpty then ⟨nonces.next.1, .memory part.content⟩ else ⟨id, .memory part.content⟩
    cases id.isEmpty <;> rfl
  · funext i pair
    rw [Nonces.next, Nat.add_assoc, Nat.add_comm 1 i]

/-- Ids are new and distinct when the first one is new, and the others are new behind it and
distinct. -/
theorem nodup_cons_and_iff {id : String} {ids met : List String} (h : id ∉ met) :
    ((id :: ids).Nodup ∧ ∀ i ∈ id :: ids, i ∉ met) ↔
      (ids.Nodup ∧ ∀ i ∈ ids, i ∉ id :: met) := by
  simp only [List.nodup_cons, List.mem_cons, forall_eq_or_imp, not_or]
  constructor
  · rintro ⟨⟨hid, hnodup⟩, -, hmet⟩
    refine ⟨hnodup, fun i hi => ⟨?_, hmet i hi⟩⟩
    rintro rfl
    exact hid hi
  · rintro ⟨hnodup, hmet⟩
    exact ⟨⟨fun hid => (hmet id hid).1 rfl, hnodup⟩, h, fun i hi => (hmet i hi).2⟩

/-- The attachments of the parts behind those whose ids are `met`. -/
theorem attachmentsOf_follows (nonces : Nonces) (met : List String) (parts : List Part) :
    Follows ((Envelope.attachmentsOf nonces met parts).mapError .attachment)
      ((parts.mapM fun part : Part => part.headers.contentId?).bind fun ids =>
        if ids.Nodup ∧ ∀ id ∈ ids, id ∉ met then
          some (attachments nonces parts ids, ⟨nonces.used + parts.length⟩)
        else none) := by
  induction parts generalizing nonces met with
  | nil => exact rfl
  | cons part rest ih =>
    rw [Envelope.attachmentsOf, List.mapM_cons]
    cases part.headers.contentId? with
    | none => exact ⟨.partWithoutId, rfl⟩
    | some id =>
      show Follows _ (((rest.mapM fun part : Part => part.headers.contentId?).bind fun ids =>
        some (id :: ids)).bind _)
      dsimp only
      by_cases hmet : id ∈ met
      · rw [if_pos (by simpa using hmet)]
        cases rest.mapM fun part : Part => part.headers.contentId? with
        | none => exact ⟨.duplicatePartId id, rfl⟩
        | some ids =>
          have hnot : ¬((id :: ids).Nodup ∧ ∀ i ∈ id :: ids, i ∉ met) := fun h =>
            h.2 id List.mem_cons_self hmet
          rw [Option.bind_some, Option.bind_some, if_neg hnot]
          exact ⟨.duplicatePartId id, rfl⟩
      · rw [if_neg (by simpa using hmet)]
        have hrest := ih nonces.next.2 (id :: met)
        show Follows (Except.mapError .attachment
          (Envelope.attachmentsOf nonces.next.2 (id :: met) rest >>= _)) _
        rw [mapError_bind]
        cases hids : rest.mapM fun part : Part => part.headers.contentId? with
        | none =>
          rw [hids] at hrest
          exact hrest.refused
        | some ids =>
          rw [hids, Option.bind_some] at hrest
          rw [Option.bind_some, Option.bind_some]
          by_cases hnew : ids.Nodup ∧ ∀ i ∈ ids, i ∉ id :: met
          · rw [if_pos hnew] at hrest
            rw [if_pos ((nodup_cons_and_iff hmet).2 hnew), attachments_cons]
            rw [show Except.mapError _ (Envelope.attachmentsOf _ _ rest) = .ok _ from hrest]
            show Except.ok (_, _) = Except.ok (_, _)
            rw [List.length_cons, Nonces.next, Nat.add_assoc, Nat.add_comm 1]
          · rw [if_neg hnew] at hrest
            rw [if_neg fun h => hnew ((nodup_cons_and_iff hmet).1 h)]
            exact hrest.refused

/-- The envelope is that of the parts. -/
theorem ofParts_follows (nonces : Nonces) (primary : Part) (others : List Part) :
    Follows ((Envelope.ofParts nonces (primary :: others)).mapError .attachment)
      ((attachments? nonces others).bind fun (attachments, nonces) =>
        some (⟨.ofBytes primary.content, primary.headers.get? "content-type", attachments, true⟩,
          nonces)) := by
  have hattachments : Follows ((Envelope.attachmentsOf nonces [] others).mapError .attachment)
      (attachments? nonces others) := by
    have h := attachmentsOf_follows nonces [] others
    simp only [List.not_mem_nil, not_false_eq_true, implies_true, and_true] at h
    exact h
  rw [Envelope.ofParts, mapError_bind]
  exact hattachments.bind fun _ _ => rfl

theorem Limits.capacity_pos (limits : Limits) (boundary : Bytes) : 0 < limits.capacity boundary := by
  unfold Limits.capacity
  omega

/-- The parts of a body are those of its lines. -/
theorem ofSource_follows {limits : Limits} {body : Bytes}
    (hfit : DelimitersFit (limits.capacity boundary) boundary (lines body)) :
    Follows (Part.ofSource limits boundary (.ofBytes body))
      (bodyParts? limits.maxParts boundary body) := by
  have hpos := limits.capacity_pos boundary
  have hpreamble := skipPreamble_follows hpos hfit
  rw [← Chunk.scan_eq_ofLines hpos] at hpreamble
  unfold Part.ofSource bodyParts?
  cases hcut : cutAtDelimiter boundary (lines body) with
  | none =>
    rw [hcut] at hpreamble
    exact hpreamble.refused
  | some cut =>
    obtain ⟨front, delimiter, ls⟩ := cut
    rw [hcut] at hpreamble
    cases delimiter with
    | terminal =>
      exact hpreamble.refused
    | next =>
      have hskip : skipPreamble boundary true
          (Chunk.ofSource (limits.capacity boundary) (.ofBytes body)) =
            .ok (Chunk.ofLines (limits.capacity boundary) ls) := hpreamble
      rw [hskip]
      exact readParts_follows hpos (hfit.mono (subset_of_cutAtDelimiter hcut))

/-- The reader through the buffer follows the reader of lines. -/
theorem read_follows {limits : Limits} {contentType boundary : String} (nonces : Nonces)
    {body : Bytes} (hboundary : relatedBoundary? contentType = some boundary)
    (hfit : DelimitersFit (limits.capacity (Utf8.ofString boundary)) (Utf8.ofString boundary)
      (lines body)) :
    Follows (Envelope.read limits contentType nonces (.ofBytes body))
      (envelope? limits.maxParts (Utf8.ofString boundary) nonces body) := by
  rw [Envelope.read, hboundary]
  refine (ofSource_follows hfit).bind fun parts _ => ?_
  cases parts with
  | nil => exact ⟨.noParts, rfl⟩
  | cons primary others => exact ofParts_follows nonces primary others

/-- **A body is read as its lines are, whatever the buffer.** The reader through the buffer succeeds
with an envelope exactly where the unbuffered reader gives it, and refuses the body as one that holds
no such parts exactly where that gives none. -/
theorem read_iff_unbuffered {limits : Limits} {contentType boundary : String} {nonces : Nonces}
    {body : Bytes} (hboundary : relatedBoundary? contentType = some boundary)
    (hfit : DelimitersFit (limits.capacity (Utf8.ofString boundary)) (Utf8.ofString boundary)
      (lines body)) :
    (∀ result, Envelope.read limits contentType nonces (.ofBytes body) = .ok result ↔
      envelope? limits.maxParts (Utf8.ofString boundary) nonces body = some result) ∧
    ((∃ fault, Envelope.read limits contentType nonces (.ofBytes body) =
        .error (.attachment fault)) ↔
      envelope? limits.maxParts (Utf8.ofString boundary) nonces body = none) :=
  ⟨(read_follows nonces hboundary hfit).iff_ok, (read_follows nonces hboundary hfit).iff_refused⟩

/-- A body with a preamble, a header in two lines, and a line longer than the buffer. -/
def orderBody : Bytes :=
  Utf8.ofString ("hi\r\n--b\r\nA: x\r\n y\r\n\r\n<order>1</order>\r\n\r\n--b \r\nContent-ID: <a>" ++
    "\r\nContent-Transfer-Encoding: base64\r\n\r\naGVs\r\nbG8=\r\n--b--\r\nbye")

theorem read_iff_unbuffered_order :
    relatedBoundary? "multipart/related; boundary=b" = some "b" ∧
    DelimitersFit 9 (Utf8.ofString "b") (lines orderBody) ∧
    (∃ envelope, envelope? 2 (Utf8.ofString "b") .fresh orderBody = some (envelope, ⟨1⟩) ∧
      envelope.attachments = [⟨"a", .memory (Utf8.ofString "hello")⟩] ∧
      Envelope.read ⟨0, 2⟩ "multipart/related; boundary=b" .fresh (.ofBytes orderBody) =
        .ok (envelope, ⟨1⟩)) := by
  have hboundary : relatedBoundary? "multipart/related; boundary=b" = some "b" := by decide
  have hfit : DelimitersFit 9 (Utf8.ofString "b") (lines orderBody) := by
    unfold DelimitersFit
    rw [orderBody, Utf8.ofString_ofList_append]
    decide +kernel
  have henvelope : envelope? 2 (Utf8.ofString "b") .fresh orderBody =
      some (⟨.ofBytes (Utf8.ofString "<order>1</order>\r\n"), none,
        [⟨"a", .memory (Utf8.ofString "hello")⟩], true⟩, ⟨1⟩) := by
    rw [orderBody, Utf8.ofString_ofList_append]
    decide +kernel
  exact ⟨hboundary, hfit, _, henvelope, rfl,
    ((@read_iff_unbuffered ⟨0, 2⟩ _ _ .fresh _ hboundary hfit).1 _).2 henvelope⟩

end SoapBinding.Multipart
