import SoapBinding.Proofs.Multipart.Ids
import SoapBinding.Proofs.Outcome
import SoapBinding.Proofs.Text.Spacing

/-!
# Headers in several lines

A header stands in a block as a line with a colon in it, and lines behind it that begin with a space or a tab (`Field`). Its
name is trimmed and in small letters; its value is made of the trimmed pieces, with a space in front of each further one
(`Field.header`). A block that is read is such fields in a row, and what is read of it is their headers:

    exists_fields : ls.foldlM addLine [] = .ok headers → ∃ fields, … ls = fields.flatMap lines ∧ headers = fields.map header

So a value is trimmed just if no line of blanks ends it and none goes on behind an empty piece (`isTrimmed_value_iff`), and a
line break in front of a run of spaces changes no more of a header than how long that run is, unless the break stands at an
end of the value (`folded_cases`).
-/

namespace SoapBinding.Multipart

open Text (IsGap IsTrimmed Respaced squeeze trimChars)

/-- A header as it stands in a block. -/
structure Field where
  /-- What stands in front of the first colon. -/
  name : List Char
  /-- What stands behind it. -/
  value : List Char
  /-- The lines that go on with the header. -/
  more : List (List Char)

namespace Field

/-- The line that the field begins with. -/
def firstLine (f : Field) : List Char := f.name ++ ':' :: f.value

/-- The lines of a field. -/
def lines (f : Field) : List (List Char) := f.firstLine :: f.more

/-- What further lines add to a value. -/
def continued (more : List (List Char)) : List Char := more.flatMap fun line => ' ' :: trimChars line

/-- The value of a field, put together from its pieces. -/
def text (f : Field) : List Char := trimChars f.value ++ continued f.more

/-- The header of a field. -/
def header (f : Field) : String × String :=
  (Text.lowerAscii (String.ofList (trimChars f.name)), String.ofList f.text)

/-- No line goes on behind a first piece that is blank, and the last piece is not blank either. -/
def FoldsInside (f : Field) : Prop := ∀ last ∈ f.more.getLast?, ¬IsGap f.value ∧ ¬IsGap last

end Field

/-- Fields in a row that can be told apart. Only the first of them may begin with a space or a tab. -/
structure IsBlock (fields : List Field) : Prop where
  names : ∀ f ∈ fields, ':' ∉ f.name
  more : ∀ f ∈ fields, ∀ line ∈ f.more, Headers.isContinuation line = true
  begins : ∀ f ∈ fields.tail, Headers.isContinuation f.firstLine = false

/-! ### Line by line -/

namespace Headers

variable {headers : Headers} {line : List Char}

/-- A line that goes on with the last header. -/
theorem addLine_continuation (h : isContinuation line = true) (front : Headers) (name value : String) :
    addLine (front ++ [(name, value)]) line =
      .ok (front ++ [(name, value ++ " " ++ String.ofList (trimChars line))]) := by
  unfold addLine
  rw [h, List.getLast?_concat]
  dsimp only
  rw [List.dropLast_concat]

/-- Any other line is a header itself. -/
theorem addLine_header (h : headers = [] ∨ isContinuation line = false) :
    headers.addLine line = (ofLine line).map fun header => headers ++ [header] := by
  unfold addLine
  rcases h with rfl | h
  · cases isContinuation line <;> rfl
  · rw [h]

/-- Headers in front are left alone by a line that does not go on with the last of them. -/
theorem addLine_append (front : Headers) (h : headers ≠ [] ∨ isContinuation line = false) :
    addLine (front ++ headers) line = (addLine headers line).map (front ++ ·) := by
  by_cases hline : isContinuation line = true
  · have hne : headers ≠ [] := h.resolve_right (by rw [hline]; decide)
    obtain ⟨⟨name, value⟩, hlast⟩ := Option.isSome_iff_exists.1 (List.getLast?_isSome.2 hne)
    obtain ⟨init, rfl⟩ := List.getLast?_eq_some_iff.1 hlast
    rw [← List.append_assoc, addLine_continuation hline, addLine_continuation hline, List.append_assoc]
    rfl
  · rw [Bool.not_eq_true] at hline
    rw [addLine_header (.inr hline), addLine_header (.inr hline)]
    cases ofLine line <;> simp [Except.map]

/-- So are they by lines in a row. -/
theorem foldlM_addLine_append (front : Headers) {ls : List (List Char)}
    (h : headers ≠ [] ∨ ∀ line ∈ ls.head?, isContinuation line = false) :
    ls.foldlM addLine (front ++ headers) = (ls.foldlM addLine headers).map (front ++ ·) := by
  induction ls generalizing headers with
  | nil => rfl
  | cons line ls ih =>
    rw [List.foldlM_cons, List.foldlM_cons, addLine_append front (h.imp_right fun h => h line rfl)]
    cases hadd : addLine headers line with
    | error fault => rfl
    | ok headers' =>
      have hne : headers' ≠ [] := by
        unfold addLine at hadd
        split at hadd
        · cases hadd
          simp
        · cases hof : ofLine line with
          | error fault =>
            rw [hof] at hadd
            cases hadd
          | ok header =>
            rw [hof] at hadd
            cases hadd
            simp
      exact ih (.inl hne)

/-- Lines that go on with a header, one after the other. -/
theorem foldlM_continued {more : List (List Char)} (h : ∀ line ∈ more, isContinuation line = true) (front : Headers)
    (name value : String) :
    more.foldlM addLine (front ++ [(name, value)]) =
      .ok (front ++ [(name, value ++ String.ofList (Field.continued more))]) := by
  induction more generalizing value with
  | nil => simp [Field.continued, pure, Except.pure]
  | cons line more ih =>
    obtain ⟨hline, hmore⟩ := List.forall_mem_cons.1 h
    rw [List.foldlM_cons, addLine_continuation hline]
    have htext : value ++ " " ++ String.ofList (trimChars line) ++ String.ofList (Field.continued more) =
        value ++ String.ofList (Field.continued (line :: more)) := by
      simp [← String.toList_inj, Field.continued]
    show more.foldlM addLine _ = _
    rw [ih hmore, htext]

/-- **What stands behind a header**: the lines that go on with it, and then a block of its own. -/
theorem foldlM_behind (front : Headers) (name value : String) (back : List (List Char)) :
    back.foldlM addLine (front ++ [(name, value)]) =
      ((back.dropWhile isContinuation).foldlM addLine []).map fun tail =>
        front ++ (name, value ++ String.ofList (Field.continued (back.takeWhile isContinuation))) :: tail := by
  have hmore : ∀ line ∈ back.takeWhile isContinuation, isContinuation line = true :=
    List.all_eq_true.1 List.all_takeWhile
  have hrest : ∀ line ∈ (back.dropWhile isContinuation).head?, isContinuation line = false := by
    intro line hline
    have := List.head?_dropWhile_not isContinuation back
    rw [hline] at this
    simpa using this
  have hframe := @foldlM_addLine_append []
    (front ++ [(name, value ++ String.ofList (Field.continued (back.takeWhile isContinuation)))]) _ (.inr hrest)
  conv => lhs; rw [← List.takeWhile_append_dropWhile (p := isContinuation) (l := back)]
  rw [List.foldlM_append, foldlM_continued hmore]
  show (back.dropWhile isContinuation).foldlM addLine _ = _
  rw [← List.append_nil (front ++ _), hframe]
  simp

/-- **A field in a block**: its line, the lines that go on with it, and then a block of its own. -/
theorem foldlM_firstLine {name value : List Char} (hname : ':' ∉ name) {before : Headers}
    (h : before = [] ∨ isContinuation (name ++ ':' :: value) = false) (back : List (List Char)) :
    ((name ++ ':' :: value) :: back).foldlM addLine before =
      ((back.dropWhile isContinuation).foldlM addLine []).map fun after =>
        before ++ (Field.mk name value (back.takeWhile isContinuation)).header :: after := by
  have hof : ofLine (name ++ ':' :: value) =
      .ok (Text.lowerAscii (String.ofList (trimChars name)), String.ofList (trimChars value)) := by
    rw [ofLine, Text.splitFirst?_append hname]
  rw [List.foldlM_cons, addLine_header h, hof]
  show back.foldlM addLine (before ++ [(_, _)]) = _
  simp only [foldlM_behind, Field.header, Field.text, String.ofList_append]

end Headers

/-! ### Blocks -/

/-- **A block that is read is fields in a row**, and what is read of it is their headers. -/
theorem exists_fields {ls : List (List Char)} {headers : Headers} (h : ls.foldlM Headers.addLine [] = .ok headers) :
    ∃ fields, IsBlock fields ∧ ls = fields.flatMap Field.lines ∧ headers = fields.map Field.header := by
  -- A field takes a line and those that go on with it; the lines behind them are fewer.
  induction hn : ls.length using Nat.strongRecOn generalizing ls headers with
  | _ n ih =>
    cases ls with
    | nil =>
      cases h
      exact ⟨[], ⟨by simp, by simp, by simp⟩, rfl, rfl⟩
    | cons line back =>
      cases hsplit : Text.splitFirst? ':' line with
      | none =>
        rw [List.foldlM_cons, Headers.addLine_header (.inl rfl), Headers.ofLine, hsplit] at h
        cases h
      | some split =>
        obtain ⟨name, value⟩ := split
        obtain ⟨rfl, hname⟩ := Text.eq_of_splitFirst? hsplit
        rw [Headers.foldlM_firstLine hname (.inl rfl)] at h
        obtain ⟨after, hrest, rfl⟩ := Outcome.except_map_eq_ok.1 h
        have hlen : (back.dropWhile Headers.isContinuation).length < n := by
          have := (List.dropWhile_sublist Headers.isContinuation (l := back)).length_le
          rw [← hn, List.length_cons]
          omega
        obtain ⟨fields, hblock, hlines, rfl⟩ := ih _ hlen hrest rfl
        refine ⟨⟨name, value, back.takeWhile Headers.isContinuation⟩ :: fields, ⟨?_, ?_, ?_⟩, ?_, rfl⟩
        · exact List.forall_mem_cons.2 ⟨hname, hblock.names⟩
        · exact List.forall_mem_cons.2 ⟨List.all_eq_true.1 List.all_takeWhile, hblock.more⟩
        · cases fields with
          | nil => exact fun _ hf => absurd hf List.not_mem_nil
          | cons f fields =>
            refine List.forall_mem_cons.2 ⟨?_, hblock.begins⟩
            have := List.head?_dropWhile_not Headers.isContinuation back
            rw [hlines] at this
            simpa [Field.lines] using this
        · rw [List.flatMap_cons, ← hlines]
          show _ = (name ++ ':' :: value) :: (_ ++ _)
          rw [List.takeWhile_append_dropWhile]

/-- Names are trimmed and in small letters. -/
theorem Field.name_header (f : Field) : IsTrimmed f.header.1.toList ∧ Text.lowerAscii f.header.1 = f.header.1 := by
  have htext : f.header.1.toList = (trimChars f.name).map Char.toLower := by
    simp [Field.header, Text.lowerAscii]
  refine ⟨⟨?_, ?_⟩, ?_⟩
  · rw [htext, List.head?_map]
    intro c hc
    obtain ⟨d, hd, rfl⟩ := Option.map_eq_some_iff.1 hc
    rw [Text.isBlank_toLower]
    exact Text.isBlank_head?_trimChars f.name d hd
  · rw [htext, List.getLast?_map]
    intro c hc
    obtain ⟨d, hd, rfl⟩ := Option.map_eq_some_iff.1 hc
    rw [Text.isBlank_toLower]
    exact Text.isBlank_getLast?_trimChars f.name d hd
  · rw [← String.toList_inj, Text.lowerAscii, String.toList_ofList, htext, List.map_map]
    exact List.map_congr_left fun c _ => Text.toLower_toLower c

/-- **A value is trimmed** just if the header is folded inside it, if at all. -/
theorem Field.isTrimmed_value_iff (f : Field) : IsTrimmed f.header.2.toList ↔ f.FoldsInside := by
  have htext : f.header.2.toList = trimChars f.value ++ continued f.more := by
    simp [Field.header, text]
  rw [htext]
  rcases List.eq_nil_or_concat f.more with hmore | ⟨front, last, hmore⟩
  · have := Text.isTrimmed_trimChars f.value
    simpa [FoldsInside, continued, hmore] using this
  · rw [List.concat_eq_append] at hmore
    have hinside : f.FoldsInside ↔ ¬IsGap f.value ∧ ¬IsGap last := by
      simp [FoldsInside, hmore]
    have hend : continued f.more = continued front ++ [' '] ++ trimChars last := by
      simp [continued, hmore]
    rw [hinside, hend, ← List.append_assoc, ← Text.trimChars_eq_nil_iff, ← Text.trimChars_eq_nil_iff]
    constructor
    · rintro ⟨hhead, hlast⟩
      refine ⟨fun hnil => ?_, fun hnil => ?_⟩
      · -- The value begins with the space in front of the first further piece.
        have := hhead ' ' (by rw [hnil]; cases front <;> simp [continued])
        revert this
        decide
      · have := hlast ' ' (by simp [hnil])
        revert this
        decide
    · rintro ⟨hvalue, hlast⟩
      exact (Text.isTrimmed_trimChars f.value).between (Text.isTrimmed_trimChars last) hvalue hlast _

/-! ### Breaking a line -/

/-- A line that is broken in front of a run of blank characters: a value in one piece and in two. They differ in the length
of a run, unless the break stands at an end of the value; the trimmings do so in any case, if at all. -/
theorem folded_cases {run : List Char} (hne : run ≠ []) (hrun : IsGap run) (name value behind : List Char)
    (more : List (List Char)) :
    ((if IsGap behind then more ≠ [] else ¬IsGap value) →
      Respaced (Field.mk name (value ++ run ++ behind) more).text (Field.mk name value ((run ++ behind) :: more)).text) ∧
    (trimChars (Field.mk name (value ++ run ++ behind) more).text =
        trimChars (Field.mk name value ((run ++ behind) :: more)).text ∨
      Respaced (Field.mk name (value ++ run ++ behind) more).text
        (Field.mk name value ((run ++ behind) :: more)).text) := by
  have hspace : IsGap [' '] := by decide
  have hfolded : (Field.mk name value ((run ++ behind) :: more)).text =
      trimChars value ++ [' '] ++ (trimChars behind ++ Field.continued more) := by
    simp [Field.text, Field.continued, Text.trimChars_gap_append hrun]
  rw [hfolded, Field.text]
  dsimp only
  by_cases hgap : IsGap behind
  · -- Nothing but blanks goes to the new line.
    rw [List.append_assoc value, Text.trimChars_append_gap (hrun.append hgap), Text.trimChars_eq_nil_iff.2 hgap, if_pos hgap]
    cases more with
    | nil =>
      have := Text.trimChars_append_gap hspace (trimChars value)
      exact ⟨fun h => absurd rfl h, .inl (by simpa [Field.continued] using this.symm)⟩
    | cons line more =>
      have : Respaced (trimChars value ++ Field.continued (line :: more))
          (trimChars value ++ [' '] ++ ([] ++ Field.continued (line :: more))) :=
        ⟨trimChars value, [' '], [' ', ' '], trimChars line ++ Field.continued more,
          ⟨by simp [Field.continued], by simp [Field.continued]⟩, ⟨by simp, hspace⟩, by simp, by decide⟩
      exact ⟨fun _ => this, .inr this⟩
  · rw [if_neg hgap]
    by_cases hvalue : IsGap value
    · -- Nothing but blanks is left in the old line.
      rw [Text.trimChars_gap_append (hvalue.append hrun), Text.trimChars_eq_nil_iff.2 hvalue, List.nil_append,
        Text.trimChars_gap_append hspace]
      exact ⟨fun h => absurd hvalue h, .inl rfl⟩
    · obtain ⟨front, back, hfront, hback, hwhole⟩ := Text.exists_trimChars_between hvalue hgap run
      have : Respaced (trimChars (value ++ run ++ behind) ++ Field.continued more)
          (trimChars value ++ [' '] ++ (trimChars behind ++ Field.continued more)) := by
        refine ⟨trimChars value, back ++ run ++ front, [' '], trimChars behind ++ Field.continued more, ⟨?_, rfl⟩,
          ⟨by simp [hne], ?_⟩, by simp, hspace⟩
        · rw [hwhole, List.append_assoc]
        · exact (hback.append hrun).append hfront
      exact ⟨fun _ => this, .inr this⟩

namespace Headers

/-- **Breaking a line of a block changes one header at most.** -/
theorem foldlM_folded {front back : List (List Char)} {name value run behind : List Char} (hname : ':' ∉ name)
    (hline : front = [] ∨ isContinuation (name ++ ':' :: value) = false)
    (hrun : isContinuation (run ++ behind) = true) {headers : Headers}
    (h : (front ++ (name ++ ':' :: (value ++ run ++ behind)) :: back).foldlM addLine [] = .ok headers) :
    ∃ before after more, more = back.takeWhile isContinuation ∧
      headers = before ++ (Field.mk name (value ++ run ++ behind) more).header :: after ∧
      (front ++ (name ++ ':' :: value) :: (run ++ behind) :: back).foldlM addLine [] =
        .ok (before ++ (Field.mk name value ((run ++ behind) :: more)).header :: after) := by
  rw [List.foldlM_append] at h
  obtain ⟨before, hfront, h⟩ := Outcome.except_bind_eq_ok.1 h
  have hbegins (value : List Char) (hsame : isContinuation (name ++ ':' :: value) = false ∨ front = []) :
      before = [] ∨ isContinuation (name ++ ':' :: value) = false := by
    rcases hsame with hfalse | rfl
    · exact .inr hfalse
    · cases hfront
      exact .inl rfl
  have hwhole : isContinuation (name ++ ':' :: (value ++ run ++ behind)) = isContinuation (name ++ ':' :: value) := by
    cases name <;> rfl
  rw [foldlM_firstLine hname (hbegins _ (by rw [hwhole]; exact hline.symm))] at h
  obtain ⟨after, hrest, rfl⟩ := Outcome.except_map_eq_ok.1 h
  refine ⟨before, after, _, rfl, rfl, ?_⟩
  rw [List.foldlM_append, hfront]
  show List.foldlM addLine before _ = _
  rw [foldlM_firstLine hname (hbegins _ hline.symm), List.dropWhile_cons, List.takeWhile_cons, if_pos hrun, if_pos hrun, hrest]
  rfl

/-- Blank characters at the end of a header line do not count. -/
theorem foldlM_padded {front back : List (List Char)} {line run : List Char} (hcolon : ':' ∈ line)
    (hline : front = [] ∨ isContinuation line = false) (hrun : IsGap run) :
    (front ++ (line ++ run) :: back).foldlM addLine [] = (front ++ line :: back).foldlM addLine [] := by
  obtain ⟨name, value, hsplit⟩ := Text.exists_splitFirst? hcolon
  obtain ⟨rfl, hname⟩ := Text.eq_of_splitFirst? hsplit
  have hof : ofLine (name ++ ':' :: value ++ run) = ofLine (name ++ ':' :: value) := by
    rw [ofLine, ofLine, List.append_assoc, List.cons_append, Text.splitFirst?_append hname, Text.splitFirst?_append hname]
    dsimp only
    rw [Text.trimChars_append_gap hrun]
  have hbegins : isContinuation (name ++ ':' :: value ++ run) = isContinuation (name ++ ':' :: value) := by
    cases name <;> rfl
  rw [List.foldlM_append, List.foldlM_append]
  cases hfront : front.foldlM addLine [] with
  | error fault => rfl
  | ok before =>
    have hheader : before = [] ∨ isContinuation (name ++ ':' :: value) = false := by
      refine hline.imp_left ?_
      rintro rfl
      cases hfront
      rfl
    show List.foldlM addLine before _ = List.foldlM addLine before _
    rw [List.foldlM_cons, List.foldlM_cons, addLine_header (hbegins ▸ hheader), addLine_header hheader, hof]

section
variable {before after : Headers} {name value value' : String}

/-- Where a value stands in place of another, a name has the same value or those two. -/
theorem get?_replaced (before after : Headers) (name value value' key : String) :
    get? (before ++ (name, value') :: after) key = get? (before ++ (name, value) :: after) key ∨
      get? (before ++ (name, value') :: after) key = some value' ∧
        get? (before ++ (name, value) :: after) key = some value := by
  unfold get?
  rw [List.lookup_append, List.lookup_append, List.lookup_cons, List.lookup_cons]
  cases before.lookup key with
  | some other => exact .inl rfl
  | none =>
    cases key == name with
    | true => exact .inr ⟨rfl, rfl⟩
    | false => exact .inl rfl

/-- Values that are alike make headers alike. -/
theorem squeeze_get?_replaced (h : squeeze value' = squeeze value) (key : String) :
    (get? (before ++ (name, value') :: after) key).map squeeze = (get? (before ++ (name, value) :: after) key).map squeeze := by
  rcases get?_replaced before after name value value' key with heq | ⟨heq', heq⟩
  · rw [heq]
  · rw [heq, heq', Option.map_some, Option.map_some, h]

end

/-- The known encodings are single words, so spacing does not count. -/
theorem encoding_eq_ok_iff_of_squeeze {headers headers' : Headers}
    (h : (headers'.get? "content-transfer-encoding").map squeeze =
      (headers.get? "content-transfer-encoding").map squeeze) (encoding : Encoding) :
    headers'.encoding = .ok encoding ↔ headers.encoding = .ok encoding := by
  unfold Headers.encoding
  cases hvalue : headers.get? "content-transfer-encoding" with
  | none =>
    rw [hvalue, Option.map_none, Option.map_eq_none_iff] at h
    rw [h]
  | some value =>
    rw [hvalue, Option.map_some] at h
    obtain ⟨value', hvalue', hsqueeze⟩ := Option.map_eq_some_iff.1 h
    have hwords : ∀ word ∈ ["base64", "7bit", "8bit", "binary", "quoted-printable"], Text.IsInk word.toList := by decide
    have hsame (word : String) (hword : word ∈ ["base64", "7bit", "8bit", "binary", "quoted-printable"]) :
        Text.lowerAscii value' = word ↔ Text.lowerAscii value = word :=
      Text.lowerAscii_eq_iff_of_squeeze (hwords word hword) hsqueeze
    have hplain : ["7bit", "8bit", "binary", "quoted-printable"].contains (Text.lowerAscii value') =
        ["7bit", "8bit", "binary", "quoted-printable"].contains (Text.lowerAscii value) := by
      rw [Bool.eq_iff_iff]
      simp only [List.contains_eq_mem, decide_eq_true_eq, List.mem_cons, List.not_mem_nil, or_false,
        hsame "7bit" (by decide), hsame "8bit" (by decide), hsame "binary" (by decide), hsame "quoted-printable" (by decide)]
    rw [hvalue']
    dsimp only
    rw [hplain]
    simp only [hsame "base64" (by decide)]
    split
    · rfl
    · split
      · rfl
      · exact ⟨nofun, nofun⟩

/-- Brackets stand outside every run of blank characters. -/
theorem respaced_withoutBrackets {cs ds : List Char} (h : Respaced cs ds) :
    Respaced (withoutBrackets cs) (withoutBrackets ds) := by
  obtain ⟨front, gap, gap', back, ⟨rfl, rfl⟩, hgap, hgap'⟩ := h
  obtain ⟨opening, inner, rfl, hopening⟩ : ∃ opening inner, front = opening ++ inner ∧
      (opening = ['<'] ∨ opening = [] ∧ inner.head? ≠ some '<') := by
    by_cases hhead : front.head? = some '<'
    · obtain ⟨rest, rfl⟩ := List.head?_eq_some_iff.1 hhead
      exact ⟨['<'], rest, rfl, .inl rfl⟩
    · exact ⟨[], front, rfl, .inr ⟨rfl, hhead⟩⟩
  obtain ⟨closing, hback, hclosing⟩ := (withoutClosing_eq_iff back).1 rfl
  generalize (if back.getLast? = some '>' then back.dropLast else back) = outer at hback hclosing
  subst hback
  have hcut (gap : List Char) (hne : gap ≠ []) (hgap : IsGap gap) :
      Headers.withoutBrackets (opening ++ inner ++ gap ++ (outer ++ closing)) = inner ++ gap ++ outer := by
    refine withoutBrackets_eq_iff.2 ⟨opening, closing, by simp, hopening.imp_right fun h => ⟨h.1, ?_⟩,
      hclosing.imp_right fun h => ⟨h.1, ?_⟩⟩
    · cases inner with
      | nil =>
        obtain ⟨c, gap, rfl⟩ := List.exists_cons_of_ne_nil hne
        rintro hc
        cases hc
        exact absurd (hgap '<' List.mem_cons_self) (by decide)
      | cons c inner => exact h.2
    · rw [List.getLast?_append]
      cases hlast : outer.getLast? with
      | some c =>
        have := h.2
        rwa [hlast] at this
      | none =>
        intro hc
        rw [Option.none_or, List.getLast?_append, Option.or_of_isSome (List.getLast?_isSome.2 hne)] at hc
        exact absurd (hgap '>' (List.mem_of_getLast? hc)) (by decide)
  rw [hcut gap hgap.1 hgap.2, hcut gap' hgap'.1 hgap'.2]
  exact ⟨inner, gap, gap', outer, ⟨rfl, rfl⟩, hgap, hgap'⟩

/-- An id is alike wherever its line is broken. -/
theorem squeeze_contentId?_replaced {before after : Headers} {name : String} {text text' : List Char}
    (h : trimChars text = trimChars text' ∨ Respaced text text') :
    (contentId? (before ++ (name, String.ofList text') :: after)).map squeeze =
      (contentId? (before ++ (name, String.ofList text) :: after)).map squeeze := by
  unfold contentId?
  rcases get?_replaced before after name (String.ofList text) (String.ofList text') "content-id" with heq | ⟨heq', heq⟩
  · rw [heq]
  · rw [heq, heq']
    simp only [Option.map_some, String.toList_ofList]
    rcases h.imp_right Respaced.trimChars with htrim | htrim | hspaced
    · rw [htrim]
    · rw [htrim]
    · rw [(respaced_withoutBrackets hspaced).squeeze_eq]

end Headers

/-! ### Blocks of bytes -/

open Unbuffered (cutAtEmpty withLine?)

/-- Lines as they are read from bytes. -/
theorem foldlM_withLine? (headers : Headers) (ls : List Bytes) :
    ls.foldlM withLine? headers = ((ls.map Utf8.decodeLossy).foldlM Headers.addLine headers).toOption := by
  induction ls generalizing headers with
  | nil => rfl
  | cons line ls ih =>
    rw [List.foldlM_cons, List.map_cons, List.foldlM_cons]
    rcases addLine_follows headers line with ⟨headers', hwith, hadd⟩ | ⟨hwith, fault, hadd⟩
    · rw [hwith, hadd]
      exact ih headers'
    · rw [hwith, hadd]
      rfl

/-- A block is read just if its lines are, up to the first empty one. -/
theorem readHeaders_eq_ok_iff {capacity : Nat} {ls : List Bytes} {headers : Headers} {rest : List Chunk} :
    readHeaders [] [] (Chunk.ofLines capacity ls) = .ok (headers, rest) ↔
      ∃ inside behind, cutAtEmpty ls = some (inside, behind) ∧ Chunk.ofLines capacity behind = rest ∧
        (inside.map Utf8.decodeLossy).foldlM Headers.addLine [] = .ok headers := by
  rw [(readHeaders_follows [] ls).iff_ok]
  constructor
  · intro h
    obtain ⟨⟨inside, behind⟩, hcut, hmap⟩ := Option.bind_eq_some_iff.1 h
    obtain ⟨headers', hfold, heq⟩ := Option.map_eq_some_iff.1 hmap
    cases heq
    rw [foldlM_withLine?] at hfold
    exact ⟨inside, behind, hcut, rfl, eq_ok_of_toOption hfold⟩
  · rintro ⟨inside, behind, hcut, rfl, hfold⟩
    rw [hcut, Option.bind_some]
    dsimp only
    rw [foldlM_withLine?, hfold]
    rfl

/-- A line that is cut in front of a run of bytes, between other lines. -/
structure Cut where
  /-- The lines in front. -/
  before : List Bytes
  /-- What stands in front of the run. -/
  front : Bytes
  /-- The run. -/
  run : Bytes
  /-- What stands behind the run. -/
  back : Bytes
  /-- The lines behind. -/
  after : List Bytes

namespace Cut

/-- The lines as they are. -/
def whole (c : Cut) : List Bytes := c.before ++ (c.front ++ c.run ++ c.back) :: c.after

/-- The lines without the run. -/
def bare (c : Cut) : List Bytes := c.before ++ (c.front ++ c.back) :: c.after

/-- The lines with a line break in front of the run. -/
def folded (c : Cut) : List Bytes := c.before ++ c.front :: (c.run ++ c.back) :: c.after

/-- The line is the first one of a header, and the run spaces and tabs behind its colon. -/
structure InHeader (c : Cut) : Prop where
  before : ∀ line ∈ c.before, line ≠ []
  begins : c.before = [] ∨ Headers.isContinuation (Utf8.decodeLossy c.front) = false
  colon : ':' ∈ Utf8.decodeLossy c.front
  ne_nil : c.run ≠ []
  padding : ∀ b ∈ c.run, isPadding b = true

/-- The line break stands inside the value: with more of it in front and behind, or behind all of that line and in front of
another one that goes on with the header. -/
def Inside (c : Cut) : Prop :=
  if IsGap (Utf8.decodeLossy c.back) then ∃ next ∈ c.after.head?, Headers.isContinuation (Utf8.decodeLossy next) = true
  else ∀ name value, Text.splitFirst? ':' (Utf8.decodeLossy c.front) = some (name, value) → ¬IsGap value

/-- A line that is cut is read in three. -/
theorem decode_eq {c : Cut} (h : c.InHeader) : ∃ run, run ≠ [] ∧ IsGap run ∧
    Utf8.decodeLossy (c.front ++ c.run ++ c.back) = Utf8.decodeLossy c.front ++ run ++ Utf8.decodeLossy c.back ∧
    Utf8.decodeLossy (c.run ++ c.back) = run ++ Utf8.decodeLossy c.back ∧
    ∀ behind, Headers.isContinuation (run ++ behind) = true := by
  have hpadding (b : UInt8) (hb : b ∈ c.run) : b = 0x20 ∨ b = 0x09 := by
    have := h.padding b hb
    simpa [isPadding] using this
  have hascii : ∀ b ∈ c.run, b < 0x80 := by
    intro b hb
    rcases hpadding b hb with rfl | rfl <;> decide
  have hback := Utf8.decodeLossy_ascii_append hascii c.back
  obtain ⟨b, run, hrun⟩ := List.exists_cons_of_ne_nil h.ne_nil
  refine ⟨c.run.map fun b => Char.ofNat b.toNat, by simpa using h.ne_nil, ?_, ?_, hback, ?_⟩
  · intro c' hc
    obtain ⟨b, hb, rfl⟩ := List.mem_map.1 hc
    rcases hpadding b hb with rfl | rfl <;> decide
  · have hcut := Utf8.decodeLossy_append (hascii b (by rw [hrun]; exact List.mem_cons_self))
    have hfirst := hcut [] (run ++ c.back)
    rw [List.nil_append, Utf8.decodeLossy, List.nil_append, ← List.cons_append, ← hrun, hback] at hfirst
    rw [List.append_assoc, List.append_assoc, hfirst, hrun, List.cons_append, hcut]
  · intro behind
    rw [hrun]
    rcases hpadding b (by rw [hrun]; exact List.mem_cons_self) with rfl | rfl <;> rfl

end Cut

theorem Cut.InHeader.front_ne_nil {c : Cut} (h : c.InHeader) : c.front ≠ [] := by
  intro hnil
  have := h.colon
  rw [hnil, Utf8.decodeLossy] at this
  exact List.not_mem_nil this

/-- Lines that are not empty do not end a block. -/
theorem Cut.cutAtEmpty_between {c : Cut} (h : c.InHeader) (between : List Bytes) (hbetween : ∀ line ∈ between, line ≠ []) :
    cutAtEmpty (c.before ++ (between ++ c.after)) =
      (cutAtEmpty c.after).map fun (inside, behind) => (c.before ++ (between ++ inside), behind) := by
  have := Unbuffered.cutAtEmpty_behind (List.forall_mem_append.2 ⟨h.before, hbetween⟩) c.after
  simpa only [List.append_assoc] using this

/-- Both blocks end at the same place. -/
theorem Cut.cutAtEmpty_folded {c : Cut} (h : c.InHeader) {inside behind : List Bytes}
    (hcut : cutAtEmpty c.whole = some (inside, behind)) :
    ∃ after, cutAtEmpty c.after = some (after, behind) ∧ inside = c.before ++ (c.front ++ c.run ++ c.back) :: after ∧
      cutAtEmpty c.folded = some (c.before ++ c.front :: (c.run ++ c.back) :: after, behind) := by
  have hwhole := c.cutAtEmpty_between h [c.front ++ c.run ++ c.back] (by simp [h.front_ne_nil])
  have hfolded := c.cutAtEmpty_between h [c.front, c.run ++ c.back] (by simp [h.front_ne_nil, h.ne_nil])
  rw [Cut.whole, show _ :: c.after = [c.front ++ c.run ++ c.back] ++ c.after from rfl, hwhole] at hcut
  obtain ⟨⟨after, _⟩, hafter, heq⟩ := Option.map_eq_some_iff.1 hcut
  cases heq
  rw [hafter] at hfolded
  exact ⟨after, hafter, rfl, hfolded⟩

/-- A run at the end of a header line may be left out. -/
theorem Cut.readHeaders_whole {c : Cut} (h : c.InHeader) (hback : c.back = []) {capacity : Nat} {headers : Headers}
    {rest : List Chunk} (hread : readHeaders [] [] (Chunk.ofLines capacity c.bare) = .ok (headers, rest)) :
    readHeaders [] [] (Chunk.ofLines capacity c.whole) = .ok (headers, rest) := by
  obtain ⟨inside, behind, hcut, hrest, hfold⟩ := readHeaders_eq_ok_iff.1 hread
  obtain ⟨run, -, hrun, hwhole, -, -⟩ := c.decode_eq h
  have hbare := c.cutAtEmpty_between h [c.front ++ c.back] (by simp [h.front_ne_nil])
  have hpadded := c.cutAtEmpty_between h [c.front ++ c.run ++ c.back] (by simp [h.front_ne_nil])
  rw [Cut.bare, show _ :: c.after = [c.front ++ c.back] ++ c.after from rfl, hbare] at hcut
  obtain ⟨⟨after, _⟩, hafter, heq⟩ := Option.map_eq_some_iff.1 hcut
  cases heq
  rw [hafter] at hpadded
  refine readHeaders_eq_ok_iff.2 ⟨_, _, hpadded, hrest, ?_⟩
  have hbegins : c.before.map Utf8.decodeLossy = [] ∨ Headers.isContinuation (Utf8.decodeLossy c.front) = false :=
    h.begins.imp_left fun h => by rw [h, List.map_nil]
  have hsame := @Headers.foldlM_padded _ (after.map Utf8.decodeLossy) _ _ h.colon hbegins hrun
  rw [hback, Utf8.decodeLossy, List.append_nil, List.append_nil] at hwhole
  rw [hback, List.append_nil] at hfold ⊢
  rw [List.map_append, List.singleton_append, List.map_cons] at hfold ⊢
  rw [hwhole, hsame, hfold]

/-- Where all of a line goes to a new one, a further line goes on with it. -/
theorem Cut.Inside.folds {c : Cut} (h : c.Inside) {name value : List Char}
    (hsplit : Text.splitFirst? ':' (Utf8.decodeLossy c.front) = some (name, value)) {after behind : List Bytes}
    (hafter : cutAtEmpty c.after = some (after, behind)) :
    if IsGap (Utf8.decodeLossy c.back) then (after.map Utf8.decodeLossy).takeWhile Headers.isContinuation ≠ []
    else ¬IsGap value := by
  unfold Cut.Inside at h
  split at h
  · next hgap =>
    rw [if_pos hgap]
    obtain ⟨next, hnext, hcontinuation⟩ := h
    obtain ⟨others, hothers⟩ := List.head?_eq_some_iff.1 hnext
    have hne : next ≠ [] := by
      rintro rfl
      rw [Utf8.decodeLossy] at hcontinuation
      cases hcontinuation
    have hbehind := Unbuffered.cutAtEmpty_behind (List.forall_mem_singleton.2 hne) others
    rw [List.singleton_append, ← hothers, hafter] at hbehind
    obtain ⟨_, -, heq⟩ := Option.map_eq_some_iff.1 hbehind.symm
    cases heq
    simp [hcontinuation]
  · next hgap =>
    rw [if_neg hgap]
    exact h name value hsplit

/-- **Headers are stored trimmed, and folding a header does not change it**, but for what is folded at an end of its value.

A block that is read is fields in a row, and their headers are stored. Each name is trimmed and in small letters, and a value is
trimmed just if its header is folded inside, if at all. A line break in front of a run of spaces and tabs behind the colon, which
may be added for it at the end, leaves all names and the content id the same, up to how long runs of blanks are; and inside the
value, all values and the encoding too. -/
theorem readHeaders_folded {capacity : Nat} {ls : List Bytes} {headers : Headers} {rest : List Chunk}
    (hread : readHeaders [] [] (Chunk.ofLines capacity ls) = .ok (headers, rest)) :
    (∃ inside behind fields, cutAtEmpty ls = some (inside, behind) ∧ Chunk.ofLines capacity behind = rest ∧
      IsBlock fields ∧ inside.map Utf8.decodeLossy = fields.flatMap Field.lines ∧ headers = fields.map Field.header ∧
      ∀ f ∈ fields, (IsTrimmed f.header.1.toList ∧ Text.lowerAscii f.header.1 = f.header.1) ∧
        (IsTrimmed f.header.2.toList ↔ f.FoldsInside)) ∧
    ∀ c : Cut, (c.whole = ls ∨ c.back = [] ∧ c.bare = ls) → c.InHeader →
      ∃ headers', readHeaders [] [] (Chunk.ofLines capacity c.folded) = .ok (headers', rest) ∧
        headers'.map (·.1) = headers.map (·.1) ∧ headers'.contentId?.map squeeze = headers.contentId?.map squeeze ∧
        (c.Inside → (∀ encoding, headers'.encoding = .ok encoding ↔ headers.encoding = .ok encoding) ∧
          ∀ key, (headers'.get? key).map squeeze = (headers.get? key).map squeeze) := by
  refine ⟨?_, fun c hls hc => ?_⟩
  · obtain ⟨inside, behind, hcut, hrest, hfold⟩ := readHeaders_eq_ok_iff.1 hread
    obtain ⟨fields, hblock, hlines, hheaders⟩ := exists_fields hfold
    exact ⟨inside, behind, fields, hcut, hrest, hblock, hlines, hheaders,
      fun f _ => ⟨f.name_header, f.isTrimmed_value_iff⟩⟩
  · have hread : readHeaders [] [] (Chunk.ofLines capacity c.whole) = .ok (headers, rest) := by
      rcases hls with rfl | ⟨hback, rfl⟩
      · exact hread
      · exact c.readHeaders_whole hc hback hread
    obtain ⟨inside, behind, hcut, hrest, hfold⟩ := readHeaders_eq_ok_iff.1 hread
    obtain ⟨run, hne, hrun, hwhole, hback, hcontinuation⟩ := c.decode_eq hc
    obtain ⟨name, value, hsplit⟩ := Text.exists_splitFirst? hc.colon
    obtain ⟨hfront, hname⟩ := Text.eq_of_splitFirst? hsplit
    obtain ⟨after, hafter, rfl, hcutFolded⟩ := c.cutAtEmpty_folded hc hcut
    have hbegins : c.before.map Utf8.decodeLossy = [] ∨ Headers.isContinuation (name ++ ':' :: value) = false := by
      rw [← hfront]
      exact hc.begins.imp_left fun h => by rw [h, List.map_nil]
    have hline : Utf8.decodeLossy (c.front ++ c.run ++ c.back) =
        name ++ ':' :: (value ++ run ++ Utf8.decodeLossy c.back) := by
      rw [hwhole, hfront]
      simp
    rw [List.map_append, List.map_cons, hline] at hfold
    obtain ⟨before, others, more, hmore, rfl, hfolded⟩ := Headers.foldlM_folded hname hbegins (hcontinuation _) hfold
    obtain ⟨hinside, hcases⟩ := folded_cases hne hrun name value (Utf8.decodeLossy c.back) more
    refine ⟨_, readHeaders_eq_ok_iff.2 ⟨_, _, hcutFolded, hrest, ?_⟩, ?_, Headers.squeeze_contentId?_replaced hcases, ?_⟩
    · rw [List.map_append, List.map_cons, List.map_cons, hback, hfront]
      exact hfolded
    · simp only [List.map_append, List.map_cons]
      rfl
    · intro hc
      have hsame := (hinside (hmore ▸ hc.folds hsplit hafter)).squeeze_eq.symm
      exact ⟨Headers.encoding_eq_ok_iff_of_squeeze (Headers.squeeze_get?_replaced hsame _),
        Headers.squeeze_get?_replaced hsame⟩

/-- The header of a content type, cut in front of its parameter and with a tab for the space there, and another header. -/
def typeCut : Cut :=
  ⟨[], Utf8.ofString "Content-Type: application/xop+xml;", [0x09], Utf8.ofString "type=\"text/xml\" ",
    [Utf8.ofString "Content-Transfer-Encoding: Base64", [], Utf8.ofString "aGk="]⟩

theorem readHeaders_folded_type :
    ∃ headers headers' rest, readHeaders [] [] (Chunk.ofLines 16 typeCut.whole) = .ok (headers, rest) ∧
      readHeaders [] [] (Chunk.ofLines 16 typeCut.folded) = .ok (headers', rest) ∧
      headers'.encoding = .ok .base64 ∧
      (headers'.get? "content-type").map squeeze = some "application/xop+xml; type=\"text/xml\"" := by
  have hread : readHeaders [] [] (Chunk.ofLines 16 typeCut.whole) =
      .ok ([("content-type", "application/xop+xml;\ttype=\"text/xml\""), ("content-transfer-encoding", "Base64")],
        [⟨Utf8.ofString "aGk=", .inputEnd⟩]) :=
    eq_ok_of_toOption (by decide +kernel)
  have hheader : typeCut.InHeader :=
    ⟨by simp [typeCut], .inl rfl, by decide +kernel, by simp [typeCut], by simp [typeCut, isPadding]⟩
  have hinside : typeCut.Inside := by
    have hback : ¬IsGap (Utf8.decodeLossy typeCut.back) := by decide +kernel
    unfold Cut.Inside
    rw [if_neg hback]
    intro name value hsplit
    have hvalue : (Text.splitFirst? ':' (Utf8.decodeLossy typeCut.front)).map (·.2) = some " application/xop+xml;".toList := by
      decide +kernel
    rw [hsplit] at hvalue
    obtain rfl := Option.some.inj hvalue
    decide +kernel
  obtain ⟨-, hfold⟩ := readHeaders_folded hread
  obtain ⟨headers', hread', -, -, hsame⟩ := hfold typeCut (.inl rfl) hheader
  obtain ⟨hencoding, hvalues⟩ := hsame hinside
  exact ⟨_, headers', _, hread, hread', (hencoding _).2 (by decide +kernel), (hvalues _).trans (by decide +kernel)⟩

/-- A line break in front of a value leaves a space in front of it, and one with blanks behind it a space at its end: the
encoding is no longer known then, and a content type is stored with the space. -/
theorem not_readHeaders_folded :
    ∃ headers, headers.encoding = .ok .base64 ∧
      readHeaders [] [] (Chunk.ofLines 64 (lines (Utf8.ofString "Content-Transfer-Encoding: base64\r\n\r\n"))) =
        .ok (headers, [⟨[], .inputEnd⟩]) ∧
      (∀ folded ∈ [("Content-Transfer-Encoding:\r\n base64\r\n\r\n", " base64"),
          ("Content-Transfer-Encoding: base64\r\n \r\n\r\n", "base64 ")],
        ∃ headers' : Headers,
          readHeaders [] [] (Chunk.ofLines 64 (lines (Utf8.ofString folded.1))) = .ok (headers', [⟨[], .inputEnd⟩]) ∧
          headers' = [("content-transfer-encoding", folded.2)] ∧ ¬IsTrimmed folded.2.toList ∧
          headers'.encoding = .error (.unsupportedEncoding folded.2)) ∧
      ∃ headers' : Headers,
        readHeaders [] [] (Chunk.ofLines 64 (lines (Utf8.ofString "Content-Type: a/b\r\n \r\n\r\n"))) =
          .ok (headers', [⟨[], .inputEnd⟩]) ∧ headers'.get? "content-type" = some "a/b " := by
  refine ⟨[("content-transfer-encoding", "base64")], by decide +kernel, eq_ok_of_toOption (by decide +kernel), ?_,
    [("content-type", "a/b ")], eq_ok_of_toOption (by decide +kernel), by decide +kernel⟩
  intro folded hfolded
  simp only [List.mem_cons, List.not_mem_nil, or_false] at hfolded
  rcases hfolded with rfl | rfl
  · refine ⟨_, eq_ok_of_toOption (by decide +kernel), rfl, ?_, by decide +kernel⟩
    exact fun h => absurd (h.1 ' ' rfl) (by decide)
  · refine ⟨_, eq_ok_of_toOption (by decide +kernel), rfl, ?_, by decide +kernel⟩
    exact fun h => absurd (h.2 ' ' rfl) (by decide)

end SoapBinding.Multipart
