import SoapBinding.Proofs.Multipart.ContentType
import SoapBinding.Proofs.Multipart.Refinement
import SoapBinding.Proofs.Multipart.Written

/-!
# Bodies are read as they are written

A body in parts that is written with a proper boundary is read back: the message has its bytes, and the
attachments have their ids and their bytes, in order (`read_write`). The reader of lines reads each part
between its delimiters, and the reader through the buffer follows it, since the delimiters fit.

No line of the message may be a delimiter, and no line of an attachment that is written as it is. In
base64 there is no hyphen, so there the bytes do not matter.
-/

namespace SoapBinding.Multipart

open Unbuffered

variable {boundary : Bytes}

/-! ### Cuts -/

theorem cutAtEmpty_append {front behind : List Bytes} (hfront : ∀ line ∈ front, line ≠ [])
    (hbehind : behind ≠ []) : cutAtEmpty (front ++ [] :: behind) = some (front, behind) := by
  obtain ⟨next, rest, rfl⟩ := List.exists_cons_of_ne_nil hbehind
  rw [cutAtEmpty_behind hfront]
  simp [cutAtEmpty]

theorem cutAtDelimiter_append {front rest : List Bytes} {line : Bytes} {delimiter : Delimiter}
    (hfront : ∀ l ∈ front, delimiter? boundary l = none)
    (hline : delimiter? boundary line = some delimiter) :
    cutAtDelimiter boundary (front ++ line :: rest) = some (front, delimiter, rest) := by
  induction front with
  | nil => rw [List.nil_append, cutAtDelimiter, hline]
  | cons l front ih =>
    rw [List.cons_append, cutAtDelimiter, hfront l List.mem_cons_self,
      ih fun l' hl' => hfront l' (List.mem_cons_of_mem l hl')]
    rfl

/-! ### Headers -/

namespace Framing

/-- The header that a name and a value are read as. -/
def readAs (header : String × String) : String × String :=
  (Text.lowerAscii (String.ofList (Text.trimChars header.1.toList)),
    String.ofList (Text.trimChars header.2.toList))

/-- A name that a header begins with: a capital letter in front, and no colon. -/
def IsName (name : String) : Prop :=
  ':' ∉ name.toList ∧ ∃ c, name.toList.head? = some c ∧ 65 ≤ c.toNat ∧ c.toNat ≤ 90

/-- A written header begins with the letter that begins its name. -/
theorem head?_headerLine {name : String} (h : IsName name) (value : String) :
    ∃ b rest, headerLine name value = b :: rest ∧ 65 ≤ b.toNat := by
  obtain ⟨-, c, hhead, hlow, hhigh⟩ := h
  obtain ⟨cs, hname⟩ := List.head?_eq_some_iff.1 hhead
  rw [headerLine, Utf8.ofString_append, Utf8.ofString_append, Utf8.ofString, hname,
    Utf8.encode_cons]
  rcases Utf8.encodeChar_cases c with ⟨-, he⟩ | ⟨hlarge, -⟩
  · refine ⟨UInt8.ofNat c.toNat, _, by rw [he]; rfl, ?_⟩
    rw [UInt8.toNat_ofNat']
    omega
  · omega

theorem headerLine_ne_nil {name : String} (h : IsName name) (value : String) :
    headerLine name value ≠ [] := by
  obtain ⟨b, rest, he, -⟩ := head?_headerLine h value
  rw [he]
  exact List.cons_ne_nil b rest

theorem delimiter?_headerLine {name : String} (h : IsName name) (value : String) :
    delimiter? boundary (headerLine name value) = none := by
  obtain ⟨b, rest, he, hb⟩ := head?_headerLine h value
  rw [he]
  refine delimiter?_eq_none_of_head ?_
  rintro rfl
  exact absurd hb (by decide)

/-- A written header is read. -/
theorem withLine?_headerLine {name : String} (h : IsName name) (value : String) (headers : Headers) :
    withLine? headers (headerLine name value) = some (headers ++ [readAs (name, value)]) := by
  have htext : Utf8.decodeLossy (headerLine name value) =
      name.toList ++ ':' :: ' ' :: value.toList := by
    rw [headerLine, Utf8.ofString, Utf8.decodeLossy_encode, String.toList_append,
      String.toList_append, show ": ".toList = [':', ' '] by decide, List.append_assoc]
    rfl
  have hstart : Headers.isContinuation (name.toList ++ ':' :: ' ' :: value.toList) = false := by
    obtain ⟨-, c, hhead, hlow, -⟩ := h
    obtain ⟨cs, hname⟩ := List.head?_eq_some_iff.1 hhead
    rw [hname, List.cons_append, Headers.isContinuation, Bool.or_eq_false_iff, beq_eq_false_iff_ne,
      beq_eq_false_iff_ne]
    constructor
    · rintro rfl
      exact absurd hlow (by decide)
    · rintro rfl
      exact absurd hlow (by decide)
  have hheader : withLine?.header? headers (name.toList ++ ':' :: ' ' :: value.toList) =
      some (headers ++ [readAs (name, value)]) := by
    rw [withLine?.header?, Text.splitFirst?_append h.1, Option.map_some, readAs]
    dsimp only
    rw [Text.trimChars_cons_of_isBlank (by decide)]
  rw [withLine?, htext]
  cases headers.getLast? with
  | none => exact hheader
  | some last =>
    dsimp only
    rw [hstart]
    exact hheader

/-- Written headers are read in order. -/
theorem foldlM_headerLines {written : List (String × String)}
    (h : ∀ header ∈ written, IsName header.1) (headers : Headers) :
    (headerLines written).foldlM withLine? headers =
      some (headers ++ written.map readAs) := by
  induction written generalizing headers with
  | nil =>
    rw [List.map_nil, List.append_nil]
    rfl
  | cons header written ih =>
    rw [headerLines, List.map_cons, List.foldlM_cons,
      withLine?_headerLine (h header List.mem_cons_self)]
    show (headerLines written).foldlM withLine? (headers ++ [readAs header]) = _
    rw [ih fun header' hmem => h header' (List.mem_cons_of_mem header hmem), List.map_cons,
      List.append_assoc, List.singleton_append]

/-! ### Parts -/

variable {f : Framing}

/-- A part stands between its header lines and the next delimiter. -/
theorem part?_of_lines {written : List (String × String)} {body content line : Bytes}
    {encoding : Encoding} {delimiter : Delimiter} (hnames : ∀ header ∈ written, IsName header.1)
    (hencoding : Headers.encoding (written.map readAs) = .ok encoding)
    (hbody : IsPlain boundary body) (hcontent : encoding.decode? body = some content)
    (hline : delimiter? boundary line = some delimiter) (rest : List Bytes) :
    part? boundary (headerLines written ++ [] :: (lines body ++ line :: rest)) =
      some (⟨written.map readAs, content⟩, delimiter, rest) := by
  have hlines : ∀ l ∈ headerLines written, l ≠ [] := by
    intro l hl
    obtain ⟨header, hheader, rfl⟩ := List.mem_map.1 hl
    exact headerLine_ne_nil (hnames header hheader) header.2
  unfold part?
  rw [cutAtEmpty_append hlines (by simp)]
  simp only [Option.bind_eq_bind, Option.bind_some]
  rw [foldlM_headerLines hnames, List.nil_append, Option.bind_some, hencoding,
    cutAtDelimiter_append hbody hline]
  show ((encoding.decode? (crlf.intercalate (lines body))).bind _) = _
  rw [intercalate_lines, hcontent]
  rfl

theorem isName_contentType : IsName "Content-Type" :=
  ⟨by decide, 'C', by decide, by decide, by decide⟩

theorem isName_encoding : IsName "Content-Transfer-Encoding" :=
  ⟨by decide, 'C', by decide, by decide, by decide⟩

theorem isName_id : IsName "Content-ID" :=
  ⟨by decide, 'C', by decide, by decide, by decide⟩

theorem isName_of_mem_messageHeaders {primaryType : String} :
    ∀ header ∈ messageHeaders primaryType, IsName header.1 := by
  simp only [messageHeaders, List.mem_cons, List.not_mem_nil, or_false, forall_eq_or_imp, forall_eq]
  exact ⟨isName_contentType, isName_encoding⟩

theorem isName_of_mem_attachmentHeaders {id : String} :
    ∀ header ∈ f.attachmentHeaders id, IsName header.1 := by
  simp only [attachmentHeaders, List.mem_cons, List.not_mem_nil, or_false, forall_eq_or_imp,
    forall_eq]
  exact ⟨isName_contentType, isName_encoding, isName_id⟩

/-- Names are read in small letters. -/
theorem readAs_contentType (value : String) :
    readAs ("Content-Type", value) =
      ("content-type", String.ofList (Text.trimChars value.toList)) := by
  have hname : Text.lowerAscii (String.ofList (Text.trimChars "Content-Type".toList)) =
      "content-type" := by decide
  rw [readAs, hname]

theorem readAs_encoding (encoding : TransferEncoding) :
    readAs ("Content-Transfer-Encoding", encoding.name) =
      ("content-transfer-encoding", encoding.name) := by
  cases encoding <;> decide

/-- The angle brackets around an id keep it from being trimmed. -/
theorem readAs_id (id : String) :
    readAs ("Content-ID", "<" ++ id ++ ">") = ("content-id", "<" ++ id ++ ">") := by
  have hname : Text.lowerAscii (String.ofList (Text.trimChars "Content-ID".toList)) =
      "content-id" := by decide
  rw [readAs, hname]
  dsimp only
  rw [toList_bracketed, Text.trimChars_between (by decide) (by decide), ← toList_bracketed,
    String.ofList_toList]

/-- How the content of an attachment is read. -/
def readingOf : TransferEncoding → Encoding
  | .binary => .plain
  | .base64 => .base64

/-- The encoding that a header tells is the one that is read. -/
theorem encoding_of_get? {headers : Headers} {encoding : TransferEncoding}
    (h : headers.get? "content-transfer-encoding" = some encoding.name) :
    headers.encoding = .ok (readingOf encoding) := by
  have hlower : Text.lowerAscii encoding.name = encoding.name := by
    cases encoding <;> decide
  rw [Headers.encoding, h]
  dsimp only
  rw [hlower]
  cases encoding with
  | binary => rw [if_neg (by decide), if_pos (by decide)]; rfl
  | base64 => rw [if_pos (by decide)]; rfl

/-- The message is read as the first part. -/
theorem part?_message (primaryType : String) {primary line : Bytes} {delimiter : Delimiter}
    (hprimary : IsPlain boundary primary) (hline : delimiter? boundary line = some delimiter)
    (rest : List Bytes) :
    part? boundary (headerLines (messageHeaders primaryType) ++ [] ::
        (lines primary ++ line :: rest)) =
      some (⟨(messageHeaders primaryType).map readAs, primary⟩, delimiter, rest) := by
  have hencoding : Headers.encoding ((messageHeaders primaryType).map readAs) = .ok .plain := by
    have hread : (messageHeaders primaryType).map readAs =
        [readAs ("Content-Type", primaryType),
          readAs ("Content-Transfer-Encoding", TransferEncoding.binary.name)] := rfl
    have hget : Headers.get? ((messageHeaders primaryType).map readAs)
        "content-transfer-encoding" = some TransferEncoding.binary.name := by
      rw [hread, readAs_contentType, readAs_encoding]
      rfl
    exact encoding_of_get? hget
  exact part?_of_lines isName_of_mem_messageHeaders hencoding hprimary rfl hline rest

/-- The headers of an attachment are read with its id. -/
theorem map_readAs_attachmentHeaders (id : String) :
    (f.attachmentHeaders id).map readAs =
      [("content-type", "application/octet-stream"),
        ("content-transfer-encoding", f.encoding.name), ("content-id", "<" ++ id ++ ">")] := by
  have hread : (f.attachmentHeaders id).map readAs =
      [readAs ("Content-Type", "application/octet-stream"),
        readAs ("Content-Transfer-Encoding", f.encoding.name),
        readAs ("Content-ID", "<" ++ id ++ ">")] := rfl
  rw [hread, readAs_encoding, readAs_id]
  refine congrArg (· :: _) ?_
  decide

theorem encoding_attachmentHeaders (id : String) :
    Headers.encoding ((f.attachmentHeaders id).map readAs) = .ok (readingOf f.encoding) := by
  have hget : Headers.get? ((f.attachmentHeaders id).map readAs) "content-transfer-encoding" =
      some f.encoding.name := by
    rw [map_readAs_attachmentHeaders]
    rfl
  exact encoding_of_get? hget

theorem contentId?_attachmentHeaders (id : String) :
    Headers.contentId? ((f.attachmentHeaders id).map readAs) = some id := by
  have hget : Headers.get? ((f.attachmentHeaders id).map readAs) "content-id" =
      some ("<" ++ id ++ ">") := by
    rw [map_readAs_attachmentHeaders]
    rfl
  have hwithout : Headers.withoutBrackets ('<' :: id.toList ++ ['>']) = id.toList := by
    show (if (id.toList ++ ['>']).getLast? = some '>' then (id.toList ++ ['>']).dropLast else _) = _
    rw [List.getLast?_concat, if_pos rfl, List.dropLast_concat]
  rw [Headers.contentId?, hget, Option.map_some, toList_bracketed,
    Text.trimChars_between (by decide) (by decide), hwithout, String.ofList_toList]

/-! ### Contents -/

/-- Separators that are dropped do not matter. -/
theorem filter_intercalate {α : Type} {p : α → Bool} {separator : List α}
    (h : separator.filter p = []) (pieces : List (List α)) :
    (separator.intercalate pieces).filter p = (pieces.map (List.filter p)).flatten := by
  induction pieces with
  | nil => rfl
  | cons piece rest ih =>
    cases rest with
    | nil => simp
    | cons next rest =>
      rw [List.intercalate_cons_cons, List.filter_append, List.filter_append, h, ih,
        List.append_nil, List.map_cons (l := next :: rest), List.flatten_cons]

/-- The text of base64 lines is the text of all bytes, broken by blanks. -/
theorem filter_base64 (bytes : Bytes) :
    (("\r\n".intercalate (Base64.encodeChunks bytesPerLine bytes)).toList.filter fun c =>
      !Text.isAsciiBlank c) = Base64.encode bytes := by
  have hchunk (chunk : Bytes) : ((Base64.encode chunk).filter fun c => !Text.isAsciiBlank c) =
      Base64.encode chunk := by
    rw [List.filter_eq_self]
    intro c hc
    rw [Base64.isAsciiBlank_of_mem_encode hc]
    rfl
  rw [String.toList_intercalate, filter_intercalate (by decide), List.map_map,
    Base64.encodeChunks, List.map_map]
  have hmap : (Base64.chunks bytesPerLine bytes).map
      ((List.filter fun c => !Text.isAsciiBlank c) ∘ String.toList ∘ fun c =>
        String.ofList (Base64.encode c)) =
      (Base64.chunks bytesPerLine bytes).map Base64.encode := by
    refine List.map_congr_left fun chunk _ => ?_
    show ((String.ofList (Base64.encode chunk)).toList.filter _) = _
    rw [String.toList_ofList, hchunk]
  exact (congrArg List.flatten hmap).trans (Base64.encode_chunks (by decide) (by decide) bytes)

/-- What is written for a content is decoded to it. -/
theorem decode?_encoded (encoding : TransferEncoding) (bytes : Bytes) :
    (readingOf encoding).decode? (encoded encoding bytes) = some bytes := by
  cases encoding with
  | binary => rfl
  | base64 =>
    show (Utf8.decode? (Utf8.encode _)).bind _ = _
    rw [Utf8.decode?_encode, Option.bind_some, filter_base64, Base64.decode?_encode]

/-- In base64 no line is a delimiter: there is no hyphen. -/
theorem isPlain_base64 (bytes : Bytes) : IsPlain boundary (encoded .base64 bytes) := by
  intro line hline
  cases hd : delimiter? boundary line with
  | none => rfl
  | some delimiter =>
    have hsome : delimiter? boundary line ≠ none := by
      rw [hd]
      nofun
    have hhead := head?_of_delimiter? hsome
    have hbytes : UInt8.ofNat 0x2D ∈ encoded .base64 bytes :=
      mem_of_mem_lines hline (List.mem_of_mem_head? hhead)
    rw [encoded, Utf8.ofString, Utf8.mem_encode_iff (by decide)] at hbytes
    have hletter : Char.ofNat 0x2D ∈ Base64.encode bytes := by
      rw [← filter_base64, List.mem_filter]
      exact ⟨hbytes, by decide⟩
    have hnone := Base64.decode?_eq_none_of_mem hletter (by decide) (by decide)
    rw [Base64.decode?_encode] at hnone
    cases hnone

/-! ### Delimiters -/

/-- The last byte of a text is no padding unless the last character is. -/
theorem exists_concat_ofString {s : String} (hs : s ≠ "")
    (hlast : s.toList.getLast? ≠ some ' ' ∧ s.toList.getLast? ≠ some '\t') :
    ∃ front b, Utf8.ofString s = front ++ [b] ∧ isPadding b = false := by
  have hne : s.toList ≠ [] := by simpa using hs
  have hchars := List.dropLast_concat_getLast hne
  generalize s.toList.dropLast = cs at hchars
  generalize s.toList.getLast hne = c at hchars
  rw [← hchars, List.getLast?_concat] at hlast
  rw [Utf8.ofString, ← hchars, Utf8.encode_append, Utf8.encode_cons, Utf8.encode_nil,
    List.append_nil]
  rcases Utf8.encodeChar_cases c with ⟨hlt, he⟩ | ⟨-, hlarge⟩
  · refine ⟨Utf8.encode cs, UInt8.ofNat c.toNat, by rw [he], ?_⟩
    have hval : (UInt8.ofNat c.toNat).toNat = c.toNat := by
      rw [UInt8.toNat_ofNat']
      omega
    rw [isPadding, Bool.or_eq_false_iff, beq_eq_false_iff_ne, beq_eq_false_iff_ne]
    constructor
    · intro hb
      rw [hb] at hval
      exact hlast.1 (congrArg some (Char.toNat_inj.1 hval.symm))
    · intro hb
      rw [hb] at hval
      exact hlast.2 (congrArg some (Char.toNat_inj.1 hval.symm))
  · obtain ⟨b, bs, hb⟩ := Utf8.exists_encodeChar_eq_cons c
    have hnil : String.utf8EncodeChar c ≠ [] := by
      rw [hb]
      exact List.cons_ne_nil b bs
    have hmem := hlarge _ (List.getLast_mem hnil)
    refine ⟨Utf8.encode cs ++ (String.utf8EncodeChar c).dropLast,
      (String.utf8EncodeChar c).getLast hnil, ?_, ?_⟩
    · rw [List.append_assoc, List.dropLast_concat_getLast]
    · generalize (String.utf8EncodeChar c).getLast hnil = last at hmem
      rw [isPadding, Bool.or_eq_false_iff, beq_eq_false_iff_ne, beq_eq_false_iff_ne]
      constructor
      · rintro rfl
        exact absurd hmem (by decide)
      · rintro rfl
        exact absurd hmem (by decide)

theorem Proper.delimiter?_nextLine (h : f.Proper) :
    delimiter? (Utf8.ofString f.boundary) (nextLine (Utf8.ofString f.boundary)) = some .next := by
  obtain ⟨front, b, he, hb⟩ := exists_concat_ofString h.ne_empty h.no_padding
  exact Multipart.delimiter?_nextLine he hb

/-! ### The body -/

/-- What an attachment is read as. -/
def partOf (f : Framing) (content : String × Bytes) : Part :=
  ⟨(f.attachmentHeaders content.1).map readAs, content.2⟩

/-- An attachment is read as a part. -/
theorem part?_attachment (content : String × Bytes) {line : Bytes} {delimiter : Delimiter}
    (hplain : IsPlain boundary (encoded f.encoding content.2))
    (hline : delimiter? boundary line = some delimiter) (rest : List Bytes) :
    part? boundary (headerLines (f.attachmentHeaders content.1) ++ [] ::
        (lines (encoded f.encoding content.2) ++ line :: rest)) =
      some (f.partOf content, delimiter, rest) :=
  part?_of_lines isName_of_mem_attachmentHeaders (encoding_attachmentHeaders content.1) hplain
    (decode?_encoded f.encoding content.2) hline rest

/-- The parts of a body: one that is read from the lines in front, and the attachments. -/
theorem parts?_attachmentsLines (h : f.Proper) {contents : List (String × Bytes)} {front : List Bytes} {part : Part}
    (hpart : ∀ line delimiter rest, delimiter? (Utf8.ofString f.boundary) line = some delimiter →
      part? (Utf8.ofString f.boundary) (front ++ line :: rest) = some (part, delimiter, rest))
    (hplain : ∀ content ∈ contents,
      IsPlain (Utf8.ofString f.boundary) (encoded f.encoding content.2)) :
    parts? (Utf8.ofString f.boundary) (front ++ (f.attachmentsLines contents ++
        [terminalLine (Utf8.ofString f.boundary), []])) =
      some (part :: contents.map f.partOf) := by
  induction contents generalizing front part with
  | nil =>
    rw [parts?_eq, attachmentsLines, List.nil_append,
      hpart _ _ _ (delimiter?_terminalLine (Utf8.ofString f.boundary))]
    rfl
  | cons content contents ih =>
    have hattachment : ∀ line delimiter rest,
        delimiter? (Utf8.ofString f.boundary) line = some delimiter →
        part? (Utf8.ofString f.boundary) ((headerLines (f.attachmentHeaders content.1) ++ [] ::
          lines (encoded f.encoding content.2)) ++ line :: rest) =
            some (f.partOf content, delimiter, rest) := by
      intro line delimiter rest hline
      rw [List.append_assoc, List.cons_append]
      exact part?_attachment content (hplain content List.mem_cons_self) hline rest
    have hrest := ih hattachment fun c hc => hplain c (List.mem_cons_of_mem content hc)
    rw [parts?_eq, attachmentsLines, List.cons_append, hpart _ _ _ h.delimiter?_nextLine, Option.bind_some]
    dsimp only
    rw [List.append_assoc, List.cons_append] at hrest
    rw [List.append_assoc, List.cons_append, List.append_assoc, hrest]
    rfl

/-- Only the delimiters between attachments are delimiters. -/
theorem eq_nextLine_of_mem_attachmentsLines {contents : List (String × Bytes)}
    (hplain : ∀ content ∈ contents,
      IsPlain (Utf8.ofString f.boundary) (encoded f.encoding content.2)) :
    ∀ line ∈ f.attachmentsLines contents, delimiter? (Utf8.ofString f.boundary) line ≠ none →
      line = nextLine (Utf8.ofString f.boundary) := by
  induction contents with
  | nil =>
    intro line hline
    cases hline
  | cons content contents ih =>
    intro line hline hd
    rw [attachmentsLines, List.mem_cons, List.mem_append, List.mem_cons, List.mem_append] at hline
    rcases hline with rfl | hheader | rfl | hcontent | hrest
    · rfl
    · obtain ⟨header, hmem, rfl⟩ := List.mem_map.1 hheader
      exact absurd (delimiter?_headerLine (isName_of_mem_attachmentHeaders header hmem) _) hd
    · exact absurd (head?_of_delimiter? hd).symm (Option.some_ne_none _)
    · exact absurd (hplain content List.mem_cons_self line hcontent) hd
    · exact ih (fun c hc => hplain c (List.mem_cons_of_mem content hc)) line hrest hd

/-- The delimiters of a body fit into every buffer. -/
theorem delimitersFit_body (limits : Limits) (primaryType : String) {primary : Bytes}
    {contents : List (String × Bytes)} (hprimary : IsPlain (Utf8.ofString f.boundary) primary)
    (hplain : ∀ content ∈ contents,
      IsPlain (Utf8.ofString f.boundary) (encoded f.encoding content.2)) :
    DelimitersFit (limits.capacity (Utf8.ofString f.boundary)) (Utf8.ofString f.boundary)
      (nextLine (Utf8.ofString f.boundary) :: f.bodyLines primaryType primary contents) := by
  have hnext : (nextLine (Utf8.ofString f.boundary)).length <
      limits.capacity (Utf8.ofString f.boundary) := by
    unfold Limits.capacity nextLine hyphens
    simp only [List.length_append, List.length_cons, List.length_nil]
    omega
  have hterminal : (terminalLine (Utf8.ofString f.boundary)).length <
      limits.capacity (Utf8.ofString f.boundary) := by
    unfold Limits.capacity terminalLine hyphens
    simp only [List.length_append, List.length_cons, List.length_nil]
    omega
  intro line hline hd
  rw [List.mem_cons, bodyLines, List.mem_append, List.mem_cons, List.mem_append, List.mem_append,
    List.mem_cons, List.mem_singleton] at hline
  rcases hline with rfl | hheader | rfl | hmessage | hattachment | rfl | rfl
  · exact hnext
  · obtain ⟨header, hmem, rfl⟩ := List.mem_map.1 hheader
    exact absurd (delimiter?_headerLine (isName_of_mem_messageHeaders header hmem) _) hd
  · exact absurd (head?_of_delimiter? hd).symm (Option.some_ne_none _)
  · exact absurd (hprimary line hmessage) hd
  · rw [eq_nextLine_of_mem_attachmentsLines hplain line hattachment hd]
    exact hnext
  · exact hterminal
  · exact absurd (head?_of_delimiter? hd).symm (Option.some_ne_none _)

/-- The attachments keep their ids, none of which is empty. -/
theorem attachments_map_partOf (nonces : Nonces) {contents : List (String × Bytes)}
    (hids : ∀ content ∈ contents, content.1 ≠ "") :
    attachments nonces (contents.map f.partOf) (contents.map Prod.fst) =
      contents.map fun content => ⟨content.1, .memory content.2⟩ := by
  induction contents generalizing nonces with
  | nil => rfl
  | cons content contents ih =>
    have hid : content.1.isEmpty = false := by
      simpa using hids content List.mem_cons_self
    rw [List.map_cons, List.map_cons, List.map_cons, attachments_cons,
      ih nonces.next.2 fun c hc => hids c (List.mem_cons_of_mem content hc), Binary.withId, hid]
    rfl

/-- The unbuffered reader gives the message and the attachments. -/
theorem envelope?_body (h : f.Proper) (nonces : Nonces) {maxParts : Nat} {primaryType : String}
    {primary body : Bytes} {contents : List (String × Bytes)}
    (hlines : lines body =
      nextLine (Utf8.ofString f.boundary) :: f.bodyLines primaryType primary contents)
    (hprimary : IsPlain (Utf8.ofString f.boundary) primary)
    (hplain : ∀ content ∈ contents,
      IsPlain (Utf8.ofString f.boundary) (encoded f.encoding content.2))
    (hids : ∀ content ∈ contents, content.1 ≠ "") (hnodup : (contents.map Prod.fst).Nodup)
    (hparts : contents.length + 1 ≤ maxParts) :
    ∃ primaryType' nonces', envelope? maxParts (Utf8.ofString f.boundary) nonces body =
      some (⟨.ofBytes primary, primaryType',
        contents.map fun content => ⟨content.1, .memory content.2⟩, true⟩, nonces') := by
  have hcut : cutAtDelimiter (Utf8.ofString f.boundary) (lines body) =
      some ([], .next, f.bodyLines primaryType primary contents) := by
    rw [hlines, cutAtDelimiter, h.delimiter?_nextLine]
  have hmessage : ∀ line delimiter rest,
      delimiter? (Utf8.ofString f.boundary) line = some delimiter →
      part? (Utf8.ofString f.boundary) ((headerLines (messageHeaders primaryType) ++ [] ::
        lines primary) ++ line :: rest) =
          some (⟨(messageHeaders primaryType).map readAs, primary⟩, delimiter, rest) := by
    intro line delimiter rest hline
    rw [List.append_assoc, List.cons_append]
    exact part?_message primaryType hprimary hline rest
  have hall := parts?_attachmentsLines h hmessage hplain
  rw [List.append_assoc, List.cons_append] at hall
  have hmapM : (contents.map f.partOf).mapM (fun part : Part => part.headers.contentId?) =
      some (contents.map Prod.fst) := by
    clear hall hmessage hcut hlines hplain hids hnodup hparts
    induction contents with
    | nil => rfl
    | cons content contents ih =>
      rw [List.map_cons, List.mapM_cons, ih]
      show (Headers.contentId? ((f.attachmentHeaders content.1).map readAs)).bind _ = _
      rw [contentId?_attachmentHeaders]
      rfl
  have hbody : bodyParts? maxParts (Utf8.ofString f.boundary) body =
      some (⟨(messageHeaders primaryType).map readAs, primary⟩ :: contents.map f.partOf) := by
    unfold bodyParts?
    rw [hcut]
    show (if Delimiter.next = .next then (parts? _ _).bind _ else none) = _
    rw [if_pos rfl, bodyLines, hall, Option.bind_some, if_pos (by simpa using hparts)]
  have hattachments : attachments? nonces (contents.map f.partOf) =
      some (contents.map fun content => ⟨content.1, .memory content.2⟩,
        ⟨nonces.used + (contents.map f.partOf).length⟩) := by
    unfold attachments?
    rw [hmapM]
    show (if _ then _ else none) = _
    rw [if_pos hnodup, attachments_map_partOf nonces hids]
  unfold envelope?
  rw [hbody]
  show ∃ _ _, (attachments? nonces (contents.map f.partOf)).bind _ = _
  rw [hattachments]
  exact ⟨_, _, rfl⟩

/-! ### The round trip -/

/-- The contents have the ids and the bytes of the attachments. -/
theorem map_of_contents? {files : Files} {attachments : List Binary}
    {contents : List (String × Bytes)} (h : contents? files attachments = some contents) :
    attachments.map (fun b => (b.id, b.bytes? files)) =
      contents.map fun content => (content.1, some content.2) := by
  induction attachments generalizing contents with
  | nil =>
    cases h
    rfl
  | cons b attachments ih =>
    rw [contents?, List.mapM_cons] at h
    obtain ⟨content, hcontent, h⟩ := Option.bind_eq_some_iff.1 h
    obtain ⟨rest, hrest, h⟩ := Option.bind_eq_some_iff.1 h
    obtain ⟨bytes, hbytes, rfl⟩ := Option.map_eq_some_iff.1 hcontent
    cases h
    rw [List.map_cons, List.map_cons, ih hrest, hbytes]

/-- Attachments that can be read have contents. -/
theorem exists_contents {files : Files} {attachments : List Binary}
    (h : ∀ b ∈ attachments, (b.bytes? files).isSome) :
    ∃ contents, contents? files attachments = some contents := by
  induction attachments with
  | nil => exact ⟨[], rfl⟩
  | cons b attachments ih =>
    obtain ⟨rest, hrest⟩ := ih fun b' hb' => h b' (List.mem_cons_of_mem b hb')
    obtain ⟨bytes, hbytes⟩ := Option.isSome_iff_exists.1 (h b List.mem_cons_self)
    refine ⟨(b.id, bytes) :: rest, ?_⟩
    rw [contents?, List.mapM_cons, hbytes, ← contents?, hrest]
    rfl

/-- **A body is read as it was written.** Whatever the buffer holds, the message comes back with its
bytes, and the attachments come back in order with their ids and their bytes. -/
theorem read_write {f : Framing} (hf : f.Proper) {files : Files} {attachments : List Binary}
    {primary : Bytes} {rootType primaryType : String} {limits : Limits} (nonces : Nonces)
    (hroot : '"' ∉ rootType.toList) (htype : '\r' ∉ primaryType.toList)
    (hreadable : ∀ b ∈ attachments, (b.bytes? files).isSome)
    (hid : ∀ b ∈ attachments, b.id ≠ "" ∧ ¬['\r', '\n'] <:+: b.id.toList)
    (hnodup : (attachments.map Binary.id).Nodup)
    (hparts : attachments.length + 1 ≤ limits.maxParts)
    (hprimary : IsPlain (Utf8.ofString f.boundary) primary)
    (hplain : f.encoding = .binary → ∀ b ∈ attachments, ∀ bytes, b.bytes? files = some bytes →
      IsPlain (Utf8.ofString f.boundary) bytes) :
    ∃ body envelope nonces', f.write files none primary primaryType attachments = .ok body ∧
      Envelope.read limits (f.contentType rootType) nonces (.ofBytes body) =
        .ok (envelope, nonces') ∧
      envelope.isMultipart = true ∧ envelope.primary = .ofBytes primary ∧
      envelope.attachments.map Binary.id = attachments.map Binary.id ∧
      ∀ files', envelope.attachments.map (Binary.bytes? files') =
        attachments.map (Binary.bytes? files) := by
  obtain ⟨contents, hcontents⟩ := exists_contents hreadable
  have hmap := map_of_contents? hcontents
  have hids : contents.map Prod.fst = attachments.map Binary.id := by
    have h := congrArg (List.map Prod.fst) hmap
    rw [List.map_map, List.map_map] at h
    exact h.symm
  have hbytes : contents.map (fun content => some content.2) =
      attachments.map (Binary.bytes? files) := by
    have h := congrArg (List.map Prod.snd) hmap
    rw [List.map_map, List.map_map] at h
    exact h.symm
  have hfrom : ∀ content ∈ contents, ∃ b ∈ attachments, b.id = content.1 ∧
      b.bytes? files = some content.2 := by
    intro content hmem
    have h : (content.1, some content.2) ∈ attachments.map fun b => (b.id, b.bytes? files) := by
      rw [hmap]
      exact List.mem_map_of_mem hmem
    obtain ⟨b, hb, he⟩ := List.mem_map.1 h
    exact ⟨b, hb, congrArg Prod.fst he, congrArg Prod.snd he⟩
  have hcontentPlain : ∀ content ∈ contents,
      IsPlain (Utf8.ofString f.boundary) (encoded f.encoding content.2) := by
    intro content hmem
    obtain ⟨b, hb, -, hread⟩ := hfrom content hmem
    cases hencoding : f.encoding with
    | binary => exact hplain hencoding b hb content.2 hread
    | base64 => exact isPlain_base64 content.2
  have hcontentIds : ∀ content ∈ contents, content.1 ≠ "" ∧ ¬['\r', '\n'] <:+: content.1.toList := by
    intro content hmem
    obtain ⟨b, hb, he, -⟩ := hfrom content hmem
    rw [← he]
    exact hid b hb
  have hlength : contents.length = attachments.length := by
    have h := congrArg List.length hids
    rwa [List.length_map, List.length_map] at h
  have hwrite : f.write files none primary primaryType attachments =
      .ok (nextLine (Utf8.ofString f.boundary) ++
        (f.bodyPieces primaryType primary contents).flatMap (crlf ++ ·)) := by
    rw [write, render?_eq, hcontents]
    rfl
  have hlines := lines_body hf primary htype fun content hmem => (hcontentIds content hmem).2
  obtain ⟨primaryType', nonces', henvelope⟩ := envelope?_body hf nonces hlines hprimary
    hcontentPlain (fun content hmem => (hcontentIds content hmem).1) (hids ▸ hnodup)
    (hlength ▸ hparts)
  have hfit := delimitersFit_body limits primaryType hprimary hcontentPlain
  rw [← hlines] at hfit
  have hread := read_follows nonces
    (Framing.relatedBoundary?_contentType hf.ne_empty hf.no_quote hroot) hfit
  rw [henvelope] at hread
  refine ⟨_, _, nonces', hwrite, hread, rfl, rfl, ?_, fun files' => ?_⟩
  · rw [List.map_map, ← hids]
    rfl
  · rw [List.map_map, ← hbytes]
    rfl

/-- A message of line breaks and an attachment with a line that only looks like a delimiter. -/
theorem read_write_breaks :
    Proper ⟨"b", .binary⟩ ∧
    IsPlain (Utf8.ofString "b") [13, 10, 13] ∧ IsPlain (Utf8.ofString "b") [45, 45, 98, 120, 10] ∧
    ∃ body envelope nonces', write .none none ⟨"b", .binary⟩ [13, 10, 13] "text/xml"
        [⟨"a", .memory [45, 45, 98, 120, 10]⟩] = .ok body ∧
      Envelope.read ⟨0, 2⟩ (contentType ⟨"b", .binary⟩ "text/xml") .fresh (.ofBytes body) =
        .ok (envelope, nonces') ∧
      envelope.isMultipart = true ∧ envelope.primary = .ofBytes [13, 10, 13] ∧
      envelope.attachments.map Binary.id = ["a"] ∧
      ∀ files', envelope.attachments.map (Binary.bytes? files') =
        [some [45, 45, 98, 120, 10]] := by
  have hproper : Proper ⟨"b", .binary⟩ :=
    ⟨by decide, by decide, by decide, by decide⟩
  have hmessage : IsPlain (Utf8.ofString "b") [13, 10, 13] := by
    unfold IsPlain
    decide
  have hattachment : IsPlain (Utf8.ofString "b") [45, 45, 98, 120, 10] := by
    unfold IsPlain
    decide
  refine ⟨hproper, hmessage, hattachment, read_write hproper .fresh (by decide)
    (by decide) ?_ ?_ (by decide) (by decide) hmessage fun _ => ?_⟩
  · simp only [List.mem_singleton, forall_eq]
    rfl
  · simp only [List.mem_singleton, forall_eq]
    decide
  · simp only [List.mem_singleton, forall_eq]
    rintro bytes hbytes
    cases hbytes
    exact hattachment

end Framing
end SoapBinding.Multipart
