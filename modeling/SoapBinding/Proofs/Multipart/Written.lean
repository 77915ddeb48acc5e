import SoapBinding.Multipart.Framing
import SoapBinding.Proofs.Base64.RoundTrip
import SoapBinding.Proofs.Multipart.Delimiters

/-!
# The lines of a written body

A written body is a row of pieces with a line break in front of each: delimiters, header lines, empty
lines and contents (`render?_eq_pieces`). Its lines are those of the pieces, and none but the delimiters
is a delimiter, provided that none of the contents written as they are holds one.
-/

namespace SoapBinding.Multipart.Framing

/-! ### Pieces -/

/-- A header, written as a line. -/
def headerLine (name value : String) : Bytes := Utf8.ofString (name ++ ": " ++ value)

/-- Headers, written as lines. -/
def headerLines (headers : List (String × String)) : List Bytes :=
  headers.map fun header => headerLine header.1 header.2

/-- The headers of the message. -/
def messageHeaders (primaryType : String) : List (String × String) :=
  [("Content-Type", primaryType), ("Content-Transfer-Encoding", "binary")]

/-- The headers of an attachment. -/
def attachmentHeaders (f : Framing) (id : String) : List (String × String) :=
  [("Content-Type", "application/octet-stream"), ("Content-Transfer-Encoding", f.encoding.name),
    ("Content-ID", "<" ++ id ++ ">")]

/-- The pieces of the message, behind the first delimiter. -/
def messagePieces (primaryType : String) (primary : Bytes) : List Bytes :=
  headerLines (messageHeaders primaryType) ++ [[], primary]

/-- The pieces of attachments with ids and bytes. -/
def attachmentsPieces (f : Framing) : List (String × Bytes) → List Bytes
  | [] => []
  | (id, bytes) :: rest =>
    nextLine (Utf8.ofString f.boundary) :: headerLines (f.attachmentHeaders id) ++
      [[], encoded f.encoding bytes] ++ f.attachmentsPieces rest

/-- The pieces of a body behind the first delimiter. -/
def bodyPieces (f : Framing) (primaryType : String) (primary : Bytes)
    (contents : List (String × Bytes)) : List Bytes :=
  messagePieces primaryType primary ++ f.attachmentsPieces contents ++
    [terminalLine (Utf8.ofString f.boundary), []]

variable {f : Framing}

theorem ofString_crlf : Utf8.ofString "\r\n" = crlf := rfl

theorem ofString_hyphens (s : String) : Utf8.ofString ("--" ++ s) = nextLine (Utf8.ofString s) :=
  Utf8.ofString_append "--" s

/-- A header behind a line break. -/
theorem ofString_header (front name value : String) (h : front = "\r\n" ++ (name ++ ": ")) :
    Utf8.ofString (front ++ value) = crlf ++ headerLine name value := by
  rw [h, headerLine, String.append_assoc, Utf8.ofString_append "\r\n", ofString_crlf]

/-- The opening and the message are the first pieces. -/
theorem opening_append (primaryType : String) (primary : Bytes) :
    f.opening primaryType ++ primary =
      nextLine (Utf8.ofString f.boundary) ++
        (messagePieces primaryType primary).flatMap (crlf ++ ·) := by
  have hopening : f.opening primaryType = Utf8.ofString ("--" ++ f.boundary) ++
      (Utf8.ofString ("\r\nContent-Type: " ++ primaryType) ++
        Utf8.ofString "\r\nContent-Transfer-Encoding: binary\r\n\r\n") := by
    rw [← Utf8.ofString_append, ← Utf8.ofString_append]
    refine congrArg Utf8.ofString ?_
    simp only [String.append_assoc]
  have hempty : Utf8.ofString "\r\nContent-Transfer-Encoding: binary\r\n\r\n" =
      crlf ++ headerLine "Content-Transfer-Encoding" "binary" ++ (crlf ++ crlf) := by
    have hjoin : "\r\nContent-Transfer-Encoding: binary\r\n\r\n" =
      "\r\nContent-Transfer-Encoding: " ++ "binary" ++ ("\r\n" ++ "\r\n") := rfl
    rw [hjoin, Utf8.ofString_append,
      ofString_header "\r\nContent-Transfer-Encoding: " "Content-Transfer-Encoding" _ rfl,
      Utf8.ofString_append, ofString_crlf]
  rw [hopening, ofString_hyphens, ofString_header "\r\nContent-Type: " "Content-Type" _ rfl, hempty]
  simp only [messagePieces, messageHeaders, headerLines, List.map_cons, List.map_nil,
    List.flatMap_append, List.flatMap_cons, List.flatMap_nil, List.append_assoc, List.append_nil]

/-- The opening of a part and its content are the pieces of an attachment. -/
theorem partOpening_append (id : String) (bytes : Bytes) :
    f.partOpening id ++ bytes =
      (nextLine (Utf8.ofString f.boundary) :: headerLines (f.attachmentHeaders id) ++ [[], bytes]).flatMap
        (crlf ++ ·) := by
  have hopening : f.partOpening id = Utf8.ofString "\r\n" ++
      (Utf8.ofString ("--" ++ f.boundary) ++
      (Utf8.ofString "\r\nContent-Type: application/octet-stream" ++
      (Utf8.ofString ("\r\nContent-Transfer-Encoding: " ++ f.encoding.name) ++
      (Utf8.ofString ("\r\nContent-ID: " ++ ("<" ++ id ++ ">")) ++ Utf8.ofString "\r\n\r\n")))) := by
    have hjoin : f.partOpening id = Utf8.ofString ("\r\n--" ++ f.boundary ++
      "\r\nContent-Type: application/octet-stream" ++ "\r\nContent-Transfer-Encoding: " ++
      f.encoding.name ++ "\r\nContent-ID: <" ++ id ++ ">\r\n\r\n") := rfl
    have hfront : "\r\n--" = "\r\n" ++ "--" := rfl
    have hid : "\r\nContent-ID: <" = "\r\nContent-ID: " ++ "<" := rfl
    have hend : ">\r\n\r\n" = ">" ++ "\r\n\r\n" := rfl
    simp only [← Utf8.ofString_append]
    rw [hjoin, hfront, hid, hend]
    refine congrArg Utf8.ofString ?_
    simp only [String.append_assoc]
  have htype : Utf8.ofString "\r\nContent-Type: application/octet-stream" =
      crlf ++ headerLine "Content-Type" "application/octet-stream" :=
    ofString_header "\r\nContent-Type: " "Content-Type" "application/octet-stream" rfl
  have hempty : Utf8.ofString "\r\n\r\n" = crlf ++ crlf := Utf8.ofString_append "\r\n" "\r\n"
  rw [hopening, ofString_hyphens, ofString_crlf, htype, hempty,
    ofString_header "\r\nContent-Transfer-Encoding: " "Content-Transfer-Encoding" _ rfl,
    ofString_header "\r\nContent-ID: " "Content-ID" _ rfl]
  simp only [attachmentHeaders, headerLines, List.map_cons, List.map_nil, List.flatMap_cons,
    List.flatMap_nil, List.append_assoc, List.append_nil, List.cons_append, List.nil_append]

/-- The closing is the last pieces. -/
theorem closing_eq :
    f.closing = [terminalLine (Utf8.ofString f.boundary), []].flatMap (crlf ++ ·) := by
  have hjoin : f.closing = Utf8.ofString "\r\n" ++ (Utf8.ofString ("--" ++ f.boundary) ++
      (Utf8.ofString "--" ++ Utf8.ofString "\r\n")) := by
    have hfront : "\r\n--" = "\r\n" ++ "--" := rfl
    have hend : "--\r\n" = "--" ++ "\r\n" := rfl
    show Utf8.ofString ("\r\n--" ++ f.boundary ++ "--\r\n") = _
    simp only [← Utf8.ofString_append]
    rw [hfront, hend]
    refine congrArg Utf8.ofString ?_
    simp only [String.append_assoc]
  have hhyphens : Utf8.ofString "--" = hyphens := rfl
  rw [hjoin, ofString_hyphens, ofString_crlf, hhyphens]
  simp only [terminalLine, nextLine, List.flatMap_cons, List.flatMap_nil, List.append_assoc,
    List.append_nil]

/-! ### The body -/

/-- The attachments with the bytes that are read for them. -/
def contents? (files : Files) (attachments : List Binary) : Option (List (String × Bytes)) :=
  attachments.mapM fun b => (b.bytes? files).map fun bytes => (b.id, bytes)

theorem renderAttachments_eq (files : Files) (attachments : List Binary) :
    renderAttachments files f attachments =
      (contents? files attachments).map fun contents =>
        (f.attachmentsPieces contents).flatMap (crlf ++ ·) := by
  induction attachments with
  | nil => rfl
  | cons b rest ih =>
    rw [renderAttachments, contents?, List.mapM_cons, ih]
    cases b.bytes? files with
    | none => rfl
    | some bytes =>
      show ((contents? files rest).map _).bind _ = Option.map _ ((contents? files rest).bind _)
      cases contents? files rest with
      | none => rfl
      | some contents =>
        show some (f.partOpening b.id ++ encoded f.encoding bytes ++ _) = some _
        rw [partOpening_append, ← List.flatMap_append]
        rfl

/-- A body is a delimiter and pieces with a line break in front of each. -/
theorem render?_eq (files : Files) (primary : Bytes) (primaryType : String)
    (attachments : List Binary) :
    f.render? files primary primaryType attachments =
      (contents? files attachments).map fun contents =>
        nextLine (Utf8.ofString f.boundary) ++
          (f.bodyPieces primaryType primary contents).flatMap (crlf ++ ·) := by
  unfold render?
  rw [renderAttachments_eq]
  cases contents? files attachments with
  | none => rfl
  | some contents =>
    refine congrArg some ?_
    show f.opening primaryType ++ primary ++ (f.attachmentsPieces contents).flatMap (crlf ++ ·) ++
      f.closing = nextLine (Utf8.ofString f.boundary) ++
        (f.bodyPieces primaryType primary contents).flatMap (crlf ++ ·)
    rw [opening_append, closing_eq, bodyPieces, List.flatMap_append, List.flatMap_append,
      List.append_assoc, List.append_assoc, List.append_assoc]

/-! ### Lines -/

/-- A boundary that can be written: it is not empty, stands in one line and between quotes, and no
padding ends it. -/
structure Proper (f : Framing) : Prop where
  /-- There is a boundary. -/
  ne_empty : f.boundary ≠ ""
  /-- It can stand between quotes. -/
  no_quote : '"' ∉ f.boundary.toList
  /-- It stands in one line. -/
  no_break : '\r' ∉ f.boundary.toList
  /-- It does not end in padding. -/
  no_padding : f.boundary.toList.getLast? ≠ some ' ' ∧ f.boundary.toList.getLast? ≠ some '\t'

/-- Bytes none of whose lines is a delimiter. -/
def IsPlain (boundary bytes : Bytes) : Prop := ∀ line ∈ lines bytes, delimiter? boundary line = none

/-- A text without a carriage return has no line break. -/
theorem not_infix_of_not_mem {cs : List Char} (h : '\r' ∉ cs) : ¬['\r', '\n'] <:+: cs :=
  fun hsub => h (hsub.subset List.mem_cons_self)

theorem lines_ofString_of_not_mem {s : String} (h : '\r' ∉ s.toList) :
    lines (Utf8.ofString s) = [Utf8.ofString s] :=
  lines_ofString (not_infix_of_not_mem h)

theorem lines_nextLine (h : f.Proper) :
    lines (nextLine (Utf8.ofString f.boundary)) = [nextLine (Utf8.ofString f.boundary)] := by
  rw [← ofString_hyphens]
  refine lines_ofString_of_not_mem ?_
  rw [String.toList_append, List.mem_append, not_or]
  exact ⟨by decide, h.no_break⟩

theorem lines_terminalLine (h : f.Proper) :
    lines (terminalLine (Utf8.ofString f.boundary)) =
      [terminalLine (Utf8.ofString f.boundary)] := by
  have he : terminalLine (Utf8.ofString f.boundary) = Utf8.ofString ("--" ++ f.boundary ++ "--") := by
    rw [Utf8.ofString_append, ofString_hyphens, show Utf8.ofString "--" = hyphens from rfl]
    rfl
  rw [he]
  refine lines_ofString_of_not_mem ?_
  rw [String.toList_append, String.toList_append, List.mem_append, List.mem_append, not_or, not_or]
  exact ⟨⟨by decide, h.no_break⟩, by decide⟩

/-- A header is one line if its name and its value are. -/
theorem lines_headerLine {name value : String} (hname : '\r' ∉ name.toList)
    (hvalue : ¬['\r', '\n'] <:+: value.toList) :
    lines (headerLine name value) = [headerLine name value] := by
  refine lines_of_not_infix fun hsub => hvalue (crlf_infix_of_encode ?_)
  rw [headerLine, Utf8.ofString_append] at hsub
  refine crlf_infix_append ?_ hsub
  show UInt8.ofNat 13 ∉ Utf8.encode (name ++ ": ").toList
  rw [Utf8.mem_encode_iff (by decide), String.toList_append, List.mem_append, not_or]
  exact ⟨hname, by decide⟩

theorem toList_bracketed (id : String) : ("<" ++ id ++ ">").toList = '<' :: id.toList ++ ['>'] := by
  rw [String.toList_append, String.toList_append, show "<".toList = ['<'] from rfl,
    show ">".toList = ['>'] from rfl]
  rfl

/-- A text between angle brackets has a line break where the text has one. -/
theorem not_infix_bracketed {id : String} (h : ¬['\r', '\n'] <:+: id.toList) :
    ¬['\r', '\n'] <:+: ("<" ++ id ++ ">").toList := by
  have hend (cs : List Char) (hcs : ['\r', '\n'] <:+: cs ++ ['>']) : ['\r', '\n'] <:+: cs := by
    rw [List.infix_concat_iff, List.suffix_concat_iff] at hcs
    rcases hcs with (hnil | ⟨front, he, -⟩) | hsub
    · cases hnil
    · exact absurd (congrArg List.getLast? he) (by rw [List.getLast?_concat]; decide)
    · exact hsub
  intro hsub
  rw [toList_bracketed, List.cons_append, List.infix_cons_iff] at hsub
  rcases hsub with hprefix | hsub
  · exact absurd (List.cons_prefix_cons.1 hprefix).1 (by decide)
  · exact h (hend _ hsub)

/-- The lines of attachments with ids and bytes. -/
def attachmentsLines (f : Framing) : List (String × Bytes) → List Bytes
  | [] => []
  | (id, bytes) :: rest =>
    nextLine (Utf8.ofString f.boundary) :: (headerLines (f.attachmentHeaders id) ++ [] ::
      (lines (encoded f.encoding bytes) ++ f.attachmentsLines rest))

theorem lines_attachmentsPieces (h : f.Proper) {contents : List (String × Bytes)}
    (hids : ∀ content ∈ contents, ¬['\r', '\n'] <:+: content.1.toList) :
    (f.attachmentsPieces contents).flatMap lines = f.attachmentsLines contents := by
  induction contents with
  | nil => rfl
  | cons content rest ih =>
    obtain ⟨id, bytes⟩ := content
    have hid := hids _ List.mem_cons_self
    have hencoding : ¬['\r', '\n'] <:+: f.encoding.name.toList := by
      cases f.encoding <;> exact not_infix_of_not_mem (by decide)
    have hheaders : (headerLines (f.attachmentHeaders id)).flatMap lines =
        headerLines (f.attachmentHeaders id) := by
      simp only [attachmentHeaders, headerLines, List.map_cons, List.map_nil, List.flatMap_cons,
        List.flatMap_nil]
      rw [lines_headerLine (by decide) (not_infix_of_not_mem (by decide)),
        lines_headerLine (by decide) hencoding,
        lines_headerLine (by decide) (not_infix_bracketed hid)]
      rfl
    rw [attachmentsPieces, attachmentsLines, List.flatMap_append, List.flatMap_append,
      List.flatMap_cons, hheaders, lines_nextLine h,
      ih fun c hc => hids c (List.mem_cons_of_mem _ hc)]
    simp only [List.flatMap_cons, List.flatMap_nil, List.append_nil, List.append_assoc,
      List.singleton_append]
    rfl

/-- The lines of a body behind the first delimiter. -/
def bodyLines (f : Framing) (primaryType : String) (primary : Bytes)
    (contents : List (String × Bytes)) : List Bytes :=
  headerLines (messageHeaders primaryType) ++ [] :: (lines primary ++
    (f.attachmentsLines contents ++ [terminalLine (Utf8.ofString f.boundary), []]))

/-- **The lines of a body.** -/
theorem lines_body (h : f.Proper) {primaryType : String} (primary : Bytes)
    {contents : List (String × Bytes)}
    (htype : '\r' ∉ primaryType.toList)
    (hids : ∀ content ∈ contents, ¬['\r', '\n'] <:+: content.1.toList) :
    lines (nextLine (Utf8.ofString f.boundary) ++
        (f.bodyPieces primaryType primary contents).flatMap (crlf ++ ·)) =
      nextLine (Utf8.ofString f.boundary) :: f.bodyLines primaryType primary contents := by
  rw [lines_append_flatMap, lines_nextLine h, bodyPieces, List.flatMap_append, List.flatMap_append,
    lines_attachmentsPieces h hids]
  simp only [messagePieces, messageHeaders, headerLines, List.map_cons, List.map_nil,
    List.flatMap_append, List.flatMap_cons, List.flatMap_nil]
  rw [lines_headerLine (by decide) (not_infix_of_not_mem htype),
    lines_headerLine (by decide) (not_infix_of_not_mem (by decide)), lines_terminalLine h]
  simp only [List.append_nil, List.append_assoc, List.singleton_append]
  rfl

end SoapBinding.Multipart.Framing
