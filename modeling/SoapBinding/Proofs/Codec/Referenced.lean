import SoapBinding.Proofs.Codec.Inline
import SoapBinding.Proofs.Context.Index

/-!
# Payloads referred to

In an exchange with attachments, what is written for a payload is a reference: its id with escapes behind `cid:`, as an
attribute of the element or of an element inside it. Four transformations lie on the way, and each of them is undone: escapes
(`Percent.decode_encode`), the `cid:`, the entities of the attribute (`Xml.unescaped_escape`), and the trimming of what is
read, which finds no blank. So the element of a payload is read as the very payload, whatever its id is made of:

    payload_of_reference : … readInlined reader (the element written for b) = b
-/

namespace SoapBinding

open Outcome
open Xml (Sink Cursor Element Node Ending PendingTag elementText)

/-! ### The element of a reference -/

namespace Encoding

variable {files : Files} {context later : Context} {b : Binary}

/-- What a reference adds to the tag of the element around. -/
def referenceAttributes (b : Binary) : Reference → List (String × String)
  | .href => [("href", referenceTo b)]
  | .xopInclude => []

/-- What a reference puts inside the element around. -/
def referenceBody (b : Binary) : Reference → Option String
  | .href => none
  | .xopInclude => some (elementText ⟨"xop:Include", Xml.includeAttributes (referenceTo b)⟩ none)

/-- The nodes of what a reference puts inside. -/
def referenceNodes (b : Binary) : Reference → List Node
  | .href => []
  | .xopInclude => [.start (includeElement b), .finish]

/-- The tag of an element that refers to a payload. -/
def referringTag (reference : Reference) (tag : PendingTag) (b : Binary) : PendingTag :=
  tag.adding (referenceAttributes b reference)

/-- The element of a tag that refers to a payload, as it is written. -/
def referringText (reference : Reference) (tag : PendingTag) (b : Binary) : String :=
  elementText (referringTag reference tag b) (referenceBody b reference)

/-- The element of a tag that refers to a payload, as it is read. -/
def referringNodes (reference : Reference) (tag : PendingTag) (b : Binary) : List Node :=
  .start (referringTag reference tag b).element :: referenceNodes b reference ++ [.finish]

/-- A reference can be written behind the start of an element. -/
theorem writeReference_ok {opened : List String} {sink : Sink} (h : sink.Stands opened) (reference : Reference)
    (b : Binary) (name : String) (attributes : List (String × String)) :
    writeReference reference b ((sink.started name).wrote attributes none) =
      .ok () ((sink.started name).wrote (attributes ++ referenceAttributes b reference) (referenceBody b reference)) := by
  cases reference with
  | href =>
    obtain ⟨sink', hok⟩ := Sink.addAttribute_ok sink name "href" (referenceTo b) attributes
    rw [writeReference, hok, Sink.addAttribute_eq hok, Sink.wrote_attributes]
    rfl
  | xopInclude =>
    have hstands := (h.started name).wrote attributes none
    generalize hplace : (sink.started name).wrote attributes none = place at hstands
    have hstart := Sink.startElement_ok hstands.limit "xop:Include"
    obtain ⟨declared, hdeclare⟩ := Sink.declare_ok place "xop:Include" "xop" Xml.xopNamespace []
    rw [Sink.wrote_nothing] at hdeclare
    have hdeclared := Sink.declare_eq hdeclare (Sink.hasAttribute_started _ _ _)
    obtain ⟨referring, hhref⟩ := Sink.addAttribute_ok place "xop:Include" "href" (referenceTo b)
      [("xmlns:xop", Xml.xopNamespace)]
    rw [← show "xmlns:" ++ "xop" = "xmlns:xop" from rfl, ← hdeclared] at hhref
    have hreferring : referring.Stands ("xop:Include" :: name :: opened) := by
      rw [Sink.addAttribute_eq hhref, hdeclared]
      exact ((hstands.started _).wrote _ _).wrote _ _
    obtain ⟨sink', hend, -⟩ := Sink.endElement_ok hreferring
    have hok : writeReference .xopInclude b place = .ok () sink' :=
      bind_eq_ok.2 ⟨_, _, hstart, bind_eq_ok.2 ⟨_, _, hdeclare, bind_eq_ok.2 ⟨_, _, hhref, hend⟩⟩⟩
    rw [hok, writeReference_include_eq hok, ← hplace, Sink.wrote_attributes]
    rfl

/-- The element of a payload that travels as an attachment, wherever it is written. -/
theorem writeInlined_attached (hmultipart : context.multipart = true) (hadd : context.add b = .ok later)
    {opened : List String} {sink : Sink} (hsink : sink.Stands opened) (tag : PendingTag) (registry : Registry) :
    writeInlined files tag b ⟨registry, context, sink⟩ =
      .ok () ⟨registry, later, sink.wrote [] (some (referringText context.reference tag b))⟩ := by
  refine writeInlined_of_ok hsink ?_
  refine (bind_ok (get_apply _)).trans ?_
  show (if context.multipart = true then _ else _ : Encoding Unit) _ = _
  rw [hmultipart, if_pos rfl]
  have hregister (e : Encoder) (he : e.context = context) : register b e = .ok () { e with context := later } := by
    rw [register, he, hadd]
  rw [bind_ok (hregister _ rfl)]
  exact onSink_of_ok (writeReference_ok hsink _ _ _ _)

/-- A tag that refers to a payload is plain if the tag is, and does not refer to one already. -/
theorem isPlain_referringTag {tag : PendingTag} (htag : tag.IsPlain) (hhref : ∀ a ∈ tag.attributes, a.1 ≠ "href")
    (reference : Reference) (b : Binary) : (referringTag reference tag b).IsPlain := by
  have hname : Xml.IsName "href" := by decide +kernel
  cases reference with
  | href =>
    refine ⟨htag.name, fun a ha => ?_, ?_⟩
    · rcases List.mem_append.1 ha with ha | ha
      · exact htag.keys a ha
      · rw [List.mem_singleton.1 ha]
        exact ⟨hname, fun heq => absurd heq (by decide : "href" ≠ "xmlns")⟩
    · show ((tag.attributes ++ [("href", referenceTo b)]).map (·.1)).Nodup
      rw [List.map_append, List.nodup_append]
      refine ⟨htag.distinct, List.nodup_singleton _, ?_⟩
      simpa using hhref
  | xopInclude =>
    show (tag.adding []).IsPlain
    rwa [Sink.adding_nil]

/-- The element of a reference shows its nodes. -/
theorem shows_referringText {tag : PendingTag} (htag : tag.IsPlain) (hhref : ∀ a ∈ tag.attributes, a.1 ≠ "href")
    (reference : Reference) (b : Binary) :
    Xml.Shows (referringText reference tag b) (referringNodes reference tag b) := by
  have htag' := Xml.standsFor_element (isPlain_referringTag htag hhref reference b)
  cases reference with
  | href => exact Xml.shows_empty htag'
  | xopInclude =>
    exact Xml.shows_element htag' (Xml.shows_empty (Xml.standsFor_include (referenceTo b))).inside nofun

/-- Different ids are written as different references, also with the entities of an attribute. -/
theorem id_eq_of_referenceTo {b b' : Binary} (h : Xml.escape (referenceTo b) = Xml.escape (referenceTo b')) :
    b.id = b'.id := by
  have href : referenceTo b = referenceTo b' := by
    have hread := Xml.unescaped_escape (referenceTo b)
    rw [h, Xml.unescaped_escape] at hread
    exact (Except.ok.inj hread).symm
  have hencoded : Percent.encode b.id = Percent.encode b'.id := by
    have htext := congrArg String.toList href
    rw [referenceTo, referenceTo, String.toList_append, String.toList_append] at htext
    exact String.toList_inj.1 (List.append_cancel_left htext)
  rw [← Percent.decode_encode b.id, hencoded, Percent.decode_encode]

end Encoding

/-! ### Reading it -/

namespace Decoding

open Encoding (referenceTo includeElement referenceAttributes referenceNodes referringTag referringNodes)

variable {reader : Context} {b : Binary}

/-- A reference is read as the attachment that is known under its id. -/
theorem readReference_eq (h : reader.attachment? b.id = some b) (st : Decoder) :
    readReference reader (referenceTo b) st = .ok (.binary b) st := by
  rw [readReference, Encoding.resolve_referenceTo, Context.resolve_of_attachment? h]
  rfl

/-- A payload in an element that refers to it. -/
theorem readBinary_href (h : reader.attachment? b.id = some b) {around : Element}
    (hhref : around.attribute? none "href" = some (referenceTo b)) (registry : Registry) (nonces : Nonces)
    (ahead : List Node) (ending : Ending) (opened : List Element) :
    readBinary reader ⟨registry, ⟨ahead, ending, around :: opened⟩, nonces⟩ =
      .ok (.binary b) ⟨registry, ⟨ahead, ending, around :: opened⟩, nonces⟩ := by
  refine (bind_ok (get_apply _)).trans ?_
  dsimp only [Cursor.current?, List.head?_cons, Option.bind_some]
  rw [hhref]
  exact readReference_eq h _

/-- A payload in an element that holds one which refers to it. -/
theorem readBinary_include (h : reader.attachment? b.id = some b) {around : Element}
    (hhref : around.attribute? none "href" = none) (registry : Registry) (nonces : Nonces) (tail : List Node)
    (ending : Ending) (opened : List Element) :
    readBinary reader
        ⟨registry, ⟨.start (includeElement b) :: .finish :: tail, ending, around :: opened⟩, nonces⟩ =
      .ok (.binary b) ⟨registry, ⟨tail, ending, around :: opened⟩, nonces⟩ := by
  have hskip : Cursor.skipElement ⟨.start (includeElement b) :: .finish :: tail, ending, around :: opened⟩ =
      .ok () ⟨tail, ending, around :: opened⟩ :=
    (bind_ok expectStart_start).trans skipToEnd_finish
  have hpeek : onCursor Cursor.peek
      ⟨registry, ⟨.start (includeElement b) :: .finish :: tail, ending, around :: opened⟩, nonces⟩ =
        .ok (some (.start (includeElement b)))
          ⟨registry, ⟨.start (includeElement b) :: .finish :: tail, ending, around :: opened⟩, nonces⟩ := rfl
  refine (bind_ok (get_apply _)).trans ?_
  dsimp only [Cursor.current?, List.head?_cons, Option.bind_some]
  rw [hhref]
  refine (bind_ok (onCursor_eq_ok.2 ⟨_, rfl, rfl⟩)).trans ?_
  refine (bind_ok hpeek).trans ?_
  refine (bind_ok (onCursor_eq_ok.2 ⟨_, hskip, rfl⟩)).trans ?_
  exact readReference_eq h _

/-- The element of a reference is read as the payload, and what stands behind it is left. -/
theorem readInlined_referringNodes (h : reader.attachment? b.id = some b) {tag : PendingTag}
    (hhref : ∀ a ∈ tag.attributes, a.1 ≠ "href") (reference : Reference) (registry : Registry) (nonces : Nonces)
    (tail : List Node) (ending : Ending) (opened : List Element) :
    readInlined reader ⟨registry, ⟨referringNodes reference tag b ++ tail, ending, opened⟩, nonces⟩ =
      .ok (.binary b) ⟨registry, ⟨tail, ending, opened⟩, nonces⟩ := by
  have hread : readBinary reader ⟨registry, ⟨referenceNodes b reference ++ .finish :: tail, ending,
      (referringTag reference tag b).element :: opened⟩, nonces⟩ =
        .ok (.binary b) ⟨registry, ⟨.finish :: tail, ending, (referringTag reference tag b).element :: opened⟩,
          nonces⟩ := by
    cases reference with
    | href =>
      refine readBinary_href h ?_ registry nonces _ ending opened
      have hfind : (tag.attributes.map fun a => (⟨none, a.1, a.2⟩ : Xml.Attribute)).find?
          (fun a => a.localName == "href" && a.space == none) = none := by
        simpa [List.find?_eq_none] using hhref
      show (List.find? _ ((tag.attributes ++ [("href", referenceTo b)]).map _)).map _ = _
      rw [List.map_append, List.find?_append, hfind]
      rfl
    | xopInclude =>
      refine readBinary_include h ?_ registry nonces _ ending opened
      show (referringTag .xopInclude tag b).element.attribute? none "href" = none
      simpa [referringTag, referenceAttributes, Sink.adding_nil, Element.attribute?, PendingTag.element,
        List.find?_eq_none] using hhref
  have hfinish := @finishElement_finish (referringTag reference tag b).element tail ending opened
  have hnodes : referringNodes reference tag b ++ tail =
      .start (referringTag reference tag b).element :: (referenceNodes b reference ++ .finish :: tail) := by
    simp [referringNodes]
  rw [hnodes]
  unfold readInlined
  refine (bind_ok (onCursor_eq_ok.2 ⟨_, expectStart_start, rfl⟩)).trans ?_
  refine (bind_ok hread).trans ?_
  exact bind_ok (onCursor_eq_ok.2 ⟨_, hfinish, rfl⟩)

end Decoding

/-- **References go there and back, whatever the id.** In an exchange with attachments, either another content has the id and
writing the payload is refused, or the payload is registered and the element of a plain tag is written with a reference to it,
at any place of a document. From that element the very payload is read, at any place of a document without a default namespace,
and by every reader that knows what this exchange does by then. Escapes are undone for every text, and different ids are written
as different references. -/
theorem payload_of_reference {files : Files} {context : Context} (hmultipart : context.multipart = true) (b : Binary)
    {tag : PendingTag} (htag : tag.IsPlain) (hhref : ∀ a ∈ tag.attributes, a.1 ≠ "href") :
    (∀ other, context.attachment? b.id = some other → other ≠ b → ∀ registry sink,
      Encoding.writeBinary files (.binary b) ⟨registry, context, sink⟩ =
        .error (.attachment (.duplicateId b.id)) ⟨registry, context, sink⟩) ∧
    ((∀ other, context.attachment? b.id = some other → other = b) → ∃ later, context.add b = .ok later ∧
      (∀ registry opened sink, Sink.Stands opened sink →
        Encoding.writeInlined files tag b ⟨registry, context, sink⟩ =
          .ok () ⟨registry, later, sink.wrote [] (some (Encoding.referringText context.reference tag b))⟩) ∧
      Xml.Shows (Encoding.referringText context.reference tag b) (Encoding.referringNodes context.reference tag b) ∧
      ∀ reader : Context, reader.Knows later →
        (∀ registry nonces tail ending opened,
          Decoding.readInlined reader
              ⟨registry, ⟨Encoding.referringNodes context.reference tag b ++ tail, ending, opened⟩, nonces⟩ =
            .ok (.binary b) ⟨registry, ⟨tail, ending, opened⟩, nonces⟩) ∧
        ∀ registry nonces,
          Decoding.readInlined reader ⟨registry,
              .ofSource (.ofBytes (Utf8.ofString (Encoding.referringText context.reference tag b))), nonces⟩ =
            .ok (.binary b) ⟨registry, ⟨[], .complete, []⟩, nonces⟩) ∧
    (∀ id, Percent.decode (Percent.encode id) = id) ∧
    ∀ other, Xml.escape (Encoding.referenceTo other) = Xml.escape (Encoding.referenceTo b) → other.id = b.id := by
  refine ⟨fun other hother hne registry sink => ?_, fun hfree => ?_, Percent.decode_encode,
    fun other => Encoding.id_eq_of_referenceTo⟩
  · have hrefused : context.add b = .error (.attachment (.duplicateId b.id)) := by
      rw [Context.add, hother]
      exact if_neg hne
    refine (bind_ok (get_apply _)).trans ?_
    show (if context.multipart = true then _ else _ : Encoding Unit) _ = _
    rw [hmultipart, if_pos rfl]
    exact bind_error (by rw [Encoding.register, hrefused])
  · obtain ⟨later, hadd⟩ : ∃ later, context.add b = .ok later := by
      unfold Context.add
      cases hknown : context.attachment? b.id with
      | none => exact ⟨_, rfl⟩
      | some other => exact ⟨_, if_pos (hfree other hknown)⟩
    have hshows := Encoding.shows_referringText htag hhref context.reference b
    have hread {reader : Context} (hreader : reader.Knows later) :=
      @Decoding.readInlined_referringNodes reader b (hreader _ _ (Context.extends_add hadd).2) tag hhref
        context.reference
    refine ⟨later, hadd,
      fun registry opened sink hsink => Encoding.writeInlined_attached hmultipart hadd hsink tag registry, hshows,
      fun reader hreader => ⟨hread hreader, fun registry nonces => ?_⟩⟩
    rw [Encoding.referringText, Xml.ofSource_elementText hshows]
    simpa using hread hreader registry nonces [] .complete []

/-- An id that begins like a reference, with a percent sign, markup, blanks and a letter outside ASCII. -/
theorem payload_of_reference_escaped :
    ∃ later, Context.add (.withAttachments .href) (.ofBytes "cid:50% <é>" [1, 2]) = .ok later ∧
      Encoding.writeInlined .none ⟨"data", []⟩ (.ofBytes "cid:50% <é>" [1, 2])
          ⟨.ofSchema .empty, .withAttachments .href, .empty none⟩ =
        .ok () ⟨.ofSchema .empty, later,
          (Sink.empty none).wrote [] (some "<data href=\"cid:cid:50%25%20%3C%C3%A9%3E\"/>")⟩ ∧
      Decoding.readInlined later ⟨.ofSchema .empty,
          .ofSource (.ofBytes (Utf8.ofString "<data href=\"cid:cid:50%25%20%3C%C3%A9%3E\"/>")), .fresh⟩ =
        .ok (.binary (.ofBytes "cid:50% <é>" [1, 2])) ⟨.ofSchema .empty, ⟨[], .complete, []⟩, .fresh⟩ := by
  have hfree : ∀ other, (Context.withAttachments .href).attachment? "cid:50% <é>" = some other →
      other = .ofBytes "cid:50% <é>" [1, 2] := by
    intro other hother
    rw [(Context.isIndexed_empty rfl rfl).attachment?_eq_none.2 (by intro b hb; cases hb)] at hother
    cases hother
  obtain ⟨-, hback, -⟩ := @payload_of_reference .none (.withAttachments .href) rfl (.ofBytes "cid:50% <é>" [1, 2])
    ⟨"data", []⟩ (by decide +kernel) (by decide +kernel)
  obtain ⟨later, hadd, hwritten, -, hread⟩ := hback hfree
  have htext : Encoding.referringText (Context.withAttachments .href).reference ⟨"data", []⟩
      (.ofBytes "cid:50% <é>" [1, 2]) = "<data href=\"cid:cid:50%25%20%3C%C3%A9%3E\"/>" := by decide +kernel
  rw [htext] at hwritten hread
  exact ⟨later, hadd, hwritten _ [] _ ⟨rfl, rfl⟩, (hread later (.refl later)).2 _ _⟩

end SoapBinding
