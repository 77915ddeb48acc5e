import SoapBinding.Proofs.Codec.Leaves
import SoapBinding.Proofs.Xml.Forest

/-!
# Payloads written inline

An inline payload is encoded so many bytes at a time as a setting tells, and each chunk goes to the document on its own. The
setting does not show: it is rounded to whole triples (`Context.hasWholeChunks_ofSettings`), so the texts in a row are the text
of all the bytes at once, with padding at its very end or nowhere (`Base64.padding_at_end`). None of its letters is escaped,
and so the element is read as the same bytes again:

    writeInlined files tag b : <tag>base64 of all bytes</tag>     (inlined_wholly)
-/

namespace SoapBinding

open Outcome
open Xml (Sink Cursor Element PendingTag elementText)

/-! ### The text -/

namespace Base64

/-- A letter of the alphabet is no padding. -/
theorem padding_ne_letter {n : Nat} (h : n < 64) : '=' ≠ letter n := (letter_cases h).1.symm

/-- Padding stands at the very end of a text or nowhere. -/
theorem padding_at_end (bytes : Bytes) :
    ∃ front, '=' ∉ front ∧ ∃ padding ∈ [[], ['='], ['=', '=']], encode bytes = front ++ padding := by
  fun_induction encode bytes with
  | case1 => exact ⟨[], by simp, [], by simp, rfl⟩
  | case2 a =>
    have ha := a.toNat_lt
    refine ⟨[_, _], ?_, ['=', '='], by simp, rfl⟩
    simp [padding_ne_letter (n := a.toNat / 4) (by omega), padding_ne_letter (n := a.toNat % 4 * 16) (by omega)]
  | case3 a b =>
    have ha := a.toNat_lt
    have hb := b.toNat_lt
    refine ⟨[_, _, _], ?_, ['='], by simp, rfl⟩
    simp [padding_ne_letter (n := a.toNat / 4) (by omega),
      padding_ne_letter (n := a.toNat % 4 * 16 + b.toNat / 16) (by omega),
      padding_ne_letter (n := b.toNat % 16 * 4) (by omega)]
  | case4 a b c rest ih =>
    obtain ⟨front, hfront, padding, hpadding, hrest⟩ := ih
    have ha := a.toNat_lt
    have hb := b.toNat_lt
    have hc := c.toNat_lt
    refine ⟨_ :: _ :: _ :: _ :: front, ?_, padding, hpadding, by rw [hrest]; rfl⟩
    simp [padding_ne_letter (n := a.toNat / 4) (by omega),
      padding_ne_letter (n := a.toNat % 4 * 16 + b.toNat / 16) (by omega),
      padding_ne_letter (n := b.toNat % 16 * 4 + c.toNat / 64) (by omega),
      padding_ne_letter (n := c.toNat % 64) (by omega), hfront]

/-- Base64 text is written as it is. -/
theorem escape_encode (bytes : Bytes) : Xml.escape (String.ofList (encode bytes)) = String.ofList (encode bytes) := by
  apply Xml.escape_eq
  intro c hc
  rw [String.toList_ofList] at hc
  have hnot : ∀ d ∈ "<>'\"&".toList, c ≠ d := by
    rintro d hd rfl
    have hnone : "<>'\"&".toList.all (fun d => value? d == none && d != '=') = true := by decide
    have hnot : value? c = none ∧ c ≠ '=' := by simpa using List.all_eq_true.1 hnone c hd
    have := decode?_eq_none_of_mem hc hnot.1 hnot.2
    rw [decode?_encode] at this
    cases this
  simpa [Xml.isMarkup, and_assoc] using hnot

end Base64

/-! ### The element -/

namespace Encoding

variable {files : Files} {context : Context}

/-- Writes the element of a tag around a content. -/
def writeAround (tag : PendingTag) (content : Encoding Unit) : Encoding Unit := do
  onSink (Sink.performAll (.startElement tag.name :: tag.attributes.map fun a => .addAttribute a.1 a.2))
  content
  onSink Sink.endElement

/-- Writes the element of a tag around a payload. -/
def writeInlined (files : Files) (tag : PendingTag) (b : Binary) : Encoding Unit := do
  onSink (Sink.performAll (.startElement tag.name :: tag.attributes.map fun a => .addAttribute a.1 a.2))
  writeBinary files (.binary b)
  onSink Sink.endElement

/-- **The chunks leave the text of all the bytes.** A document that is full may refuse it; nothing else is refused. -/
theorem writeBinary_inline (hinline : context.multipart = false) (hwhole : context.HasWholeChunks) (id : String)
    (bytes : Bytes) (registry : Registry) (sink : Sink) :
    (∀ e', writeBinary files (.binary (.ofBytes id bytes)) ⟨registry, context, sink⟩ = .ok () e' →
      e' = ⟨registry, context, sink.wrote [] (some (String.ofList (Base64.encode bytes)))⟩) ∧
    (sink.limit = none → ∃ e', writeBinary files (.binary (.ofBytes id bytes)) ⟨registry, context, sink⟩ = .ok () e') := by
  have hwrite : writeBinary files (.binary (.ofBytes id bytes)) ⟨registry, context, sink⟩ =
      onSink (writeTexts (Base64.encodeChunks context.chunkSize bytes)) ⟨registry, context, sink⟩ := by
    refine (bind_ok (get_apply _)).trans ?_
    show (if context.multipart = true then _ else _ : Encoding Unit) _ = _
    rw [hinline, if_neg (by decide)]
    rfl
  rw [hwrite]
  refine ⟨fun e' h => ?_, fun h => ⟨_, onSink_of_ok (writeTexts_ok h _)⟩⟩
  obtain ⟨sink', hsink, rfl⟩ := onSink_ok h
  rw [writeTexts_eq hsink, join_encodeChunks hwhole.pos hwhole.whole, Base64.escape_encode]

/-- The element is written around a content, wherever it stands, with what the content adds to its tag. -/
theorem writeAround_of_ok {content : Encoding Unit} {later : Context} {registry : Registry} {opened : List String}
    {sink : Sink} {tag : PendingTag} {attributes : List (String × String)} {body : Option String} (hsink : sink.Stands opened)
    (h : content ⟨registry, context, (sink.started tag.name).wrote tag.attributes none⟩ =
      .ok () ⟨registry, later, (sink.started tag.name).wrote (tag.attributes ++ attributes) body⟩) :
    writeAround tag content ⟨registry, context, sink⟩ =
      .ok () ⟨registry, later, sink.wrote [] (some (elementText (tag.adding attributes) body))⟩ := by
  have hstarted : Sink.performAll (.startElement tag.name :: tag.attributes.map fun a => .addAttribute a.1 a.2) sink =
      .ok () ((sink.started tag.name).wrote tag.attributes none) := by
    have hattributes := Sink.performAll_attributes sink tag.name tag.attributes []
    rw [Sink.wrote_nothing, List.nil_append] at hattributes
    rw [Sink.performAll, Sink.Call.perform, bind_ok (Sink.startElement_ok hsink.limit tag.name), hattributes]
  obtain ⟨sink', hend, -⟩ := Sink.endElement_ok ((hsink.started tag.name).wrote (tag.attributes ++ attributes) body)
  have htext := Sink.endElement_eq hend
  unfold writeAround
  rw [bind_ok (onSink_of_ok hstarted), bind_ok h, onSink_of_ok hend, htext]
  rfl

/-- The element is written around the payload, wherever it stands, with what the payload adds to its tag. -/
theorem writeInlined_of_ok {later : Context} {registry : Registry} {opened : List String} {sink : Sink}
    {tag : PendingTag} {b : Binary} {attributes : List (String × String)} {body : Option String}
    (hsink : sink.Stands opened)
    (h : writeBinary files (.binary b) ⟨registry, context, (sink.started tag.name).wrote tag.attributes none⟩ =
      .ok () ⟨registry, later, (sink.started tag.name).wrote (tag.attributes ++ attributes) body⟩) :
    writeInlined files tag b ⟨registry, context, sink⟩ =
      .ok () ⟨registry, later, sink.wrote [] (some (elementText (tag.adding attributes) body))⟩ :=
  writeAround_of_ok hsink h

/-- The element of a payload in a new document. -/
theorem writeInlined_ok (hinline : context.multipart = false) (hwhole : context.HasWholeChunks) (tag : PendingTag)
    (id : String) (bytes : Bytes) (registry : Registry) :
    ∃ e', writeInlined files tag (.ofBytes id bytes) ⟨registry, context, .empty none⟩ = .ok () e' ∧
      e'.sink.finish = .ok (elementText tag (some (String.ofList (Base64.encode bytes)))) := by
  have hstands : (Sink.empty none).Stands [] := ⟨rfl, rfl⟩
  obtain ⟨htext, hok⟩ := @writeBinary_inline files context hinline hwhole id bytes registry
    (((Sink.empty none).started tag.name).wrote tag.attributes none)
  obtain ⟨e', hwritten⟩ := hok ((hstands.started tag.name).wrote _ _).limit
  rw [htext e' hwritten, Sink.wrote_attributes] at hwritten
  refine ⟨_, writeInlined_of_ok hstands hwritten, ?_⟩
  show Except.ok ("" ++ "" ++ elementText (tag.adding []) _) = _
  rw [String.empty_append, String.empty_append, Sink.adding_nil]

end Encoding

/-! ### Reading it back -/

namespace Decoding

/-- Reads the content of the next element. -/
def readAround (content : Decoding Value) : Decoding Value := do
  let _ ← onCursor Cursor.expectStart
  let value ← content
  onCursor Cursor.finishElement
  return value

/-- Reads the payload of the next element. -/
def readInlined (context : Context) : Decoding Value := do
  let _ ← onCursor Cursor.expectStart
  let value ← readBinary context
  onCursor Cursor.finishElement
  return value

/-- From a document that is one element, what is read is what is read of the nodes inside. -/
theorem readAround_ok {content : Decoding Value} {tag : PendingTag} {text : String} {nodes : List Xml.Node} {v : Value}
    {registry : Registry} {nonces nonces' : Nonces} (htag : tag.IsPlain) (hbody : Xml.ShowsInside text nodes)
    (hread : content ⟨registry, ⟨nodes ++ [.finish], .complete, [tag.element]⟩, nonces⟩ =
      .ok v ⟨registry, ⟨[.finish], .complete, [tag.element]⟩, nonces'⟩) :
    readAround content ⟨registry, .ofSource (.ofBytes (Utf8.ofString (elementText tag (some text)))), nonces⟩ =
      .ok v ⟨registry, ⟨[], .complete, []⟩, nonces'⟩ := by
  have hshows := @Xml.shows_element _ _ (some text) _ (Xml.standsFor_element htag) hbody nofun
  rw [Xml.ofSource_elementText hshows, List.cons_append]
  have hfinish := @finishElement_finish tag.element [] .complete []
  unfold readAround
  rw [bind_ok (onCursor_eq_ok.2 ⟨_, expectStart_start, rfl⟩), bind_ok hread]
  exact bind_ok (onCursor_eq_ok.2 ⟨_, hfinish, rfl⟩)

/-- From the element of a payload, its bytes are read. -/
theorem readInlined_ok {tag : PendingTag} (htag : tag.IsPlain) (hhref : ∀ a ∈ tag.attributes, a.1 ≠ "href")
    (context : Context) (bytes : Bytes) (registry : Registry) (nonces : Nonces) :
    readInlined context ⟨registry, .ofSource (.ofBytes (Utf8.ofString
        (elementText tag (some (String.ofList (Base64.encode bytes)))))), nonces⟩ =
      .ok (.binary (.ofBytes nonces.next.1 bytes)) ⟨registry, ⟨[], .complete, []⟩, nonces.next.2⟩ := by
  have hnone : tag.element.attribute? none "href" = none := by
    simpa [Element.attribute?, PendingTag.element, List.find?_eq_none] using hhref
  have hbody : Xml.ShowsInside (String.ofList (Base64.encode bytes))
      (Encoding.textNodes (String.ofList (Base64.encode bytes))) := by
    have hinside := Xml.showsInside_text (String.ofList (Base64.encode bytes))
    rwa [Base64.escape_encode] at hinside
  exact readAround_ok htag hbody (Encoding.readBinary_inline hnone context bytes registry nonces [] .complete [])

end Decoding

/-- **The size of the chunks does not show.** In an exchange with any such setting, and with whatever attachments, writing a
payload inline leaves the base64 text of all its bytes, with padding at the very end or nowhere. It succeeds unless the
document is limited; and from the element of the payload the same bytes are read. -/
theorem inlined_wholly {files : Files} {reference : Reference} {chunkSize : Nat} {context : Context}
    (hcontext : context.Extends (.ofSettings reference chunkSize)) (id : String) (bytes : Bytes) (registry : Registry)
    {tag : PendingTag} (htag : tag.IsPlain) (hhref : ∀ a ∈ tag.attributes, a.1 ≠ "href") :
    (∀ sink e', Encoding.writeBinary files (.binary (.ofBytes id bytes)) ⟨registry, context, sink⟩ = .ok () e' →
      e' = ⟨registry, context, sink.wrote [] (some (String.ofList (Base64.encode bytes)))⟩) ∧
    (∀ sink, sink.limit = none →
      ∃ e', Encoding.writeBinary files (.binary (.ofBytes id bytes)) ⟨registry, context, sink⟩ = .ok () e') ∧
    (∃ front, '=' ∉ front ∧ ∃ padding ∈ [[], ['='], ['=', '=']], Base64.encode bytes = front ++ padding) ∧
    ∃ e' document, Encoding.writeInlined files tag (.ofBytes id bytes) ⟨registry, context, .empty none⟩ = .ok () e' ∧
      e'.sink.finish = .ok document ∧ document = elementText tag (some (String.ofList (Base64.encode bytes))) ∧
      ∀ reader registry' nonces,
        Decoding.readInlined reader ⟨registry', .ofSource (.ofBytes (Utf8.ofString document)), nonces⟩ =
          .ok (.binary (.ofBytes nonces.next.1 bytes)) ⟨registry', ⟨[], .complete, []⟩, nonces.next.2⟩ := by
  have hinline : context.multipart = false := hcontext.multipart
  have hwhole := hcontext.hasWholeChunks (Context.hasWholeChunks_ofSettings reference chunkSize)
  obtain ⟨e', hwritten, hfinish⟩ := @Encoding.writeInlined_ok files context hinline hwhole tag id bytes registry
  exact ⟨fun sink => (Encoding.writeBinary_inline hinline hwhole id bytes registry sink).1,
    fun sink => (Encoding.writeBinary_inline hinline hwhole id bytes registry sink).2, Base64.padding_at_end bytes,
    e', _, hwritten, hfinish, rfl, fun reader => Decoding.readInlined_ok htag hhref reader bytes⟩

/-- Five bytes, three at a time since four are no whole triples. -/
theorem inlined_wholly_hello :
    ∃ e', Encoding.writeInlined .none ⟨"data", [("lang", "en")]⟩ (.ofBytes "a" (Utf8.ofString "hello"))
        ⟨.ofSchema .empty, .ofSettings .href 4, .empty none⟩ = .ok () e' ∧
      e'.sink.finish = .ok "<data lang=\"en\">aGVsbG8=</data>" ∧
      Decoding.readInlined .inline ⟨.ofSchema .empty,
          .ofSource (.ofBytes (Utf8.ofString "<data lang=\"en\">aGVsbG8=</data>")), .fresh⟩ =
        .ok (.binary (.ofBytes (Nonces.idAt 0) (Utf8.ofString "hello"))) ⟨.ofSchema .empty, ⟨[], .complete, []⟩, ⟨1⟩⟩ := by
  obtain ⟨-, -, -, e', document, hwritten, hfinish, hdocument, hread⟩ :=
    @inlined_wholly .none .href 4 (.ofSettings .href 4) (.refl _) "a" (Utf8.ofString "hello") (.ofSchema .empty)
      ⟨"data", [("lang", "en")]⟩ (by decide +kernel) (by decide +kernel)
  have htext : document = "<data lang=\"en\">aGVsbG8=</data>" := hdocument.trans (by decide +kernel)
  subst htext
  exact ⟨e', hwritten, hfinish, hread .inline (.ofSchema .empty) .fresh⟩

end SoapBinding
