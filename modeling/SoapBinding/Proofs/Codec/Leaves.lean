import SoapBinding.Codec.Encoding
import SoapBinding.Proofs.Base64.Pieces
import SoapBinding.Proofs.Codec.Delivery
import SoapBinding.Proofs.Context
import SoapBinding.Proofs.Percent
import SoapBinding.Proofs.Primitive
import SoapBinding.Proofs.Xml.Written

/-!
# Leaves read back

What has been written as the content of an element (`ContentWritten`): an `href` on its tag if need be,
and a body that shows nodes from which the content is read as the value conveyed. Here that is shown for
leaves, which are texts, base64 texts, and references to attachments in two forms (`written_leaf`).

A `Passage` fixes what a value meets on its way. It also tells whether the value is known to be sound; of one that
is not, no more is claimed than that it is read in some way, or refused without harm.
-/

namespace SoapBinding

open Outcome
open Xml (Sink Writing Cursor Element Node Ending Shows ShowsInside elementText)

/-- The way of a value from a writer to a reader: the schema of both, the files that payloads may lie in, whether
payloads travel as attachments, and whether the value is known to be of its type. -/
structure Passage where
  schema : Schema
  files : Files
  attached : Bool
  sound : Prop

/-- A sound value arrives. -/
def Passage.Conveys (P : Passage) (v v' : Value) : Prop := P.sound → v.ConveyedAs P.files P.attached v'

/-- A reader knows the attachments that a sound value needs. -/
def Passage.Knows (P : Passage) (later context : Context) : Prop :=
  P.sound → P.attached = true → later.Knows context

/-- It then knows those from before. -/
theorem Passage.Knows.before {P : Passage} {later context earlier : Context} (h : P.Knows later context)
    (hextends : context.Extends earlier) : P.Knows later earlier :=
  fun hs hattached => (h hs hattached).trans hextends.knows

/-- What reading delivers on the way. -/
abbrev Passage.Delivers (P : Passage) {α : Type} := @Decoding.Delivers α P.schema P.sound

/-! ### Encoders -/

/-- An encoder that can write values of the types of a schema. Whether payloads travel as attachments is
settled once for all values. -/
structure Encoder.IsReady (s : Schema) (attached : Bool) (e : Encoder) : Prop where
  registry : e.registry.Over s
  multipart : e.context.multipart = attached
  chunks : e.context.HasWholeChunks

/-- What becomes of an encoder, but for its document. -/
structure Encoder.Follows (s : Schema) (e' e : Encoder) : Prop where
  registry : e'.registry.Over s
  context : e'.context.Extends e.context

section
variable {s : Schema} {attached : Bool} {e e' e'' : Encoder}

/-- A new encoder that writes payloads inline is ready. -/
theorem Encoder.isReady_inline (s : Schema) (limit : Option Nat) :
    Encoder.IsReady s false ⟨.ofSchema s, .inline, .empty limit⟩ :=
  have hchunks : Context.inline.HasWholeChunks := ⟨by decide, by decide⟩
  ⟨Registry.over_ofSchema s, rfl, hchunks⟩

theorem Encoder.IsReady.follow (h : e.IsReady s attached) (h' : e'.Follows s e) : e'.IsReady s attached :=
  ⟨h'.registry, h'.context.multipart.trans h.multipart, h'.context.hasWholeChunks h.chunks⟩

theorem Encoder.IsReady.write (h : e.IsReady s attached) (sink : Sink) :
    Encoder.IsReady s attached { e with sink } :=
  ⟨h.registry, h.multipart, h.chunks⟩

theorem Encoder.IsReady.follows_write (h : e.IsReady s attached) (sink : Sink) :
    Encoder.Follows s { e with sink } e :=
  ⟨h.registry, .refl _⟩

theorem Encoder.Follows.trans (h : e''.Follows s e') (h' : e'.Follows s e) : e''.Follows s e :=
  ⟨h.registry, h.context.trans h'.context⟩

end

namespace Encoding

variable {P : Passage} {s : Schema} {attached : Bool} {d : Descriptor} {v : Value} {e e' : Encoder}

/-- Work on the document changes nothing else. -/
theorem onSink_ok {α : Type} {work : Writing α} {a : α} (h : onSink work e = .ok a e') :
    ∃ sink, work e.sink = .ok a sink ∧ e' = { e with sink } := by
  unfold onSink at h
  split at h
  · next sink hwork =>
    cases h
    exact ⟨sink, hwork, rfl⟩
  · cases h

/-- Work on the document succeeds where the sink does. -/
theorem onSink_of_ok {α : Type} {work : Writing α} {a : α} {sink : Sink} (h : work e.sink = .ok a sink) :
    onSink work e = .ok a { e with sink } := by
  unfold onSink
  rw [h]

theorem onSink_of_error {α : Type} {work : Writing α} {fault : Error} {sink : Sink} (h : work e.sink = .error fault sink) :
    onSink work e = .error fault { e with sink } := by
  unfold onSink
  rw [h]

/-- A descriptor is what the type compiles to, and asking for it leaves the document alone. -/
theorem descriptor_ok {type : TypeName} {d' : Descriptor} (hd : Descriptor.compile s type = .ok d)
    (hready : e.IsReady s attached) (h : descriptor type e = .ok d' e') :
    d' = d ∧ e'.IsReady s attached ∧ e'.Follows s e ∧ e'.sink = e.sink := by
  obtain ⟨registry, hok, hover⟩ := Registry.descriptor_ok hready.registry hd
  unfold descriptor onRegistry at h
  rw [hok] at h
  cases h
  exact ⟨rfl, ⟨hover, hready.multipart, hready.chunks⟩, ⟨hover, .refl _⟩, rfl⟩

/-! ### Contents -/

/-- The attribute by which an element refers to an attachment, if it does. -/
def hrefAttributes (href : Option String) : List (String × String) := (href.map (("href", ·))).toList

/-- From nodes inside an element with an `href`, or with none, the content of a type is read as a value
conveyed. -/
def ReadsInside (P : Passage) (context : Context) (d : Descriptor) (v : Value) (href : Option String)
    (nodes : List Node) : Prop :=
  ∀ (later : Context) (steps : Nat) (ending : Ending) (around : Element) (opened : List Element)
    (tail : List Node), P.Knows later context → sizeOf v ≤ steps →
    around.attribute? none "href" = href →
    P.Delivers (Decoding.readContent later steps d)
      ⟨nodes ++ .finish :: tail, ending, around :: opened⟩ ⟨.finish :: tail, ending, around :: opened⟩
      (P.Conveys v)

/-- How the content of an element has been written. -/
structure ContentWritten (P : Passage) (d : Descriptor) (v : Value) (e e' : Encoder)
    (href body : Option String) (nodes : List Node) : Prop where
  follows : e'.Follows P.schema e
  sink : e'.sink = e.sink.wrote (hrefAttributes href) body
  shows_nodes : ShowsInside (body.getD "") nodes
  nothing : body = none → nodes = []
  no_href : href = none ∨ v.kind = .binary
  reads : ReadsInside P e'.context d v href nodes

/-! ### Texts -/

/-- The nodes that a text shows. -/
def textNodes (text : String) : List Node := if text = "" then [] else [.text text]

/-- Collecting a text takes all of it. -/
theorem foldText_textNodes {σ : Type} {f : σ → String → Except Error σ} {a a' : σ} {text : String}
    (hempty : text = "" → a' = a) (hf : text ≠ "" → f a text = .ok a') (tail : List Node)
    (ending : Ending) (opened : List Element) :
    Cursor.foldText f a ⟨textNodes text ++ .finish :: tail, ending, opened⟩ =
      .ok a' ⟨.finish :: tail, ending, opened⟩ := by
  unfold textNodes
  by_cases h : text = ""
  · rw [if_pos h, hempty h]
    rfl
  · rw [if_neg h]
    unfold Cursor.foldText
    rw [List.singleton_append, Cursor.foldNodes, hf h]
    rfl

theorem readText_textNodes (text : String) (tail : List Node) (ending : Ending) (opened : List Element) :
    Cursor.readText ⟨textNodes text ++ .finish :: tail, ending, opened⟩ =
      .ok text ⟨.finish :: tail, ending, opened⟩ :=
  foldText_textNodes (fun h => h) (fun _ => by rw [String.empty_append]) tail ending opened

theorem peek_cons (n : Node) (tail : List Node) (ending : Ending) (opened : List Element) :
    Cursor.peek ⟨n :: tail, ending, opened⟩ = .ok (some n) ⟨n :: tail, ending, opened⟩ := rfl

/-- The content of a simple type is read as its primitive. -/
theorem readContent_simple {primitive : Primitive} (hshape : d.shape = .simple primitive)
    (context : Context) {steps : Nat} (h : 1 ≤ steps) :
    Decoding.readContent context steps d = Decoding.readPrimitive context primitive := by
  cases steps with
  | zero => cases h
  | succ steps =>
    rw [Decoding.readContent, hshape]

theorem sizeOf_pos (v : Value) : 1 ≤ sizeOf v := by cases v <;> simp <;> omega

/-- A value of a text type is read from its text. -/
theorem written_text {type : TextType} (hshape : d.shape = .simple (.text type))
    (hv : P.sound → type.holds v = true ∧ v.HasWritableInstants) (hready : e.IsReady P.schema P.attached)
    (h : writePrimitive P.files (.text type) v e = .ok () e') :
    ∃ body nodes, ContentWritten P d v e e' none body nodes := by
  unfold writePrimitive at h
  dsimp only at h
  cases hrender : type.render? v with
  | none =>
    rw [hrender] at h
    cases h
  | some written =>
    rw [hrender] at h
    obtain ⟨sink, hsink, rfl⟩ := onSink_ok h
    refine ⟨some (Xml.escape written), textNodes written, hready.follows_write sink, Sink.text_eq hsink,
      Xml.showsInside_text written, fun hnone => absurd hnone (Option.some_ne_none _), .inl rfl, ?_⟩
    intro later steps ending around opened tail _ hsteps _
    have := sizeOf_pos v
    rw [readContent_simple hshape later (by omega)]
    apply Decoding.Delivers.bind Decoding.Delivers.get
    intro st _
    apply Decoding.Delivers.bind (Decoding.Delivers.onCursor (readText_textNodes written tail ending _))
    rintro written rfl
    have hparsed (hs : P.sound) : ∃ v', type.parse written = .ok v' ∧ v.ConveyedAs P.files P.attached v' :=
      TextType.parse_render? (hv hs).1 (hv hs).2 hrender
    cases hparse : type.parse written with
    | ok v' =>
      refine Decoding.Delivers.pure fun hs => ?_
      obtain ⟨v'', hparse', hconveyed⟩ := hparsed hs
      rw [hparse] at hparse'
      cases hparse'
      exact hconveyed
    | error fault =>
      -- Only the text of a value that is not of the type is refused.
      refine Decoding.Delivers.throw (fun hs => ?_) (.of_content _)
      obtain ⟨v'', hparse', _⟩ := hparsed hs
      rw [hparse] at hparse'
      cases hparse'

/-! ### Payloads inline -/

/-- Texts in a row are one text. -/
theorem writeTexts_eq {texts : List String} {sink sink' : Sink} (h : writeTexts texts sink = .ok () sink') :
    sink' = sink.wrote [] (some (Xml.escape (String.join texts))) := by
  induction texts generalizing sink with
  | nil => exact Sink.text_eq h
  | cons t texts ih =>
    obtain ⟨_, last, htexts, hlast⟩ := bind_eq_ok.1 h
    obtain ⟨_, middle, htext, hrest⟩ := bind_eq_ok.1 htexts
    have hbehind : writeTexts texts middle = .ok () sink' := bind_eq_ok.2 ⟨_, last, hrest, hlast⟩
    rw [ih hbehind, Sink.text_eq htext, Sink.wrote_wrote, String.join_cons, Xml.escape_append]
    rfl

/-- Texts can be written where nothing limits the document. -/
theorem writeTexts_ok {sink : Sink} (h : sink.limit = none) (texts : List String) :
    writeTexts texts sink = .ok () (sink.wrote [] (some (Xml.escape (String.join texts)))) := by
  have hok : ∃ sink', writeTexts texts sink = .ok () sink' := by
    induction texts generalizing sink with
    | nil => exact Sink.text_ok h ""
    | cons t texts ih =>
      obtain ⟨middle, htext⟩ := Sink.text_ok h t
      have hmiddle : middle.limit = none := by rw [Sink.text_eq htext]; exact h
      obtain ⟨sink', hrest⟩ := ih hmiddle
      obtain ⟨_, last, htexts, hlast⟩ := bind_eq_ok.1 hrest
      exact ⟨sink', bind_eq_ok.2 ⟨_, last, bind_eq_ok.2 ⟨_, middle, htext, htexts⟩, hlast⟩⟩
  obtain ⟨sink', hok⟩ := hok
  rw [hok, writeTexts_eq hok]

/-- The texts of the chunks in a row are the text of all the bytes. -/
theorem join_encodeChunks {size : Nat} (hpos : 0 < size) (hwhole : size % 3 = 0) (bytes : Bytes) :
    String.join (Base64.encodeChunks size bytes) = String.ofList (Base64.encode bytes) := by
  rw [← String.toList_inj, String.toList_join, String.toList_ofList,
    ← Base64.encode_chunks hpos hwhole bytes, Base64.encodeChunks, List.flatMap_map]
  simp only [String.toList_ofList, List.flatMap_def]

/-- Base64 text does not begin with blanks that could be passed over. -/
theorem skipBlankText_textNodes (bytes : Bytes) (tail : List Node) (ending : Ending)
    (opened : List Element) :
    Decoding.skipBlankText
      ⟨textNodes (String.ofList (Base64.encode bytes)) ++ .finish :: tail, ending, opened⟩ =
        .ok () ⟨textNodes (String.ofList (Base64.encode bytes)) ++ .finish :: tail, ending, opened⟩ := by
  unfold textNodes
  by_cases hempty : String.ofList (Base64.encode bytes) = ""
  · rw [if_pos hempty]
    rfl
  · have hblank : Cursor.isBlankText (.text (String.ofList (Base64.encode bytes))) = false := by
      unfold Cursor.isBlankText Text.allBlank
      dsimp only
      rw [String.toList_ofList, List.all_eq_false]
      cases hlist : Base64.encode bytes with
      | nil => exact absurd (congrArg String.ofList hlist) hempty
      | cons c cs =>
        have hc : c ∈ Base64.encode bytes := by rw [hlist]; exact List.mem_cons_self
        exact ⟨c, List.mem_cons_self, by rw [Base64.isBlank_of_mem_encode hc]; decide⟩
    rw [if_neg hempty]
    unfold Decoding.skipBlankText
    dsimp only
    rw [List.singleton_append, List.dropWhile_cons, hblank, if_neg (by decide)]

/-- Base64 text is read as its bytes, under the next id. -/
theorem readBase64_eq (bytes : Bytes) (registry : Registry) (nonces : Nonces) (tail : List Node) (ending : Ending)
    (opened : List Element) :
    Decoding.readBase64
        ⟨registry, ⟨textNodes (String.ofList (Base64.encode bytes)) ++ .finish :: tail, ending, opened⟩, nonces⟩ =
      .ok (.binary (.ofBytes nonces.next.1 bytes)) ⟨registry, ⟨.finish :: tail, ending, opened⟩, nonces.next.2⟩ := by
  obtain ⟨decoder, hpush, hfinish⟩ := Base64.Decoder.push_encode bytes
  have hfold := @foldText_textNodes Base64.Decoder
    (fun d text => (d.push text.toList).mapError fun fault => .content (.base64 fault)) .start decoder
    (String.ofList (Base64.encode bytes))
    (fun hempty => by
      have hnil : Base64.encode bytes = [] := by
        rw [← @String.toList_ofList (Base64.encode bytes), hempty]
        rfl
      rw [hnil] at hpush
      exact (Except.ok.inj hpush).symm)
    (fun _ => by rw [String.toList_ofList, hpush]; rfl) tail ending opened
  refine (bind_ok (Decoding.onCursor_eq_ok.2 ⟨_, hfold, rfl⟩)).trans ?_
  rw [hfinish]
  rfl

/-- A payload in an element without a reference is read from base64 text. -/
theorem readBinary_inline {around : Element} (hhref : around.attribute? none "href" = none) (context : Context)
    (bytes : Bytes) (registry : Registry) (nonces : Nonces) (tail : List Node) (ending : Ending) (opened : List Element) :
    Decoding.readBinary context
        ⟨registry, ⟨textNodes (String.ofList (Base64.encode bytes)) ++ .finish :: tail, ending, around :: opened⟩, nonces⟩ =
      .ok (.binary (.ofBytes nonces.next.1 bytes))
        ⟨registry, ⟨.finish :: tail, ending, around :: opened⟩, nonces.next.2⟩ := by
  have hread := readBase64_eq bytes registry nonces tail ending (around :: opened)
  have hskip := skipBlankText_textNodes bytes tail ending (around :: opened)
  refine (bind_ok (get_apply _)).trans ?_
  dsimp only [Cursor.current?, List.head?_cons, Option.bind_some]
  rw [hhref]
  refine (bind_ok (Decoding.onCursor_eq_ok.2 ⟨_, hskip, rfl⟩)).trans ?_
  have hpeek (n : Node) (ahead : List Node) :
      Decoding.onCursor Cursor.peek ⟨registry, ⟨n :: ahead, ending, around :: opened⟩, nonces⟩ =
        .ok (some n) ⟨registry, ⟨n :: ahead, ending, around :: opened⟩, nonces⟩ := rfl
  unfold textNodes at hread ⊢
  -- The next node is the text, or the end tag where there is none.
  by_cases hempty : String.ofList (Base64.encode bytes) = ""
  · rw [if_pos hempty] at hread ⊢
    exact (bind_ok (hpeek _ _)).trans hread
  · rw [if_neg hempty] at hread ⊢
    exact (bind_ok (hpeek _ _)).trans hread

/-! ### Payloads attached -/

/-- A reference is resolved by the id of its attachment. -/
theorem resolve_referenceTo (context : Context) (b : Binary) :
    Decoding.resolve context (referenceTo b) = context.resolve b.id := by
  have htoList : (referenceTo b).toList = "cid:".toList ++ (Percent.encode b.id).toList :=
    String.toList_append
  have hblank : ∀ c ∈ (referenceTo b).toList, Text.isBlank c = false := by
    intro c hc
    rw [htoList, List.mem_append] at hc
    rcases hc with hc | hc
    · exact @Text.isBlank_of_any "cid:".toList _ (by decide) hc
    · exact Percent.isBlank_of_mem_encode hc
  have hdrop (cs : List Char) : ("cid:".toList ++ cs).drop 4 = cs := @List.drop_left _ "cid:".toList cs
  unfold Decoding.resolve
  dsimp only
  rw [Text.trim_of_not_blank hblank, htoList,
    if_pos (List.isPrefixOf_iff_prefix.2 (List.prefix_append _ _)), hdrop, String.ofList_toList,
    Percent.decode_encode]

/-- A reference is read as the attachment, if that is known. -/
theorem delivers_readReference {context : Context} {b : Binary}
    (h : P.sound → context.attachment? b.id = some b) (c : Cursor) :
    P.Delivers (Decoding.readReference context (referenceTo b)) c c (P.Conveys (.binary b)) := by
  unfold Decoding.readReference
  rw [resolve_referenceTo, Context.resolve]
  cases hattachment : context.attachment? b.id with
  | some other =>
    refine Decoding.Delivers.pure fun hs => ?_
    rw [h hs] at hattachment
    cases hattachment
    exact .same
  | none =>
    refine Decoding.Delivers.throw (fun hs => ?_) (.of_attachment _)
    rw [h hs] at hattachment
    cases hattachment

/-- A payload in an element that refers to it is the attachment. -/
theorem delivers_readBinary_href {context : Context} {b : Binary}
    (h : P.sound → context.attachment? b.id = some b) {around : Element}
    (hhref : around.attribute? none "href" = some (referenceTo b)) (ahead : List Node) (ending : Ending)
    (opened : List Element) :
    P.Delivers (Decoding.readBinary context) ⟨ahead, ending, around :: opened⟩
      ⟨ahead, ending, around :: opened⟩ (P.Conveys (.binary b)) := by
  apply Decoding.Delivers.bind Decoding.Delivers.get
  intro st hst
  have hcurrent : st.cursor.current?.bind (·.attribute? none "href") = some (referenceTo b) := by
    rw [hst]
    exact hhref
  rw [hcurrent]
  exact delivers_readReference h _

/-- The element that includes an attachment. -/
def includeElement (b : Binary) : Element :=
  ⟨"Include", some Xml.xopNamespace, [⟨none, "href", referenceTo b⟩], none⟩

/-- A payload in an element that holds such an element is the attachment. -/
theorem delivers_readBinary_include {context : Context} {b : Binary}
    (h : P.sound → context.attachment? b.id = some b) {around : Element}
    (hhref : around.attribute? none "href" = none) (tail : List Node) (ending : Ending)
    (opened : List Element) :
    P.Delivers (Decoding.readBinary context)
      ⟨.start (includeElement b) :: .finish :: tail, ending, around :: opened⟩
      ⟨tail, ending, around :: opened⟩ (P.Conveys (.binary b)) := by
  have hblank : Decoding.skipBlankText
      ⟨.start (includeElement b) :: .finish :: tail, ending, around :: opened⟩ =
        .ok () ⟨.start (includeElement b) :: .finish :: tail, ending, around :: opened⟩ := rfl
  have hskip : Cursor.skipElement ⟨.start (includeElement b) :: .finish :: tail, ending, around :: opened⟩ =
      .ok () ⟨tail, ending, around :: opened⟩ :=
    (bind_ok Decoding.expectStart_start).trans Decoding.skipToEnd_finish
  apply Decoding.Delivers.bind Decoding.Delivers.get
  intro st hst
  have hcurrent : st.cursor.current?.bind (·.attribute? none "href") = none := by
    rw [hst]
    exact hhref
  rw [hcurrent]
  apply Decoding.Delivers.bind (Decoding.Delivers.onCursor hblank)
  intro _ _
  apply Decoding.Delivers.bind (Decoding.Delivers.onCursor (peek_cons _ _ _ _))
  rintro _ rfl
  show P.Delivers (Decoding.onCursor Cursor.skipElement >>= fun _ =>
    Decoding.readReference context (referenceTo b)) _ _ _
  apply Decoding.Delivers.bind (Decoding.Delivers.onCursor hskip)
  intro _ _
  exact delivers_readReference h _

/-- A payload in an element without a reference is its bytes, under an id that is given on the way. -/
theorem delivers_readBinary_inline {context : Context} {around : Element}
    (hhref : around.attribute? none "href" = none) (bytes : Bytes) (tail : List Node) (ending : Ending)
    (opened : List Element) :
    P.Delivers (Decoding.readBinary context)
      ⟨textNodes (String.ofList (Base64.encode bytes)) ++ .finish :: tail, ending, around :: opened⟩
      ⟨.finish :: tail, ending, around :: opened⟩ fun v => ∃ id, v = .binary (.ofBytes id bytes) := by
  rintro ⟨registry, _, nonces⟩ hover rfl
  exact .inl ⟨_, _, readBinary_inline hhref context bytes registry nonces tail ending opened, hover, rfl, _, rfl⟩

/-- An attachment that has been registered is known from then on. -/
theorem register_ok {b : Binary} (hover : e.registry.Over s) (h : register b e = .ok () e') :
    e'.Follows s e ∧ e'.context.attachment? b.id = some b ∧ e'.sink = e.sink := by
  unfold register at h
  split at h
  · next context hadd =>
    obtain ⟨hextends, hknown⟩ := Context.extends_add hadd
    cases h
    exact ⟨⟨hover, hextends⟩, hknown, rfl⟩
  · cases h

/-- A reference may be an element of its own. -/
theorem writeReference_include_eq {b : Binary} {sink sink' : Sink}
    (h : writeReference .xopInclude b sink = .ok () sink') :
    sink' = sink.wrote []
      (some (elementText ⟨"xop:Include", Xml.includeAttributes (referenceTo b)⟩ none)) := by
  obtain ⟨_, started, hstart, h⟩ := bind_eq_ok.1 h
  obtain ⟨_, declared, hdeclare, h⟩ := bind_eq_ok.1 h
  obtain ⟨_, referring, hhref, hend⟩ := bind_eq_ok.1 h
  rw [Sink.startElement_eq hstart] at hdeclare
  rw [Sink.declare_eq hdeclare (Sink.hasAttribute_started sink _ _)] at hhref
  rw [Sink.addAttribute_eq hhref, Sink.wrote_attributes] at hend
  exact Sink.endElement_eq hend

/-- A payload is read as the attachment, or as its bytes under another id. -/
theorem written_binary {b : Binary} (hshape : d.shape = .simple .base64Binary)
    (hready : e.IsReady P.schema P.attached) (h : writeBinary P.files (.binary b) e = .ok () e') :
    ∃ href body nodes, ContentWritten P d (.binary b) e e' href body nodes := by
  obtain ⟨_, _, hget, h⟩ := bind_eq_ok.1 h
  cases hget
  rw [hready.multipart] at h
  have hsize := sizeOf_pos (.binary b)
  cases hattached : P.attached with
  | true =>
    rw [hattached, if_pos rfl] at h
    obtain ⟨_, registered, hregister, h⟩ := bind_eq_ok.1 h
    obtain ⟨hfollows, hknown, hsame⟩ := register_ok hready.registry hregister
    obtain ⟨sink, hsink, rfl⟩ := onSink_ok h
    rw [hsame] at hsink
    have hattachment {later : Context} (hlater : P.Knows later registered.context) (hs : P.sound) :
        later.attachment? b.id = some b := hlater hs hattached _ _ hknown
    cases hreference : e.context.reference with
    | href =>
      rw [hreference] at hsink
      refine ⟨some (referenceTo b), none, [], ⟨hfollows.registry, hfollows.context⟩,
        Sink.addAttribute_eq hsink, Xml.shows_nil.inside, fun _ => rfl, .inr rfl, ?_⟩
      intro later steps ending around opened tail hlater hsteps hhref
      rw [readContent_simple hshape later (by omega)]
      exact delivers_readBinary_href (hattachment hlater) hhref _ _ _
    | xopInclude =>
      rw [hreference] at hsink
      refine ⟨none, _, [.start (includeElement b), .finish], ⟨hfollows.registry, hfollows.context⟩,
        writeReference_include_eq hsink, ?_, fun hnone => absurd hnone (Option.some_ne_none _), .inl rfl, ?_⟩
      · exact (Xml.shows_empty (Xml.standsFor_include (referenceTo b))).inside
      · intro later steps ending around opened tail hlater hsteps hhref
        rw [readContent_simple hshape later (by omega)]
        exact delivers_readBinary_include (hattachment hlater) hhref _ _ _
  | false =>
    rw [hattached, if_neg (by decide)] at h
    cases hbytes : b.bytes? P.files with
    | none =>
      rw [hbytes] at h
      cases h
    | some bytes =>
      rw [hbytes] at h
      obtain ⟨sink, hsink, rfl⟩ := onSink_ok h
      have hwritten := writeTexts_eq hsink
      rw [join_encodeChunks hready.chunks.pos hready.chunks.whole] at hwritten
      refine ⟨none, _, textNodes _, hready.follows_write sink, hwritten, Xml.showsInside_text _,
        fun hnone => absurd hnone (Option.some_ne_none _), .inl rfl, ?_⟩
      intro later steps ending around opened tail _ hsteps hhref
      rw [readContent_simple hshape later (by omega)]
      refine (delivers_readBinary_inline hhref bytes tail ending opened).mono ?_
      rintro _ ⟨id, rfl⟩
      exact fun _ => .payload hattached hbytes

/-- **A leaf is read back.** -/
theorem written_leaf {primitive : Primitive} (hshape : d.shape = .simple primitive)
    (hv : P.sound → primitive.holds v = true ∧ v.HasWritableInstants) (hready : e.IsReady P.schema P.attached)
    (h : writePrimitive P.files primitive v e = .ok () e') :
    ∃ href body nodes, ContentWritten P d v e e' href body nodes := by
  cases primitive with
  | text type =>
    obtain ⟨body, nodes, hwritten⟩ := written_text hshape hv hready h
    exact ⟨none, body, nodes, hwritten⟩
  | base64Binary =>
    cases v with
    | binary b => exact written_binary hshape hready h
    | _ => cases h

end Encoding
end SoapBinding
