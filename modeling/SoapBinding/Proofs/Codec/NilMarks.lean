import SoapBinding.Proofs.Codec.Embedded
import SoapBinding.Proofs.Codec.Emitted
import SoapBinding.Proofs.Codec.Identity
import SoapBinding.Proofs.Codec.Singles

/-!
# Nil marks

A property without a value is written as an element marked nil, if it admits that. The reader takes it for no value again,
whatever the type of the property, and goes on behind it: so the object is read back, if each value that the other properties
hold is read back by itself (`readElement_nil`).

The mark is not looked for where the property is content and no choice, though it is written there as well
(`not_readElement_nil`).
-/

namespace SoapBinding

open Outcome Typing
open Xml (Sink Cursor Element Node Markup Scope ShowsIn IsName elementText)

/-- A value is read back by itself. What has been written for it as an element, wherever that is, can be read from a document
that holds nothing else. -/
def Passage.ReadsBack (P : Passage) (element : String) (type : TypeName) (v : Value) : Prop :=
  ∀ e e', e.IsReady P.schema P.attached → Encoding.writeElement P.files element type v e = .ok () e' →
    ∃ text, e'.sink = e.sink.wrote [] (some text) ∧
      ∀ (later : Context) (registry : Registry) (nonces : Nonces), P.Knows later e'.context → registry.Over P.schema →
        ∃ v' t, Decoding.readElement later element type
          ⟨registry, .ofSource (.ofBytes (Utf8.ofString text)), nonces⟩ = .ok v' t ∧ P.Conveys v v'

/-- That is so for the values of types that can be told. -/
theorem Schema.Tells.readsBack {P : Passage} {element : String} {type : TypeName} {v : Value} (htells : P.schema.Tells type)
    (hname : IsName element) (hsound : P.sound) (hv : ElementOf P.schema type v) (hinstants : v.HasWritableInstants)
    (hadmits : P.schema.AdmitsElement type v) : P.ReadsBack element type v := by
  intro e e' hready h
  obtain ⟨t, inner, hsink, -, hread⟩ :=
    Encoding.readElement_written htells hname (fun _ => .inr ⟨hv, hinstants⟩) hadmits hready h
  refine ⟨elementText t inner, hsink, fun later registry nonces hlater hover => ?_⟩
  obtain ⟨v', decoder, hok, -, hconveyed⟩ | ⟨hunsound, -⟩ := hread later registry nonces hlater hover
  · exact ⟨v', decoder, hok, hconveyed⟩
  · exact absurd hsound hunsound

/-- What is marked nil is read as no value. -/
theorem Decoding.eq_null_of_readElement {context : Context} {element : String} {type : TypeName} {e : Element}
    {rest : List Node} {st t : Decoder} {v : Value} (hdrop : st.cursor.ahead.dropWhile Cursor.isBlankText = .start e :: rest)
    (hnil : e.isNil = true) (h : readElement context element type st = .ok v t) : v = .null := by
  obtain ⟨declared, _, hdescriptor, h⟩ := bind_eq_ok.1 h
  obtain ⟨registry, -, rfl⟩ := onRegistry_eq_ok.1 hdescriptor
  have hpeek : onCursor Cursor.peekStart ⟨registry, st.cursor, st.nonces⟩ = .ok (some e) _ :=
    onCursor_eq_ok.2 ⟨_, Cursor.peekStart_of_start hdrop, rfl⟩
  rw [bind_ok hpeek] at h
  dsimp only at h
  split at h
  · rw [bind_ok (get_apply _)] at h
    obtain ⟨found, _, hstart, h⟩ := bind_eq_ok.1 h
    obtain ⟨c, hcursor, rfl⟩ := onCursor_eq_ok.1 hstart
    obtain ⟨_, hahead, -⟩ := Cursor.expectStart_iff.1 hcursor
    obtain ⟨rfl, -⟩ : e = found ∧ _ := by simpa [Cursor.isBlankText] using hahead
    rw [hnil, if_pos rfl, if_pos rfl] at h
    obtain ⟨_, _, -, h⟩ := bind_eq_ok.1 h
    cases h
    rfl
  · cases h

theorem Value.ConveyedAs.eq_null {files : Files} {attached : Bool} {v : Value} (h : v.ConveyedAs files attached .null) :
    v = .null := by
  cases h
  rfl

namespace Encoding

open Decoding (AreEnough IsWrapped ReadsAs readElement)

variable {P : Passage} {owner type : TypeName} {p : Property} {nested : Descriptor} {v : Value} {e e' : Encoder}

/-- An element that is read back stands for a child that is read as the value, and is not marked nil. -/
theorem exists_child_of_readsBack {element : String} (hnames : ∀ name, P.schema.NamesTag name → Xml.IsTagName name)
    (hname : IsName element) (hsound : P.sound) (hv : v ≠ .null) (hback : P.ReadsBack element type v)
    (hready : e.IsReady P.schema P.attached) (h : writeElement P.files element type v e = .ok () e') :
    ∃ (c : Child) (row : List Markup), c.IsFlush ∧ c.element.localName = element ∧ c.element.isNil = false ∧
      Puts P.schema e e' row ∧
      ShowsIn .initial (Markup.renderAll row) ([c].flatMap Child.nodes) ∧
      ∀ (later : Context) (registry : Registry) (nonces : Nonces), P.Knows later e'.context → registry.Over P.schema →
        ∃ v' t, readElement later element type (c.alone registry nonces) = .ok v' t ∧ P.Conveys v v' := by
  obtain ⟨m, hm, hputs⟩ := exists_puts_of_refers (refers_writeElement hname.toIsTagName hnames type) hready.registry h
  obtain ⟨text, hsink, hread⟩ := hback e e' hready h
  have htext := Sink.getD_eq_of_wrote _ (hputs.sink.symm.trans hsink)
  rw [Markup.rowText_getD, Markup.renderAll, Markup.renderAll, String.append_empty] at htext
  obtain rfl : m.render = text := htext
  have hself : P.Knows e'.context e'.context := fun _ _ => .refl _
  obtain ⟨v', t, hok, hconveyed⟩ := hread e'.context (.ofSchema P.schema) .fresh hself (Registry.over_ofSchema _)
  obtain ⟨ns, htakes⟩ := Decoding.takes_readElement (Registry.over_ofSchema _) hok
  obtain ⟨root, hroot, helement⟩ := htakes.areElement
  have htag : ∀ t ∈ m.tags, Xml.IsTag t := by
    have htags := hputs.tags
    rwa [Markup.tagsAll, Markup.tagsAll, List.append_nil] at htags
  obtain ⟨attributes, body, rfl⟩ := hm
  obtain ⟨first, inner, hinner, hshows⟩ | hbreaks := Markup.shows_or_breaks ⟨attributes, body, rfl⟩ htag .initial
  · let c : Child := ⟨first, .start first :: (inner ++ [.finish]), [], inner, List.forall_mem_nil _, hinner, rfl⟩
    have hsource : Cursor.ofSource (.ofBytes (Utf8.ofString (Markup.around ⟨element, attributes⟩ body).render)) =
        ⟨c.nodes, .complete, []⟩ := by
      rw [Markup.render_around] at hshows ⊢
      exact Xml.ofSource_showsIn hshows
    rw [hsource] at hread hok
    obtain ⟨found, rest, hdrop, hlocal⟩ := Decoding.exists_start_of_readElement hok
    obtain ⟨rfl, -⟩ : first = found ∧ _ := by simpa [c, Cursor.isBlankText] using hdrop
    refine ⟨c, _, ⟨_, rfl⟩, hlocal, ?_, hputs, ?_, hread⟩
    · rw [← Bool.not_eq_true]
      intro hnil
      obtain rfl := Decoding.eq_null_of_readElement hdrop hnil hok
      exact hv (hconveyed hsound).eq_null
    · rw [Markup.renderAll, Markup.renderAll, String.append_empty, List.flatMap_singleton]
      exact hshows
  · -- A reader that has taken the element has come to its end tag.
    rw [Markup.render_around] at hbreaks htakes
    obtain ⟨nodes, fault, hnone, hsource⟩ := Xml.ofSource_breaksIn hbreaks
    have hahead := htakes.ahead
    rw [hsource] at hahead
    exact absurd hahead (hnone root ns _ helement)

/-- In its place, an element that is read back by itself is read as well. -/
theorem singleReturns_wrapped (hnames : ∀ name, P.schema.NamesTag name → Xml.IsTagName name) (hname : IsName p.name)
    (hp : IsWrapped P.schema p nested) (hsound : P.sound) (hv : v ≠ .null) (hback : P.ReadsBack p.name p.type v) :
    SingleReturns P owner p nested v (· = p.name) (fun _ => False) := by
  intro e e' hready h
  have hnull : v.isNull = false := by cases v <;> first | rfl | exact absurd rfl hv
  have helement : writeElement P.files p.name p.type v e = .ok () e' := by
    rw [writeSingle, hnull, if_neg Bool.false_ne_true] at h
    obtain ⟨found, middle, hdescriptor, h⟩ := bind_eq_ok.1 h
    obtain ⟨rfl, -⟩ := descriptor_ok hp.compile hready hdescriptor
    rw [hp.not_content, hp.not_choice, Bool.or_false, if_neg Bool.false_ne_true] at h
    exact bind_eq_ok.2 ⟨found, middle, hdescriptor, h⟩
  obtain ⟨c, row, hflush, hlocal, hnil, hputs, hshows, hread⟩ :=
    exists_child_of_readsBack hnames hname hsound hv hback hready helement
  refine ⟨[c], Decoding.areNext_named hlocal, ⟨row, hputs, hshows⟩, ?_, ?_⟩
  · rintro _ ⟨⟩
    exact ⟨hflush, hlocal⟩
  · intro later steps b rest st hlater hsteps hst _
    have hreads : ReadsAs P.schema later p (P.Conveys v) c :=
      ⟨fun hmark => absurd (hnil.symm.trans hmark) Bool.false_ne_true,
        fun registry nonces hover => hread later registry nonces hlater hover⟩
    exact Decoding.readSingle_ok hp hst hlocal (hsteps.of_append.1.isEnough c List.mem_cons_self) hreads

/-- The field of a property holds what is read back: where values are repeated, a list; no value only where that can be told;
and otherwise values each of which is read back by itself. -/
structure HoldsReadable (P : Passage) (p : Property) (v : Value) : Prop where
  list : p.repeated = true → v ≠ .null
  nil : p.repeated = true → p.IsSingle v .null → p.optional = true → p.nilable = true
  reads : ∀ x, p.IsSingle v x → x ≠ .null → P.ReadsBack p.name p.type x

/-- That is so for values of a type that conveys them. -/
theorem HoldsReadable.of_conveys (hconveys : P.schema.Conveys p.type) (hname : IsName p.name) (hsound : P.sound)
    (hlist : p.repeated = true → v ≠ .null)
    (hvalues : ∀ x, p.IsSingle v x → ElementOf P.schema p.type x ∧ x.HasWritableInstants) : HoldsReadable P p v := by
  refine ⟨hlist, fun _ hnull => absurd rfl (hvalues _ hnull).1.ne_null, fun x hx _ => ?_⟩
  obtain ⟨htyped, hinstants⟩ := hvalues x hx
  exact hconveys.tells.readsBack hname hsound htyped hinstants (hconveys.admitsElement (.inr htyped))

/-- What stands in elements of a property's own is read back, in front of any others. -/
theorem fieldReturns_wrapped (hnames : ∀ name, P.schema.NamesTag name → Xml.IsTagName name) (hname : IsName p.name)
    (hp : IsWrapped P.schema p nested) (hsound : P.sound) (hv : HoldsReadable P p v) :
    FieldReturns P owner p v (· = p.name) (· = p.name) := by
  have hcontent (h : p.content = true) : nested.isChoice = true := absurd (hp.not_content.symm.trans h) Bool.false_ne_true
  have hsingle (x : Value) (hx : p.IsSingle v x) (hnil : x = .null → p.optional = true → p.nilable = true) :
      SingleReturns P owner p nested x (· = p.name) (fun _ => False) := by
    by_cases hnull : x = .null
    · rw [hnull]
      exact singleReturns_nil hname (hnil hnull) hcontent
    · exact singleReturns_wrapped hnames hname hp hsound hnull (hv.reads x hx hnull)
  cases hrepeated : p.repeated with
  | true =>
    cases v with
    | list items =>
      have hitem (item : Value) (hitem : item ∈ items) :
          SingleReturns P owner p nested item (· = p.name) (fun _ => False) :=
        hsingle item (.item hrepeated hitem) fun hnull => hv.nil hrepeated (hnull ▸ .item hrepeated hitem)
      exact (fieldReturns_items hp.isElemental hrepeated hitem fun _ _ => id).imp (fun _ => id)
        fun _ h => hp.eq_of_begins (h.resolve_right id)
    | null => exact absurd rfl (hv.list hrepeated)
    | _ =>
      intro e e' _ h
      unfold writeProperty at h
      rw [hrepeated, Bool.not_true, if_neg Bool.false_ne_true] at h
      cases h
  | false =>
    by_cases hnull : v = .null ∧ p.nilable = false
    · obtain ⟨rfl, hnilable⟩ := hnull
      exact (fieldReturns_absent hp.isElemental hrepeated hnilable).imp (fun _ => id) fun _ => hp.eq_of_begins
    · refine (fieldReturns_single hp.compile hrepeated (hsingle v (.one hrepeated) fun hv _ => ?_)).imp (fun _ => id)
        fun _ => False.elim
      simpa using fun h => hnull ⟨hv, h⟩

/-- **No value is read back from a nil mark**, and neither it nor its absence is in the way of the other fields: every object
with no value of a property that may be nil is read back with no value there, and with each other field as it has been
conveyed. -/
theorem readElement_nil {s : Schema} {files : Files} {attached : Bool} {d : Descriptor} {properties : List Property}
    {subtypes : List TypeName} {type' : TypeName} {fields : Fields} {element : String} {limit : Option Nat}
    (hd : Descriptor.compile s type = .ok d) (hshape : d.shape = .sequence properties subtypes false)
    (hnames : ∀ name, s.NamesTag name → Xml.IsTagName name) (hname : IsName element)
    (hproperties : ∀ q ∈ properties, IsName q.name) (hnodup : (properties.map (·.name)).Nodup) (hp : p ∈ properties)
    (hnested : Descriptor.compile s p.type = .ok nested) (hrepeated : p.repeated = false) (hnilable : p.nilable = true)
    (hcontent : p.content = true → nested.isChoice = true) (hnull : fields.valueOf p = .null)
    (hothers : ∀ q ∈ properties, q ≠ p →
      (∃ nested, IsWrapped s q nested) ∧ HoldsReadable ⟨s, files, attached, True⟩ q (fields.valueOf q))
    (htype : type' = type ∨ type' ∉ subtypes) (hready : e.IsReady s attached) (hempty : e.sink = .empty limit)
    (h : writeElement files element type (.object type' fields) e = .ok () e') :
    ∃ document, e'.sink.finish = .ok document ∧
      ∀ (later : Context) (registry : Registry) (nonces : Nonces), (attached = true → later.Knows e'.context) →
        registry.Over s → ∃ (fields' : Fields) (t : Decoder),
          readElement later element type ⟨registry, .ofSource (.ofBytes (Utf8.ofString document)), nonces⟩ =
            .ok (.object type fields') t ∧
          t.cursor = ⟨[], .complete, []⟩ ∧ fields'.get? p.name = some .null ∧
          ∀ q ∈ properties, q ≠ p → ∃ v, fields'.get? q.name = some v ∧ (fields.valueOf q).ConveyedAs files attached v := by
  have hreturns (q : Property) (hq : q ∈ properties) :
      FieldReturns ⟨s, files, attached, True⟩ type q (fields.valueOf q) (· = q.name) (· = q.name) := by
    by_cases hqp : q = p
    · rw [hqp, hnull]
      have hsingle : SingleReturns ⟨s, files, attached, True⟩ type p nested .null (· = p.name) (fun _ => False) :=
        singleReturns_nil (hproperties p hp) (fun _ => hnilable) hcontent
      exact (fieldReturns_single hnested hrepeated hsingle).imp (fun _ => id) fun _ => False.elim
    · obtain ⟨⟨_, hwrapped⟩, hreadable⟩ := hothers q hq hqp
      exact fieldReturns_wrapped hnames (hproperties q hq) hwrapped trivial hreadable
  have hapart : properties.Pairwise fun q r => ∀ name, name = r.name → ¬name = q.name :=
    (List.pairwise_map.1 hnodup).imp fun hne _ hr hq => hne (hq.symm.trans hr)
  obtain ⟨document, hfinish, hread⟩ := @readElement_of_fields ⟨s, files, attached, True⟩ type type' properties fields e e' d
    subtypes element limit (fun q => (· = q.name)) (fun q => (· = q.name)) hd hshape hname hreturns hapart htype hready hempty
    h
  refine ⟨document, hfinish, fun later registry nonces hlater hover => ?_⟩
  obtain ⟨fields', t, hok, hcursor, hconveyed⟩ := hread later registry nonces (fun _ => hlater) hover
  refine ⟨fields', t, hok, hcursor, ?_, fun q hq _ => (hconveyed trivial).get? (get?_map_valueOf fields hq)⟩
  obtain ⟨v, hv, hnil⟩ := (hconveyed trivial).get? (get?_map_valueOf fields hp)
  rw [hnull] at hnil
  cases hnil
  exact hv

/-! ### Cards with a note -/

/-- The count of a card. -/
def countProperty : Property := ⟨"count", .xsd "int", false, false, false, false⟩

/-- Cards of a note and a count. A note may be a text or a code. -/
def cardSchema (note : Property) : Schema := ⟨[
  (⟨"", "Note"⟩, ⟨.choice, none, false, [], [⟨1, .element "text", .xsd "string", none⟩, ⟨2, .element "code", .xsd "int", none⟩],
    []⟩),
  (⟨"", "Card"⟩, ⟨.sequence, none, false, [note, countProperty], [], []⟩)]⟩

def cardEncoder (note : Property) : Encoder := ⟨.ofSchema (cardSchema note), .inline, .empty none⟩

/-- A note as the content of its card, which may be nil. -/
def choiceNote : Property := ⟨"note", ⟨"", "Note"⟩, true, true, false, false⟩

theorem compile_card {note : Property} (hname : note.name = "note") :
    Descriptor.compile (cardSchema note) ⟨"", "Card"⟩ = .ok ⟨⟨"", "Card"⟩, .sequence [note, countProperty] [] false⟩ := by
  refine Descriptor.compile_of_describe? rfl rfl ?_
  rw [List.any_cons, hname]
  rfl

/-- A count and no note. -/
def cardFields : Fields := [("note", .null), ("count", .int 3)]

/-- A card without a note is written as a document. -/
def cardText : String :=
  "<card><note xmlns:xsi=\"http://www.w3.org/2001/XMLSchema-instance\" xsi:nil=\"true\"/><count>3</count></card>"

/-- That is so whether the note is the content of the card or not. -/
theorem exists_writeElement_card {note : Property} (hname : note.name = "note") (hrepeated : note.repeated = false) (hnilable : note.nilable = true) :
    ∃ e', writeElement .none "card" ⟨"", "Card"⟩ (.object ⟨"", "Card"⟩ cardFields) (cardEncoder note) = .ok () e' ∧
      e'.sink.finish = .ok cardText := by
  have hnull : cardFields.valueOf note = .null := by
    rw [Fields.valueOf, hname]
    rfl
  have hnote : Emits (cardSchema note) (writeProperty .none ⟨"", "Card"⟩ note (cardFields.valueOf note))
      (some (elementText ⟨"note", Xml.nilAttributes⟩ none)) :=
    hnull ▸ hname ▸ .marked hrepeated hnilable
  obtain ⟨e', hwrite, hfinish⟩ := @Emits.document _ .none _ _ (.object ⟨"", "Card"⟩ cardFields) "card" _ (cardEncoder note)
    (compile_card hname)
    (.wrapped rfl rfl (.object rfl (.properties_cons hnote
      (.properties_cons (.single rfl rfl rfl rfl (.wrapped rfl rfl (.leaf rfl rfl))) .properties_nil))))
    (Encoder.isReady_inline _ none) rfl
  exact ⟨e', hwrite, hfinish.trans (congrArg _ (by decide))⟩

/-- The count is read back, and no note. -/
theorem readElement_nil_card :
    ∃ e', writeElement .none "card" ⟨"", "Card"⟩ (.object ⟨"", "Card"⟩ cardFields) (cardEncoder choiceNote) = .ok () e' ∧
      ∃ document, e'.sink.finish = .ok document ∧
        ∀ (later : Context) (registry : Registry) (nonces : Nonces), (false = true → later.Knows e'.context) →
          registry.Over (cardSchema choiceNote) → ∃ (fields' : Fields) (t : Decoder),
            readElement later "card" ⟨"", "Card"⟩ ⟨registry, .ofSource (.ofBytes (Utf8.ofString document)), nonces⟩ =
              .ok (.object ⟨"", "Card"⟩ fields') t ∧
            t.cursor = ⟨[], .complete, []⟩ ∧ fields'.get? "note" = some .null ∧
            ∀ q ∈ [choiceNote, countProperty], q ≠ choiceNote →
              ∃ v, fields'.get? q.name = some v ∧ (cardFields.valueOf q).ConveyedAs .none false v := by
  obtain ⟨e', hwrite, -⟩ := @exists_writeElement_card choiceNote rfl rfl rfl
  have hint : (cardSchema choiceNote).Conveys (.xsd "int") :=
    @Schema.Conveys.of_closed (cardSchema choiceNote) _ [.xsd "int"] (by decide) (by decide)
  have hcount : ElementOf (cardSchema choiceNote) (.xsd "int") (.int 3) := .declared (.leaf rfl rfl)
  have hothers : ∀ q ∈ [choiceNote, countProperty], q ≠ choiceNote →
      (∃ nested, IsWrapped (cardSchema choiceNote) q nested) ∧
        HoldsReadable ⟨cardSchema choiceNote, .none, false, True⟩ q (cardFields.valueOf q) := by
    rw [List.forall_mem_cons, List.forall_mem_singleton]
    refine ⟨fun hne => absurd rfl hne, fun _ => ⟨⟨_, rfl, rfl, rfl⟩, .of_conveys hint (by decide) trivial nofun ?_⟩⟩
    rintro _ ⟨⟩
    exact ⟨hcount, by decide⟩
  have htypes : List.Forall₂ (fun t d => Descriptor.compile (cardSchema choiceNote) t.1 = .ok d) (cardSchema choiceNote).types
      [⟨⟨"", "Note"⟩, .choice [⟨1, .element "text", .xsd "string", none⟩, ⟨2, .element "code", .xsd "int", none⟩]⟩,
        ⟨⟨"", "Card"⟩, .sequence [choiceNote, countProperty] [] false⟩] := .cons rfl (.cons (compile_card rfl) .nil)
  have hnames (name : String) (h : (cardSchema choiceNote).NamesTag name) : Xml.IsTagName name :=
    h.isTagName (Descriptor.all_of_compiles htypes (by decide))
  have hname : IsName "card" := by decide
  exact ⟨e', hwrite, readElement_nil (@compile_card choiceNote rfl) rfl hnames hname (by decide) (by decide) List.mem_cons_self rfl rfl rfl (fun _ => rfl) rfl hothers (.inl rfl)
    (Encoder.isReady_inline _ none) rfl hwrite⟩

/-- A note that is a text, as the content of its card, which may be nil. -/
def textNote : Property := ⟨"note", .xsd "string", true, true, false, false⟩

/-- A content that is no choice is marked nil as well. Its mark is not looked for: the card is written, and not read back. -/
theorem not_readElement_nil :
    (∃ e', writeElement .none "card" ⟨"", "Card"⟩ (.object ⟨"", "Card"⟩ cardFields) (cardEncoder textNote) = .ok () e' ∧
      e'.sink.finish = .ok cardText) ∧
    ∃ fault t, readElement .inline "card" ⟨"", "Card"⟩ ⟨.ofSchema (cardSchema textNote),
        .ofSource (.ofBytes (Utf8.ofString cardText)), .fresh⟩ = .error fault t ∧ fault.kind = .parse := by
  have hfails : errorWith (fun fault => fault.kind == .parse) (readElement .inline "card" ⟨"", "Card"⟩
      ⟨.ofSchema (cardSchema textNote), .ofSource (.ofBytes (Utf8.ofString cardText)), .fresh⟩) = true := by
    unfold cardText
    rw [Utf8.ofString_ofList]
    decide +kernel
  obtain ⟨fault, t, hread, hkind⟩ := exists_of_errorWith hfails
  exact ⟨exists_writeElement_card rfl rfl rfl, fault, t, hread, eq_of_beq hkind⟩

end Encoding
end SoapBinding
