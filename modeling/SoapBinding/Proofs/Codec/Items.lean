import SoapBinding.Proofs.Codec.Alone
import SoapBinding.Proofs.Codec.NilMarks

/-!
# Items in their places

A list is written item by item, each of them by the way of a single value. Where each item is read back as a list of its own,
and it can be told where the next one begins, the list is read back with the same items in the same places, and so are the
fields beside it (`readElement_items`).

Of a list of which that is not known some items may be lost, or all of it (`not_readElement_items`).
-/

namespace SoapBinding

open Outcome Typing
open Xml (IsName elementText)

namespace Encoding

variable {P : Passage} {element : String} {owner : TypeName} {p : Property} {nested : Descriptor} {e e' : Encoder}

/-- A list is read back where its items are, each by itself, and where it holds no value only if that can be told. -/
theorem fieldReturns_list {items : List Value} (hnames : ∀ name, P.schema.NamesTag name → Xml.IsTagName name)
    (hname : IsName element) (hp : p.IsElemental P.schema nested) (hpname : HasTagName P.schema p) (hrepeated : p.repeated = true)
    (hcontent : p.content = false) (hsound : P.sound) (hisName : IsName p.name)
    (hnulls : .null ∈ items → p.optional = true → p.nilable = true)
    (hitems : ∀ item ∈ items, item ≠ .null → P.ReadsBackAlone element owner p (.list [item]))
    (hapart : ∀ name, P.schema.PropertyBegins name p → ¬P.schema.SingleGoesOn name p) :
    FieldReturns P owner p (.list items) (P.schema.MayLead · p) (P.schema.FieldGoesOn · p) := by
  refine (fieldReturns_items hp hrepeated (fun item hitem => ?_) hapart).imp (fun _ => .begins) fun _ hgoes =>
    hgoes.imp_left fun hbegins => ⟨by rw [hrepeated, Bool.true_or], hbegins⟩
  by_cases hnull : item = .null
  · subst hnull
    have hwrapped (h : p.content = true) : nested.isChoice = true := absurd (hcontent.symm.trans h) Bool.false_ne_true
    exact (singleReturns_nil hisName (hnulls hitem) hwrapped).imp (fun _ => .named) fun _ => False.elim
  · exact singleReturns_of_alone hnames hname hp hpname hrepeated hsound (hitems item hitem hnull)

/-- **No item is lost.** Every list in the field of a property is read back item by item, if each item is read back as a list of
its own, and so are the other fields, if each is read back by itself; as long as no element that may come first of a field
goes on with one in front of it, and none that begins an item goes on with the item in front. -/
theorem readElement_items {s : Schema} {files : Files} {attached : Bool} {d : Descriptor} {type type' : TypeName}
    {properties : List Property} {subtypes : List TypeName} {fields : Fields} {items : List Value} {limit : Option Nat}
    (hd : Descriptor.compile s type = .ok d) (hshape : d.shape = .sequence properties subtypes false)
    (helemental : ∀ q ∈ properties, ∃ nested, q.IsElemental s nested)
    (hnames : ∀ name, s.NamesTag name → Xml.IsTagName name) (hname : IsName element) (hp : p ∈ properties)
    (hisName : IsName p.name) (hrepeated : p.repeated = true) (hcontent : p.content = false)
    (hlist : fields.valueOf p = .list items) (hnulls : .null ∈ items → p.optional = true → p.nilable = true)
    (hitems : ∀ item ∈ items, item ≠ .null →
      Passage.ReadsBackAlone ⟨s, files, attached, True⟩ element type p (.list [item]))
    (hothers : ∀ q ∈ properties, q ≠ p →
      Passage.ReadsBackAlone ⟨s, files, attached, True⟩ element type q (fields.valueOf q))
    (hapart : properties.Pairwise fun q r => ∀ name, s.MayLead name r → ¬s.FieldGoesOn name q)
    (hitem_apart : ∀ name, s.PropertyBegins name p → ¬s.SingleGoesOn name p) (htype : type' = type ∨ type' ∉ subtypes)
    (hready : e.IsReady s attached) (hempty : e.sink = .empty limit)
    (h : writeElement files element type (.object type' fields) e = .ok () e') :
    ∃ document, e'.sink.finish = .ok document ∧
      ∀ (later : Context) (registry : Registry) (nonces : Nonces), (attached = true → later.Knows e'.context) →
        registry.Over s → ∃ (fields' : Fields) (items' : List Value) (t : Decoder),
          Decoding.readElement later element type ⟨registry, .ofSource (.ofBytes (Utf8.ofString document)), nonces⟩ =
            .ok (.object type fields') t ∧
          t.cursor = ⟨[], .complete, []⟩ ∧ fields'.get? p.name = some (.list items') ∧ items'.length = items.length ∧
          Value.ItemsConveyedAs files attached items items' ∧
          Value.FieldsConveyedAs files attached (properties.map fun q => (q.name, fields.valueOf q)) fields' := by
  have htag (q : Property) (hq : q ∈ properties) : HasTagName s q := fun hwritten =>
    hnames _ (.property hd (by rwa [Descriptor.properties, hshape]) hwritten)
  have hreturns (q : Property) (hq : q ∈ properties) :
      FieldReturns ⟨s, files, attached, True⟩ type q (fields.valueOf q) (s.MayLead · q) (s.FieldGoesOn · q) := by
    obtain ⟨nested, hnested⟩ := helemental q hq
    by_cases hqp : q = p
    · rw [hqp] at hnested ⊢
      rw [hlist]
      exact fieldReturns_list hnames hname hnested (htag p hp) hrepeated hcontent trivial hisName hnulls hitems hitem_apart
    · exact fieldReturns_of_alone hnames hname hnested (htag q hq) (hothers q hq hqp)
  obtain ⟨document, hfinish, hread⟩ := @readElement_of_fields ⟨s, files, attached, True⟩ type type' properties fields e e'
    d subtypes element limit (fun q => (s.MayLead · q)) (fun q => (s.FieldGoesOn · q)) hd hshape hname hreturns hapart htype
    hready hempty h
  refine ⟨document, hfinish, fun later registry nonces hlater hover => ?_⟩
  obtain ⟨fields', t, hok, hcursor, hconveyed⟩ := hread later registry nonces (fun _ => hlater) hover
  obtain ⟨v, hget, hv⟩ := (hconveyed trivial).get? (get?_map_valueOf fields hp)
  rw [hlist] at hv
  obtain ⟨items', rfl, hitems'⟩ := hv.items
  exact ⟨fields', items', t, hok, hcursor, hget, hitems'.length_eq, hitems', hconveyed trivial⟩

/-! ### A series of measurements -/

/-- A remark on the series, which may be left out. -/
def remarkProperty : Property := ⟨"remark", ⟨"", "Remark"⟩, false, false, true, false⟩

/-- The measurements, some of which may be missing. -/
def valueProperty : Property := ⟨"value", .xsd "int", true, false, true, true⟩

/-- Their unit. -/
def unitProperty : Property := ⟨"unit", .xsd "string", false, false, false, false⟩

/-- A remark is a text or a code. -/
def seriesSchema : Schema := ⟨[
  (⟨"", "Remark"⟩, ⟨.choice, none, false, [],
    [⟨1, .element "text", .xsd "string", none⟩, ⟨2, .element "code", .xsd "int", none⟩], []⟩),
  (⟨"", "Series"⟩, ⟨.sequence, none, false, [remarkProperty, valueProperty, unitProperty], [], []⟩)]⟩

def seriesEncoder : Encoder := ⟨.ofSchema seriesSchema, .inline, .empty none⟩

def seriesFields : Fields := [("value", .list [.int 1, .null, .int 2]), ("unit", .string "m")]

theorem compile_remark : Descriptor.compile seriesSchema ⟨"", "Remark"⟩ = .ok ⟨⟨"", "Remark"⟩,
    .choice [⟨1, .element "text", .xsd "string", none⟩, ⟨2, .element "code", .xsd "int", none⟩]⟩ := rfl

theorem compile_series : Descriptor.compile seriesSchema ⟨"", "Series"⟩ =
    .ok ⟨⟨"", "Series"⟩, .sequence [remarkProperty, valueProperty, unitProperty] [] false⟩ :=
  Descriptor.compile_of_describe? rfl rfl rfl

/-- What the types of a series compile to. -/
def seriesTypes : List Descriptor := [
  ⟨⟨"", "Remark"⟩, .choice [⟨1, .element "text", .xsd "string", none⟩, ⟨2, .element "code", .xsd "int", none⟩]⟩,
  ⟨⟨"", "Series"⟩, .sequence [remarkProperty, valueProperty, unitProperty] [] false⟩]

theorem seriesSchema_compiles :
    List.Forall₂ (fun t d => Descriptor.compile seriesSchema t.1 = .ok d) seriesSchema.types seriesTypes :=
  .cons compile_remark (.cons compile_series .nil)

theorem remarkProperty_isElemental : ∃ nested, remarkProperty.IsElemental seriesSchema nested := by
  have hnests (type : TypeName) : ¬seriesSchema.Nests ⟨"", "Remark"⟩ type := by
    rintro (⟨hd, hp⟩ | ⟨hd, hv, hinline⟩)
    · rw [compile_remark] at hd
      cases hd
      cases hp
    · rw [compile_remark] at hd
      cases hd
      rcases List.mem_pair.1 hv with rfl | rfl <;> cases hinline
  have hcompiles (type : TypeName) (hreach : seriesSchema.Reaches ⟨"", "Remark"⟩ type) :
      ∃ d, Descriptor.compile seriesSchema type = .ok d := by
    obtain ⟨d, hd, -⟩ := @Schema.exists_of_closed seriesSchema _ _ [⟨"", "Remark"⟩, .xsd "string", .xsd "int"] (fun _ => true)
      (by decide) (by decide) hreach
    exact ⟨d, hd⟩
  have hgrounded : seriesSchema.IsGrounded ⟨"", "Remark"⟩ :=
    @Schema.isGrounded_of_ranks seriesSchema _ (fun type => if type.localName = "Series" then 1 else 0)
      (Descriptor.all_of_compiles seriesSchema_compiles (by decide))
  refine ⟨_, compile_remark, fun _ => hgrounded.isElemental hcompiles fun type d hinner hd primitive hshape => ?_⟩
  cases hinner.cases_head with
  | inl heq =>
    subst heq
    rw [compile_remark] at hd
    cases hd
    cases hshape
  | inr h =>
    obtain ⟨inner, hn, -⟩ := h
    exact hnests inner hn

theorem remarkProperty_goesOn {name : String} (h : seriesSchema.FieldGoesOn name remarkProperty) :
    name ∈ ["remark", "text", "code"] := by
  obtain ⟨-, hname | ⟨hd, -, hbegins⟩⟩ | ⟨d, hd, -, hgoes⟩ := h
  · exact hname ▸ List.mem_cons_self
  · cases compile_remark.symm.trans hd
    obtain _ | ⟨hv, hdispatch | ⟨hinline, -, -⟩⟩ := hbegins
    · rcases List.mem_pair.1 hv with rfl | rfl <;> cases hdispatch <;> decide
    · rcases List.mem_pair.1 hv with rfl | rfl <;> cases hinline
  · cases compile_remark.symm.trans hd
    obtain _ | _ | ⟨hv, hinline, -, -⟩ := hgoes
    rcases List.mem_pair.1 hv with rfl | rfl <;> cases hinline

theorem exists_writeElement_series :
    ∃ e', writeElement .none "series" ⟨"", "Series"⟩ (.object ⟨"", "Series"⟩ seriesFields) seriesEncoder = .ok () e' := by
  obtain ⟨e', hwrite, -⟩ := @Emits.document _ .none _ _ (.object ⟨"", "Series"⟩ seriesFields) "series" _ seriesEncoder compile_series
    (.wrapped rfl rfl (.object rfl (.properties_cons (.absent rfl rfl rfl)
      (.properties_cons (.items rfl (.items_cons (.one_wrapped rfl rfl rfl (.wrapped rfl rfl (.leaf rfl rfl)))
        (.items_cons (.one_marked rfl)
          (.items_cons (.one_wrapped rfl rfl rfl (.wrapped rfl rfl (.leaf rfl rfl))) .items_nil))))
        (.properties_cons (.single rfl rfl rfl rfl (.wrapped rfl rfl (.leaf rfl rfl))) .properties_nil)))))
    (Encoder.isReady_inline seriesSchema none) rfl
  exact ⟨e', hwrite⟩

/-- All measurements are read back, with the missing one in its place. -/
theorem readElement_items_series :
    ∃ e', writeElement .none "series" ⟨"", "Series"⟩ (.object ⟨"", "Series"⟩ seriesFields) seriesEncoder = .ok () e' ∧
      ∃ document, e'.sink.finish = .ok document ∧
        ∀ (later : Context) (registry : Registry) (nonces : Nonces), (false = true → later.Knows e'.context) →
          registry.Over seriesSchema → ∃ (fields' : Fields) (items' : List Value) (t : Decoder),
            Decoding.readElement later "series" ⟨"", "Series"⟩
              ⟨registry, .ofSource (.ofBytes (Utf8.ofString document)), nonces⟩ = .ok (.object ⟨"", "Series"⟩ fields') t ∧
            t.cursor = ⟨[], .complete, []⟩ ∧ fields'.get? "value" = some (.list items') ∧ items'.length = 3 ∧
            Value.ItemsConveyedAs .none false [.int 1, .null, .int 2] items' ∧
            Value.FieldsConveyedAs .none false
              ([remarkProperty, valueProperty, unitProperty].map fun q => (q.name, seriesFields.valueOf q)) fields' := by
  have hready := Encoder.isReady_inline seriesSchema none
  obtain ⟨e', hwrite⟩ := exists_writeElement_series
  have hnames (name : String) (h : seriesSchema.NamesTag name) : Xml.IsTagName name :=
    h.isTagName (Descriptor.all_of_compiles seriesSchema_compiles (by decide))
  have hname : IsName "series" := by decide
  have hvalue : Decoding.IsWrapped seriesSchema valueProperty ⟨.xsd "int", .simple (.text .int)⟩ := ⟨rfl, rfl, rfl⟩
  have hunit : Decoding.IsWrapped seriesSchema unitProperty ⟨.xsd "string", .simple (.text .string)⟩ := ⟨rfl, rfl, rfl⟩
  have hlist : seriesFields.valueOf valueProperty = .list [.int 1, .null, .int 2] := rfl
  have hint : seriesSchema.Conveys (.xsd "int") :=
    @Schema.Conveys.of_closed seriesSchema _ [.xsd "int"] (by decide) (by decide)
  have hstring : seriesSchema.Conveys (.xsd "string") :=
    @Schema.Conveys.of_closed seriesSchema _ [.xsd "string"] (by decide) (by decide)
  refine ⟨e', hwrite, readElement_items compile_series rfl ?_ hnames hname (List.mem_cons_of_mem _ List.mem_cons_self)
    (by decide) rfl rfl hlist (fun _ _ => rfl) ?_ ?_ ?_ (fun _ _ => hvalue.not_singleGoesOn) (.inl rfl) hready rfl
    hwrite⟩
  · rw [List.forall_mem_cons, List.forall_mem_cons, List.forall_mem_singleton]
    exact ⟨remarkProperty_isElemental, ⟨_, hvalue.isElemental⟩, ⟨_, hunit.isElemental⟩⟩
  · intro item hitem hnull
    have hitem : ElementOf seriesSchema (.xsd "int") item ∧ item.HasWritableInstants := by
      simp only [List.mem_cons, List.not_mem_nil, or_false] at hitem
      rcases hitem with rfl | rfl | rfl
      · exact ⟨.declared (.leaf rfl rfl), by decide⟩
      · exact absurd rfl hnull
      · exact ⟨.declared (.leaf rfl rfl), by decide⟩
    refine FieldReturns.alone (fieldReturns_wrapped hnames (by decide) hvalue trivial
      (.of_conveys hint (by decide) trivial (fun _ => nofun) ?_)) hname
    rintro x (h | ⟨-, hmem⟩)
    · cases h
    · rwa [List.mem_singleton.1 hmem]
  · rw [List.forall_mem_cons, List.forall_mem_cons, List.forall_mem_singleton]
    refine ⟨fun _ => ?_, fun h => absurd rfl h, fun _ => ?_⟩
    · obtain ⟨nested, hremark⟩ := remarkProperty_isElemental
      exact FieldReturns.alone (@fieldReturns_absent _ _ _ nested (fun _ => True) hremark rfl rfl) hname
    · refine FieldReturns.alone (fieldReturns_wrapped hnames (by decide) hunit trivial
        (.of_conveys hstring (by decide) trivial nofun ?_)) hname
      rintro _ ⟨⟩
      exact ⟨.declared (.leaf rfl rfl), by decide⟩
  · refine .cons ?_ (.cons ?_ (.cons (List.forall_mem_nil _) .nil))
    · rw [List.forall_mem_cons, List.forall_mem_singleton]
      exact ⟨fun name hleads hgoes => absurd (hvalue.eq_of_mayLead hleads ▸ remarkProperty_goesOn hgoes) (by decide),
        fun name hleads hgoes => absurd (hunit.eq_of_mayLead hleads ▸ remarkProperty_goesOn hgoes) (by decide)⟩
    · rw [List.forall_mem_singleton]
      exact fun name hleads hgoes => absurd ((hunit.eq_of_mayLead hleads).symm.trans (hvalue.eq_of_goesOn hgoes)) (by decide)

/-! ### Rows that are not read back -/

/-- Rows of some properties. There are pairs of numbers, the second of which may be left out, and either of a pair and a second
number. -/
def rowSchema (properties : List Property) (isAbstract : Bool) : Schema := ⟨[
  (⟨"", "Pair"⟩, ⟨.sequence, none, false,
    [⟨"A", .xsd "int", false, false, false, false⟩, ⟨"B", .xsd "int", false, false, true, false⟩], [], []⟩),
  (⟨"", "Part"⟩, ⟨.choice, none, false, [], [⟨1, .inline, ⟨"", "Pair"⟩, none⟩, ⟨2, .element "B", .xsd "int", none⟩], []⟩),
  (⟨"", "Row"⟩, ⟨.sequence, none, isAbstract, properties, [], []⟩)]⟩

def rowEncoder (properties : List Property) (isAbstract : Bool) : Encoder :=
  ⟨.ofSchema (rowSchema properties isAbstract), .inline, .empty none⟩

/-- A row is written as a document. -/
def IsRow (properties : List Property) (isAbstract : Bool) (fields : Fields) (document : String) : Prop :=
  ∃ e', writeElement .none "row" ⟨"", "Row"⟩ (.object ⟨"", "Row"⟩ fields) (rowEncoder properties isAbstract) = .ok () e' ∧
    e'.sink.finish = .ok document

theorem isRow {properties : List Property} {isAbstract : Bool} {fields : Fields} {body : Option String} {document : String}
    (hnamed : properties.any (fun p => p.name.isEmpty && !p.content) = false)
    (h : Emits (rowSchema properties isAbstract) (writeProperties .none ⟨"", "Row"⟩ fields properties) body)
    (htext : elementText ⟨"row", []⟩ body = document) : IsRow properties isAbstract fields document := by
  rw [← htext]
  exact Emits.document (Descriptor.compile_of_describe? rfl rfl hnamed) (.wrapped rfl rfl (.object rfl h))
    (Encoder.isReady_inline _ none) rfl

/-- Reading a row. -/
def readRow (properties : List Property) (isAbstract : Bool) (document : String) : EStateM.Result Error Decoder Value :=
  Decoding.readElement .inline "row" ⟨"", "Row"⟩
    ⟨.ofSchema (rowSchema properties isAbstract), .ofSource (.ofBytes (Utf8.ofString document)), .fresh⟩

/-- A document is read as a row of these fields. -/
def IsReadAsRow (properties : List Property) (document : String) (fields : Fields) : Prop :=
  ∃ v t, readRow properties false document = .ok v t ∧ v.same (.object ⟨"", "Row"⟩ fields) = true

theorem isReadAsRow {properties : List Property} {document : String} {fields : Fields}
    (h : okWith (fun v _ => v.same (.object ⟨"", "Row"⟩ fields)) (readRow properties false document) = true) :
    IsReadAsRow properties document fields := exists_of_okWith h

/-- A document is refused with an error of a kind. -/
def IsRefusedRow (properties : List Property) (isAbstract : Bool) (document : String) (kind : ErrorKind) : Prop :=
  ∃ fault t, readRow properties isAbstract document = .error fault t ∧ fault.kind = kind

theorem isRefusedRow {properties : List Property} {isAbstract : Bool} {document : String} {kind : ErrorKind}
    (h : errorWith (fun fault => fault.kind == kind) (readRow properties isAbstract document) = true) :
    IsRefusedRow properties isAbstract document kind := by
  obtain ⟨fault, t, hfails, hkind⟩ := exists_of_errorWith h
  exact ⟨fault, t, hfails, eq_of_beq hkind⟩

/-- Numbers, none of which has to be there. -/
def looseProperties : List Property := [⟨"n", .xsd "int", false, false, true, true⟩]

/-- Pairs and second numbers. -/
def partProperties : List Property := [⟨"part", ⟨"", "Part"⟩, false, false, false, true⟩]

/-- A pair with no element around it, and more numbers of the name of its second one. -/
def pairedProperties : List Property :=
  [⟨"pair", ⟨"", "Pair"⟩, false, true, false, false⟩, ⟨"B", .xsd "int", false, false, false, true⟩]

/-- A text with no element around it, and numbers. -/
def textProperties : List Property :=
  [⟨"text", .xsd "string", false, true, false, false⟩, ⟨"n", .xsd "int", false, false, false, true⟩]

/-- A pair of a first number only. -/
def halfPair : Value := .object ⟨"", "Pair"⟩ [("A", .int 1), ("B", .null)]

/-- What a pair consists of. -/
def numberProperties : List Property :=
  [⟨"A", .xsd "int", false, false, false, false⟩, ⟨"B", .xsd "int", false, false, true, false⟩]

theorem compile_rowPair {properties : List Property} {isAbstract : Bool} :
    Descriptor.compile (rowSchema properties isAbstract) ⟨"", "Pair"⟩ =
      .ok ⟨⟨"", "Pair"⟩, .sequence numberProperties [] false⟩ :=
  Descriptor.compile_of_describe? rfl rfl rfl

theorem emits_halfPair {properties : List Property} {isAbstract : Bool} : Emits (rowSchema properties isAbstract)
    (writeContent .none ⟨⟨"", "Pair"⟩, .sequence numberProperties [] false⟩ halfPair) (some "<A>1</A>") := by
  have h : Emits (rowSchema properties isAbstract)
      (writeContent .none ⟨⟨"", "Pair"⟩, .sequence numberProperties [] false⟩ halfPair) _ :=
    .object rfl (.properties_cons (.single rfl rfl rfl rfl (.wrapped rfl rfl (.leaf rfl rfl)))
      (.properties_cons (.absent rfl rfl rfl) .properties_nil))
  convert h using 1
  decide

/-- Rows are written, and some items are not read back. An item that is no value is left out where that may be. An item is read
as the rest of the one in front, or as that of the field in front. The elements of items are no text, beside which they
stand; and an abstract type is not read at all. -/
theorem not_readElement_items :
    (IsRow looseProperties false [("n", .list [.int 1, .null, .int 2])] "<row><n>1</n><n>2</n></row>" ∧
      IsReadAsRow looseProperties "<row><n>1</n><n>2</n></row>" [("n", .list [.int 1, .int 2])]) ∧
    (IsRow partProperties false [("part", .list [.choice 1 halfPair, .choice 2 (.int 5)])] "<row><A>1</A><B>5</B></row>" ∧
      IsReadAsRow partProperties "<row><A>1</A><B>5</B></row>"
        [("part", .list [.choice 1 (.object ⟨"", "Pair"⟩ [("A", .int 1), ("B", .int 5)])])]) ∧
    (IsRow pairedProperties false [("pair", halfPair), ("B", .list [.int 5, .int 6])] "<row><A>1</A><B>5</B><B>6</B></row>" ∧
      IsReadAsRow pairedProperties "<row><A>1</A><B>5</B><B>6</B></row>"
        [("pair", .object ⟨"", "Pair"⟩ [("A", .int 1), ("B", .int 5)]), ("B", .list [.int 6])]) ∧
    (IsRow textProperties false [("text", .string "v"), ("n", .list [.int 1])] "<row>v<n>1</n></row>" ∧
      IsRefusedRow textProperties false "<row>v<n>1</n></row>" .parse) ∧
    (IsRow looseProperties true [("n", .list [.int 1])] "<row><n>1</n></row>" ∧
      IsRefusedRow looseProperties true "<row><n>1</n></row>" .configuration) := by
  refine ⟨⟨?_, isReadAsRow (by decide +kernel)⟩, ⟨?_, isReadAsRow (by decide +kernel)⟩, ⟨?_, isReadAsRow (by decide +kernel)⟩,
    ⟨?_, isRefusedRow (by decide +kernel)⟩, ⟨?_, isRefusedRow (by decide +kernel)⟩⟩
  · apply isRow rfl
    · exact .properties_cons (.items rfl (.items_cons (.one_wrapped rfl rfl rfl (.wrapped rfl rfl (.leaf rfl rfl)))
        (.items_cons (.one_absent rfl rfl)
          (.items_cons (.one_wrapped rfl rfl rfl (.wrapped rfl rfl (.leaf rfl rfl))) .items_nil)))) .properties_nil
    · decide
  · apply isRow rfl
    · exact .properties_cons (.items rfl (.items_cons (.one_bare rfl rfl rfl (.inline rfl rfl compile_rowPair rfl emits_halfPair))
        (.items_cons (.one_bare rfl rfl rfl (.element rfl rfl rfl rfl (.wrapped rfl rfl (.leaf rfl rfl)))) .items_nil)))
        .properties_nil
    · decide
  · apply isRow rfl
    · exact .properties_cons (.bare rfl rfl compile_rowPair rfl emits_halfPair)
        (.properties_cons (.items rfl (.items_cons (.one_wrapped rfl rfl rfl (.wrapped rfl rfl (.leaf rfl rfl)))
          (.items_cons (.one_wrapped rfl rfl rfl (.wrapped rfl rfl (.leaf rfl rfl))) .items_nil))) .properties_nil)
    · decide
  · apply isRow rfl
    · exact .properties_cons (.bare rfl rfl rfl rfl (.leaf rfl rfl)) (.properties_cons (.items rfl (.items_cons
        (.one_wrapped rfl rfl rfl (.wrapped rfl rfl (.leaf rfl rfl))) .items_nil)) .properties_nil)
    · decide
  · apply isRow rfl
    · exact .properties_cons
        (.items rfl (.items_cons (.one_wrapped rfl rfl rfl (.wrapped rfl rfl (.leaf rfl rfl))) .items_nil)) .properties_nil
    · decide

end Encoding
end SoapBinding
