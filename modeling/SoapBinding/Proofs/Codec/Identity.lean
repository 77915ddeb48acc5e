import SoapBinding.Proofs.Codec.Conveyable
import SoapBinding.Proofs.Codec.Emitted

/-!
# Writing and reading again

For schemas of plain types, every value of a type that is written inside an element is read from there as the same
value, up to what a document does not tell (`readElement_writeElement`).

Names that are well formed do not suffice for that where an element is marked with a type: the mark may be none that
can be read, or be read as another name (`not_readElement_writeElement`).
-/

namespace SoapBinding

open Typing

variable {s : Schema} {type : TypeName} {v : Value}

/-- In a plain schema a value can be read where it is written, unless something in it is written as an abstract type. -/
theorem Schema.Conveys.admitsElement_of_concrete (h : s.Conveys type)
    (hconcrete : v ≠ .null → ∀ d, Descriptor.compile s type = .ok d →
      ∀ d' v', s.Writes (s.writtenAs d v) v d' v' → d'.isAbstract = false) : s.AdmitsElement type v := by
  intro hne d hd
  obtain ⟨hreach, hd'⟩ := Schema.writtenAs_reaches hd v
  have hconveys : s.Conveys (s.writtenAs d v).name := fun t ht => h t (ht.trans hreach)
  exact ⟨hconcrete hne d hd, hconveys.tellsNils hd' v⟩

/-- A value of a plain type can be read where it is written. -/
theorem Schema.Conveys.admitsElement (h : s.Conveys type) (hv : v = .null ∨ ElementOf s type v) :
    s.AdmitsElement type v := by
  refine h.admitsElement_of_concrete fun hne d hd d' v' hwrites => ?_
  obtain ⟨htells, hd'⟩ := h.tells.writtenAs hd v
  exact ((hv.resolve_left hne).writtenAs hd).concrete htells hd' hwrites

namespace Encoding

variable {attached : Bool} {files : Files} {e e' : Encoder}

/-- **A document is read back as the value that it has been written for**, whole and by every reader that
knows the attachments. -/
theorem readElement_writeElement {element : String} {limit : Option Nat}
    (hconveys : s.Conveys type) (hname : Xml.IsName element) (hv : v = .null ∨ ElementOf s type v)
    (hinstants : v.HasWritableInstants) (hready : e.IsReady s attached) (hempty : e.sink = .empty limit)
    (h : writeElement files element type v e = .ok () e') :
    ∃ document, e'.sink.finish = .ok document ∧
      ∀ (later : Context) (registry : Registry) (nonces : Nonces), later.Knows e'.context →
        registry.Over s →
        ∃ v' decoder, Decoding.readElement later element type
            ⟨registry, .ofSource (.ofBytes (Utf8.ofString document)), nonces⟩ = .ok v' decoder ∧
          decoder.cursor = ⟨[], .complete, []⟩ ∧ v.ConveyedAs files attached v' := by
  have hvalue : v = .null ∨ ElementOf s type v ∧ v.HasWritableInstants := hv.imp_right fun hv => ⟨hv, hinstants⟩
  obtain ⟨document, hfinish, -, hread⟩ := @readElement_document type v ⟨s, files, attached, True⟩ e e' element limit
    hconveys.tells hname (fun _ => hvalue) (hconveys.admitsElement hv) hready hempty h
  refine ⟨document, hfinish, fun later registry nonces hlater hover => ?_⟩
  obtain ⟨v', decoder, hok, hcursor, hconveyed⟩ :=
    (hread later registry nonces (fun _ _ => hlater) hover).resolve_right fun hunsound => hunsound.1 trivial
  exact ⟨v', decoder, hok, hcursor, hconveyed trivial⟩

/-! ### A bill

A bill lists articles, one of which is a book and one of which is missing, and tells how it has been paid. -/

/-- Bills of articles, which are abstract; a book is an article. A bill is paid in cash or by card. -/
def billSchema : Schema := ⟨[
  (⟨"", "Article"⟩, ⟨.sequence, none, true, [⟨"name", .xsd "string", false, false, false, false⟩], [],
    [⟨"", "Book"⟩]⟩),
  (⟨"", "Book"⟩, ⟨.sequence, some ⟨"", "Article"⟩, false,
    [⟨"pages", .xsd "integer", false, false, true, false⟩], [], []⟩),
  (⟨"", "Payment"⟩, ⟨.choice, none, false, [],
    [⟨1, .element "cash", .xsd "boolean", none⟩, ⟨2, .element "card", .xsd "string", none⟩], []⟩),
  (⟨"", "Bill"⟩, ⟨.sequence, none, false, [⟨"article", ⟨"", "Article"⟩, true, false, false, true⟩,
    ⟨"note", .xsd "string", false, false, true, false⟩, ⟨"paid", ⟨"", "Payment"⟩, false, false, false, false⟩], [], []⟩)]⟩

theorem billSchema_conveys : billSchema.Conveys ⟨"", "Bill"⟩ :=
  @Schema.Conveys.of_closed billSchema _
    [⟨"", "Bill"⟩, ⟨"", "Article"⟩, ⟨"", "Book"⟩, ⟨"", "Payment"⟩, .xsd "string", .xsd "integer", .xsd "boolean"]
    (by decide) (by decide +kernel)

/-- A bill of a book and of nothing, paid by card. -/
def billValue : Value := .object ⟨"", "Bill"⟩ [
  ("article", .list [.object ⟨"", "Book"⟩ [("name", .string "<a>"), ("pages", .null)], .null]),
  ("note", .null), ("paid", .choice 2 (.string "7"))]

/-- The encoder of a bill. -/
def billEncoder : Encoder := ⟨.ofSchema billSchema, .inline, .empty none⟩

theorem billEncoder_isReady : billEncoder.IsReady billSchema false := Encoder.isReady_inline billSchema none

theorem billValue_elementOf : ElementOf billSchema ⟨"", "Bill"⟩ billValue := by
  have harticle := @Descriptor.compile_of_isSequence billSchema ⟨"", "Article"⟩
    [⟨"name", .xsd "string", false, false, false, false⟩] [⟨"", "Book"⟩] true (by decide +kernel)
  have hbook := @Descriptor.compile_of_isSequence billSchema ⟨"", "Book"⟩
    [⟨"name", .xsd "string", false, false, false, false⟩, ⟨"pages", .xsd "integer", false, false, true, false⟩] [] false
    (by decide +kernel)
  have hbill := @Descriptor.compile_of_isSequence billSchema ⟨"", "Bill"⟩
    [⟨"article", ⟨"", "Article"⟩, true, false, false, true⟩, ⟨"note", .xsd "string", false, false, true, false⟩,
      ⟨"paid", ⟨"", "Payment"⟩, false, false, false, false⟩] [] false (by decide +kernel)
  have hpayment : Descriptor.compile billSchema ⟨"", "Payment"⟩ = .ok ⟨⟨"", "Payment"⟩, .choice
      [⟨1, .element "cash", .xsd "boolean", none⟩, ⟨2, .element "card", .xsd "string", none⟩]⟩ := rfl
  have hbookOf : ContentOf billSchema ⟨"", "Book"⟩
      (.object ⟨"", "Book"⟩ [("name", .string "<a>"), ("pages", .null)]) :=
    .object hbook (.cons (.single rfl (.leaf rfl rfl rfl)) (.cons (.absent rfl rfl) .nil))
  have harticles : FieldOf billSchema ⟨"article", ⟨"", "Article"⟩, true, false, false, true⟩
      (.list [.object ⟨"", "Book"⟩ [("name", .string "<a>"), ("pages", .null)], .null]) := by
    refine .list rfl ?_
    rw [List.forall_mem_cons, List.forall_mem_singleton]
    exact ⟨.wrapped harticle rfl (.subtype harticle List.mem_cons_self hbookOf), .null harticle rfl rfl⟩
  have hcard : VariantOf billSchema ⟨2, .element "card", .xsd "string", none⟩ (.string "7") :=
    .element rfl (.declared (@ContentOf.leaf _ _ (.text .string) _ rfl rfl))
  have hpaid : ContentOf billSchema ⟨"", "Payment"⟩ (.choice 2 (.string "7")) :=
    .choice hpayment (List.mem_cons_of_mem _ List.mem_cons_self) hcard
  exact .declared (.object hbill (.cons harticles (.cons (.absent rfl rfl)
    (.cons (.single rfl (.bare hpayment rfl hpaid)) .nil))))

/-- The bill is written, and read back. -/
theorem readElement_writeElement_bill :
    ∃ e', writeElement .none "bill" ⟨"", "Bill"⟩ billValue billEncoder = .ok () e' ∧
      ∃ document, e'.sink.finish = .ok document ∧
        ∀ (later : Context) (registry : Registry) (nonces : Nonces), later.Knows e'.context →
          registry.Over billSchema →
          ∃ v' decoder, Decoding.readElement later "bill" ⟨"", "Bill"⟩
              ⟨registry, .ofSource (.ofBytes (Utf8.ofString document)), nonces⟩ = .ok v' decoder ∧
            decoder.cursor = ⟨[], .complete, []⟩ ∧ billValue.ConveyedAs .none false v' := by
  have hreadable : billValue.HasReadablePayloads .none := fun b hb => by
    simp [billValue, Value.leaves, Value.leavesOfItems, Value.leavesOfFields] at hb
  obtain ⟨e', hwrite⟩ := @exists_writeElement _ .none _ _ _ "bill" billSchema_conveys.tells
    (.inr billValue_elementOf) hreadable billEncoder_isReady rfl
  exact ⟨e', hwrite, readElement_writeElement billSchema_conveys (by decide) (.inr billValue_elementOf)
    (by decide) billEncoder_isReady rfl hwrite⟩

/-! ### Pets of a subtype -/

/-- Pets, some of which are known as of a subtype. Neither they nor the others have properties. -/
def petSchema (subtype : TypeName) : Schema := ⟨[
  (⟨"", "Pet"⟩, ⟨.sequence, none, false, [], [], [subtype]⟩), (subtype, ⟨.sequence, none, false, [], [], []⟩)]⟩

/-- A subtype of well-formed names, in a schema where all types compile, of which a pet is written and is not read again. -/
structure IsUnread (subtype : TypeName) (document : String) (kind : ErrorKind) : Prop where
  isName : Xml.IsName subtype.localName
  not_escaped : ∀ c ∈ subtype.space.toList, Xml.isMarkup c = false ∧ c ≠ '&'
  compiles : ∀ type, (petSchema subtype).Reaches ⟨"", "Pet"⟩ type →
    ∃ d, Descriptor.compile (petSchema subtype) type = .ok d ∧ d.properties = [] ∧ d.variants = []
  elementOf : ElementOf (petSchema subtype) ⟨"", "Pet"⟩ (.object subtype [])
  written : ∃ e', writeElement .none "pet" ⟨"", "Pet"⟩ (.object subtype [])
    ⟨.ofSchema (petSchema subtype), .inline, .empty none⟩ = .ok () e' ∧ e'.sink.finish = .ok document
  not_read : ∃ fault st', Decoding.readElement .inline "pet" ⟨"", "Pet"⟩ ⟨.ofSchema (petSchema subtype),
    .ofSource (.ofBytes (Utf8.ofString document)), .fresh⟩ = .error fault st' ∧ fault.kind = kind

theorem isUnread {subtype : TypeName} {document : String} {kind : ErrorKind} (hname : Xml.IsName subtype.localName)
    (hspace : (subtype.space.toList.all fun c => !Xml.isMarkup c && c != '&') = true) (hother : subtype ≠ ⟨"", "Pet"⟩)
    (hpet : Descriptor.isSequence (petSchema subtype) ⟨"", "Pet"⟩ [] [subtype] false = true)
    (hsubtype : Descriptor.isSequence (petSchema subtype) subtype [] [] false = true)
    (htext : Xml.elementText ⟨"pet", Xml.typeAttributes subtype⟩ none = document)
    (hread : Outcome.errorWith (fun fault => fault.kind == kind) (Decoding.readElement .inline "pet" ⟨"", "Pet"⟩
        ⟨.ofSchema (petSchema subtype), .ofSource (.ofBytes (Utf8.ofString document)), .fresh⟩) = true) :
    IsUnread subtype document kind := by
  have hpet := Descriptor.compile_of_isSequence hpet
  have hsubtype := Descriptor.compile_of_isSequence hsubtype
  refine ⟨hname, by simpa using hspace, fun type hreach => ?_, ?_, ?_, ?_⟩
  · obtain ⟨d, hd, hcheck⟩ := @Schema.exists_of_closed _ _ type [⟨"", "Pet"⟩, subtype]
      (fun d => d.properties.isEmpty && d.variants.isEmpty) List.mem_cons_self
      (by simp [hpet, hsubtype, Except.toOption, Descriptor.properties, Descriptor.variants, Descriptor.parts,
        Descriptor.subtypes]) hreach
    exact ⟨d, hd, by simpa using hcheck⟩
  · exact .subtype hpet List.mem_cons_self (.object hsubtype .nil)
  · rw [← htext]
    exact Emits.document hpet (.subtype hother List.mem_cons_self hsubtype (.object rfl .properties_nil))
      (Encoder.isReady_inline _ none) rfl
  · obtain ⟨fault, st', hfails, hkind⟩ := Outcome.exists_of_errorWith hread
    exact ⟨fault, st', hfails, eq_of_beq hkind⟩

/-- Not every element that is marked with a subtype can be read. A reserved namespace cannot be declared, and a blank at the
end of a name is trimmed off, although it may stand in a name of XML. -/
theorem not_readElement_writeElement :
    IsUnread ⟨"http://www.w3.org/XML/1998/namespace", "Dog"⟩
        ("<pet xmlns:xsi=\"http://www.w3.org/2001/XMLSchema-instance\"" ++
          " xmlns:tns=\"http://www.w3.org/XML/1998/namespace\" xsi:type=\"tns:Dog\"/>") .xml ∧
      IsUnread ⟨"", "Dog\u1680"⟩
        "<pet xmlns:xsi=\"http://www.w3.org/2001/XMLSchema-instance\" xsi:type=\"Dog\u1680\"/>" .typeResolution := by
  constructor
  · refine isUnread ?_ ?_ ?_ ?_ ?_ ?_ ?_
    on_goal 7 => rw [Utf8.ofString_ofList_append]
    all_goals decide +kernel
  · refine isUnread ?_ ?_ ?_ ?_ ?_ ?_ ?_
    on_goal 7 => rw [Utf8.ofString_ofList]
    all_goals decide +kernel

end Encoding
end SoapBinding
