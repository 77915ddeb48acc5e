import SoapBinding.Proofs.Codec.Identity
import SoapBinding.Proofs.Codec.Leafwise

/-!
# Values that have been read are written again

A value that has been read is of its type, has its payloads at hand, and shows dateTimes that their texts stand for. So it
can be written, and the document that is written then is read as the same value, whatever the first one looked like:

    writeElement_readElement : … readElement context element type st = .ok v st' → …
      ∃ e', writeElement files element type v e = .ok () e' ∧ …

This asks that what is registered as a subtype be a sequence. An element that is marked with a subtype of another layout
is read as a value that the declared type cannot write (`not_writeElement_word`).
-/

namespace SoapBinding

open Outcome Typing

/-- The bytes of every attachment are at hand. -/
def Context.IsReadable (files : Files) (c : Context) : Prop :=
  ∀ id b, c.attachment? id = some b → ∃ bytes, b.bytes? files = some bytes

/-- What a leaf that has been read is like. -/
structure Value.IsReadLeaf (files : Files) (leaf : Value) : Prop where
  payload : ∀ b, leaf = .binary b → ∃ bytes, b.bytes? files = some bytes
  instant : ∀ t, leaf = .dateTime t → 0 ≤ t.date.year ∧ t.date.year ≤ 9999 → t.IsWritable

theorem Value.isReadLeaf_binary {files : Files} {b : Binary} {bytes : Bytes} (h : b.bytes? files = some bytes) :
    IsReadLeaf files (.binary b) := by
  refine ⟨?_, nofun⟩
  rintro _ ⟨rfl⟩
  exact ⟨bytes, h⟩

/-- What a text stands for is such a leaf. -/
theorem TextType.isReadLeaf_of_parse {type : TextType} {text : String} {v : Value} (files : Files)
    (h : type.parse text = .ok v) : v.IsReadLeaf files := by
  have hholds := Decoding.holds_of_parse h
  refine ⟨?_, ?_⟩
  · rintro b rfl
    cases type <;> cases hholds
  · rintro t rfl hyear
    cases type with
    | dateTime =>
      unfold TextType.parse TextType.parseDateTime at h
      dsimp only at h
      split at h
      · next u hread =>
        cases h
        exact DateTime.isWritable_of_read? hread hyear
      · cases h
    | _ => cases hholds

namespace Decoding

variable {s : Schema} {files : Files} {context : Context}

theorem isReadLeaf_readReference (hcontext : context.IsReadable files) (reference : String) :
    Ensures (Over s) (readReference context reference) (Value.IsReadLeaf files) := by
  unfold readReference resolve Context.resolve
  dsimp only
  cases hattachment : context.attachment? _ with
  | none => exact Ensures.throw
  | some b =>
    obtain ⟨bytes, hbytes⟩ := hcontext _ b hattachment
    exact Ensures.pure (Value.isReadLeaf_binary hbytes)

theorem isReadLeaf_readBase64 : Ensures (Over s) readBase64 (Value.IsReadLeaf files) := by
  have hfresh (bytes : Bytes) : Ensures (Over s) (freshBinary bytes) fun b => b.bytes? files = some bytes := by
    intro st b st' hst h
    cases h
    exact ⟨hst, rfl⟩
  unfold readBase64
  apply Ensures.bind (ensures_onCursor _)
  intro decoder _
  cases decoder.finish with
  | ok bytes => exact Ensures.bind (hfresh bytes) fun b hb => Ensures.pure (Value.isReadLeaf_binary hb)
  | error fault => exact Ensures.throw

/-- **Every leaf that is read** has its payload at hand, or shows a dateTime that its text stands for. -/
theorem isReadLeaf_readPrimitive (hcontext : context.IsReadable files) (primitive : Primitive) :
    Ensures (Over s) (readPrimitive context primitive) (Value.IsReadLeaf files) := by
  have hreference := @isReadLeaf_readReference s files context hcontext
  cases primitive with
  | text type =>
    apply Ensures.bind Ensures.get
    intro st _
    apply Ensures.bind (ensures_onCursor _)
    intro text _
    cases hparse : type.parse text with
    | ok v => exact Ensures.pure (TextType.isReadLeaf_of_parse files hparse)
    | error fault => exact Ensures.throw
  | base64Binary =>
    apply Ensures.bind Ensures.get
    intro st _
    split
    · exact hreference _
    · apply Ensures.bind (ensures_onCursor _)
      intro _ _
      apply Ensures.bind (ensures_onCursor _)
      intro node _
      split
      · split
        · exact Ensures.throw
        · exact Ensures.bind (ensures_onCursor _) fun _ _ => hreference _
      · exact isReadLeaf_readBase64

/-- What a primitive type reads is a leaf. -/
theorem leaves_of_holds {primitive : Primitive} {v : Value} (h : primitive.holds v = true) : v.leaves = [v] := by
  cases v with
  | list | object | choice =>
    cases primitive with
    | text type => cases type <;> cases h
    | base64Binary => cases h
  | _ => rfl

/-- So is every leaf of a value that is read. -/
theorem isReadLeaf_readElement (hcontext : context.IsReadable files) (hplain : s.HasPlainVariants) (element : String)
    (type : TypeName) :
    Ensures (Over s) (readElement context element type) fun v => ∀ leaf ∈ v.leaves, leaf.IsReadLeaf files := by
  refine holds_readElement ((Value.isClosed_leaves ⟨nofun, nofun⟩).assembles hplain) context (fun primitive => ?_) element type
  refine ((isReadLeaf_readPrimitive hcontext primitive).and (ensures_readPrimitive context primitive)).mono ?_
  rintro v ⟨hleaf, hholds⟩
  rwa [leaves_of_holds hholds, List.forall_mem_singleton]

end Decoding

namespace Encoding

variable {s : Schema} {files : Files} {type : TypeName} {e : Encoder}

/-- **A value that has been read can be written, and is read again from there.** -/
theorem writeElement_readElement {context : Context} {element : String} {st st' : Decoder} {v : Value}
    (hconveys : s.Conveys type) (hplain : s.HasPlainVariants) (hsub : s.HasSequenceSubtypes)
    (hname : Xml.IsName element) (hcontext : context.IsReadable files) (hover : st.registry.Over s)
    (hread : Decoding.readElement context element type st = .ok v st')
    (hready : e.IsReady s false) (hempty : e.sink = .empty none) :
    ∃ e' document, writeElement files element type v e = .ok () e' ∧ e'.sink.finish = .ok document ∧
      ((∀ t ∈ v.instants, 0 ≤ t.date.year ∧ t.date.year ≤ 9999) →
        ∀ (later : Context) (registry : Registry) (nonces : Nonces), registry.Over s →
        ∃ v' decoder, Decoding.readElement later element type
            ⟨registry, .ofSource (.ofBytes (Utf8.ofString document)), nonces⟩ = .ok v' decoder ∧
          decoder.cursor = ⟨[], .complete, []⟩ ∧ v.ConveyedAs files false v') := by
  obtain ⟨-, hv⟩ := Decoding.ensures_readElement hplain hsub context element type st v st' hover hread
  obtain ⟨-, hleaves⟩ := Decoding.isReadLeaf_readElement hcontext hplain element type st v st' hover hread
  have hreadable : v.HasReadablePayloads files := fun b hb => (hleaves _ hb).payload b rfl
  have hlimit : e.sink.limit = none := by rw [hempty]; rfl
  obtain ⟨e', hwrite⟩ := exists_writeElement hconveys.tells hv hreadable hready hlimit
  -- The dateTimes matter for what is read, and not for whether the value is written.
  let P : Passage := ⟨s, files, false, ∀ t ∈ v.instants, 0 ≤ t.date.year ∧ t.date.year ≤ 9999⟩
  have hinstants (hyears : P.sound) : v.HasWritableInstants := fun t ht =>
    (hleaves _ (Value.mem_leaves_of_instants v ht)).instant t rfl (hyears t ht)
  obtain ⟨document, hfinish, -, hagain⟩ := @readElement_document type v P e e' element none hconveys.tells hname
    (fun hyears => hv.imp_right fun hv => ⟨hv, hinstants hyears⟩) (hconveys.admitsElement hv) hready hempty hwrite
  refine ⟨e', document, hwrite, hfinish, fun hyears later registry nonces hover' => ?_⟩
  obtain ⟨v', decoder, hok, hcursor, hconveyed⟩ :=
    (hagain later registry nonces (fun _ hattached => nomatch hattached) hover').resolve_right
      fun hunsound => hunsound.1 hyears
  exact ⟨v', decoder, hok, hcursor, hconveyed hyears⟩

/-! ### A bill received

It is written in another way than a sender here would write it. -/

/-- A bill of a book and of nothing, as a document. -/
def billText : String :=
  "<b:bill xmlns:b=\"urn:b\" xmlns:i=\"http://www.w3.org/2001/XMLSchema-instance\"><!-- 2 -->" ++
  "<article i:type=\"Book\"><name>a</name></article> <article i:nil=\"1\">none</article><card>7</card></b:bill>"

/-- The decoder of the bill. -/
def billDecoder : Decoder := ⟨.ofSchema billSchema, .ofSource (.ofBytes (Utf8.ofString billText)), .fresh⟩

theorem billSchema_hasPlainVariants : billSchema.HasPlainVariants := by
  simp [Schema.HasPlainVariants, billSchema]

theorem billSchema_hasSequenceSubtypes : billSchema.HasSequenceSubtypes := by
  intro t ht u hu d hd
  have hall : billSchema.types.all (fun t => t.2.subtypes.all fun u =>
      (Descriptor.compile billSchema u).toOption.all (·.layout == .sequence)) = true := by
    decide +kernel
  have hlayout := List.all_eq_true.1 (List.all_eq_true.1 hall t ht) u hu
  rw [hd] at hlayout
  simpa [Except.toOption] using hlayout

/-- The bill is read, written and read again. -/
theorem writeElement_readElement_bill :
    ∃ v st', Decoding.readElement .inline "bill" ⟨"", "Bill"⟩ billDecoder = .ok v st' ∧
      ∃ e' document, writeElement .none "bill" ⟨"", "Bill"⟩ v billEncoder = .ok () e' ∧
        e'.sink.finish = .ok document ∧
        ((∀ t ∈ v.instants, 0 ≤ t.date.year ∧ t.date.year ≤ 9999) →
          ∀ (later : Context) (registry : Registry) (nonces : Nonces), registry.Over billSchema →
          ∃ v' decoder, Decoding.readElement later "bill" ⟨"", "Bill"⟩
              ⟨registry, .ofSource (.ofBytes (Utf8.ofString document)), nonces⟩ = .ok v' decoder ∧
            decoder.cursor = ⟨[], .complete, []⟩ ∧ v.ConveyedAs .none false v') := by
  have hread : okWith (fun _ _ => true) (Decoding.readElement .inline "bill" ⟨"", "Bill"⟩ billDecoder) = true := by
    unfold billDecoder billText
    rw [Utf8.ofString_ofList_append]
    decide +kernel
  obtain ⟨v, st', h, -⟩ := exists_of_okWith hread
  have hinline : Context.inline.IsReadable .none := by
    intro id b hb
    cases hb
  exact ⟨v, st', h, writeElement_readElement billSchema_conveys billSchema_hasPlainVariants
    billSchema_hasSequenceSubtypes (by decide +kernel) hinline (Registry.over_ofSchema billSchema) h
    billEncoder_isReady rfl⟩

/-! ### A subtype that is no sequence -/

/-- A value that is neither an object nor null is not written as a sequence. -/
theorem not_writeElement_of_not_object {element : String} {v : Value} {d : Descriptor} {properties : List Property}
    {subtypes : List TypeName} {isAbstract : Bool} {e' : Encoder} (hd : Descriptor.compile s type = .ok d)
    (hshape : d.shape = .sequence properties subtypes isAbstract) (hready : e.IsReady s false)
    (hnull : v.isNull = false) (hobject : v.object? = none) : writeElement files element type v e ≠ .ok () e' := by
  intro h
  obtain ⟨d', e₁, hdescriptor, h⟩ := bind_eq_ok.1 h
  obtain ⟨rfl, -⟩ := descriptor_ok hd hready hdescriptor
  rw [writeWrapped, hnull] at h
  obtain ⟨_, e₂, -, h⟩ := bind_eq_ok.1 h
  rw [subtypeOf, hobject] at h
  obtain ⟨chosen, e₃, hchosen, h⟩ := bind_eq_ok.1 h
  cases hchosen
  obtain ⟨_, _, h, -⟩ := bind_eq_ok.1 h
  rw [writeContent, hshape] at h
  cases v with
  | object => cases hobject
  | _ => cases h

/-- Boxes, of which a word is one. -/
def boxSchema : Schema := ⟨[
  (⟨"", "Box"⟩, ⟨.sequence, none, false, [], [], [⟨"", "Word"⟩]⟩),
  (⟨"", "Word"⟩, ⟨.simple, some (.xsd "string"), false, [], [], []⟩)]⟩

/-- The decoder of a box that is a word. -/
def boxDecoder : Decoder := ⟨.ofSchema boxSchema, .ofSource (.ofBytes (Utf8.ofString
  "<box xmlns:i=\"http://www.w3.org/2001/XMLSchema-instance\" i:type=\"Word\">hi</box>")), .fresh⟩

/-- A box that is marked a word is read as a text, and a text is not written as a box. -/
theorem not_writeElement_word :
    boxSchema.Conveys ⟨"", "Box"⟩ ∧ boxSchema.HasPlainVariants ∧
      ∃ st', Decoding.readElement .inline "box" ⟨"", "Box"⟩ boxDecoder = .ok (.string "hi") st' ∧
        ∀ e e' : Encoder, e.IsReady boxSchema false →
          writeElement .none "box" ⟨"", "Box"⟩ (.string "hi") e ≠ .ok () e' := by
  have hbox : Descriptor.compile boxSchema ⟨"", "Box"⟩ = .ok ⟨⟨"", "Box"⟩, .sequence [] [⟨"", "Word"⟩] false⟩ :=
    Descriptor.compile_of_isSequence (by decide +kernel)
  have hconveys : boxSchema.Conveys ⟨"", "Box"⟩ :=
    @Schema.Conveys.of_closed boxSchema _ [⟨"", "Box"⟩, ⟨"", "Word"⟩] (by decide) (by decide +kernel)
  have hread : okWith (fun v _ => v.same (.string "hi"))
      (Decoding.readElement .inline "box" ⟨"", "Box"⟩ boxDecoder) = true := by
    rw [boxDecoder, Utf8.ofString_ofList]
    decide +kernel
  refine ⟨hconveys, by simp [Schema.HasPlainVariants, boxSchema], ?_⟩
  obtain ⟨v, st', h, hsame⟩ := exists_of_okWith hread
  obtain rfl : v = .string "hi" := by
    cases v with
    | string t => simpa [Value.same] using hsame
    | _ => cases hsame
  exact ⟨st', h, fun e e' hready => not_writeElement_of_not_object hbox rfl hready rfl rfl⟩

end Encoding
end SoapBinding
