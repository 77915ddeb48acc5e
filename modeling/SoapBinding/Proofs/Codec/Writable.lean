import SoapBinding.Proofs.Codec.RoundTrip

/-!
# Values that can be written

Writing a value of a type succeeds where nothing limits the document and the payloads are at hand
(`exists_writeElement`): a value of a type has a text for every leaf and a field for every property.
-/

namespace SoapBinding

open Outcome Typing

namespace Encoding

variable {s : Schema} {files : Files} {type : TypeName} {d nested : Descriptor} {p : Property} {owner : TypeName}
  {v : Value} {opened : List String} {name : String}

/-- An encoder that writes payloads inline to a document without limit, in which these elements are open. -/
structure Stands (s : Schema) (opened : List String) (e : Encoder) : Prop where
  isReady : e.IsReady s false
  sink : e.sink.Stands opened

/-- The work succeeds, and leaves the encoder so. -/
abbrev Succeeds (s : Schema) (opened opened' : List String) (work : Encoding Unit) : Prop :=
  ∀ e, Stands s opened e → ∃ e', work e = .ok () e' ∧ Stands s opened' e'

theorem Succeeds.bind {opened' opened'' : List String} {work : Encoding Unit} {next : Unit → Encoding Unit}
    (hw : Succeeds s opened opened' work) (hn : Succeeds s opened' opened'' (next ())) :
    Succeeds s opened opened'' (work >>= next) := by
  intro e he
  obtain ⟨e', hok, he'⟩ := hw e he
  rw [bind_ok hok]
  exact hn e' he'

theorem Succeeds.pure : Succeeds s opened opened (pure ()) := fun e he => ⟨e, rfl, he⟩

/-- A type that compiles is found, and looking it up leaves all but the registry alone. -/
theorem exists_descriptor (hd : Descriptor.compile s type = .ok d) {e : Encoder} (hover : e.registry.Over s) :
    ∃ registry, descriptor type e = .ok d { e with registry } ∧ registry.Over s := by
  obtain ⟨registry, hok, hover'⟩ := Registry.descriptor_ok hover hd
  refine ⟨registry, ?_, hover'⟩
  unfold descriptor onRegistry
  rw [hok]

theorem Stands.found {e : Encoder} {registry : Registry} (h : Stands s opened e) (hover : registry.Over s) :
    Stands s opened { e with registry } :=
  ⟨⟨hover, h.isReady.multipart, h.isReady.chunks⟩, h.sink⟩

theorem Succeeds.descriptor {next : Descriptor → Encoding Unit} {opened' : List String}
    (hd : Descriptor.compile s type = .ok d) (hn : Succeeds s opened opened' (next d)) :
    Succeeds s opened opened' (descriptor type >>= next) := by
  intro e he
  obtain ⟨registry, hdescriptor, hover⟩ := exists_descriptor hd he.isReady.registry
  rw [bind_ok hdescriptor]
  exact hn _ (he.found hover)

theorem Succeeds.onSink {work : Xml.Writing Unit} {opened' : List String}
    (h : ∀ sink : Xml.Sink, sink.Stands opened → ∃ sink', work sink = .ok () sink' ∧ sink'.Stands opened') :
    Succeeds s opened opened' (onSink work) := by
  intro e he
  obtain ⟨sink, hok, hsink⟩ := h e.sink he.sink
  exact ⟨_, onSink_of_ok hok, he.isReady.write sink, hsink⟩

/-- A text can be written wherever an element is open or none is. -/
theorem succeeds_text (t : String) : Succeeds s opened opened (onSink (Xml.Sink.text t)) := by
  refine .onSink fun sink hsink => ?_
  obtain ⟨sink', hok⟩ := Xml.Sink.text_ok hsink.limit t
  exact ⟨sink', hok, Xml.Sink.text_eq hok ▸ hsink.wrote _ _⟩

theorem succeeds_endElement : Succeeds s (name :: opened) opened (onSink Xml.Sink.endElement) :=
  .onSink fun _ hsink => Xml.Sink.endElement_ok hsink

theorem succeeds_writeTexts (texts : List String) :
    Succeeds s opened opened (onSink (writeTexts texts)) :=
  .onSink fun _ hsink => ⟨_, writeTexts_ok hsink.limit texts, hsink.wrote _ _⟩

theorem succeeds_writeNil (name : String) : Succeeds s opened opened (onSink (writeNil name)) := by
  refine .onSink fun sink hsink => ?_
  obtain ⟨marked, hmark⟩ := Xml.Sink.markNil_ok sink name
  have hmarked : marked.Stands (name :: opened) := Xml.Sink.markNil_eq hmark ▸ (hsink.started name).wrote _ _
  obtain ⟨sink', hend, hsink'⟩ := Xml.Sink.endElement_ok hmarked
  refine ⟨sink', ?_, hsink'⟩
  exact bind_eq_ok.2 ⟨_, _, Xml.Sink.startElement_ok hsink.limit name, bind_eq_ok.2 ⟨_, _, hmark, hend⟩⟩

/-! ### Leaves -/

theorem succeeds_writePrimitive {primitive : Primitive} (h : primitive.holds v = true)
    (hreadable : v.HasReadablePayloads files) : Succeeds s opened opened (writePrimitive files primitive v) := by
  cases primitive with
  | text textType =>
    obtain ⟨text, hrender⟩ := TextType.render?_of_holds h
    unfold writePrimitive
    dsimp only
    rw [hrender]
    exact succeeds_text text
  | base64Binary =>
    cases v with
    | binary b =>
      obtain ⟨bytes, hbytes⟩ := hreadable b (List.mem_singleton_self _)
      intro e he
      have hwrite : writePrimitive files .base64Binary (.binary b) e =
          onSink (writeTexts (Base64.encodeChunks e.context.chunkSize bytes)) e := by
        refine (bind_ok (get_apply e)).trans ?_
        rw [he.isReady.multipart, hbytes]
        rfl
      rw [hwrite]
      exact succeeds_writeTexts _ e he
    | _ => cases h

/-! ### Elements and properties -/

/-- A value can be written as the content of every type that it is of. -/
def IsWritten (s : Schema) (files : Files) (v : Value) : Prop :=
  ∀ {type : TypeName} {d : Descriptor} {opened : List String}, s.Tells type →
    Descriptor.compile s type = .ok d → ContentOf s type v → v.HasReadablePayloads files →
    Succeeds s opened opened (writeContent files d v)

/-- What a value is written as is always found. -/
theorem exists_subtypeOf {e : Encoder} (htells : s.Tells type) (hd : Descriptor.compile s type = .ok d)
    (hover : e.registry.Over s) (v : Value) : ∃ chosen e', subtypeOf d v e = .ok chosen e' := by
  unfold subtypeOf
  rcases v.object? with _ | ⟨u, fields⟩
  · exact ⟨_, _, rfl⟩
  · dsimp only
    by_cases hsubtype : (u != d.name && d.subtypes.contains u) = true
    · rw [if_pos hsubtype]
      obtain ⟨runtime, hruntime⟩ := (htells.subtype hd (by simp at hsubtype; exact hsubtype.2)).compile
      obtain ⟨_, hdescriptor, -⟩ := exists_descriptor hruntime hover
      rw [bind_ok hdescriptor]
      exact ⟨_, _, rfl⟩
    · rw [if_neg hsubtype]
      exact ⟨_, _, rfl⟩

theorem succeeds_writeWrapped (hwritten : IsWritten s files v) (htells : s.Tells type)
    (hd : Descriptor.compile s type = .ok d) (hv : v = .null ∨ ElementOf s type v)
    (hreadable : v.HasReadablePayloads files) : Succeeds s opened opened (writeWrapped files name d v) := by
  rw [writeWrapped]
  cases hnull : v.isNull with
  | true =>
    rw [if_pos rfl]
    exact succeeds_writeNil name
  | false =>
    have hne : v ≠ .null := fun heq => by rw [heq] at hnull; cases hnull
    obtain ⟨htells', hd'⟩ := htells.writtenAs hd v
    have hcontent : Succeeds s (name :: opened) (name :: opened) (writeContent files (s.writtenAs d v) v) :=
      hwritten htells' hd' ((hv.resolve_left hne).writtenAs hd) hreadable
    rw [if_neg (by decide)]
    intro e he
    have hstart := Xml.Sink.startElement_ok he.sink.limit name
    have hready := he.isReady.write (e.sink.started name)
    rw [bind_ok (onSink_of_ok hstart)]
    obtain ⟨chosen, e₁, hchosen⟩ := exists_subtypeOf htells hd hready.registry v
    rw [bind_ok hchosen]
    rcases subtypeOf_ok htells hd hready hchosen with
      ⟨rfl, rfl, hsame⟩ | ⟨fields, runtime, rfl, rfl, hsame, _, _, _, hready₁, _, hsink₁⟩
    · rw [hsame] at hcontent
      exact (hcontent.bind succeeds_endElement) _ ⟨hready, he.sink.started name⟩
    · rw [hsame] at hcontent
      obtain ⟨marked, hmark⟩ := Xml.Sink.markType_ok e.sink name runtime.name
      have hmarked : onSink (Xml.Sink.markType runtime.name) e₁ = .ok () { e₁ with sink := marked } :=
        onSink_of_ok (hsink₁ ▸ hmark)
      dsimp only
      rw [bind_ok hmarked]
      refine (hcontent.bind succeeds_endElement) _ ⟨hready₁.write _, ?_⟩
      show Xml.Sink.Stands _ marked
      exact Xml.Sink.markType_eq hmark ▸ (he.sink.started name).wrote _ _

variable (htells : s.Tells p.type) (hd : Descriptor.compile s p.type = .ok nested) (hcontent : p.content = false)
include htells hd hcontent

/-- A single value of a property can be written, and so can none where the property may be absent. -/
theorem succeeds_writeSingle (hwritten : IsWritten s files v) (hv : v = .null ∧ p.optional = true ∨ SingleOf s p v)
    (hreadable : v.HasReadablePayloads files) : Succeeds s opened opened (writeSingle files owner p v) := by
  rw [writeSingle]
  cases hnull : v.isNull with
  | true =>
    rw [if_pos rfl, writeNothing]
    cases hnilable : p.nilable with
    | true => exact succeeds_writeNil p.name
    | false =>
      have hoptional : p.optional = true := by
        rcases hv with ⟨_, hoptional⟩ | hv
        · exact hoptional
        · obtain rfl : v = .null := by cases v <;> first | rfl | cases hnull
          cases hv with
          | null _ _ hnilable' =>
            rw [hnilable] at hnilable'
            cases hnilable'
          | wrapped _ _ hv => exact absurd rfl hv.ne_null
          | bare _ _ hv => exact absurd rfl hv.ne_null
      rw [if_neg (by decide), if_pos hoptional]
      exact .pure
  | false =>
    have hne : v ≠ .null := fun heq => by rw [heq] at hnull; cases hnull
    have hsingle : SingleOf s p v := hv.resolve_left fun h => hne h.1
    rw [if_neg (by decide)]
    refine .descriptor hd ?_
    rw [hcontent, Bool.false_or]
    cases hchoice : nested.isChoice with
    | true => exact hwritten htells hd (hsingle.contentOf hne hd hchoice) hreadable
    | false => exact succeeds_writeWrapped hwritten htells hd (.inr (hsingle.elementOf hne)) hreadable

theorem succeeds_writeItems {items : List Value} (hwritten : ∀ item ∈ items, IsWritten s files item)
    (hitems : ∀ item ∈ items, SingleOf s p item) (hreadable : ∀ item ∈ items, item.HasReadablePayloads files) :
    Succeeds s opened opened (writeItems files owner p items) := by
  induction items with
  | nil =>
    rw [writeItems]
    exact .pure
  | cons item items ih =>
    rw [writeItems]
    rw [List.forall_mem_cons] at hwritten hitems hreadable
    exact (succeeds_writeSingle htells hd hcontent hwritten.1 (.inr hitems.1) hreadable.1).bind
      (ih hwritten.2 hitems.2 hreadable.2)

theorem succeeds_writeProperty (hwritten : ∀ x, p.IsSingle v x → IsWritten s files x) (hv : FieldOf s p v)
    (hreadable : v.HasReadablePayloads files) : Succeeds s opened opened (writeProperty files owner p v) := by
  unfold writeProperty
  cases hv with
  | @list _ items hrepeated hitems =>
    rw [hrepeated, if_neg (by decide)]
    refine succeeds_writeItems htells hd hcontent (fun item hmem => hwritten item (.item hrepeated hmem)) hitems
      fun item hmem b hb => hreadable b (Value.mem_leaves_list.2 ⟨item, hmem, hb⟩)
  | absent hrepeated hoptional =>
    rw [hrepeated, if_pos (by decide)]
    exact succeeds_writeSingle htells hd hcontent (hwritten _ (.one hrepeated)) (.inl ⟨rfl, hoptional⟩) hreadable
  | single hrepeated hv =>
    rw [hrepeated, if_pos (by decide)]
    exact succeeds_writeSingle htells hd hcontent (hwritten _ (.one hrepeated)) (.inr hv) hreadable

omit htells hd hcontent

theorem succeeds_writeProperties {fields : Fields} {properties : List Property}
    (htells : ∀ p ∈ properties, s.Tells p.type) (hcontent : ∀ p ∈ properties, p.content = false)
    (hwritten : ∀ p ∈ properties, ∀ x, p.IsSingle (fields.valueOf p) x → IsWritten s files x)
    (hv : ∀ p ∈ properties, FieldOf s p (fields.valueOf p))
    (hreadable : ∀ p ∈ properties, (fields.valueOf p).HasReadablePayloads files) :
    Succeeds s opened opened (writeProperties files owner fields properties) := by
  induction properties with
  | nil =>
    rw [writeProperties]
    exact .pure
  | cons p rest ih =>
    rw [writeProperties_cons]
    rw [List.forall_mem_cons] at htells hcontent hwritten hv hreadable
    obtain ⟨nested, hd⟩ := htells.1.compile
    exact (succeeds_writeProperty htells.1 hd hcontent.1 hwritten.1 hv.1 hreadable.1).bind
      (ih htells.2 hcontent.2 hwritten.2 hv.2 hreadable.2)

/-! ### Values -/

theorem HasReadablePayloads.valueOf {fields : Fields}
    (h : (Value.object type fields).HasReadablePayloads files) (p : Property) :
    (fields.valueOf p).HasReadablePayloads files := by
  intro b hb
  unfold Fields.valueOf at hb
  cases hget : fields.get? p.name with
  | none =>
    rw [hget] at hb
    exact nomatch List.mem_singleton.1 hb
  | some w =>
    rw [hget] at hb
    exact h b (Value.mem_leaves_object.2 ⟨_, Fields.mem_of_get? hget, hb⟩)

/-- **Every value can be written** as the content of a type that it is of. -/
theorem isWritten (v : Value) : IsWritten s files v := by
  intro type d opened htells hd hv hreadable
  have htellable := htells.isTellable hd
  obtain rfl := Descriptor.name_of_compile hd
  obtain ⟨name, shape⟩ := d
  cases shape with
  | simple primitive =>
    rw [writeContent]
    exact succeeds_writePrimitive (hv.holds hd) hreadable
  | sequence properties subtypes isAbstract =>
    obtain ⟨fields, rfl, hfields⟩ := hv.exists_fields hd
    have hwritten (p : Property) (x : Value) (hx : p.IsSingle (Fields.valueOf fields p) x) : IsWritten s files x := by
      have hsize : sizeOf x < sizeOf (Value.object name fields) := by
        have hle := hx.sizeOf_le.trans (sizeOf_valueOf_le fields p)
        rw [Value.object.sizeOf_spec]
        omega
      exact @isWritten x
    rw [writeContent]
    exact succeeds_writeProperties (fun p hp => htells.property hd hp) htellable.not_content
      (fun p _ => hwritten p) (fun p hp => hfields.valueOf htellable.names hp)
      fun p _ => HasReadablePayloads.valueOf hreadable p
  | choice variants =>
    obtain ⟨variant, inner, rfl, hfind, hvariant⟩ := hv.exists_variant hd
    have hmem := List.mem_of_find?_eq_some hfind
    have htells' := htells.variant hd hmem
    obtain ⟨nested, hnested⟩ := htells'.compile
    rw [writeContent]
    dsimp only
    rw [hfind]
    refine .descriptor hnested ?_
    cases hvariant with
    | null helement =>
      rw [helement]
      exact succeeds_writeWrapped (isWritten _) htells' hnested (.inl rfl) hreadable
    | element helement hinner =>
      rw [helement]
      exact succeeds_writeWrapped (isWritten inner) htells' hnested (.inr hinner) hreadable
    | inline hinline hinner =>
      rw [hinline]
      exact isWritten inner htells' hnested hinner hreadable
termination_by sizeOf v

/-- **A value of a type can be written** where nothing limits the document. -/
theorem exists_writeElement {e : Encoder} {element : String} (htells : s.Tells type)
    (hv : v = .null ∨ ElementOf s type v) (hreadable : v.HasReadablePayloads files) (hready : e.IsReady s false)
    (hlimit : e.sink.limit = none) : ∃ e', writeElement files element type v e = .ok () e' := by
  obtain ⟨d, hd⟩ := htells.compile
  have hwrites : Succeeds s e.sink.opened e.sink.opened (writeElement files element type v) :=
    .descriptor hd (succeeds_writeWrapped (isWritten v) htells hd hv hreadable)
  obtain ⟨e', hok, _⟩ := hwrites e ⟨hready, hlimit, rfl⟩
  exact ⟨e', hok⟩

end Encoding
end SoapBinding
