import SoapBinding.Codec.Decoding
import SoapBinding.Proofs.Codec.Beginning
import SoapBinding.Proofs.Codec.Typing
import SoapBinding.Proofs.Descriptor
import SoapBinding.Proofs.Registry

/-!
# What is read is well typed

Whatever the document, a value that has been read is of the type it was read as. Each rule of the
reader is shown to keep the rule of `Typing` for its place, given that reading the content of a type
does; `readContent` then keeps them all by induction on its steps. The bound on the steps plays no part
otherwise: a reading that runs out of them delivers nothing.

Two things are asked of the schema. A variant may not have a constructor of its own, which could make
anything of the value; and a registered subtype has to be a sequence, since only an object can tell
its type.
-/

namespace SoapBinding

/-- No variant of the schema has a constructor of its own. -/
def Schema.HasPlainVariants (s : Schema) : Prop :=
  ∀ t ∈ s.types, ∀ v ∈ t.2.variants, v.construct = none

/-- Every registered subtype that compiles is a sequence. -/
def Schema.HasSequenceSubtypes (s : Schema) : Prop :=
  ∀ t ∈ s.types, ∀ u ∈ t.2.subtypes, ∀ d, Descriptor.compile s u = .ok d → d.layout = .sequence

namespace Decoding

open Outcome Typing

variable {s : Schema} {α : Type}

/-- The registry of a decoder is over a schema. -/
def Over (s : Schema) (st : Decoder) : Prop := st.registry.Over s

/-! ### Work on the parts of a decoder -/

theorem ensures_onCursor (work : Xml.Reading α) : Ensures (Over s) (onCursor work) fun _ => True := by
  intro st a st' hst h
  unfold onCursor at h
  split at h
  · cases h
    exact ⟨hst, trivial⟩
  · cases h

theorem ensures_onRegistry {work : Typed α} {post : α → Prop}
    (hw : Ensures (Registry.Over s) work post) : Ensures (Over s) (onRegistry work) post := by
  intro st a st' hst h
  unfold onRegistry at h
  split at h
  · next hb =>
    cases h
    exact hw _ _ _ hst hb
  · cases h

theorem ensures_descriptor (type : TypeName) :
    Ensures (Over s) (descriptor type) fun d => Descriptor.compile s type = .ok d :=
  ensures_onRegistry (Registry.ensures_descriptor s type)

theorem ensures_freshBinary (bytes : Bytes) : Ensures (Over s) (freshBinary bytes) fun _ => True := by
  intro st b st' hst h
  cases h
  exact ⟨hst, trivial⟩

/-! ### Leaves -/

theorem ensures_readReference (context : Context) (reference : String) :
    Ensures (Over s) (readReference context reference) (Primitive.base64Binary.holds · = true) := by
  unfold readReference
  cases resolve context reference with
  | ok b => exact Ensures.pure rfl
  | error e => exact Ensures.throw

theorem ensures_readBase64 :
    Ensures (Over s) readBase64 (Primitive.base64Binary.holds · = true) := by
  unfold readBase64
  apply Ensures.bind (ensures_onCursor _)
  intro decoder _
  cases decoder.finish with
  | ok bytes => exact Ensures.bind (ensures_freshBinary bytes) fun b _ => Ensures.pure rfl
  | error fault => exact Ensures.throw

theorem ensures_readBinary (context : Context) :
    Ensures (Over s) (readBinary context) (Primitive.base64Binary.holds · = true) := by
  unfold readBinary
  apply Ensures.bind Ensures.get
  intro st _
  split
  · exact ensures_readReference context _
  · apply Ensures.bind (ensures_onCursor _)
    intro _ _
    apply Ensures.bind (ensures_onCursor _)
    intro node _
    split
    · split
      · exact Ensures.throw
      · exact Ensures.bind (ensures_onCursor _) fun _ _ => ensures_readReference context _
    · exact ensures_readBase64

/-- Text is read as a value of the type's own kind. -/
theorem holds_of_parse {type : TextType} {text : String} {v : Value} (h : type.parse text = .ok v) :
    type.holds v = true := by
  unfold TextType.parse at h
  cases type with
  | boolean =>
    simp only [TextType.parseBoolean] at h
    split at h
    · cases h; rfl
    · split at h
      · cases h; rfl
      · cases h
  | int | long =>
    simp only [TextType.parseInteger] at h
    split at h
    · cases h; rfl
    · cases h
  | double =>
    simp only [TextType.parseDouble] at h
    split at h
    · cases h; rfl
    · cases h
  | decimal =>
    dsimp only at h
    cases hp : TextType.parseDecimal (Text.trim text) with
    | ok d => rw [hp] at h; cases h; rfl
    | error fault => rw [hp] at h; cases h
  | integer =>
    cases hp : TextType.parseDecimal (Text.trim text) with
    | ok d =>
      simp only [hp, bind, Except.bind] at h
      split at h
      · next hi => cases h; exact hi
      · cases h
    | error fault =>
      simp only [hp, bind, Except.bind] at h
      cases h
  | dateTime =>
    simp only [TextType.parseDateTime] at h
    split at h
    · cases h; rfl
    · cases h
  | string => cases h; rfl

theorem ensures_readTextType (type : TextType) :
    Ensures (Over s) (readTextType type) (type.holds · = true) := by
  unfold readTextType
  apply Ensures.bind Ensures.get
  intro st _
  apply Ensures.bind (ensures_onCursor _)
  intro text _
  cases hp : type.parse text with
  | ok v => exact Ensures.pure (holds_of_parse hp)
  | error fault => exact Ensures.throw

theorem ensures_readPrimitive (context : Context) (primitive : Primitive) :
    Ensures (Over s) (readPrimitive context primitive) (primitive.holds · = true) := by
  cases primitive with
  | text type => exact ensures_readTextType type
  | base64Binary => exact ensures_readBinary context

/-! ### Elements

From here on, `content` reads the content of types, and what it delivers is of the type. -/

/-- What is read as the content of a type is of the type. -/
def ReadsContent (s : Schema) (content : Descriptor → Decoding Value) : Prop :=
  ∀ type d, Descriptor.compile s type = .ok d → Ensures (Over s) (content d) (ContentOf s type)

variable {content : Descriptor → Decoding Value} {type : TypeName} {d : Descriptor}

/-- The type that an element is read as is the declared one or a registered subtype. -/
theorem ensures_runtimeType (hd : Descriptor.compile s type = .ok d) (e : Xml.Element) :
    Ensures (Over s) (runtimeType d e) fun d' => Descriptor.compile s d'.name = .ok d' ∧
      (d' = d ∨ d'.name ∈ d.subtypes) := by
  have hdeclared : Descriptor.compile s d.name = .ok d := by
    rw [Descriptor.name_of_compile hd]
    exact hd
  unfold runtimeType
  split
  · exact Ensures.pure ⟨hdeclared, .inl rfl⟩
  · next reference =>
    apply Ensures.ite
    · intro _
      exact Ensures.pure ⟨hdeclared, .inl rfl⟩
    · intro _
      split
      · next subtype hf =>
        apply (ensures_descriptor subtype).mono
        intro d' hd'
        rw [Descriptor.name_of_compile hd']
        exact ⟨hd', .inr (List.mem_of_find?_eq_some hf)⟩
      · exact Ensures.throw

/-- A sequence is the only type whose content can be of a type that is a sequence. -/
theorem object_of_contentOf {v : Value} (hd : Descriptor.compile s type = .ok d)
    (hl : d.layout = .sequence) (hv : ContentOf s type v) : ∃ fields, v = .object type fields := by
  cases hv with
  | leaf hc _ =>
    rw [hd] at hc
    cases hc
    cases hl
  | object => exact ⟨_, rfl⟩
  | choice hc _ _ =>
    rw [hd] at hc
    cases hc
    cases hl

/-- An element is read as no value, where that is admitted, or as one that it may hold. -/
theorem ensures_readWrapped (hsub : s.HasSequenceSubtypes) (hc : ReadsContent s content)
    (hd : Descriptor.compile s type = .ok d) (owner : TypeName) (nilable : Bool) :
    Ensures (Over s) (readWrapped content owner nilable d) fun v =>
      v = .null ∧ nilable = true ∨ ElementOf s type v := by
  unfold readWrapped
  apply Ensures.bind (ensures_onCursor _)
  intro e _
  apply Ensures.ite
  · intro _
    apply Ensures.ite
    · intro hn
      exact Ensures.bind (ensures_onCursor _) fun _ _ => Ensures.pure (.inl ⟨rfl, hn⟩)
    · intro _
      exact Ensures.throw
  · intro _
    apply Ensures.bind (ensures_runtimeType hd e)
    rintro d' ⟨hd', hor⟩
    apply Ensures.bind (hc d'.name d' hd')
    intro v hv
    apply Ensures.bind (ensures_onCursor _)
    intro _ _
    refine Ensures.pure (.inr ?_)
    rcases hor with rfl | hmem
    · rw [Descriptor.name_of_compile hd] at hv
      exact .declared hv
    · obtain ⟨definition, hdef, hu⟩ := Descriptor.subtypes_of_compile hd hmem
      have hl := hsub _ (Schema.mem_of_describe? hdef) _ hu d' hd'
      obtain ⟨fields, rfl⟩ := object_of_contentOf hd' hl hv
      exact .subtype hd hmem hv

/-! ### Properties -/

/-- An element declared of a choice holds one of its choices, since a choice has no subtypes. -/
theorem contentOf_of_isChoice {v : Value} (hd : Descriptor.compile s type = .ok d)
    (hi : d.isChoice = true) (hv : ElementOf s type v) : ContentOf s type v := by
  cases hv with
  | declared hc => exact hc
  | subtype hc hmem _ =>
    rw [hd] at hc
    cases hc
    simp only [Descriptor.isChoice] at hi
    simp only [Descriptor.subtypes] at hmem
    split at hi
    · next hs =>
      rw [hs] at hmem
      cases hmem
    · cases hi

/-- One value of a property is read. -/
theorem ensures_readSingle (hsub : s.HasSequenceSubtypes) (hc : ReadsContent s content)
    (owner : TypeName) (p : Property) (hd : Descriptor.compile s p.type = .ok d) :
    Ensures (Over s) (readSingle content owner p d) (SingleOf s p) := by
  have hcontent : p.isWrapped d = false → Ensures (Over s) (content d) (SingleOf s p) := by
    intro hw
    exact (hc p.type d hd).mono fun v hv => .bare hd hw hv
  unfold readSingle
  apply Ensures.ite
  · intro h
    apply hcontent
    simp only [Bool.and_eq_true, Bool.not_eq_true'] at h
    simp [Property.isWrapped, h.1]
  · intro h
    apply Ensures.bind (ensures_onCursor _)
    intro start _
    cases start with
    | none => exact Ensures.throw
    | some e =>
      cases hi : d.isChoice with
      | true =>
        have hn : p.canBeNil d = true := by simp [Property.canBeNil, hi]
        have hw : p.isWrapped d = false := by simp [Property.isWrapped, hi]
        simp only [if_true]
        apply Ensures.ite
        · intro _
          apply (ensures_readWrapped hsub hc hd owner p.nilable).mono
          rintro v (⟨rfl, hnil⟩ | hv)
          · exact .null hd hn hnil
          · exact .bare hd hw (contentOf_of_isChoice hd hi hv)
        · intro _
          exact hcontent hw
      | false =>
        have hp : p.content = false := by simpa [hi] using h
        simp only [Bool.false_eq_true, if_false]
        apply Ensures.ite
        · intro _
          apply (ensures_readWrapped hsub hc hd owner p.nilable).mono
          rintro v (⟨rfl, hnil⟩ | hv)
          · exact .null hd (by simp [Property.canBeNil, hp]) hnil
          · exact .wrapped hd (by simp [Property.isWrapped, hp, hi]) hv
        · intro _
          exact Ensures.throw

theorem ensures_comesNext (p : Property) : Ensures (Over s) (comesNext p) fun _ => True := by
  unfold comesNext
  apply Ensures.bind (ensures_onCursor _)
  intro start _
  cases start with
  | none => exact Ensures.pure trivial
  | some e =>
    exact (ensures_onRegistry (ensures_property_begins e.localName p)).mono fun _ _ => trivial

/-- Every item of a repeated property is a value of it. -/
theorem ensures_readItems (hsub : s.HasSequenceSubtypes) (hc : ReadsContent s content)
    (owner : TypeName) (p : Property) (hd : Descriptor.compile s p.type = .ok d) (limit : Nat) :
    Ensures (Over s) (readItems content owner p d limit) fun items =>
      ∀ item ∈ items, SingleOf s p item := by
  induction limit with
  | zero => exact Ensures.throw
  | succ limit ih =>
    unfold readItems
    apply Ensures.bind (ensures_comesNext p)
    intro comes _
    apply Ensures.ite
    · intro _
      apply Ensures.bind (ensures_readSingle hsub hc owner p hd)
      intro item hitem
      apply Ensures.bind ih
      intro rest hrest
      apply Ensures.pure
      intro v hv
      rcases List.mem_cons.1 hv with rfl | hv
      · exact hitem
      · exact hrest v hv
    · intro _
      exact Ensures.pure (by simp)

/-- The field of a property is read. -/
theorem ensures_readProperty (hsub : s.HasSequenceSubtypes) (hc : ReadsContent s content)
    (owner : TypeName) (p : Property) :
    Ensures (Over s) (readProperty content owner p) (FieldOf s p) := by
  unfold readProperty
  apply Ensures.bind (ensures_descriptor p.type)
  intro d hd
  have hsingle := ensures_readSingle hsub hc owner p hd
  cases hr : p.repeated with
  | true =>
    simp only [if_true]
    apply Ensures.bind Ensures.get
    intro st _
    apply Ensures.bind (ensures_readItems hsub hc owner p hd _)
    intro items hitems
    exact Ensures.pure (.list hr hitems)
  | false =>
    simp only [Bool.false_eq_true, if_false]
    apply Ensures.ite
    · intro ho
      apply Ensures.bind (ensures_comesNext p)
      intro comes _
      apply Ensures.ite
      · intro _
        exact hsingle.mono fun v hv => .single hr hv
      · intro _
        exact Ensures.pure (.absent hr ho)
    · intro _
      exact hsingle.mono fun v hv => .single hr hv

/-- All fields are read, in the order of their properties. -/
theorem ensures_readProperties (hsub : s.HasSequenceSubtypes) (hc : ReadsContent s content)
    (owner : TypeName) (properties : List Property) :
    Ensures (Over s) (readProperties content owner properties) (FieldsOf s properties) := by
  induction properties with
  | nil => exact Ensures.pure .nil
  | cons p rest ih =>
    unfold readProperties
    apply Ensures.bind (ensures_readProperty hsub hc owner p)
    intro v hv
    apply Ensures.bind ih
    intro fields hfields
    exact Ensures.pure (.cons hv hfields)

/-! ### Variants -/

/-- A choice is read under the tag of one of the variants. -/
theorem ensures_readVariants (hsub : s.HasSequenceSubtypes) (hc : ReadsContent s content)
    (owner : TypeName) (element : String) (variants : List Variant)
    (hplain : ∀ v ∈ variants, v.construct = none) :
    Ensures (Over s) (readVariants content owner element variants) fun value =>
      ∃ v ∈ variants, ∃ inner, value = .choice v.tag inner ∧ VariantOf s v inner := by
  induction variants with
  | nil => exact Ensures.throw
  | cons v rest ih =>
    have hbuild (inner : Value) : v.build inner = .choice v.tag inner := by
      simp [Variant.build, hplain v (by simp)]
    have hrest : Ensures (Over s) (readVariants content owner element rest) fun value =>
        ∃ w ∈ v :: rest, ∃ inner, value = .choice w.tag inner ∧ VariantOf s w inner := by
      apply (ih fun w hw => hplain w (by simp [hw])).mono
      rintro value ⟨w, hw, h⟩
      exact ⟨w, by simp [hw], h⟩
    unfold readVariants
    apply Ensures.bind (ensures_descriptor v.type)
    intro d hd
    cases hv : v.dispatch with
    | element name =>
      apply Ensures.ite
      · intro _
        apply Ensures.bind (ensures_readWrapped hsub hc hd owner true)
        rintro inner (⟨rfl, -⟩ | hi)
        · exact Ensures.pure ⟨v, by simp, .null, hbuild .null, .null hv⟩
        · exact Ensures.pure ⟨v, by simp, inner, hbuild inner, .element hv hi⟩
      · intro _
        exact hrest
    | inline =>
      apply Ensures.bind (ensures_onRegistry (ensures_begins element hd))
      intro begins _
      apply Ensures.ite
      · intro _
        apply Ensures.bind (hc v.type d hd)
        intro inner hi
        exact Ensures.pure ⟨v, by simp, inner, hbuild inner, .inline hv hi⟩
      · intro _
        exact hrest

/-! ### Contents -/

/-- The content of a type is read as a value of the type, in any number of steps. -/
theorem readsContent_readContent (hplain : s.HasPlainVariants) (hsub : s.HasSequenceSubtypes)
    (context : Context) (steps : Nat) : ReadsContent s (readContent context steps) := by
  induction steps with
  | zero =>
    intro type d _
    exact Ensures.throw
  | succ steps ih =>
    intro type d hd
    have hname : d.name = type := Descriptor.name_of_compile hd
    obtain ⟨name, shape⟩ := d
    dsimp only at hname
    subst hname
    unfold readContent
    cases shape with
    | simple primitive =>
      exact (ensures_readPrimitive context primitive).mono fun v hv => .leaf hd hv
    | sequence properties subtypes isAbstract =>
      cases isAbstract with
      | true => exact Ensures.throw
      | false =>
        apply Ensures.bind (ensures_readProperties hsub ih name properties)
        intro fields hfields
        exact Ensures.pure (.object hd hfields)
    | choice variants =>
      obtain ⟨definition, hdef, rfl, -⟩ := Descriptor.variants_of_compile hd rfl
      have hv := hplain _ (Schema.mem_of_describe? hdef)
      apply Ensures.bind (ensures_onCursor _)
      intro start _
      cases start with
      | none => exact Ensures.throw
      | some e =>
        apply (ensures_readVariants hsub ih name e.localName definition.variants hv).mono
        rintro value ⟨v, hmem, inner, rfl, hi⟩
        exact .choice hd hmem hi

/-! ### Values of named types -/

/-- An element is read as no value or as one that it may hold. -/
theorem ensures_readElement (hplain : s.HasPlainVariants) (hsub : s.HasSequenceSubtypes) (context : Context)
    (element : String) (type : TypeName) :
    Ensures (Over s) (readElement context element type) fun v => v = .null ∨ ElementOf s type v := by
  apply Ensures.bind (ensures_descriptor type)
  intro d hd
  apply Ensures.bind (ensures_onCursor _)
  intro start _
  cases start with
  | none => exact Ensures.throw
  | some e =>
    apply Ensures.ite
    · intro _
      apply Ensures.bind Ensures.get
      intro st _
      apply (ensures_readWrapped hsub (readsContent_readContent hplain hsub context _) hd type true).mono
      rintro v (⟨rfl, -⟩ | hv)
      · exact .inl rfl
      · exact .inr hv
    · intro _
      exact Ensures.throw

/-- **Whatever is read is well typed.** The content of a type is read as a value of the type, and an
element declared of it as no value or as one that such an element may hold. -/
theorem read_wellTyped (hplain : s.HasPlainVariants) (hsub : s.HasSequenceSubtypes)
    (context : Context) (type : TypeName) (st : Decoder) (hst : st.registry.Over s) :
    (∀ v st', read context type st = .ok v st' → ContentOf s type v) ∧
    (∀ element v st', readElement context element type st = .ok v st' →
      v = .null ∨ ElementOf s type v) := by
  have hcontent (steps : Nat) := readsContent_readContent hplain hsub context steps
  constructor
  · intro v st' h
    have hread : Ensures (Over s) (read context type) (ContentOf s type) := by
      apply Ensures.bind (ensures_descriptor type)
      intro d hd
      exact Ensures.bind Ensures.get fun st _ => hcontent _ type d hd
    exact (hread st v st' hst h).2
  · intro element v st' h
    have hread := ensures_readElement hplain hsub context element type
    exact (hread st v st' hst h).2

/-! ### An order read

A document with a registered subtype and an item marked nil. -/

/-- Orders of items, which are abstract; a book is an item. -/
def orderSchema : Schema := ⟨[
  (⟨"", "Item"⟩, ⟨.sequence, none, true, [⟨"name", .xsd "string", false, false, false, false⟩], [],
    [⟨"", "Book"⟩]⟩),
  (⟨"", "Book"⟩, ⟨.sequence, some ⟨"", "Item"⟩, false,
    [⟨"pages", .xsd "integer", false, false, true, false⟩], [], []⟩),
  (⟨"", "Order"⟩, ⟨.sequence, none, false, [⟨"number", .xsd "int", false, false, false, false⟩,
    ⟨"item", ⟨"", "Item"⟩, true, false, false, true⟩], [], []⟩)]⟩

/-- An order of a book and of nothing, as a document. -/
def orderText : String :=
  "<order xmlns:i=\"http://www.w3.org/2001/XMLSchema-instance\"> <number>7</number>" ++
  "<item i:type=\"Book\"><name>a</name></item><item i:nil=\"1\"/></order>"

/-- An order of a book and of nothing. -/
def orderValue : Value := .object ⟨"", "Order"⟩ [("number", .int 7),
  ("item", .list [.object ⟨"", "Book"⟩ [("name", .string "a"), ("pages", .null)], .null])]

/-- The order is read, and it is well typed. -/
theorem read_wellTyped_order :
    ∃ v st', readElement Context.inline "order" ⟨"", "Order"⟩
        ⟨.ofSchema orderSchema, .ofSource (.ofBytes (Utf8.ofString orderText)), .fresh⟩ = .ok v st' ∧
      v.same orderValue = true ∧ (v = .null ∨ ElementOf orderSchema ⟨"", "Order"⟩ v) := by
  have hplain : orderSchema.HasPlainVariants := by
    simp [Schema.HasPlainVariants, orderSchema]
  have hsub : orderSchema.HasSequenceSubtypes := by
    intro t ht u hu d hd
    have hall : orderSchema.types.all (fun t => t.2.subtypes.all fun u =>
        (Descriptor.compile orderSchema u).toOption.all (·.layout == .sequence)) = true := by
      decide +kernel
    have hl := List.all_eq_true.1 (List.all_eq_true.1 hall t ht) u hu
    rw [hd] at hl
    simpa [Except.toOption] using hl
  have hread : okWith (fun v _ => v.same orderValue) (readElement Context.inline "order" ⟨"", "Order"⟩
      ⟨.ofSchema orderSchema, .ofSource (.ofBytes (Utf8.ofString orderText)), .fresh⟩) = true := by
    decide +kernel
  obtain ⟨v, st', h, hsame⟩ := exists_of_okWith hread
  exact ⟨v, st', h, hsame, (read_wellTyped hplain hsub Context.inline ⟨"", "Order"⟩ _
    (Registry.over_ofSchema orderSchema)).2 "order" v st' h⟩

end Decoding
end SoapBinding
