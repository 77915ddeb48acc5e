import SoapBinding.Proofs.Codec.Identity
import SoapBinding.Proofs.Codec.References
import SoapBinding.Proofs.Codec.Rereading
import SoapBinding.Proofs.Codec.Soundness
import SoapBinding.Proofs.Xml.Embedded

/-!
# Elements inside others

An element that has been written can stand anywhere in a document. Elements around it may declare a default namespace and
bind qualifiers as they want: what is read from the element alone is read from it there (`readInside_writeElement`).
-/

namespace SoapBinding

open Outcome
open Xml (Cursor Element Scope PendingTag openingTexts)

/-! ### Relations between values -/

/-- A value and what is read in its place another time. A payload that is not referred to is given an id of its own
each time. -/
inductive Value.Reread : Value → Value → Prop where
  | same (v : Value) : Reread v v
  | payload (n n' : Nat) (bytes : Bytes) :
      Reread (.binary (.ofBytes (Nonces.idAt n) bytes)) (.binary (.ofBytes (Nonces.idAt n') bytes))
  | list {items items' : List Value} : List.Forall₂ Reread items items' → Reread (.list items) (.list items')
  | object {type : TypeName} {fields fields' : Fields} : fields'.names = fields.names →
      List.Forall₂ Reread (fields.map (·.2)) (fields'.map (·.2)) → Reread (.object type fields) (.object type fields')
  | choice {tag : UInt32} {v v' : Value} : Reread v v' → Reread (.choice tag v) (.choice tag v')

/-- The constructors of a schema make of a value that is read twice one that is read twice. Choices with a tag do. -/
def Schema.BuildsAlike (s : Schema) : Prop :=
  ∀ {type : TypeName} {d : Descriptor} {variant : Variant} {v v' : Value}, Descriptor.compile s type = .ok d →
    variant ∈ d.variants → v.Reread v' → (variant.build v).Reread (variant.build v')

/-- Without constructors of their own, all variants are read as choices with a tag. -/
theorem Schema.HasPlainVariants.buildsAlike {s : Schema} (h : s.HasPlainVariants) : s.BuildsAlike := by
  intro type d variant v v' hd hmem hv
  have hplain : variant.construct = none := by
    cases hshape : d.shape with
    | choice variants =>
      obtain ⟨definition, hdescribe, rfl, -⟩ := Descriptor.variants_of_compile hd hshape
      rw [Descriptor.variants, hshape] at hmem
      exact h _ (Schema.mem_of_describe? hdescribe) _ hmem
    | simple | sequence =>
      rw [Descriptor.variants, hshape] at hmem
      cases hmem
  rw [Variant.build, Variant.build, hplain]
  exact .choice hv

/-- Fields are known by their names and their values. -/
theorem Fields.eq_of_names {fields fields' : Fields} (hnames : fields'.names = fields.names)
    (hvalues : fields.map (·.2) = fields'.map (·.2)) : fields' = fields := by
  rw [← List.zip_unzip fields, ← List.zip_unzip fields', List.unzip_eq_map, List.unzip_eq_map, ← hvalues]
  exact congrArg (List.zip · _) hnames

/-- With the same supply of ids two values are the same, and with any other they are the same up to ids. -/
def Schema.SameUpToIds (s : Schema) (sameSupply : Prop) (v v' : Value) : Prop :=
  (sameSupply → v' = v) ∧ (s.BuildsAlike → v.Reread v')

section
variable {s : Schema} {sameSupply : Prop} {vs vs' : List Value}

theorem Schema.SameUpToIds.eq_of_all (h : List.Forall₂ (s.SameUpToIds sameSupply) vs vs') (hsame : sameSupply) :
    vs = vs' := by
  have heq := h.imp fun _ _ hv => (hv.1 hsame).symm
  rwa [List.forall₂_eq_eq_eq] at heq

theorem Schema.SameUpToIds.reread (h : List.Forall₂ (s.SameUpToIds sameSupply) vs vs') (hbuild : s.BuildsAlike) :
    List.Forall₂ Value.Reread vs vs' :=
  h.imp fun _ _ hv => hv.2 hbuild

end

/-- Reading twice with supplies that may be the same. -/
def Rereading.upToIds (s : Schema) (sameSupply : Prop) : Rereading s where
  supplies n n' := sameSupply → n' = n
  values := s.SameUpToIds sameSupply
  same v := ⟨fun _ => rfl, fun _ => .same v⟩
  payload bytes h := ⟨fun hsame => by rw [h hsame], fun hsame => by rw [h hsame], fun _ => .payload _ _ bytes⟩
  list h := ⟨fun hsame => by rw [Schema.SameUpToIds.eq_of_all h hsame],
    fun hbuild => .list (Schema.SameUpToIds.reread h hbuild)⟩
  object hnames h := ⟨fun hsame => by rw [Fields.eq_of_names hnames (Schema.SameUpToIds.eq_of_all h hsame)],
    fun hbuild => .object hnames (Schema.SameUpToIds.reread h hbuild)⟩
  build hd hmem h := ⟨fun hsame => by rw [h.1 hsame], fun hbuild => hbuild hd hmem (h.2 hbuild)⟩

/-! ### Names -/

/-- Whether the names that a type gives to elements can be written in tags. -/
def Descriptor.hasTagNames (d : Descriptor) : Bool :=
  d.properties.all (fun p => (p.content && !p.nilable) || decide (Xml.IsTagName p.name)) &&
    (Variant.names d.variants).all fun name => decide (Xml.IsTagName name)

/-- The names of a schema can be written in tags if those of each type can. -/
theorem Schema.NamesTag.isTagName {s : Schema} {name : String} (h : s.NamesTag name)
    (hall : s.types.all (fun t => (Descriptor.compile s t.1).toOption.all Descriptor.hasTagNames) = true) :
    Xml.IsTagName name := by
  have hchecked {type : TypeName} {d : Descriptor} (hd : Descriptor.compile s type = .ok d) :
      (∃ primitive, d.shape = .simple primitive) ∨ d.hasTagNames = true := Descriptor.check_of_all hall hd
  cases h with
  | inclusion => decide +kernel
  | @property type d p hd hp hnamed =>
    obtain ⟨primitive, hshape⟩ | hd := hchecked hd
    · rw [Descriptor.properties, hshape] at hp
      cases hp
    · rw [Descriptor.hasTagNames, Bool.and_eq_true, List.all_eq_true] at hd
      have hone := hd.1 p hp
      cases hcontent : p.content with
      | false => simpa [hcontent] using hone
      | true => simpa [hcontent, hnamed.1 hcontent] using hone
  | @variant type d v name hd hv hdispatch =>
    obtain ⟨primitive, hshape⟩ | hd := hchecked hd
    · rw [Descriptor.variants, hshape] at hv
      cases hv
    · rw [Descriptor.hasTagNames, Bool.and_eq_true, List.all_eq_true, List.all_eq_true] at hd
      simpa using hd.2 name (Variant.mem_names hv hdispatch)

/-- Whether a type of no namespace is told by its local name among a type and its subtypes. -/
def Descriptor.tellsBareNames (d : Descriptor) : Bool :=
  decide (∀ t ∈ d.name :: d.subtypes, ∀ u ∈ d.name :: d.subtypes, t.space = "" → t.localName = u.localName → t = u)

theorem Schema.tellsBareNames_of_all {s : Schema}
    (hall : s.types.all (fun t => (Descriptor.compile s t.1).toOption.all Descriptor.tellsBareNames) = true) :
    s.TellsBareNames := by
  intro type d hd
  obtain ⟨primitive, hshape⟩ | hd := Descriptor.check_of_all hall hd
  · have hself : d.subtypes = [] := by rw [Descriptor.subtypes, hshape]
    intro t ht u hu _ _
    rw [hself, List.mem_singleton] at ht hu
    rw [ht, hu]
  · exact of_decide_eq_true hd

/-- The names of attributes that are written for values are those of XML. -/
theorem Xml.PendingTag.IsKnown.isTag {t : PendingTag} (h : t.IsKnown Xml.IsTagName) : Xml.IsTag t := by
  have hkeys : ∀ key ∈ "xmlns:xop" :: Xml.markKeys, Xml.IsTagName key := by decide +kernel
  exact ⟨h.name, fun a ha => hkeys _ (h.keys a ha)⟩

/-! ### Reading in both places -/

theorem Decoding.follows_skipBlankText (depth : Nat) :
    Follows (Cursor.placed depth) skipBlankText skipBlankText (fun _ _ => True) (Cursor.placed depth) := by
  constructor
  · rintro c _ _ hc ⟨⟩
    refine ⟨?_, (), trivial⟩
    show c.ahead.dropWhile _ = []
    rw [show c.ahead = [] from hc]
    rfl
  · rintro c c' _ _ ⟨hahead, hopened, hdepth⟩ ⟨⟩
    exact .inr ⟨(), _, rfl, trivial, Cursor.fronts_dropWhile hahead, hopened, hdepth⟩

/-- An element is crossed in both places. -/
theorem crosses_placed (depth : Nat) :
    Crosses Element.IsCaptured (Cursor.placed depth) (Cursor.placed (depth + 1)) (Cursor.placed depth).surely :=
  ⟨Cursor.follows_expectStart depth, Cursor.follows_skipToEnd depth, Cursor.follows_finishElement depth⟩

/-- A document that is read alone, and where it stands inside another. -/
def Places.embedded : Places where
  one := Element.IsCaptured
  within n := Cursor.placed (n + 1)
  isCaptured := id
  href h := by
    obtain ⟨e, e', he, he', hcaptured⟩ := h.current?
    rw [he, he', Option.bind_some, Option.bind_some, hcaptured.attribute?]
  peekStart n := Cursor.follows_peekStart (n + 1)
  peek n := Cursor.follows_peek (n + 1)
  skipBlankText n := Decoding.follows_skipBlankText (n + 1)
  foldText n _ f a := (Cursor.follows_foldText f a (n + 1)).adapt (.refl _) (Pairing.surely_implies _)
  crosses n := crosses_placed (n + 1)

namespace Rereading

variable {s : Schema} (L : Rereading s)

/-- No fewer nodes are ahead inside another document, of which each item takes one at least. -/
theorem counts_embedded (content : Descriptor → Decoding Value) : L.Counts .embedded content := by
  rintro n owner type p nested _ st st' t items - ⟨-, -, -, hplaced⟩ rfl hread
  have hlength := Decoding.length_readItems_lt hread
  have hle := Xml.Fronts.length_le hplaced.ahead
  omega

/-- **An element is read alike alone and inside others.** More nodes are ahead inside another document, so that the bound on
the depth is not lower there. -/
theorem follows_readEmbedded (hbare : s.TellsBareNames) (context : Context) (element : String) (type : TypeName)
    (depth : Nat) :
    Follows (L.decoders (Cursor.placed depth)) (Decoding.readElement context element type)
      (Decoding.readElement context element type) L.values (L.decoders (Cursor.placed depth).surely) := by
  have htypes : L.ReadsTypes Element.IsCaptured := L.readsTypes_captured hbare
  have hcontent {steps steps' : Nat} (hle : steps ≤ steps') : L.ReadsAlike (Cursor.placed (depth + 1))
      (Decoding.readContent context steps) (Decoding.readContent context steps') :=
    readsAlike_readContent (W := .embedded) htypes (fun _ => L.counts_embedded _) hle depth
  refine L.follows_readElement (Cursor.follows_peekStart depth) (crosses_placed depth) id htypes context
    (fun st _ => hcontent (Nat.le_refl _)) (fun st st' h => hcontent ?_) element type
  obtain ⟨hover, hover', -, hplaced⟩ := h
  rw [Decoding.depthBound, Decoding.depthBound, hover.schema_eq, hover'.schema_eq]
  exact Nat.mul_le_mul_right _ (Nat.succ_le_succ (Xml.Fronts.length_le hplaced.ahead))

end Rereading

/-! ### Documents -/

/-- Reads an element inside others, whose start tags are passed first. -/
def Decoding.readInside (depth : Nat) (context : Context) (element : String) (type : TypeName) : Decoding Value := do
  onCursor (Xml.Cursor.enter depth)
  readElement context element type

namespace Encoding

variable {s : Schema} {files : Files} {type : TypeName} {v₀ : Value} {e e' : Encoder}

/-- **A written element can stand anywhere.** What is read from it alone is read from it inside any other elements, whatever
namespaces they declare, and whatever follows it: the same value if the ids for payloads come from the same supply, and
otherwise a value that differs in those ids. -/
theorem readInside_writeElement {element : String} (hnames : ∀ name, s.NamesTag name → Xml.IsTagName name)
    (helement : Xml.IsTagName element) (hbare : s.TellsBareNames) (hover : e.registry.Over s)
    (h : writeElement files element type v₀ e = .ok () e') :
    ∃ text, e'.sink = e.sink.wrote [] (some text) ∧
      ∀ (context : Context) (registry : Registry) (nonces : Nonces) (v : Value) (decoder : Decoder), registry.Over s →
        Decoding.readElement context element type ⟨registry, .ofSource (.ofBytes (Utf8.ofString text)), nonces⟩ =
          .ok v decoder →
        ∀ (ancestors : List PendingTag) (inner : Scope) (behind : Bytes) (registry' : Registry) (nonces' : Nonces),
          Scope.initial.inside? ancestors = some inner → registry'.Over s →
          ∃ v' decoder', Decoding.readInside ancestors.length context element type
              ⟨registry', .ofSource (.ofBytes (Utf8.ofString (openingTexts ancestors ++ text) ++ behind)), nonces'⟩ =
                .ok v' decoder' ∧
            (nonces' = nonces → v' = v) ∧ (s.BuildsAlike → v.Reread v') := by
  obtain ⟨-, -, hadded⟩ := @refers_writeElement s Xml.IsTagName files v₀ element helement hnames type e hover
  obtain ⟨m, hm, hsink, htags, -⟩ := hadded e' h
  refine ⟨m.render, hsink, ?_⟩
  intro context registry nonces v decoder hregistry hread ancestors inner behind registry' nonces' hinside hregistry'
  obtain ⟨c', henter, hplaced⟩ := Xml.Markup.isPlaced hm (fun t ht => (htags t ht).isTag) hinside behind
  let L := Rereading.upToIds s (nonces' = nonces)
  have hlinked : (L.decoders (Xml.Cursor.placed 0)).linked
      ⟨registry, .ofSource (.ofBytes (Utf8.ofString m.render)), nonces⟩ ⟨registry', c', nonces'⟩ :=
    ⟨hregistry, hregistry', id, hplaced⟩
  obtain ⟨⟨-, hlost⟩, -⟩ | ⟨v', decoder', hread', hvalues, -⟩ :=
    (L.follows_readEmbedded hbare context element type 0).follows _ _ _ _ hlinked hread
  · -- Behind the end tag of the element nothing is lost.
    exact hlost.elim
  · refine ⟨v', decoder', bind_eq_ok.2 ⟨(), ⟨registry', c', nonces'⟩, ?_, hread'⟩, hvalues⟩
    rw [Decoding.onCursor, henter]

/-! ### A bill in an envelope -/

/-- An envelope that gives the usual qualifiers another meaning, and elements a namespace. -/
def envelopeTags : List PendingTag := [
  ⟨"e:Envelope", [("xmlns:e", "urn:e"), ("xmlns", "urn:bills"), ("xmlns:xsi", "urn:x"), ("xmlns:tns", "urn:t"),
    ("xmlns:xop", "urn:p")]⟩,
  ⟨"e:Body", []⟩]

/-- A bill of a book and of nothing is read from an envelope as it is read alone. The book is marked with a type of no
namespace, and what is missing is marked nil. -/
theorem readInside_writeElement_bill :
    ∃ e' text, writeElement .none "bill" ⟨"", "Bill"⟩ billValue billEncoder = .ok () e' ∧ e'.sink.finish = .ok text ∧
      ∃ v decoder, Decoding.readElement e'.context "bill" ⟨"", "Bill"⟩
          ⟨.ofSchema billSchema, .ofSource (.ofBytes (Utf8.ofString text)), .fresh⟩ = .ok v decoder ∧
        ∀ (behind : Bytes) (nonces' : Nonces),
          ∃ v' decoder', Decoding.readInside envelopeTags.length e'.context "bill" ⟨"", "Bill"⟩
              ⟨.ofSchema billSchema,
                .ofSource (.ofBytes (Utf8.ofString (openingTexts envelopeTags ++ text) ++ behind)), nonces'⟩ =
                .ok v' decoder' ∧
            (nonces' = .fresh → v' = v) ∧ v.Reread v' := by
  have hreadable : billValue.HasReadablePayloads .none := fun b hb => by
    simp [billValue, Value.leaves, Value.leavesOfItems, Value.leavesOfFields] at hb
  obtain ⟨e', hwrite⟩ := @exists_writeElement _ .none _ _ _ "bill" billSchema_conveys.tells
    (.inr billValue_elementOf) hreadable billEncoder_isReady rfl
  -- The document can be read alone, as the schema conveys its bills.
  obtain ⟨document, hfinish, -, hread⟩ := @readElement_document ⟨"", "Bill"⟩ billValue ⟨billSchema, .none, false, True⟩
    billEncoder e' "bill" none billSchema_conveys.tells (by decide +kernel) (fun _ => .inr ⟨billValue_elementOf, by decide⟩)
    (billSchema_conveys.admitsElement (.inr billValue_elementOf)) billEncoder_isReady rfl hwrite
  obtain ⟨v, decoder, hread, -⟩ := (hread e'.context (.ofSchema billSchema) .fresh
    (fun _ hattached => absurd hattached Bool.false_ne_true) (Registry.over_ofSchema _)).resolve_right
    fun hunsound => hunsound.1 trivial
  obtain ⟨text, hsink, hinside⟩ := readInside_writeElement (fun _ hname => hname.isTagName (by decide +kernel))
    (by decide +kernel) (Schema.tellsBareNames_of_all (by decide +kernel)) (Registry.over_ofSchema _) hwrite
  obtain rfl : document = text := by
    rw [hsink] at hfinish
    cases hfinish
    show "" ++ "" ++ text = _
    rw [String.empty_append, String.empty_append]
  -- The start tags of the envelope can be read, whatever they bind.
  obtain ⟨inner, henvelope⟩ : ∃ inner, Scope.initial.inside? envelopeTags = some inner :=
    Option.isSome_iff_exists.1 (by decide +kernel)
  have hplain : billSchema.HasPlainVariants := by simp [Schema.HasPlainVariants, billSchema]
  refine ⟨e', document, hwrite, hfinish, v, decoder, hread, fun behind nonces' => ?_⟩
  obtain ⟨v', decoder', hread', hsame, hreread⟩ := hinside _ _ _ v decoder (Registry.over_ofSchema _) hread envelopeTags
    inner behind (.ofSchema billSchema) nonces' henvelope (Registry.over_ofSchema _)
  exact ⟨v', decoder', hread', hsame, hreread hplain.buildsAlike⟩

end Encoding
end SoapBinding
