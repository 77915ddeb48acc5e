import SoapBinding.Proofs.Codec.Properties
import SoapBinding.Proofs.Codec.Steps
import SoapBinding.Proofs.Fields

/-!
# Values read back

What is written for a value of a type that can be told is read as the value again, but for what a document does not
tell. The induction is on the value: what is written for an object or a choice is put together from what is written
for smaller values (`returns`).

    readElement_document : … writeElement P.files element type v e = .ok () e' → …
      readElement later element type … = .ok v' decoder ∧ P.Conveys v v'

Of a value that is not of the type nothing more is said than that reading fails without harm, if it fails.
-/

namespace SoapBinding

open Typing

variable {s : Schema} {p : Property} {type : TypeName} {fields : Fields} {v x : Value}

theorem Value.HasWritableInstants.valueOf (h : (Value.object type fields).HasWritableInstants) (p : Property) :
    (fields.valueOf p).HasWritableInstants := by
  unfold Fields.valueOf
  cases hget : fields.get? p.name with
  | none => exact fun t ht => nomatch ht
  | some w => exact h.field (Fields.mem_of_get? hget)

theorem Property.IsSingle.hasWritableInstants (h : p.IsSingle v x) (hv : v.HasWritableInstants) :
    x.HasWritableInstants := by
  cases h with
  | one => exact hv
  | item _ hmem => exact hv.item hmem

theorem Property.IsSingle.sizeOf_le (h : p.IsSingle v x) : sizeOf x ≤ sizeOf v := by
  cases h with
  | one => exact Nat.le_refl _
  | item _ hmem =>
    have := List.sizeOf_lt_of_mem hmem
    rw [Value.list.sizeOf_spec]
    omega

/-- The fields of an object are the values that are written for its properties. -/
theorem Typing.FieldsOf.eq_map {properties : List Property} (h : FieldsOf s properties fields)
    (hnodup : (properties.map (·.name)).Nodup) : fields = properties.map fun p => (p.name, fields.valueOf p) := by
  induction properties generalizing fields with
  | nil => cases h; rfl
  | cons p rest ih =>
    cases h with
    | @cons _ _ v fields _ hfields =>
      rw [List.map_cons, List.nodup_cons] at hnodup
      have hsame (q : Property) (hq : q ∈ rest) :
          Fields.valueOf ((p.name, v) :: fields) q = Fields.valueOf fields q := by
        have hne : p.name ≠ q.name := fun heq => hnodup.1 (heq ▸ List.mem_map_of_mem hq)
        rw [Fields.valueOf, Fields.get?, if_neg hne, Fields.valueOf]
      have hfirst : Fields.valueOf ((p.name, v) :: fields) p = v := by
        rw [Fields.valueOf, Fields.get?, if_pos rfl, Option.getD_some]
      rw [List.map_cons, hfirst, List.map_congr_left fun q hq => by rw [hsame q hq], ← ih hfields hnodup.2]

/-- Where an element declared of a type holds a value, that can be read where it is written. -/
def Schema.AdmitsElement (s : Schema) (type : TypeName) (v : Value) : Prop :=
  v ≠ .null → ∀ d, Descriptor.compile s type = .ok d → s.Admits (s.writtenAs d v) v

/-- Where types can be told, no element bears the name of a property that is content. -/
theorem Schema.Tells.hasNoContentNames (h : s.Tells type) (nodes : List Xml.Node) : s.HasNoContentNames type nodes := by
  intro t d p nested hreach hd hp hcontent
  obtain ⟨d', hd', htellable⟩ := h.tellable t hreach
  rw [hd] at hd'
  cases hd'
  rw [htellable.not_content p hp] at hcontent
  cases hcontent

/-- A type that can be told is never read without end. -/
theorem Schema.Tells.readElement_ne_endless (h : s.Tells type) (context : Context) (element : String)
    (source : Source) {registry : Registry} {nonces : Nonces} (hover : registry.Over s) (decoder : Decoder) :
    Decoding.readElement context element type ⟨registry, .ofSource source, nonces⟩ ≠ .error .endless decoder :=
  Decoding.readElement_ne_endless h.grounded (h.hasNoContentNames _) context element hover decoder

namespace Encoding

open Outcome
open Decoding (Delivers Starts GoesOnWithout)
open Xml (Cursor Sink IsName)

variable {P : Passage} {d : Descriptor} {e e' : Encoder}

/-- An object is read back if all smaller values are. -/
theorem written_object {properties : List Property} {subtypes : List TypeName} {isAbstract : Bool}
    (hbelow : ∀ w, sizeOf w < sizeOf (Value.object type fields) → Returns P w) (htells : P.schema.Tells d.name)
    (hd : Descriptor.compile P.schema d.name = .ok d) (hshape : d.shape = .sequence properties subtypes isAbstract)
    (hv : P.sound → ContentOf P.schema d.name (.object type fields) ∧ (Value.object type fields).HasWritableInstants)
    (hadmits : P.schema.Admits d (.object type fields)) (hready : e.IsReady P.schema P.attached)
    (h : writeContent P.files d (.object type fields) e = .ok () e') :
    ∃ body nodes, BareWritten P d (.object type fields) e e' body nodes := by
  obtain ⟨name, shape⟩ := d
  obtain rfl : shape = .sequence properties subtypes isAbstract := hshape
  have htellable := htells.isTellable hd
  obtain rfl : isAbstract = false := hadmits.concrete _ _ .here
  have hfits (p : Property) (hp : p ∈ properties) (nested : Descriptor)
      (hnested : Descriptor.compile P.schema p.type = .ok nested) (x : Value)
      (hx : p.IsSingle (fields.valueOf p) x) : Fits P p nested x := by
    have hsize : sizeOf x < sizeOf (Value.object type fields) := by
      have hfields := hx.sizeOf_le.trans (sizeOf_valueOf_le fields p)
      rw [Value.object.sizeOf_spec]
      omega
    refine ⟨hbelow x hsize, fun hs hne => ?_, fun hne => ?_,
      fun hchoice => ?_⟩
    · obtain ⟨hcontent, hinstants⟩ := hv hs
      have hfield := (hcontent.fieldsOf hd).2.valueOf htellable.names hp
      exact ⟨hfield.single_of hx hne, hx.hasWritableInstants (hinstants.valueOf p)⟩
    · exact hadmits.property hp (htellable.not_content p hp) hx hne hnested
    · exact hadmits.nils _ type fields p x nested .here hp hx hnested hchoice
  have hfields (hs : P.sound) (p : Property) (hp : p ∈ properties) : FieldOf P.schema p (fields.valueOf p) :=
    ((hv hs).1.fieldsOf hd).2.valueOf htellable.names hp
  rw [writeContent] at h
  obtain ⟨body, nodes, hwritten⟩ := written_fields (fun p hp => htells.property hd hp) htellable.not_content
    htellable.isName htellable.apart htellable.items hfits hfields hready h
  refine ⟨body, nodes, hwritten.adds, fun hleads => ?_, ?_⟩
  · cases properties with
    | nil => cases hleads
    | cons p rest =>
      have homissible : p.isOmissible = false := by
        simpa [Descriptor.leadsAlways, Descriptor.isChoice, Descriptor.properties] using hleads
      exact (hwritten.leads p rest rfl homissible).mono
        fun element hstart => ⟨.first hstart.1, fun hnil => .first (hstart.2 hnil)⟩
  · intro later steps ending opened tail hlater hsteps htail
    rw [Value.object.sizeOf_spec] at hsteps
    obtain ⟨steps, rfl⟩ : ∃ n, steps = n + 1 := ⟨steps - 1, by omega⟩
    have hbehind : GoesOnWithout (fun name => ∃ front p behind, properties = front ++ p :: behind ∧
        P.schema.PropertyContinues name p ∧ ∀ q ∈ behind, q.isOmissible = true) tail := by
      refine htail.mono ?_
      rintro name ⟨front, p, behind, rfl, hcontinues, homissible⟩
      exact .last hcontinues homissible
    rw [Decoding.readContent]
    dsimp only
    rw [if_neg (by decide)]
    apply Delivers.bind (hwritten.reads later steps name ending opened tail hlater (by omega) hbehind)
    intro fields' hfields'
    refine Delivers.pure fun hs => ?_
    obtain ⟨rfl, hof⟩ := (hv hs).1.fieldsOf hd
    have hconveyed := hfields' hs
    rw [← hof.eq_map htellable.names] at hconveyed
    exact .object hconveyed

/-- **Every value is read back**, whatever type it has been written as. -/
theorem returns (v : Value) : Returns P v := by
  intro type d e e' htells hd hbare hv hadmits hready h
  obtain rfl := Descriptor.name_of_compile hd
  cases hshape : d.shape with
  | simple primitive => exact absurd hshape (hbare primitive)
  | sequence properties subtypes isAbstract =>
    cases v with
    | object t fields =>
      exact written_object (fun w _ => returns w) htells hd hshape hv hadmits hready h
    | _ =>
      rw [writeContent, hshape] at h
      cases h
  | choice variants =>
    cases v with
    | choice tag inner => exact written_choice (returns inner) htells hd hshape hv hadmits hready h
    | _ =>
      rw [writeContent, hshape] at h
      cases h
termination_by sizeOf v

/-! ### Documents -/

/-- An element that has been written as the whole of a document is read from there. -/
theorem ElementWritten.delivers_readElement {element : String} {declared : Descriptor}
    {body : Option String} {root : Xml.Element} {inside : List Xml.Node} {later : Context} {bound : Decoder → Nat}
    (h : ElementWritten P element declared v e e' body root inside)
    (hd : Descriptor.compile P.schema type = .ok declared) (hlater : P.Knows later e'.context)
    (hbound : ∀ st, sizeOf v ≤ bound st) :
    P.Delivers (Decoding.readElementWithin bound later element type)
      ⟨.start root :: inside ++ [.finish], .complete, []⟩ ⟨[], .complete, []⟩ (P.Conveys v) := by
  apply Delivers.bind (Delivers.descriptor hd)
  rintro _ rfl
  apply Delivers.bind (Delivers.onCursor Decoding.peekStart_start)
  rintro _ rfl
  dsimp only
  rw [if_pos h.localName]
  apply Delivers.bind Delivers.get
  intro st _
  have hread := h.reads later (bound st) type true .complete [] [] hlater (hbound st) fun _ => rfl
  rwa [List.append_nil] at hread

/-- What has been written as an element, wherever that is, is read back from a document that holds nothing else. -/
theorem readElement_written {element : String} (htells : P.schema.Tells type) (hname : IsName element)
    (hv : P.sound → v = .null ∨ ElementOf P.schema type v ∧ v.HasWritableInstants) (hadmits : P.schema.AdmitsElement type v)
    (hready : e.IsReady P.schema P.attached) (h : writeElement P.files element type v e = .ok () e') :
    ∃ t inner, e'.sink = e.sink.wrote [] (some (Xml.elementText t inner)) ∧ e'.registry.Over P.schema ∧
      ∀ (later : Context) (registry : Registry) (nonces : Nonces), P.Knows later e'.context →
        registry.Over P.schema →
        (∃ v' decoder, Decoding.readElement later element type
            ⟨registry, .ofSource (.ofBytes (Utf8.ofString (Xml.elementText t inner))), nonces⟩ = .ok v' decoder ∧
          decoder.cursor = ⟨[], .complete, []⟩ ∧ P.Conveys v v') ∨
        ¬P.sound ∧ ∃ fault decoder, Decoding.readElement later element type
            ⟨registry, .ofSource (.ofBytes (Utf8.ofString (Xml.elementText t inner))), nonces⟩ = .error fault decoder ∧
          fault.IsHarmless := by
  obtain ⟨d, hd⟩ := htells.compile
  obtain ⟨found, e₁, hdescriptor, h⟩ := bind_eq_ok.1 h
  obtain ⟨rfl, hready₁, _, hsink₁⟩ := descriptor_ok hd hready hdescriptor
  obtain ⟨body, root, inside, hwritten⟩ := written_wrapped (Returns.content (returns v)) htells hd hname hv
    (fun hne => hadmits hne found hd) hready₁ h
  obtain ⟨t, inner, rfl⟩ := hwritten.isElement
  refine ⟨t, inner, by rw [hwritten.adds.sink, hsink₁], hwritten.adds.follows.registry, ?_⟩
  intro later registry nonces hlater hover
  have hread := hwritten.delivers_readElement hd hlater
    (fun st => Nat.le_max_right (Decoding.depthBound st) (sizeOf v)) ⟨registry, _, nonces⟩ hover rfl
  rw [Decoding.readElement_eq (fun st => Nat.le_max_left (Decoding.depthBound st) (sizeOf v)),
    Xml.ofSource_elementText hwritten.adds.shows_nodes]
  · exact hread.imp_left fun ⟨v', decoder, hread, _, hcursor, hconveyed⟩ => ⟨v', decoder, hread, hcursor, hconveyed⟩
  · exact htells.readElement_ne_endless _ _ _ hover

/-- **A document is read back as the value that it has been written for**, whole and by every reader that
knows the attachments. A value that is not known to be sound may be refused instead, but without harm. -/
theorem readElement_document {element : String} {limit : Option Nat} (htells : P.schema.Tells type)
    (hname : IsName element) (hv : P.sound → v = .null ∨ ElementOf P.schema type v ∧ v.HasWritableInstants)
    (hadmits : P.schema.AdmitsElement type v) (hready : e.IsReady P.schema P.attached)
    (hempty : e.sink = .empty limit) (h : writeElement P.files element type v e = .ok () e') :
    ∃ document, e'.sink.finish = .ok document ∧ e'.registry.Over P.schema ∧
      ∀ (later : Context) (registry : Registry) (nonces : Nonces), P.Knows later e'.context →
        registry.Over P.schema →
        (∃ v' decoder, Decoding.readElement later element type
            ⟨registry, .ofSource (.ofBytes (Utf8.ofString document)), nonces⟩ = .ok v' decoder ∧
          decoder.cursor = ⟨[], .complete, []⟩ ∧ P.Conveys v v') ∨
        ¬P.sound ∧ ∃ fault decoder, Decoding.readElement later element type
            ⟨registry, .ofSource (.ofBytes (Utf8.ofString document)), nonces⟩ = .error fault decoder ∧
          fault.IsHarmless := by
  obtain ⟨t, inner, hsink, hover', hread⟩ := readElement_written htells hname hv hadmits hready h
  refine ⟨Xml.elementText t inner, ?_, hover', hread⟩
  rw [hsink, hempty]
  show Except.ok ("" ++ "" ++ Xml.elementText t inner) = _
  rw [String.empty_append, String.empty_append]

end Encoding
end SoapBinding
