import SoapBinding.Proofs.Codec.Writable

/-!
# Documents of given values

What is written for a given value can be worked out rule by rule, along the steps of writing it (`Emits`). Each rule says
that a step succeeds, and what it adds to the document.
-/

namespace SoapBinding.Encoding

open Outcome
open Xml (Sink elementText nilAttributes)

variable {s : Schema} {files : Files} {type : TypeName} {d : Descriptor} {v : Value} {name : String}
  {body body' : Option String}

/-- Where nothing limits the document, the work succeeds and adds a body to it. -/
def Emits (s : Schema) (work : Encoding Unit) (body : Option String) : Prop :=
  ∀ (opened : List String) (e : Encoder), Stands s opened e →
    ∃ e', work e = .ok () e' ∧ e'.IsReady s false ∧ e'.sink = e.sink.wrote [] body

namespace Emits

variable {work : Encoding Unit}

theorem nothing : Emits s (pure ()) none := fun _ e he => ⟨e, rfl, he.isReady, (Sink.wrote_nothing _).symm⟩

theorem andThen {next : Encoding Unit} (hw : Emits s work body) (hn : Emits s next body') :
    Emits s (work >>= fun _ => next) (Option.merge (· ++ ·) body body') := by
  intro opened e he
  obtain ⟨e₁, hwork, hready₁, hsink₁⟩ := hw opened e he
  obtain ⟨e₂, hnext, hready₂, hsink₂⟩ := hn opened e₁ ⟨hready₁, hsink₁ ▸ he.sink.wrote _ _⟩
  exact ⟨e₂, bind_eq_ok.2 ⟨_, e₁, hwork, hnext⟩, hready₂, by rw [hsink₂, hsink₁, Sink.wrote_wrote]⟩

theorem descriptor {next : Descriptor → Encoding Unit} (hd : Descriptor.compile s type = .ok d)
    (hn : Emits s (next d) body) : Emits s (Encoding.descriptor type >>= next) body := by
  intro opened e he
  obtain ⟨registry, hdescriptor, hover⟩ := exists_descriptor hd he.isReady.registry
  rw [bind_ok hdescriptor]
  exact hn opened _ (he.found hover)

theorem nil (name : String) : Emits s (onSink (writeNil name)) (some (elementText ⟨name, nilAttributes⟩ none)) := by
  intro opened e he
  obtain ⟨e', hok, he'⟩ := succeeds_writeNil (s := s) name e he
  obtain ⟨sink, hnil, rfl⟩ := onSink_ok hok
  obtain ⟨_, started, hstart, hnil⟩ := bind_eq_ok.1 hnil
  obtain ⟨_, marked, hmark, hend⟩ := bind_eq_ok.1 hnil
  exact ⟨_, hok, he'.isReady, Sink.nil_eq hstart hmark hend⟩

/-- An element is written around what is written for the content of its value. -/
theorem wrapped (hnull : v.isNull = false)
    (hd : (v.object?.all fun object => object.1 == d.name || !d.subtypes.contains object.1) = true)
    (h : Emits s (writeContent files d v) body) :
    Emits s (writeWrapped files name d v) (some (elementText ⟨name, []⟩ body)) := by
  intro opened e he
  have hstart := onSink_of_ok (Sink.startElement_ok he.sink.limit name)
  obtain ⟨e₁, hcontent, hready₁, hsink₁⟩ := h (name :: opened) { e with sink := e.sink.started name }
    ⟨he.isReady.write _, he.sink.started name⟩
  have hstands : e₁.sink.Stands (name :: opened) := hsink₁ ▸ (he.sink.started name).wrote _ _
  obtain ⟨sink, hend, -⟩ := Sink.endElement_ok hstands
  have hsubtype (e : Encoder) : subtypeOf d v e = .ok none e := by
    unfold subtypeOf
    cases hobject : v.object? with
    | none => rfl
    | some object =>
      rw [hobject] at hd
      have hdeclared : (object.1 != d.name && d.subtypes.contains object.1) = false := by
        simpa [imp_iff_not_or] using hd
      dsimp only
      rw [hdeclared, if_neg (by decide)]
      rfl
  refine ⟨{ e₁ with sink }, ?_, hready₁.write sink, ?_⟩
  · rw [writeWrapped, hnull, if_neg (by decide), bind_ok hstart, bind_ok (hsubtype _)]
    dsimp only
    rw [bind_ok hcontent]
    exact onSink_of_ok hend
  · rw [hsink₁] at hend
    exact Sink.endElement_eq hend

/-- The element of an object of a registered subtype is marked with the subtype. -/
theorem subtype {runtime : Descriptor} {fields : Fields} (hne : type ≠ d.name) (hmem : type ∈ d.subtypes)
    (hd : Descriptor.compile s type = .ok runtime)
    (h : Emits s (writeContent files runtime (.object type fields)) body) :
    Emits s (writeWrapped files name d (.object type fields))
      (some (elementText ⟨name, Xml.typeAttributes type⟩ body)) := by
  intro opened e he
  have hstart := onSink_of_ok (Sink.startElement_ok he.sink.limit name)
  obtain ⟨registry, hfound, hover⟩ := exists_descriptor hd (e := { e with sink := e.sink.started name }) he.isReady.registry
  obtain ⟨marked, hmark⟩ := Sink.markType_ok e.sink name type
  obtain rfl := Sink.markType_eq hmark
  have hsubtype : subtypeOf d (.object type fields) { e with sink := e.sink.started name } =
      .ok (some runtime) { e with registry, sink := e.sink.started name } := by
    have hchosen : (type != d.name && d.subtypes.contains type) = true := by simp [hne, hmem]
    unfold subtypeOf
    dsimp only [Value.object?]
    rw [if_pos hchosen, bind_ok hfound]
    rfl
  have hstands : Stands s (name :: opened)
      { e with registry, sink := (e.sink.started name).wrote (Xml.typeAttributes type) none } :=
    ⟨(he.found hover).isReady.write _, (he.sink.started name).wrote (Xml.typeAttributes type) none⟩
  obtain ⟨e₁, hcontent, hready₁, hsink₁⟩ := h _ _ hstands
  have hopened : e₁.sink.Stands (name :: opened) := hsink₁ ▸ hstands.sink.wrote _ _
  obtain ⟨sink, hend, -⟩ := Sink.endElement_ok hopened
  refine ⟨{ e₁ with sink }, ?_, hready₁.write sink, ?_⟩
  · rw [writeWrapped, if_neg (by simp [Value.isNull]), bind_ok hstart, bind_ok hsubtype]
    dsimp only
    rw [Descriptor.name_of_compile hd, bind_ok (onSink_of_ok hmark), bind_ok hcontent]
    exact onSink_of_ok hend
  · rw [hsink₁, Sink.wrote_attributes, List.append_nil] at hend
    exact Sink.endElement_eq hend

theorem text (t : String) : Emits s (onSink (Sink.text t)) (some (Xml.escape t)) := by
  intro opened e he
  obtain ⟨sink, hok⟩ := Sink.text_ok he.sink.limit t
  exact ⟨_, onSink_of_ok hok, he.isReady.write sink, Sink.text_eq hok⟩

theorem leaf {textType : TextType} {t : String} (hshape : d.shape = .simple (.text textType))
    (hrender : textType.render? v = some t) : Emits s (writeContent files d v) (some (Xml.escape t)) := by
  rw [writeContent, hshape]
  dsimp only
  rw [writePrimitive, hrender]
  exact text t

/-! ### Properties -/

section
variable {p : Property} {owner : TypeName} {fields : Fields} {rest : List Property}

theorem properties_nil : Emits s (writeProperties files owner fields []) none := by
  rw [writeProperties]
  exact nothing

theorem properties_cons (hp : Emits s (writeProperty files owner p (fields.valueOf p)) body)
    (hrest : Emits s (writeProperties files owner fields rest) body') :
    Emits s (writeProperties files owner fields (p :: rest)) (Option.merge (· ++ ·) body body') := by
  rw [writeProperties_cons]
  exact hp.andThen hrest

theorem object {subtypes : List TypeName} {isAbstract : Bool} (hshape : d.shape = .sequence rest subtypes isAbstract)
    (h : Emits s (writeProperties files d.name fields rest) body) :
    Emits s (writeContent files d (.object type fields)) body := by
  rw [writeContent, hshape]
  exact h

/-! Of a single value. -/

section
variable (hnull : v.isNull = false) (hd : Descriptor.compile s p.type = .ok d)
include hnull hd

theorem one_wrapped (hwrapped : p.isWrapped d = true) (h : Emits s (writeWrapped files p.name d v) body) :
    Emits s (writeSingle files owner p v) body := by
  rw [Property.isWrapped, ← Bool.not_or, Bool.not_eq_true'] at hwrapped
  rw [writeSingle, hnull, if_neg (by decide)]
  refine .descriptor hd ?_
  rwa [hwrapped, if_neg (by decide)]

theorem one_bare (hwrapped : p.isWrapped d = false) (h : Emits s (writeContent files d v) body) :
    Emits s (writeSingle files owner p v) body := by
  rw [Property.isWrapped, ← Bool.not_or, Bool.not_eq_false'] at hwrapped
  rw [writeSingle, hnull, if_neg (by decide)]
  refine .descriptor hd ?_
  rwa [if_pos hwrapped]

end

/-- Where there is no value, nothing is written if that may be. -/
theorem one_absent (hnilable : p.nilable = false) (hoptional : p.optional = true) :
    Emits s (writeSingle files owner p .null) none := by
  rw [writeSingle, if_pos (show Value.null.isNull = true from rfl), writeNothing, hnilable, if_neg (by decide),
    if_pos hoptional]
  exact nothing

/-- Or there is an element marked nil. -/
theorem one_marked (hnilable : p.nilable = true) :
    Emits s (writeSingle files owner p .null) (some (elementText ⟨p.name, nilAttributes⟩ none)) := by
  rw [writeSingle, if_pos (show Value.null.isNull = true from rfl), writeNothing, hnilable, if_pos rfl]
  exact nil p.name

theorem one (hrepeated : p.repeated = false) (h : Emits s (writeSingle files owner p v) body) :
    Emits s (writeProperty files owner p v) body := by
  unfold writeProperty
  rwa [hrepeated, if_pos (by decide)]

/-! Of a list, item by item. -/

theorem items {items : List Value} (hrepeated : p.repeated = true) (h : Emits s (writeItems files owner p items) body) :
    Emits s (writeProperty files owner p (.list items)) body := by
  rw [writeProperty, hrepeated, if_neg (by decide)]
  exact h

theorem items_nil : Emits s (writeItems files owner p []) none := by
  rw [writeItems]
  exact nothing

theorem items_cons {items : List Value} (hv : Emits s (writeSingle files owner p v) body)
    (hitems : Emits s (writeItems files owner p items) body') :
    Emits s (writeItems files owner p (v :: items)) (Option.merge (· ++ ·) body body') := by
  rw [writeItems]
  exact hv.andThen hitems

/-! Of a property that is not repeated. -/

/-- An optional property without a value is left out. -/
theorem absent (hrepeated : p.repeated = false) (hnilable : p.nilable = false) (hoptional : p.optional = true) :
    Emits s (writeProperty files owner p .null) none :=
  .one hrepeated (.one_absent hnilable hoptional)

/-- A property that may be nil is marked so where it has no value. -/
theorem marked (hrepeated : p.repeated = false) (hnilable : p.nilable = true) :
    Emits s (writeProperty files owner p .null) (some (elementText ⟨p.name, nilAttributes⟩ none)) :=
  .one hrepeated (.one_marked hnilable)

variable (hrepeated : p.repeated = false) (hnull : v.isNull = false) (hd : Descriptor.compile s p.type = .ok d)
include hrepeated hnull hd

theorem single (hwrapped : p.isWrapped d = true) (h : Emits s (writeWrapped files p.name d v) body) :
    Emits s (writeProperty files owner p v) body :=
  .one hrepeated (.one_wrapped hnull hd hwrapped h)

theorem bare (hwrapped : p.isWrapped d = false) (h : Emits s (writeContent files d v) body) :
    Emits s (writeProperty files owner p v) body :=
  .one hrepeated (.one_bare hnull hd hwrapped h)

end

/-! ### Choices -/

section
variable {variants : List Variant} {variant : Variant} {tag : UInt32} {nested : Descriptor}
  (hshape : d.shape = .choice variants) (hfind : variants.find? (·.tag == tag) = some variant)
  (hd : Descriptor.compile s variant.type = .ok nested)
include hshape hfind hd

theorem element (hdispatch : variant.dispatch = .element name) (h : Emits s (writeWrapped files name nested v) body) :
    Emits s (writeContent files d (.choice tag v)) body := by
  rw [writeContent, hshape]
  dsimp only
  rw [hfind]
  refine .descriptor hd ?_
  rwa [hdispatch]

theorem inline (hdispatch : variant.dispatch = .inline) (h : Emits s (writeContent files nested v) body) :
    Emits s (writeContent files d (.choice tag v)) body := by
  rw [writeContent, hshape]
  dsimp only
  rw [hfind]
  refine .descriptor hd ?_
  rwa [hdispatch]

end

/-! ### Documents -/

/-- What is written for an element is the document. -/
theorem document {element text : String} {e : Encoder} (hd : Descriptor.compile s type = .ok d)
    (h : Emits s (writeWrapped files element d v) (some text)) (hready : e.IsReady s false)
    (hempty : e.sink = .empty none) :
    ∃ e', writeElement files element type v e = .ok () e' ∧ e'.sink.finish = .ok text := by
  have helement : Emits s (writeElement files element type v) (some text) := .descriptor hd h
  obtain ⟨e', hok, -, hsink⟩ := helement [] e ⟨hready, by rw [hempty]; exact ⟨rfl, rfl⟩⟩
  refine ⟨e', hok, ?_⟩
  rw [hsink, hempty]
  show Except.ok ("" ++ "" ++ text) = _
  rw [String.empty_append, String.empty_append]

end Emits
end SoapBinding.Encoding
