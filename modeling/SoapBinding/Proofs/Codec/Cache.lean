import SoapBinding.Codec.Decoding
import SoapBinding.Proofs.Codec.Properties
import SoapBinding.Proofs.Codec.References

/-!
# What a registry has kept does not show

Reading and writing compile types on the way, and keep what has been compiled also where they fail later. None of this
shows: two registries over one schema answer alike, whatever has been asked of either (`Registry.Twins`). All work on a
registry tells the same from both and leaves them twins, so that it `Respects` the link, and this goes along the rules of
the reader and of the writer.

    answers_eq : answers (ofSchema s) requests = requests.map fun q => (q.perform (ofSchema s)).1
-/

namespace SoapBinding

open Outcome
open Xml (Cursor Element Sink Reading Writing)

/-! ### Registries -/

namespace Registry

/-- Each name is kept once. -/
def IsNodup (r : Registry) : Prop := (r.compiled.map (·.1)).Nodup

/-- Two registries over a schema, the first of which keeps something from before. -/
structure Twins (s : Schema) (kept : List (TypeName × Descriptor)) (r r' : Registry) : Prop where
  /-- The first compiles from the schema. -/
  isOver : r.Over s
  /-- The second does so too. -/
  isOver' : r'.Over s
  /-- What has been kept in the first is still there. -/
  grown : kept <:+ r.compiled
  /-- A name is kept once in the first. -/
  nodup : r.IsNodup

variable {s : Schema} {kept : List (TypeName × Descriptor)} {r r' : Registry} {name : TypeName}

/-- A type is answered as it compiles; the registry behind it is over the schema still, and keeps no less. A name is
compiled only where nothing is kept for it. -/
theorem descriptor_cases (hr : r.Over s) (name : TypeName) :
    ∃ r' : Registry, r'.Over s ∧ r.compiled <:+ r'.compiled ∧ (r.IsNodup → r'.IsNodup) ∧ descriptor name r =
      match Descriptor.compile s name with
      | .ok d => .ok d r'
      | .error fault => .error (.schema fault) r' := by
  obtain rfl := hr.schema_eq
  unfold descriptor
  cases hl : r.compiled.lookup name with
  | some d => exact ⟨r, hr, List.suffix_rfl, id, by rw [hr.compile_of_lookup name d hl]⟩
  | none =>
    -- So what is kept is kept under a new name.
    have hnew : name ∉ r.compiled.map (·.1) := by
      intro hmem
      obtain ⟨entry, hentry, rfl⟩ := List.mem_map.1 hmem
      simpa using List.lookup_eq_none_iff.1 hl entry hentry
    cases hd : Descriptor.compile r.schema name with
    | ok d => exact ⟨_, hr.keep hd, List.suffix_cons _ _, fun h => List.nodup_cons.2 ⟨hnew, h⟩, rfl⟩
    | error fault => exact ⟨r, hr, List.suffix_rfl, id, rfl⟩

theorem respects_descriptor (name : TypeName) : Respects (Twins s kept) (descriptor name) := by
  rintro r r' ⟨hover, hover', hgrown, hnodup⟩
  obtain ⟨t, ht, hkept, honce, htold⟩ := descriptor_cases hover name
  obtain ⟨t', ht', -, -, htold'⟩ := descriptor_cases hover' name
  -- Both tell what the schema tells.
  have htwins : Twins s kept t t' := ⟨ht, ht', hgrown.trans hkept, honce hnodup⟩
  rw [htold, htold']
  cases Descriptor.compile s name with
  | ok d => exact .ok htwins
  | error fault => exact .error htwins

end Registry

section
variable {s : Schema} {kept : List (TypeName × Descriptor)} {element : String}

open Registry (Twins respects_descriptor)

theorem Property.respects_beginsBy {begins : Descriptor → Typed Bool} (h : ∀ d, Respects (Twins s kept) (begins d))
    (p : Property) : Respects (Twins s kept) (p.beginsBy begins element) := by
  unfold beginsBy
  refine .ite (.pure true) (.bind (respects_descriptor p.type) fun nested => ?_)
  exact .ite (h nested) (.pure false)

theorem Variant.respects_beginsBy {begins : Descriptor → Typed Bool} (h : ∀ d, Respects (Twins s kept) (begins d))
    (v : Variant) : Respects (Twins s kept) (v.beginsBy begins element) := by
  unfold beginsBy
  cases v.dispatch with
  | element name => exact .pure _
  | inline => exact .bind (respects_descriptor v.type) h

theorem Variant.respects_anyBeginsBy {begins : Descriptor → Typed Bool} (h : ∀ d, Respects (Twins s kept) (begins d))
    (variants : List Variant) : Respects (Twins s kept) (anyBeginsBy begins element variants) := by
  induction variants with
  | nil => exact .pure false
  | cons v rest ih => exact .bind (respects_beginsBy h v) fun found => .ite (.pure true) ih

namespace Descriptor

theorem respects_beginsWithin (element : String) (steps : Nat) (d : Descriptor) :
    Respects (Twins s kept) (beginsWithin element steps d) := by
  induction steps generalizing d with
  | zero => exact .throw _
  | succ steps ih =>
    unfold beginsWithin
    cases d.shape with
    | simple primitive => exact .pure false
    | sequence properties subtypes isAbstract =>
      cases properties with
      | nil => exact .pure false
      | cons p rest => exact p.respects_beginsBy ih
    | choice variants => exact Variant.respects_anyBeginsBy ih variants

/-- The bound on the steps is one of the schema, which twins have in common. -/
theorem respects_begins (element : String) (d : Descriptor) : Respects (Twins s kept) (begins element d) := by
  refine .get (fun r r' h => ?_) fun r => respects_beginsWithin element _ d
  rw [h.isOver.schema_eq, h.isOver'.schema_eq]

end Descriptor

end

/-! ### Reading -/

/-- Two readers at one place of a document, with registries that are twins. -/
structure Decoder.Twins (s : Schema) (kept : List (TypeName × Descriptor)) (st st' : Decoder) : Prop where
  /-- The types. -/
  registry : st.registry.Twins s kept st'.registry
  /-- The document. -/
  cursor : st.cursor = st'.cursor
  /-- The supply of ids. -/
  nonces : st.nonces = st'.nonces

namespace Decoding

open Decoder (Twins)

variable {s : Schema} {kept : List (TypeName × Descriptor)} {α : Type}

theorem respects_onRegistry {work : Typed α} (h : Respects (Registry.Twins s kept) work) :
    Respects (Twins s kept) (onRegistry work) := by
  rintro st st' ⟨hregistry, hcursor, hnonces⟩
  have halike := h _ _ hregistry
  unfold onRegistry
  generalize work st.registry = result, work st'.registry = result' at halike ⊢
  cases halike with
  | ok ht => exact .ok ⟨ht, hcursor, hnonces⟩
  | error ht => exact .error ⟨ht, hcursor, hnonces⟩

theorem respects_onCursor (work : Reading α) : Respects (Twins s kept) (onCursor work) := by
  rintro st st' ⟨hregistry, hcursor, hnonces⟩
  unfold onCursor
  rw [← hcursor]
  cases work st.cursor with
  | ok a c => exact .ok ⟨hregistry, rfl, hnonces⟩
  | error fault c => exact .error ⟨hregistry, rfl, hnonces⟩

theorem respects_descriptor (type : TypeName) : Respects (Twins s kept) (descriptor type) :=
  respects_onRegistry (Registry.respects_descriptor type)

theorem respects_freshBinary (bytes : Bytes) : Respects (Twins s kept) (freshBinary bytes) := by
  rintro st st' ⟨hregistry, hcursor, hnonces⟩
  unfold freshBinary
  rw [← hnonces]
  exact .ok ⟨hregistry, hcursor, rfl⟩

/-! #### Leaves -/

theorem respects_readReference (context : Context) (reference : String) :
    Respects (Twins s kept) (readReference context reference) := by
  unfold readReference
  cases resolve context reference with
  | ok b => exact .pure _
  | error fault => exact .throw fault

theorem respects_readBase64 : Respects (Twins s kept) readBase64 := by
  refine .bind (respects_onCursor _) fun decoder => ?_
  cases decoder.finish with
  | ok bytes => exact .bind (respects_freshBinary bytes) fun b => .pure _
  | error fault => exact .throw _

theorem respects_readBinary (context : Context) : Respects (Twins s kept) (readBinary context) := by
  refine .get (fun st st' h => by rw [h.cursor]) fun st => ?_
  cases st.cursor.current?.bind (·.attribute? none "href") with
  | some reference => exact respects_readReference context reference
  | none =>
    refine .bind (respects_onCursor _) fun _ => .bind (respects_onCursor _) fun next => ?_
    split
    · next e =>
      cases includedReference e with
      | error fault => exact .throw fault
      | ok reference => exact .bind (respects_onCursor _) fun _ => respects_readReference context reference
    · exact respects_readBase64

theorem respects_readTextType (type : TextType) : Respects (Twins s kept) (readTextType type) := by
  refine .get (fun st st' h => by rw [h.cursor]) fun st => .bind (respects_onCursor _) fun text => ?_
  cases type.parse text with
  | ok value => exact .pure value
  | error fault => exact .throw _

/-! #### Rules over the types inside -/

theorem respects_runtimeType (declared : Descriptor) (e : Element) :
    Respects (Twins s kept) (runtimeType declared e) := by
  unfold runtimeType
  cases e.xsiType with
  | none => exact .pure declared
  | some reference =>
    refine .ite (.pure declared) ?_
    cases declared.subtypes.find? (names reference) with
    | some subtype => exact respects_descriptor subtype
    | none => exact .throw _

theorem respects_comesNext (p : Property) : Respects (Twins s kept) (comesNext p) := by
  refine .bind (respects_onCursor _) fun next => ?_
  cases next with
  | none => exact .pure false
  | some e => exact respects_onRegistry (p.respects_beginsBy (Descriptor.respects_begins _))

section
variable {content : Descriptor → Decoding Value} (hcontent : ∀ d, Respects (Twins s kept) (content d))
include hcontent

theorem respects_readWrapped (owner : TypeName) (nilable : Bool) (declared : Descriptor) :
    Respects (Twins s kept) (readWrapped content owner nilable declared) := by
  refine .bind (respects_onCursor _) fun e => .ite (.ite ?_ (.throw _)) ?_
  · exact .bind (respects_onCursor _) fun _ => .pure Value.null
  · refine .bind (respects_runtimeType declared e) fun d => .bind (hcontent d) fun v => ?_
    exact .bind (respects_onCursor _) fun _ => .pure v

theorem respects_readSingle (owner : TypeName) (p : Property) (nested : Descriptor) :
    Respects (Twins s kept) (readSingle content owner p nested) := by
  have hwrapped := respects_readWrapped hcontent owner p.nilable nested
  refine .ite (hcontent nested) (.bind (respects_onCursor _) fun next => ?_)
  cases next with
  | none => exact .throw _
  | some e => exact .ite (.ite hwrapped (hcontent nested)) (.ite hwrapped (.throw _))

theorem respects_readItems (owner : TypeName) (p : Property) (nested : Descriptor) (limit : Nat) :
    Respects (Twins s kept) (readItems content owner p nested limit) := by
  induction limit with
  | zero => exact .throw _
  | succ limit ih =>
    refine .bind (respects_comesNext p) fun next => .ite ?_ (.pure [])
    exact .bind (respects_readSingle hcontent owner p nested) fun item => .bind ih fun rest => .pure _

theorem respects_readProperty (owner : TypeName) (p : Property) :
    Respects (Twins s kept) (readProperty content owner p) := by
  refine .bind (respects_descriptor p.type) fun nested => .ite ?_ (.ite ?_ ?_)
  · refine .get (fun st st' h => by rw [h.cursor]) fun st => ?_
    exact .bind (respects_readItems hcontent owner p nested _) fun items => .pure _
  · exact .bind (respects_comesNext p) fun next => .ite (respects_readSingle hcontent owner p nested) (.pure Value.null)
  · exact respects_readSingle hcontent owner p nested

theorem respects_readProperties (owner : TypeName) (properties : List Property) :
    Respects (Twins s kept) (readProperties content owner properties) := by
  induction properties with
  | nil => exact .pure []
  | cons p rest ih => exact .bind (respects_readProperty hcontent owner p) fun v => .bind ih fun fields => .pure _

theorem respects_readVariants (owner : TypeName) (element : String) (variants : List Variant) :
    Respects (Twins s kept) (readVariants content owner element variants) := by
  induction variants with
  | nil => exact .throw _
  | cons v rest ih =>
    rw [readVariants]
    refine .bind (respects_descriptor v.type) fun nested => ?_
    cases v.dispatch with
    | element name => exact .ite (.bind (respects_readWrapped hcontent owner true nested) fun v => .pure _) ih
    | inline =>
      refine .bind (respects_onRegistry (Descriptor.respects_begins element nested)) fun begins => ?_
      exact .ite (.bind (hcontent nested) fun v => .pure _) ih

theorem respects_readChoice (owner : TypeName) (variants : List Variant) :
    Respects (Twins s kept) (readChoice content owner variants) := by
  refine .bind (respects_onCursor _) fun next => ?_
  cases next with
  | none => exact .throw _
  | some e => exact respects_readVariants hcontent owner e.localName variants

end

/-! #### Contents -/

/-- **Reading a content respects twins.** -/
theorem respects_readContent (context : Context) (steps : Nat) (d : Descriptor) :
    Respects (Twins s kept) (readContent context steps d) := by
  induction steps generalizing d with
  | zero => exact .throw _
  | succ steps ih =>
    unfold readContent
    cases d.shape with
    | simple primitive =>
      cases primitive with
      | base64Binary => exact respects_readBinary context
      | text type => exact respects_readTextType type
    | sequence properties subtypes isAbstract =>
      exact .ite (.throw _) (.bind (respects_readProperties ih d.name properties) fun fields => .pure _)
    | choice variants => exact respects_readChoice ih d.name variants

/-- The bound on the depth is one of the schema and of the nodes ahead. -/
theorem depthBound_eq {st st' : Decoder} (h : st.Twins s kept st') : depthBound st = depthBound st' := by
  rw [depthBound, depthBound, h.cursor, h.registry.isOver.schema_eq, h.registry.isOver'.schema_eq]

theorem respects_read (context : Context) (type : TypeName) : Respects (Twins s kept) (read context type) := by
  refine .bind (respects_descriptor type) fun d => .get (fun st st' h => ?_) fun st => ?_
  · rw [depthBound_eq h]
  · exact respects_readContent context _ d

theorem respects_readElement (context : Context) (element : String) (type : TypeName) :
    Respects (Twins s kept) (readElement context element type) := by
  refine .bind (respects_descriptor type) fun declared => .bind (respects_onCursor _) fun next => ?_
  cases next with
  | none => exact .throw _
  | some e =>
    refine .ite (.get (fun st st' h => ?_) fun st => ?_) (.throw _)
    · rw [depthBound_eq h]
    · exact respects_readWrapped (respects_readContent context _) type true declared

end Decoding

/-! ### Writing -/

/-- Two writers at one place of a document, with registries that are twins. -/
structure Encoder.Twins (s : Schema) (kept : List (TypeName × Descriptor)) (e e' : Encoder) : Prop where
  /-- The types. -/
  registry : e.registry.Twins s kept e'.registry
  /-- The exchange. -/
  context : e.context = e'.context
  /-- The document. -/
  sink : e.sink = e'.sink

namespace Encoding

open Encoder (Twins)

variable {s : Schema} {kept : List (TypeName × Descriptor)} {files : Files} {v : Value} {owner : TypeName} {α : Type}

theorem respects_onSink (work : Writing α) : Respects (Twins s kept) (onSink work) := by
  rintro e e' ⟨hregistry, hcontext, hsink⟩
  unfold onSink
  rw [← hsink]
  cases work e.sink with
  | ok a sink => exact .ok ⟨hregistry, hcontext, rfl⟩
  | error fault sink => exact .error ⟨hregistry, hcontext, rfl⟩

theorem respects_descriptor (type : TypeName) : Respects (Twins s kept) (descriptor type) := by
  rintro e e' ⟨hregistry, hcontext, hsink⟩
  have halike := Registry.respects_descriptor type _ _ hregistry
  unfold descriptor onRegistry
  generalize Registry.descriptor type e.registry = result, Registry.descriptor type e'.registry = result' at halike ⊢
  cases halike with
  | ok ht => exact .ok ⟨ht, hcontext, hsink⟩
  | error ht => exact .error ⟨ht, hcontext, hsink⟩

theorem respects_register (b : Binary) : Respects (Twins s kept) (register b) := by
  rintro e e' ⟨hregistry, hcontext, hsink⟩
  unfold register
  rw [← hcontext]
  cases e.context.add b with
  | ok context => exact .ok ⟨hregistry, rfl, hsink⟩
  | error fault => exact .error ⟨hregistry, hcontext, hsink⟩

/-! #### Leaves -/

theorem respects_writeBinary : Respects (Twins s kept) (writeBinary files v) := by
  unfold writeBinary
  cases v.binary? with
  | none => exact .throw _
  | some b =>
    refine .get (fun e e' h => by rw [h.context]) fun e => .ite ?_ ?_
    · exact .bind (respects_register b) fun _ => respects_onSink _
    · cases b.bytes? files with
      | none => exact .throw _
      | some bytes => exact respects_onSink _

theorem respects_writePrimitive (primitive : Primitive) : Respects (Twins s kept) (writePrimitive files primitive v) := by
  cases primitive with
  | base64Binary => exact respects_writeBinary
  | text type =>
    dsimp only [writePrimitive]
    cases type.render? v with
    | some text => exact respects_onSink _
    | none => exact .throw _

/-! #### Rules over the values inside -/

theorem respects_subtypeOf (declared : Descriptor) : Respects (Twins s kept) (subtypeOf declared v) := by
  unfold subtypeOf
  cases v.object? with
  | none => exact .pure none
  | some object => exact .ite (.bind (respects_descriptor _) fun runtime => .pure _) (.pure none)

/-- Writing a value as the content of a type respects twins, whatever the type. -/
def ContentRespects (s : Schema) (kept : List (TypeName × Descriptor)) (files : Files) (v : Value) : Prop :=
  ∀ d, Respects (Encoder.Twins s kept) (writeContent files d v)

theorem respects_writeWrapped (hcontent : ContentRespects s kept files v) (element : String) (declared : Descriptor) :
    Respects (Twins s kept) (writeWrapped files element declared v) := by
  rw [writeWrapped]
  refine .ite (respects_onSink _) (.bind (respects_onSink _) fun _ => .bind (respects_subtypeOf declared) fun chosen => ?_)
  cases chosen with
  | some subtype =>
    exact .bind (respects_onSink _) fun _ => .bind (hcontent subtype) fun _ => respects_onSink _
  | none => exact .bind (hcontent declared) fun _ => respects_onSink _

theorem respects_writeSingle (hcontent : ContentRespects s kept files v) (p : Property) :
    Respects (Twins s kept) (writeSingle files owner p v) := by
  rw [writeSingle]
  refine .ite (.ite (respects_onSink _) (.ite (.pure ()) (.throw _))) ?_
  refine .bind (respects_descriptor p.type) fun nested => ?_
  exact .ite (hcontent nested) (respects_writeWrapped hcontent p.name nested)

theorem respects_writeItems {items : List Value} (hcontent : ∀ item ∈ items, ContentRespects s kept files item)
    (p : Property) : Respects (Twins s kept) (writeItems files owner p items) := by
  induction items with
  | nil =>
    rw [writeItems]
    exact .pure ()
  | cons item rest ih =>
    obtain ⟨hitem, hrest⟩ := List.forall_mem_cons.1 hcontent
    rw [writeItems]
    exact .bind (respects_writeSingle hitem p) fun _ => ih hrest

theorem respects_writeProperty (hcontent : ∀ inner, sizeOf inner ≤ sizeOf v → ContentRespects s kept files inner)
    (p : Property) : Respects (Twins s kept) (writeProperty files owner p v) := by
  unfold writeProperty
  refine .ite (respects_writeSingle (hcontent v (Nat.le_refl _)) p) ?_
  cases v with
  | null => exact .pure ()
  | list items =>
    refine respects_writeItems (fun item hitem => hcontent item ?_) p
    have := List.sizeOf_lt_of_mem hitem
    simp only [Value.list.sizeOf_spec]
    omega
  | _ => exact .throw _

theorem respects_writeProperties {fields : Fields}
    (hcontent : ∀ inner, sizeOf inner ≤ sizeOf fields → ContentRespects s kept files inner) (properties : List Property) :
    Respects (Twins s kept) (writeProperties files owner fields properties) := by
  induction properties with
  | nil =>
    rw [writeProperties]
    exact .pure ()
  | cons p rest ih =>
    rw [writeProperties_cons]
    refine .bind (respects_writeProperty (fun inner hinner => hcontent inner ?_) p) fun _ => ih
    exact hinner.trans (sizeOf_valueOf_le fields p)

/-! #### Contents -/

/-- **Writing a content respects twins.** The induction is on the value, of which only parts are written further in. -/
theorem contentRespects_writeContent (v : Value) : ContentRespects s kept files v := by
  intro d
  rw [writeContent]
  cases d.shape with
  | simple primitive => exact respects_writePrimitive primitive
  | sequence properties subtypes isAbstract =>
    cases v with
    | object type fields =>
      exact respects_writeProperties (fun inner hinner => contentRespects_writeContent inner) properties
    | _ => exact .throw _
  | choice variants =>
    cases v with
    | choice tag inner =>
      dsimp only
      cases variants.find? (·.tag == tag) with
      | none => exact .throw _
      | some variant =>
        refine .bind (respects_descriptor variant.type) fun nested => ?_
        cases variant.dispatch with
        | element name => exact respects_writeWrapped (contentRespects_writeContent inner) name nested
        | inline => exact contentRespects_writeContent inner nested
    | _ => exact .throw _
termination_by sizeOf v
decreasing_by
  · simp; omega
  · simp
  · simp

theorem respects_write (type : TypeName) : Respects (Twins s kept) (write files type v) :=
  .bind (respects_descriptor type) fun d => contentRespects_writeContent v d

theorem respects_writeElement (element : String) (type : TypeName) :
    Respects (Twins s kept) (writeElement files element type v) :=
  .bind (respects_descriptor type) fun d => respects_writeWrapped (contentRespects_writeContent v) element d

end Encoding

/-! ### Requests in a row -/

/-- Something that is asked of a registry, with all that it works on beside the types. -/
inductive Request where
  /-- The descriptor of a type. -/
  | compile (type : TypeName)
  /-- Whether an element begins a value of the type that a descriptor tells. -/
  | begins (d : Descriptor) (element : String)
  /-- Writes the content of a value. -/
  | write (files : Files) (context : Context) (sink : Sink) (type : TypeName) (value : Value)
  /-- Reads the content of the element around. -/
  | read (context : Context) (cursor : Cursor) (nonces : Nonces) (type : TypeName)
  /-- Writes a value inside an element. -/
  | writeElement (files : Files) (context : Context) (sink : Sink) (element : String) (type : TypeName) (value : Value)
  /-- Reads the next element. -/
  | readElement (context : Context) (cursor : Cursor) (nonces : Nonces) (element : String) (type : TypeName)

/-- What is answered, and what has become of all that was worked on, the types apart. -/
inductive Answer where
  /-- A descriptor. -/
  | compiled (descriptor : Except Error Descriptor)
  /-- Whether an element begins a value. -/
  | begun (begins : Except Error Bool)
  /-- What has been written. -/
  | written (done : Except Error Unit) (context : Context) (sink : Sink)
  /-- What has been read, and how far. -/
  | read (value : Except Error Value) (cursor : Cursor) (nonces : Nonces)

namespace Answer

/-- The answer of a writer, and the registry behind it. -/
def ofEncoder (r : EStateM.Result Error Encoder Unit) : Answer × Registry :=
  (.written (told r) (left r).context (left r).sink, (left r).registry)

/-- The answer of a reader, and the registry behind it. -/
def ofDecoder (r : EStateM.Result Error Decoder Value) : Answer × Registry :=
  (.read (told r) (left r).cursor (left r).nonces, (left r).registry)

variable {s : Schema} {kept : List (TypeName × Descriptor)}

theorem twins_ofEncoder {r r' : EStateM.Result Error Encoder Unit} (h : Alike (Encoder.Twins s kept) r r') :
    (ofEncoder r).1 = (ofEncoder r').1 ∧ (ofEncoder r).2.Twins s kept (ofEncoder r').2 := by
  obtain ⟨hregistry, hcontext, hsink⟩ := h.left
  exact ⟨by rw [ofEncoder, ofEncoder, h.told_eq, hcontext, hsink], hregistry⟩

theorem twins_ofDecoder {r r' : EStateM.Result Error Decoder Value} (h : Alike (Decoder.Twins s kept) r r') :
    (ofDecoder r).1 = (ofDecoder r').1 ∧ (ofDecoder r).2.Twins s kept (ofDecoder r').2 := by
  obtain ⟨hregistry, hcursor, hnonces⟩ := h.left
  exact ⟨by rw [ofDecoder, ofDecoder, h.told_eq, hcursor, hnonces], hregistry⟩

end Answer

/-- Answers a request, whether or not it fails. -/
def Request.perform (r : Registry) : Request → Answer × Registry
  | .compile type => let result := Registry.descriptor type r; (.compiled (told result), left result)
  | .begins d element => let result := d.begins element r; (.begun (told result), left result)
  | .write files context sink type value => Answer.ofEncoder (Encoding.write files type value ⟨r, context, sink⟩)
  | .read context cursor nonces type => Answer.ofDecoder (Decoding.read context type ⟨r, cursor, nonces⟩)
  | .writeElement files context sink element type value =>
    Answer.ofEncoder (Encoding.writeElement files element type value ⟨r, context, sink⟩)
  | .readElement context cursor nonces element type =>
    Answer.ofDecoder (Decoding.readElement context element type ⟨r, cursor, nonces⟩)

namespace Registry

/-- The answers to requests that one registry is asked in a row. -/
def answers : Registry → List Request → List Answer
  | _, [] => []
  | r, q :: rest => (q.perform r).1 :: answers (q.perform r).2 rest

/-- The registry behind requests in a row. -/
def after (r : Registry) (requests : List Request) : Registry := requests.foldl (fun r q => (q.perform r).2) r

@[simp] theorem after_append (r : Registry) (front back : List Request) :
    r.after (front ++ back) = (r.after front).after back :=
  List.foldl_append ..

variable {s : Schema} {kept : List (TypeName × Descriptor)} {r r' : Registry} {name : TypeName} {d : Descriptor}

/-- **A request is answered alike by twins**, and leaves them twins. -/
theorem Twins.perform (h : r.Twins s kept r') (q : Request) :
    (q.perform r).1 = (q.perform r').1 ∧ Twins s kept (q.perform r).2 (q.perform r').2 := by
  cases q with
  | compile type =>
    have halike := respects_descriptor type r r' h
    exact ⟨congrArg Answer.compiled halike.told_eq, halike.left⟩
  | begins d element =>
    have halike := d.respects_begins element r r' h
    exact ⟨congrArg Answer.begun halike.told_eq, halike.left⟩
  | write files context sink type value =>
    exact Answer.twins_ofEncoder (Encoding.respects_write type _ _ ⟨h, rfl, rfl⟩)
  | read context cursor nonces type =>
    exact Answer.twins_ofDecoder (Decoding.respects_read context type _ _ ⟨h, rfl, rfl⟩)
  | writeElement files context sink element type value =>
    exact Answer.twins_ofEncoder (Encoding.respects_writeElement element type _ _ ⟨h, rfl, rfl⟩)
  | readElement context cursor nonces element type =>
    exact Answer.twins_ofDecoder (Decoding.respects_readElement context element type _ _ ⟨h, rfl, rfl⟩)

/-- A registry stays over its schema, and keeps what it has. -/
theorem Over.after (hr : r.Over s) (hnodup : r.IsNodup) (requests : List Request) :
    (r.after requests).Over s ∧ (r.after requests).IsNodup ∧ r.compiled <:+ (r.after requests).compiled := by
  induction requests generalizing r with
  | nil => exact ⟨hr, hnodup, List.suffix_rfl⟩
  | cons q rest ih =>
    -- A registry is a twin of itself.
    have htwins := (Twins.mk hr hr List.suffix_rfl hnodup).perform q
    obtain ⟨hover, hnodup', hgrown⟩ := ih htwins.2.isOver htwins.2.nodup
    exact ⟨hover, hnodup', htwins.2.grown.trans hgrown⟩

/-- Requests in a row are answered as each would be in front of the others. -/
theorem Over.answers_eq (hr : r.Over s) (hnodup : r.IsNodup) (hr' : r'.Over s) (requests : List Request) :
    r.answers requests = requests.map fun q => (q.perform r').1 := by
  induction requests generalizing r with
  | nil => rfl
  | cons q rest ih =>
    -- The first registry goes on from here, and the second is asked as it was.
    obtain ⟨hanswer, htwins⟩ := (Twins.mk hr hr' List.suffix_rfl hnodup).perform q
    rw [answers, List.map_cons, hanswer, ih htwins.isOver htwins.nodup]

/-- What is kept of a type is found again in a registry that keeps no less. -/
theorem Over.lookup_of_suffix (hr : r.Over s) (hr' : r'.Over s) (hgrown : r.compiled <:+ r'.compiled)
    (h : r.compiled.lookup name = some d) : r'.compiled.lookup name = some d := by
  obtain ⟨newer, hnewer⟩ := hgrown
  cases hl : r'.compiled.lookup name with
  | none =>
    rw [← hnewer, List.lookup_append, h, Option.or_eq_none_iff] at hl
    cases hl.2
  | some d' =>
    -- Compiled twice, it is the same.
    have hd := hr.compile_of_lookup name d h
    rw [hr'.compile_of_lookup name d' hl] at hd
    cases hd
    rfl

/-- **What a registry has kept does not show.** Whatever is asked of a registry in a row, and whichever requests fail, each
is answered as a fresh registry over the schema would answer it, down to what is left of the document. What is kept for a
name, once, is what the name compiles to, so nothing is kept for one that does not compile; and what is kept stays. -/
theorem answers_ofSchema (s : Schema) (requests : List Request) :
    (ofSchema s).answers requests = requests.map (fun q => (q.perform (ofSchema s)).1) ∧
      ((ofSchema s).after requests).IsNodup ∧
      (∀ name d, ((ofSchema s).after requests).compiled.lookup name = some d → Descriptor.compile s name = .ok d) ∧
      (∀ name fault, Descriptor.compile s name = .error fault → ((ofSchema s).after requests).contains name = false) ∧
      ∀ later, ((ofSchema s).after requests).compiled <:+ ((ofSchema s).after (requests ++ later)).compiled ∧
        ∀ name d, ((ofSchema s).after requests).compiled.lookup name = some d →
          ((ofSchema s).after (requests ++ later)).compiled.lookup name = some d := by
  have hfresh := over_ofSchema s
  have hempty : (ofSchema s).IsNodup := List.nodup_nil
  obtain ⟨hover, hnodup, -⟩ := hfresh.after hempty requests
  refine ⟨hfresh.answers_eq hempty hfresh requests, hnodup, hover.compile_of_lookup, ?_, ?_⟩
  · intro name fault hfault
    cases hl : ((ofSchema s).after requests).compiled.lookup name with
    | none => rw [contains, hl, Option.isSome_none]
    | some d =>
      rw [hover.compile_of_lookup name d hl] at hfault
      cases hfault
  · intro later
    obtain ⟨hover', -, hgrown⟩ := hover.after hnodup later
    rw [after_append]
    exact ⟨hgrown, fun name d => hover.lookup_of_suffix hover' hgrown⟩

end Registry
end SoapBinding
