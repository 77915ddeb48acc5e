import SoapBinding.Proofs.Codec.Payloads
import SoapBinding.Proofs.Context.Index
import SoapBinding.Proofs.Xml.Markup

/-!
# References and attachments

Writing a value registers its payloads, one after the other, and writes a reference to each of them: both go by
`Schema.payloads`. Work on an encoder that does so is said to refer to payloads (`Encoding.Refers`), which is a property
that survives sequences, descriptors and elements. Where the work fails it has registered some payloads in front, so the
property tells about failures as well.

    refers_writeContent : Refers s names (writeContent files d v) (s.payloads d v)

The induction is on the value, as that of the writer is.
-/

namespace SoapBinding

open Outcome
open Xml (Sink Writing Markup)

/-- Elements of a property's own name may be written: where it is neither content nor of a choice type, and for nil marks. -/
def Property.IsTagged (s : Schema) (p : Property) : Prop :=
  (p.content = true → p.nilable = true) ∧
    ∀ nested, Descriptor.compile s p.type = .ok nested → nested.isChoice = true → p.nilable = true

theorem Property.isTagged_of_nilable {s : Schema} {p : Property} (h : p.nilable = true) : p.IsTagged s :=
  ⟨fun _ => h, fun _ _ _ => h⟩

theorem Property.isTagged_of_wrapped {s : Schema} {p : Property} {nested : Descriptor}
    (hd : Descriptor.compile s p.type = .ok nested) (h : (p.content || nested.isChoice) = false) : p.IsTagged s := by
  rw [Bool.or_eq_false_iff] at h
  refine ⟨fun hcontent => absurd (h.1.symm.trans hcontent) Bool.false_ne_true, fun nested' hd' hchoice => ?_⟩
  rw [hd] at hd'
  cases hd'
  exact absurd (h.2.symm.trans hchoice) Bool.false_ne_true

/-- A name that a schema, or a reference, gives to an element. -/
inductive Schema.NamesTag (s : Schema) : String → Prop where
  | inclusion : NamesTag s Xml.includeName
  | property {type : TypeName} {d : Descriptor} {p : Property} : Descriptor.compile s type = .ok d → p ∈ d.properties →
      p.IsTagged s → NamesTag s p.name
  | variant {type : TypeName} {d : Descriptor} {v : Variant} {name : String} : Descriptor.compile s type = .ok d →
      v ∈ d.variants → v.dispatch = .element name → NamesTag s name

/-- The payloads that are registered when they are to be written: all where payloads travel as attachments, and none
elsewhere. -/
def Context.attaches (c : Context) (bs : List Binary) : List Binary := if c.multipart then bs else []

@[simp] theorem Context.attaches_append (c : Context) (front back : List Binary) :
    c.attaches (front ++ back) = c.attaches front ++ c.attaches back := by
  unfold attaches
  split <;> rfl

theorem Context.Extends.attaches {c c' : Context} (h : c'.Extends c) (bs : List Binary) :
    c'.attaches bs = c.attaches bs := by
  rw [Context.attaches, Context.attaches, h.multipart]

namespace Encoding

/-- The references to payloads, as an exchange writes them. -/
def referencesTo (c : Context) (bs : List Binary) : List (Reference × String) :=
  (c.attaches bs).map fun b => (c.reference, referenceTo b)

/-- What a piece of work makes of an encoder, by the payloads it refers to and what it adds to a document that refers to
them. Where it fails it may have registered those in front only. -/
structure Referred (s : Schema) (adds : List (Reference × String) → Sink → Sink → Prop) (bs : List Binary) (e : Encoder)
    (r : EStateM.Result Error Encoder Unit) : Prop where
  registry : (left r).registry.Over s
  registered : ∃ front, front <+: e.context.attaches bs ∧ e.context.addAll front = .ok () (left r).context ∧
    ∀ e', r = .ok () e' → front = e.context.attaches bs
  added : ∀ e', r = .ok () e' → adds (referencesTo e.context bs) e.sink e'.sink

/-- Where payloads do not travel as attachments, it makes no difference which there are. -/
theorem Referred.inline {s : Schema} {adds : List (Reference × String) → Sink → Sink → Prop} {e : Encoder}
    {r : EStateM.Result Error Encoder Unit} (h : Referred s adds [] e r) (hinline : e.context.multipart = false)
    (bs : List Binary) : Referred s adds bs e r := by
  have hattaches : e.context.attaches bs = e.context.attaches [] := by
    rw [Context.attaches, Context.attaches, hinline]
    rfl
  obtain ⟨hover, hregistered, hadded⟩ := h
  exact ⟨hover, hattaches ▸ hregistered, by rwa [referencesTo, hattaches]⟩

/-- Work that registers payloads, and writes a reference to each. -/
def Refers (s : Schema) (adds : List (Reference × String) → Sink → Sink → Prop) (work : Encoding Unit)
    (bs : List Binary) : Prop :=
  ∀ e : Encoder, e.registry.Over s → Referred s adds bs e (work e)

namespace Refers

variable {s : Schema} {adds adds' : List (Reference × String) → Sink → Sink → Prop} {names : String → Prop}
  {work : Encoding Unit} {bs bs' : List Binary} {files : Files} {d : Descriptor} {v : Value} {name : String}

/-- Work that fails and changes nothing has registered nothing. -/
theorem failed {e e' : Encoder} {fault : Error} (hover : e'.registry.Over s) (hcontext : e'.context = e.context) :
    Referred s adds bs e (.error fault e') :=
  ⟨hover, ⟨[], List.nil_prefix, by rw [← hcontext]; rfl, nofun⟩, nofun⟩

theorem throw {fault : Error} : Refers s adds (throw fault) bs :=
  fun _ he => failed he rfl

theorem nothing : Refers s (Sink.Gained names) (pure ()) [] := by
  intro e he
  refine ⟨he, ⟨[], List.nil_prefix, rfl, fun _ _ => by simp [Context.attaches]⟩, ?_⟩
  rintro _ ⟨⟩
  rw [referencesTo, Context.attaches, ite_self]
  exact .refl _

theorem onSink {work : Writing Unit} (h : ∀ sink sink', work sink = .ok () sink' → adds [] sink sink') :
    Refers s adds (Encoding.onSink work) [] := by
  intro e he
  unfold Encoding.onSink
  cases hwork : work e.sink with
  | error fault sink => exact failed he rfl
  | ok u sink =>
    refine ⟨he, ⟨[], List.nil_prefix, rfl, fun _ _ => by simp [Context.attaches]⟩, ?_⟩
    rintro _ ⟨⟩
    rw [referencesTo, Context.attaches, ite_self]
    exact h _ _ hwork

/-- Payloads of work in a row come in a row. -/
theorem andThen {next : Encoding Unit} (hw : Refers s (Sink.Gained names) work bs)
    (hn : Refers s (Sink.Gained names) next bs') : Refers s (Sink.Gained names) (work >>= fun _ => next) (bs ++ bs') := by
  intro e he
  obtain ⟨hover, ⟨front, hfront, hadd, hall⟩, hgained⟩ := hw e he
  cases hwork : work e with
  | error fault e₁ =>
    -- What the first work has registered is in front of all that both would register.
    rw [hwork, left_error] at hover hadd
    rw [bind_error hwork]
    refine ⟨hover, ⟨front, hfront.trans ?_, hadd, nofun⟩, nofun⟩
    rw [Context.attaches_append]
    exact List.prefix_append ..
  | ok u e₁ =>
    rw [hwork, left_ok] at hover hadd
    obtain rfl := hall e₁ hwork
    have hextends := Context.extends_addAll hadd
    obtain ⟨hover', ⟨front', hfront', hadd', hall'⟩, hgained'⟩ := hn e₁ hover
    -- The next work starts in a larger context, which has the same settings.
    rw [hextends.attaches] at hfront' hall'
    rw [bind_ok hwork]
    refine ⟨hover', ⟨e.context.attaches bs ++ front', ?_, Context.addAll_append.2 ⟨_, hadd, hadd'⟩, ?_⟩, ?_⟩
    · rw [Context.attaches_append]
      exact (List.prefix_append_right_inj _).2 hfront'
    · intro e₂ hok
      rw [hall' e₂ hok, Context.attaches_append]
    · intro e₂ hok
      have hreferences : referencesTo e.context (bs ++ bs') =
          referencesTo e.context bs ++ referencesTo e₁.context bs' := by
        simp only [referencesTo, Context.attaches_append, List.map_append, hextends.attaches, hextends.reference]
      rw [hreferences]
      exact (hgained e₁ hwork).trans (hgained' e₂ hok)

/-- The work may depend on the descriptor of a type. -/
theorem descriptor {type : TypeName} {next : Descriptor → Encoding Unit}
    (h : ∀ d, Descriptor.compile s type = .ok d → Refers s adds (next d) bs) :
    Refers s adds (Encoding.descriptor type >>= next) bs := by
  intro e he
  cases hdescriptor : Registry.descriptor type e.registry with
  | error fault registry =>
    obtain rfl := Registry.descriptor_error hdescriptor
    have hfailed : Encoding.descriptor type e = .error fault e := by
      rw [Encoding.descriptor, onRegistry, hdescriptor]
    rw [bind_error hfailed]
    exact failed he rfl
  | ok d registry =>
    obtain ⟨hover, hd⟩ := Registry.ensures_descriptor s type _ _ _ he hdescriptor
    have hfound : Encoding.descriptor type e = .ok d { e with registry } := by
      rw [Encoding.descriptor, onRegistry, hdescriptor]
    rw [bind_ok hfound]
    obtain ⟨hover', hregistered, hadded⟩ := h d hd { e with registry } hover
    exact ⟨hover', hregistered, hadded⟩

/-- The work may depend on the subtype that a value is of. -/
theorem subtypeOf {next : Option Descriptor → Encoding Unit}
    (hnone : s.writtenAs d v = d → Refers s adds (next none) bs)
    (hsome : ∀ type runtime, Descriptor.compile s type = .ok runtime → s.writtenAs d v = runtime →
      Refers s adds (next (some runtime)) bs) :
    Refers s adds (Encoding.subtypeOf d v >>= next) bs := by
  unfold Encoding.subtypeOf
  unfold Schema.writtenAs at hnone hsome
  cases hobject : v.object? with
  | none =>
    rw [hobject] at hnone
    exact hnone rfl
  | some object =>
    rw [hobject] at hnone hsome
    dsimp only at hnone hsome ⊢
    split
    · next hsubtype =>
      rw [if_pos hsubtype] at hsome
      rw [bind_assoc]
      refine descriptor fun runtime hruntime => hsome _ runtime hruntime ?_
      rw [hruntime]
      rfl
    · next hsubtype =>
      rw [if_neg hsubtype] at hnone
      exact hnone rfl

theorem mono (h : Refers s adds work bs)
    (hadds : ∀ references sink sink', adds references sink sink' → adds' references sink sink') :
    Refers s adds' work bs := by
  intro e he
  obtain ⟨hover, hregistered, hadded⟩ := h e he
  exact ⟨hover, hregistered, fun e' hok => hadds _ _ _ (hadded e' hok)⟩

/-- An element around the work. -/
theorem element (hname : names name) (h : Refers s (Sink.Gained names) work bs) :
    Refers s (Sink.GainedElement names name)
      (do Encoding.onSink (Sink.startElement name); work; Encoding.onSink Sink.endElement) bs := by
  intro e he
  cases hstart : Sink.startElement name e.sink with
  | error fault sink =>
    rw [bind_error (onSink_of_error hstart)]
    exact failed he rfl
  | ok u sink =>
    obtain rfl := Sink.startElement_eq hstart
    rw [bind_ok (onSink_of_ok hstart)]
    obtain ⟨hover, ⟨front, hfront, hadd, hall⟩, hgained⟩ := h { e with sink := e.sink.started name } he
    cases hwork : work { e with sink := e.sink.started name } with
    | error fault e₁ =>
      rw [hwork, left_error] at hover hadd
      rw [bind_error hwork]
      exact ⟨hover, ⟨front, hfront, hadd, nofun⟩, nofun⟩
    | ok u e₁ =>
      rw [hwork, left_ok] at hover hadd
      rw [bind_ok hwork]
      unfold Encoding.onSink
      cases hend : Sink.endElement e₁.sink with
      | error fault sink => exact ⟨hover, ⟨front, hfront, hadd, nofun⟩, nofun⟩
      | ok u sink =>
        refine ⟨hover, ⟨front, hfront, hadd, fun _ _ => hall e₁ hwork⟩, ?_⟩
        rintro _ ⟨⟩
        exact .around (hgained e₁ hwork) hend hname

end Refers

/-! ### Leaves -/

variable {s : Schema} {names : String → Prop} {files : Files} {d : Descriptor} {v : Value} {b : Binary}

theorem gained_writeReference {reference : Reference} {sink sink' : Sink} (hnames : names Xml.includeName)
    (h : writeReference reference b sink = .ok () sink') :
    Sink.Gained names [(reference, referenceTo b)] sink sink' := by
  cases reference with
  | href =>
    have := @Sink.Gained.added names _ _ _ _ h (by decide)
    rwa [if_pos rfl] at this
  | xopInclude =>
    rw [writeReference_include_eq h]
    exact (Sink.GainedElement.including hnames _).gained

theorem gained_writeTexts {texts : List String} {sink sink' : Sink} (h : writeTexts texts sink = .ok () sink') :
    Sink.Gained names [] sink sink' := by
  rw [writeTexts_eq h]
  exact .piece (.text (String.join texts)) nofun

/-- A payload is registered and then referred to, or it is written as text. -/
theorem refers_writeBinary (hnames : names Xml.includeName) :
    Refers s (Sink.Gained names) (writeBinary files v) v.binary?.toList := by
  unfold writeBinary
  cases v.binary? with
  | none => exact .throw
  | some b =>
    intro e he
    dsimp only
    rw [bind_ok (get_apply e), Option.toList_some]
    cases hmultipart : e.context.multipart with
    | false =>
      rw [if_neg (by simp)]
      refine Referred.inline ?_ hmultipart _
      cases b.bytes? files with
      | none => exact Refers.throw e he
      | some bytes => exact Refers.onSink (fun _ _ => gained_writeTexts) e he
    | true =>
      rw [if_pos rfl]
      have hall : e.context.attaches [b] = [b] := by rw [Context.attaches, hmultipart]; rfl
      cases hadd : e.context.add b with
      | error fault =>
        rw [bind_error (show register b e = .error fault e by rw [register, hadd])]
        exact Refers.failed he rfl
      | ok context =>
        rw [bind_ok (show register b e = .ok () { e with context } by rw [register, hadd])]
        have hregistered : e.context.addAll [b] = .ok () context := Context.addAll_cons.2 ⟨context, hadd, rfl⟩
        unfold onSink
        cases hwrite : writeReference e.context.reference b e.sink with
        | error fault sink => exact ⟨he, ⟨[b], by rw [hall], hregistered, nofun⟩, nofun⟩
        | ok u sink =>
          refine ⟨he, ⟨[b], by rw [hall], hregistered, fun _ _ => hall.symm⟩, ?_⟩
          rintro _ ⟨⟩
          rw [referencesTo, hall]
          exact gained_writeReference hnames hwrite

/-! ### Structure -/

theorem refers_writeNil {name : String} (hname : names name) :
    Refers s (Sink.GainedElement names name) (onSink (writeNil name)) [] := by
  refine .onSink fun sink sink' h => ?_
  obtain ⟨_, started, hstart, h⟩ := bind_eq_ok.1 h
  obtain ⟨_, marked, hmark, hend⟩ := bind_eq_ok.1 h
  obtain rfl := Sink.startElement_eq hstart
  exact .around (.markNil hmark) hend hname

/-- The contents of a value refer to its payloads, whatever the type. -/
def ContentRefers (s : Schema) (names : String → Prop) (files : Files) (v : Value) : Prop :=
  ∀ {type : TypeName} {d : Descriptor}, Descriptor.compile s type = .ok d →
    Refers s (Sink.Gained names) (writeContent files d v) (s.payloads d v)

/-- No value has no payload. -/
theorem payloads_null (s : Schema) (d : Descriptor) : s.payloads d .null = [] := by
  rw [Schema.payloads]
  cases d.shape with
  | simple primitive => cases primitive <;> rfl
  | sequence | choice => rfl

theorem payloadsIn_null (s : Schema) (bare : Bool) (type : TypeName) : s.payloadsIn bare type .null = [] := by
  rw [Schema.payloadsIn]
  cases Descriptor.compile s type with
  | error => rfl
  | ok d => exact payloads_null s _

/-- What is written inside an element. -/
def writeInside (files : Files) (declared : Descriptor) (v : Value) : Encoding Unit := do
  match ← subtypeOf declared v with
  | some subtype =>
    onSink (Sink.markType subtype.name)
    writeContent files subtype v
  | none => writeContent files declared v

theorem writeWrapped_inside {element : String} (hnull : v.isNull = false) :
    writeWrapped files element d v =
      (do onSink (Sink.startElement element); writeInside files d v; onSink Sink.endElement) := by
  rw [writeWrapped, hnull, if_neg (by decide), writeInside, bind_assoc]
  congr 1
  funext _
  congr 1
  funext chosen
  cases chosen with
  | none => rfl
  | some subtype => rw [bind_assoc]

/-- An element refers to the payloads of its value. -/
theorem refers_writeWrapped {type : TypeName} {element : String} (hcontent : ContentRefers s names files v)
    (helement : names element) (hd : Descriptor.compile s type = .ok d) :
    Refers s (Sink.GainedElement names element) (writeWrapped files element d v) (s.payloads (s.writtenAs d v) v) := by
  cases hnull : v.isNull with
  | true =>
    obtain rfl : v = .null := by cases v <;> first | rfl | cases hnull
    rw [writeWrapped, hnull, if_pos rfl, payloads_null]
    exact refers_writeNil helement
  | false =>
    rw [writeWrapped_inside hnull]
    refine .element helement (.subtypeOf (fun hsame => ?_) (fun type runtime hruntime hsame => ?_))
    · rw [hsame]
      exact hcontent hd
    · rw [hsame]
      exact .andThen (.onSink fun _ _ => .markType) (hcontent hruntime)

/-- What is written with no element around refers to the payloads of the type itself. -/
theorem refers_bare {type : TypeName} (hcontent : ContentRefers s names files v) (hd : Descriptor.compile s type = .ok d) :
    Refers s (Sink.Gained names) (writeContent files d v) (s.payloadsIn true type v) := by
  rw [Schema.payloadsIn, hd]
  exact hcontent hd

/-- What is written inside an element refers to the payloads of the type that the value is written as. -/
theorem refers_wrapped {type : TypeName} {element : String} (hcontent : ContentRefers s names files v)
    (hd : Descriptor.compile s type = .ok d) (helement : names element) :
    Refers s (Sink.Gained names) (writeWrapped files element d v) (s.payloadsIn false type v) := by
  rw [Schema.payloadsIn, hd]
  exact (refers_writeWrapped hcontent helement hd).mono fun _ _ _ h => h.gained

theorem refers_writeNothing {p : Property} {owner : TypeName} (hp : p.nilable = true → names p.name) :
    Refers s (Sink.Gained names) (writeNothing owner p) [] := by
  unfold writeNothing
  split
  · next hnilable => exact (refers_writeNil (hp hnilable)).mono fun _ _ _ h => h.gained
  · split
    · exact .nothing
    · exact .throw

/-- One value of a property refers to the payloads in it. A choice is written without an element, as it is declared. -/
theorem refers_writeSingle {p : Property} {owner : TypeName} (hcontent : ContentRefers s names files v)
    (hp : p.IsTagged s → names p.name) :
    Refers s (Sink.Gained names) (writeSingle files owner p v) (s.payloadsIn p.content p.type v) := by
  rw [writeSingle]
  by_cases hnull : v.isNull = true
  · obtain rfl : v = .null := by cases v <;> first | rfl | cases hnull
    rw [if_pos hnull, payloadsIn_null]
    exact refers_writeNothing fun hnilable => hp (Property.isTagged_of_nilable hnilable)
  · rw [if_neg hnull]
    refine .descriptor fun d hd => ?_
    -- A choice has no subtypes, so it is written as the type that is declared, with or without an element around.
    have hbare : s.payloadsIn p.content p.type v = s.payloadsIn (p.content || d.isChoice) p.type v := by
      cases hchoice : d.isChoice with
      | false => rw [Bool.or_false]
      | true =>
        rw [Schema.payloadsIn, Schema.payloadsIn, hd]
        dsimp only
        rw [Schema.writtenAs_choice hchoice, ite_self, ite_self]
    rw [hbare]
    cases hcontained : p.content || d.isChoice with
    | false => exact refers_wrapped hcontent hd (hp (Property.isTagged_of_wrapped hd hcontained))
    | true => exact refers_bare hcontent hd

theorem refers_writeItems {p : Property} {owner : TypeName} {items : List Value}
    (hcontent : ∀ item ∈ items, ContentRefers s names files item) (hp : p.IsTagged s → names p.name) :
    Refers s (Sink.Gained names) (writeItems files owner p items)
      (items.flatMap fun item => s.payloadsIn p.content p.type item) := by
  induction items with
  | nil =>
    rw [writeItems]
    exact .nothing
  | cons item rest ih =>
    rw [writeItems, List.flatMap_cons]
    exact .andThen (refers_writeSingle (hcontent item List.mem_cons_self) hp)
      (ih fun other hother => hcontent other (List.mem_cons_of_mem _ hother))

/-- The field of a property refers to the payloads in it. -/
theorem refers_writeProperty {p : Property} {owner : TypeName} (hp : p.IsTagged s → names p.name)
    (hcontent : ∀ inner, sizeOf inner ≤ sizeOf v → ContentRefers s names files inner) :
    Refers s (Sink.Gained names) (writeProperty files owner p v) (s.payloadsOfField p v) := by
  unfold writeProperty Schema.payloadsOfField
  cases p.repeated with
  | false => exact refers_writeSingle (hcontent v (Nat.le_refl _)) hp
  | true =>
    cases v with
    | null => exact .nothing
    | list items =>
      refine refers_writeItems (fun item hitem => hcontent item ?_) hp
      have := List.sizeOf_lt_of_mem hitem
      simp only [Value.list.sizeOf_spec]
      omega
    | _ => exact .throw

/-- Fields refer to their payloads in the order of the properties. -/
theorem refers_writeProperties {owner : TypeName} {fields : Fields} {properties : List Property}
    (hp : ∀ p ∈ properties, p.IsTagged s → names p.name)
    (hcontent : ∀ inner, sizeOf inner ≤ sizeOf fields → ContentRefers s names files inner) :
    Refers s (Sink.Gained names) (writeProperties files owner fields properties)
      (properties.flatMap fun p => s.payloadsOfField p (fields.valueOf p)) := by
  induction properties with
  | nil =>
    rw [writeProperties]
    exact .nothing
  | cons p rest ih =>
    rw [writeProperties_cons, List.flatMap_cons]
    refine .andThen (refers_writeProperty (hp p List.mem_cons_self) fun inner hinner => hcontent inner ?_)
      (ih fun q hq => hp q (List.mem_cons_of_mem _ hq))
    exact hinner.trans (sizeOf_valueOf_le fields p)

/-- **Content refers to its payloads.** The induction is on the value, of which only parts are written further in. -/
theorem refers_writeContent (hnames : ∀ name, s.NamesTag name → names name) (v : Value) :
    ContentRefers s names files v := by
  intro type d hd
  rw [writeContent, Schema.payloads]
  cases hshape : d.shape with
  | simple primitive =>
    cases primitive with
    | base64Binary => exact refers_writeBinary (hnames _ .inclusion)
    | text textType =>
      dsimp only [writePrimitive]
      cases textType.render? v with
      | none => exact .throw
      | some t => exact .onSink fun _ _ => .text
  | sequence properties subtypes isAbstract =>
    cases v with
    | object type' fields =>
      refine refers_writeProperties (fun p hp hnamed => hnames _ (.property hd ?_ hnamed))
        fun inner hinner => refers_writeContent hnames inner
      rwa [Descriptor.properties, hshape]
    | _ => exact .throw
  | choice variants =>
    cases v with
    | choice tag inner =>
      dsimp only
      cases hfind : variants.find? (·.tag == tag) with
      | none => exact .throw
      | some variant =>
        have hmem : variant ∈ d.variants := by
          rw [Descriptor.variants, hshape]
          exact List.mem_of_find?_eq_some hfind
        refine .descriptor fun nested hnested => ?_
        dsimp only
        cases hdispatch : variant.dispatch with
        | element name =>
          exact refers_wrapped (refers_writeContent hnames inner) hnested (hnames _ (.variant hd hmem hdispatch))
        | inline => exact refers_bare (refers_writeContent hnames inner) hnested
    | _ => exact .throw
termination_by sizeOf v
decreasing_by
  · simp; omega
  · simp
  · simp

/-! ### Documents -/

theorem refers_write (hnames : ∀ name, s.NamesTag name → names name) (type : TypeName) :
    Refers s (Sink.Gained names) (write files type v) (s.payloadsIn true type v) :=
  .descriptor fun _ hd => refers_bare (refers_writeContent hnames v) hd

theorem refers_writeElement {element : String} (helement : names element) (hnames : ∀ name, s.NamesTag name → names name)
    (type : TypeName) :
    Refers s (Sink.GainedElement names element) (writeElement files element type v) (s.payloadsIn false type v) := by
  refine .descriptor fun d hd => ?_
  rw [Schema.payloadsIn, hd]
  exact refers_writeWrapped (refers_writeContent hnames v) helement hd

/-- **References and attachments agree.** When an element has been written, the context holds its attachments from before, and
behind them the payloads of the value that were not among them, each once and in the order of the document. The document is
one element, named as asked, with tags of the schema's names inside; it refers to each payload once and to nothing else,
and each reference leads to the payload. Two payloads of one id, or a payload and an attachment from before, are one content.

Where payloads do not travel as attachments, there are no references and no new attachments. -/
theorem references_writeElement {element : String} {type : TypeName} {e e' : Encoder} (hover : e.registry.Over s)
    (hcontext : e.context.IsIndexed) (h : writeElement files element type v e = .ok () e') :
    ∃ root : Markup, root.IsElement element ∧ e'.sink = e.sink.wrote [] (some root.render) ∧
      (∀ t ∈ root.tags, t.name = element ∨ s.NamesTag t.name) ∧
      (e.context.multipart = true →
        e'.context.attachments = e.context.attachments ++
            ((s.payloadsIn false type v).removeAll e.context.attachments).eraseDups ∧
          root.references = (s.payloadsIn false type v).map (fun b => (e.context.reference, referenceTo b)) ∧
          (∀ b ∈ s.payloadsIn false type v, Decoding.resolve e'.context (referenceTo b) = .ok b) ∧
          ∀ b ∈ e.context.attachments ++ s.payloadsIn false type v,
            ∀ b' ∈ e.context.attachments ++ s.payloadsIn false type v, b.id = b'.id → b = b') ∧
      (e.context.multipart = false → e'.context.attachments = e.context.attachments ∧ root.references = []) := by
  obtain ⟨-, ⟨front, -, hadd, hall⟩, hadded⟩ := @refers_writeElement s (fun name => name = element ∨ s.NamesTag name) files v
    element (.inl rfl) (fun _ => .inr) type e hover
  obtain rfl := hall e' h
  rw [h, left_ok] at hadd
  obtain ⟨root, helement, hsink, htags, hreferences⟩ := hadded e' h
  refine ⟨root, helement, hsink, fun t ht => (htags t ht).name, fun hmultipart => ?_, fun hinline => ?_⟩
  · rw [Context.attaches, if_pos hmultipart] at hadd
    have hindexed := hcontext.addAll hadd
    have hmem (b : Binary) := hcontext.mem_attachments_addAll (b := b) hadd
    refine ⟨hcontext.attachments_addAll hadd, ?_, ?_, ?_⟩
    · rw [hreferences, referencesTo, Context.attaches, if_pos hmultipart]
    · intro b hb
      rw [resolve_referenceTo]
      exact Context.resolve_of_attachment? (hindexed.attachment?_iff.2 ⟨(hmem b).2 (.inr hb), rfl⟩)
    · intro b hb b' hb' hid
      exact hindexed.eq_of_id ((hmem b).2 (List.mem_append.1 hb)) ((hmem b').2 (List.mem_append.1 hb')) hid
  · -- Inline, no list of payloads is registered at all.
    have hnone (bs : List Binary) : e.context.attaches bs = [] := by
      rw [Context.attaches, hinline]
      rfl
    rw [hnone, Context.addAll] at hadd
    obtain ⟨-, hsame⟩ := EStateM.Result.ok.inj hadd
    refine ⟨by rw [← hsame], ?_⟩
    rw [hreferences, referencesTo, hnone, List.map_nil]

/-! ### A photo beside a logo -/

/-- A logo, registered before. -/
def logo : Binary := .ofBytes "logo" [1]

/-- A photo. -/
def photo : Binary := .ofBytes "photo" [2]

/-- An encoder that refers to attachments by `href`, of which the logo is one. -/
def photoEncoder : Encoder :=
  ⟨.ofSchema .empty, (Context.withAttachments .href).push logo, .empty none⟩

theorem photoEncoder_isIndexed : photoEncoder.context.IsIndexed :=
  (Context.isIndexed_empty rfl rfl).push nofun

/-- The photo is written as a reference, and registered behind the logo. -/
theorem references_writeElement_photo :
    ∃ e', writeElement .none "photo" (.xsd "base64Binary") (.binary photo) photoEncoder = .ok () e' ∧
      e'.context.attachments = [logo, photo] ∧
      ∃ root : Markup, e'.sink.written = root.render ∧ root.references = [(.href, "cid:photo")] := by
  let d : Descriptor := ⟨.xsd "base64Binary", .simple .base64Binary⟩
  have hd : Descriptor.compile .empty (.xsd "base64Binary") = .ok d := rfl
  have hpayloads : Schema.empty.payloadsIn false (.xsd "base64Binary") (.binary photo) = [photo] := by
    rw [Schema.payloadsIn, hd]
    show Schema.empty.payloads d (.binary photo) = _
    rw [Schema.payloads]
    rfl
  have hinside : writeInside .none d (.binary photo) = writeBinary .none (.binary photo) := by
    show (pure none >>= _) = _
    rw [pure_bind, writeContent]
    rfl
  have hwrite : okWith (fun _ _ => true)
      (writeElement .none "photo" (.xsd "base64Binary") (.binary photo) photoEncoder) = true := by
    have hfound : descriptor (.xsd "base64Binary") photoEncoder =
        .ok d { photoEncoder with registry := ⟨.empty, [(.xsd "base64Binary", d)]⟩ } := rfl
    rw [writeElement, bind_ok hfound, writeWrapped_inside rfl, hinside]
    decide +kernel
  obtain ⟨_, e', hwrite, -⟩ := exists_of_okWith hwrite
  obtain ⟨root, -, hsink, -, hattached, -⟩ :=
    references_writeElement (Registry.over_ofSchema _) photoEncoder_isIndexed hwrite
  obtain ⟨hattachments, hreferences, -⟩ := hattached rfl
  rw [hpayloads] at hattachments hreferences
  have hphoto : referenceTo photo = "cid:photo" := by decide +kernel
  refine ⟨e', hwrite, ?_, root, ?_, ?_⟩
  · rw [hattachments]
    decide +kernel
  · rw [hsink]
    show "" ++ "" ++ root.render = _
    rw [String.empty_append, String.empty_append]
  · rw [hreferences, List.map_singleton, hphoto]
    rfl

end Encoding
end SoapBinding
