import SoapBinding.Proofs.Codec.ContentModel
import SoapBinding.Proofs.Codec.Embedded
import SoapBinding.Proofs.Xml.Standing

/-!
# Rows of elements

What is written for a value with no element around it is a row of elements, unless the type, or one whose values stand in it
in the same way, is a simple one (`Schema.IsElemental`). No text is written between them, so a row and another behind it are
one row (`Encoding.Puts`).

    rows_writeContent : … s.IsElemental type → Rows s (writeContent files d v)

Where a row is read at all, it is read as one child after the other, wherever the same namespaces are in scope
(`Markup.showsRow_or_fails`).
-/

namespace SoapBinding

open Outcome
open Xml (Element Node Markup Scope ShowsIn FailsIn)

/-! ### Rows -/

/-- No blank text stands in front of a child. -/
def Child.IsFlush (c : Child) : Prop := ∃ rest, c.nodes = .start c.element :: rest

namespace Xml.Markup

/-- The text of a row; that of an empty one is no text at all. -/
def rowText : List Markup → Option String
  | [] => none
  | m :: row => some (renderAll (m :: row))

theorem rowText_append (row row' : List Markup) :
    rowText (row ++ row') = Option.merge (· ++ ·) (rowText row) (rowText row') := by
  cases row with
  | nil => cases row' <;> rfl
  | cons m row =>
    cases row' with
    | nil => simp [rowText, Option.merge]
    | cons m' row' =>
      show some (renderAll (m :: row ++ m' :: row')) = some (renderAll (m :: row) ++ renderAll (m' :: row'))
      rw [renderAll_append]

theorem rowText_getD (row : List Markup) : (rowText row).getD "" = renderAll row := by cases row <;> rfl

/-- The children that a row shows in a scope, or else there is a fault in it. -/
theorem showsRow_or_fails (row : List Markup) (helements : ∀ m ∈ row, ∃ name, m.IsElement name)
    (htags : ∀ t ∈ tagsAll row, Xml.IsTag t) (scope : Scope) :
    (∃ cs : List Child, (∀ c ∈ cs.head?, c.IsFlush) ∧ ShowsIn scope (renderAll row) (cs.flatMap Child.nodes)) ∨
      FailsIn scope (renderAll row) := by
  induction row with
  | nil => exact .inl ⟨[], by rintro _ ⟨⟩, Xml.showsIn_nil scope⟩
  | cons m row ih =>
    obtain ⟨⟨name, hm⟩, hrow⟩ := List.forall_mem_cons.1 helements
    rw [tagsAll, List.forall_mem_append] at htags
    rw [renderAll]
    obtain ⟨e, inner, hinner, hshows⟩ | hbreaks := shows_or_breaks hm htags.1 scope
    · have hwhole := Xml.areWhole_element e hinner
      obtain ⟨cs, -, hrest⟩ | hfails := ih hrow htags.2
      · let c : Child := ⟨e, .start e :: (inner ++ [.finish]), [], inner, List.forall_mem_nil _, hinner, rfl⟩
        refine .inl ⟨c :: cs, ?_, hshows.append hrest⟩
        rintro _ ⟨⟩
        exact ⟨_, rfl⟩
      · exact .inr (hfails.behind hwhole hshows)
    · exact .inr (hbreaks.failsIn.append _)

end Xml.Markup

/-! ### Elemental types -/

/-- Values of a type stand as rows of elements where there is no element around them. Each type that they can hold values of
compiles, and where their elements begin can be told. -/
structure Schema.IsElemental (s : Schema) (root : TypeName) : Prop where
  compiles : ∀ type, s.Reaches root type → ∃ d, Descriptor.compile s type = .ok d
  answers : ∀ type d name (r : Registry), Relation.ReflTransGen s.Nests root type → Descriptor.compile s type = .ok d →
    r.Over s → ∃ answer r', d.begins name r = .ok answer r'
  not_simple : ∀ type d, Relation.ReflTransGen s.Nests root type → Descriptor.compile s type = .ok d →
    ∀ primitive, d.shape ≠ .simple primitive

/-- A property whose values stand in elements of their own, or as rows of elements where there are none. -/
structure Property.IsElemental (s : Schema) (p : Property) (nested : Descriptor) : Prop where
  compile : Descriptor.compile s p.type = .ok nested
  bare : (nested.isChoice || p.content) = true → s.IsElemental p.type

namespace Schema.IsElemental

variable {s : Schema} {root inner : TypeName} {d nested : Descriptor} {p : Property} {v : Variant}

theorem nests (h : s.IsElemental root) (hn : s.Nests root inner) : s.IsElemental inner :=
  ⟨fun type hreach => h.compiles type (hreach.trans (hn.reaches .refl)),
    fun type d name r hinner => h.answers type d name r (hinner.head hn),
    fun type d hinner => h.not_simple type d (hinner.head hn)⟩

theorem property (h : s.IsElemental root) (hd : Descriptor.compile s root = .ok d) (hp : p ∈ d.properties) :
    ∃ nested, p.IsElemental s nested := by
  obtain ⟨nested, hnested⟩ := h.compiles _ (.step .refl hd (Descriptor.mem_parts_of_property hp))
  exact ⟨nested, hnested, fun hbare => h.nests (.property hd hp hnested hbare)⟩

theorem variant (h : s.IsElemental root) (hd : Descriptor.compile s root = .ok d) (hv : v ∈ d.variants)
    (hinline : v.dispatch = .inline) : s.IsElemental v.type :=
  h.nests (.variant hd hv hinline)

end Schema.IsElemental

namespace Encoding

variable {s : Schema} {files : Files} {d nested : Descriptor} {type owner : TypeName} {p : Property} {v : Value}
  {e e' e'' : Encoder} {row row' : List Markup}

/-- A row of elements has been written behind a document. -/
structure Puts (s : Schema) (e e' : Encoder) (row : List Markup) : Prop where
  follows : e'.Follows s e
  sink : e'.sink = e.sink.wrote [] (Markup.rowText row)
  elements : ∀ m ∈ row, ∃ name, m.IsElement name
  tags : ∀ t ∈ Markup.tagsAll row, Xml.IsTag t

theorem Puts.refl (hover : e.registry.Over s) : Puts s e e [] :=
  ⟨⟨hover, .refl _⟩, (Xml.Sink.wrote_nothing _).symm, List.forall_mem_nil _, List.forall_mem_nil _⟩

/-- Two rows are one. -/
theorem Puts.trans (h : Puts s e e' row) (h' : Puts s e' e'' row') : Puts s e e'' (row ++ row') := by
  refine ⟨h'.follows.trans h.follows, ?_, List.forall_mem_append.2 ⟨h.elements, h'.elements⟩, ?_⟩
  · rw [h'.sink, h.sink, Xml.Sink.wrote_wrote, Markup.rowText_append]
  · rw [Markup.tagsAll_append]
    exact List.forall_mem_append.2 ⟨h.tags, h'.tags⟩

/-- Work that writes rows of elements. -/
def Rows (s : Schema) (work : Encoding Unit) : Prop :=
  ∀ e e', e.registry.Over s → work e = .ok () e' → ∃ row, Puts s e e' row

namespace Rows

variable {work next : Encoding Unit}

theorem nothing : Rows s (pure ()) := by
  rintro e _ hover ⟨⟩
  exact ⟨[], .refl hover⟩

theorem throw {fault : Error} : Rows s (throw fault) := by
  intro e e' _ hok
  cases hok

theorem andThen (h : Rows s work) (h' : Rows s next) : Rows s (work >>= fun _ => next) := by
  intro e e' hover hok
  obtain ⟨_, middle, hwork, hnext⟩ := bind_eq_ok.1 hok
  obtain ⟨row, hputs⟩ := h e middle hover hwork
  obtain ⟨row', hputs'⟩ := h' middle e' hputs.follows.registry hnext
  exact ⟨row ++ row', hputs.trans hputs'⟩

/-- The work may depend on the descriptor of a type. -/
theorem descriptor {next : Descriptor → Encoding Unit} (h : ∀ d, Descriptor.compile s type = .ok d → Rows s (next d)) :
    Rows s (Encoding.descriptor type >>= next) := by
  intro e e' hover hok
  obtain ⟨d, middle, hdescriptor, hnext⟩ := bind_eq_ok.1 hok
  unfold Encoding.descriptor onRegistry at hdescriptor
  split at hdescriptor
  · next registry hregistry =>
    cases hdescriptor
    obtain ⟨hover', hd⟩ := Registry.ensures_descriptor s type _ _ _ hover hregistry
    obtain ⟨row, hputs⟩ := h d hd _ e' hover' hnext
    exact ⟨row, ⟨hputs.follows.registry, hputs.follows.context⟩, hputs.sink, hputs.elements, hputs.tags⟩
  · cases hdescriptor

end Rows

/-- One element has been written. -/
theorem exists_puts_of_refers {work : Encoding Unit} {bs : List Binary} {name : String}
    (h : Refers s (Xml.Sink.GainedElement Xml.IsTagName name) work bs) (hover : e.registry.Over s) (hok : work e = .ok () e') :
    ∃ m : Markup, m.IsElement name ∧ Puts s e e' [m] := by
  obtain ⟨hover', ⟨front, -, hadd, -⟩, hadded⟩ := h e hover
  rw [hok, left_ok] at hover' hadd
  obtain ⟨m, hm, hsink, htags, -⟩ := hadded e' hok
  refine ⟨m, hm, ⟨hover', Context.extends_addAll hadd⟩, ?_, List.forall_mem_singleton.2 ⟨name, hm⟩, ?_⟩
  · rw [hsink, Markup.rowText, Markup.renderAll, Markup.renderAll, String.append_empty]
  · rw [Markup.tagsAll, Markup.tagsAll, List.append_nil]
    exact fun t ht => (htags t ht).isTag

theorem rows_of_refers {work : Encoding Unit} {bs : List Binary} {name : String}
    (h : Refers s (Xml.Sink.GainedElement Xml.IsTagName name) work bs) : Rows s work := by
  intro e e' hover hok
  obtain ⟨m, -, hputs⟩ := exists_puts_of_refers h hover hok
  exact ⟨[m], hputs⟩

/-- The contents of a value are written as rows. -/
def ContentRows (s : Schema) (files : Files) (v : Value) : Prop :=
  ∀ {type : TypeName} {d : Descriptor}, Descriptor.compile s type = .ok d → s.IsElemental type →
    Rows s (writeContent files d v)

/-- The name of a property is one for elements, if it is ever written. -/
def HasTagName (s : Schema) (p : Property) : Prop := p.IsTagged s → Xml.IsTagName p.name

theorem rows_writeNothing (hname : HasTagName s p) : Rows s (writeNothing owner p) := by
  unfold writeNothing
  split
  · next hnilable => exact rows_of_refers (refers_writeNil (hname (Property.isTagged_of_nilable hnilable)))
  · split
    · exact .nothing
    · exact .throw

section
variable (hnames : ∀ name, s.NamesTag name → Xml.IsTagName name)
include hnames

theorem rows_writeWrapped {name : String} (hname : Xml.IsTagName name) (hd : Descriptor.compile s type = .ok d) :
    Rows s (writeWrapped files name d v) :=
  rows_of_refers (refers_writeWrapped (refers_writeContent hnames v) hname hd)

/-- A single value of a property is a row. -/
theorem rows_writeSingle (hcontent : ContentRows s files v) (hp : p.IsElemental s nested) (hname : HasTagName s p) :
    Rows s (writeSingle files owner p v) := by
  rw [writeSingle]
  split
  · exact rows_writeNothing hname
  · refine .descriptor fun d hd => ?_
    rw [hp.compile] at hd
    cases hd
    split
    · next hbare => exact hcontent hp.compile (hp.bare (by rwa [Bool.or_comm]))
    · next hwrapped =>
      rw [Bool.not_eq_true] at hwrapped
      exact rows_writeWrapped hnames (hname (Property.isTagged_of_wrapped hp.compile hwrapped)) hp.compile

theorem rows_writeItems {items : List Value} (hcontent : ∀ item ∈ items, ContentRows s files item)
    (hp : p.IsElemental s nested) (hname : HasTagName s p) : Rows s (writeItems files owner p items) := by
  induction items with
  | nil =>
    rw [writeItems]
    exact .nothing
  | cons item items ih =>
    rw [writeItems]
    exact .andThen (rows_writeSingle hnames (hcontent item List.mem_cons_self) hp hname)
      (ih fun other hother => hcontent other (List.mem_cons_of_mem _ hother))

theorem rows_writeProperty (hcontent : ∀ inner, sizeOf inner ≤ sizeOf v → ContentRows s files inner)
    (hp : p.IsElemental s nested) (hname : HasTagName s p) : Rows s (writeProperty files owner p v) := by
  unfold writeProperty
  cases p.repeated with
  | false => exact rows_writeSingle hnames (hcontent v (Nat.le_refl _)) hp hname
  | true =>
    cases v with
    | null => exact .nothing
    | list items =>
      refine rows_writeItems hnames (fun item hitem => hcontent item ?_) hp hname
      have := List.sizeOf_lt_of_mem hitem
      simp only [Value.list.sizeOf_spec]
      omega
    | _ => exact .throw

theorem rows_writeProperties {fields : Fields} {properties : List Property}
    (hcontent : ∀ inner, sizeOf inner ≤ sizeOf fields → ContentRows s files inner)
    (hproperties : ∀ p ∈ properties, HasTagName s p ∧ ∃ nested, p.IsElemental s nested) :
    Rows s (writeProperties files owner fields properties) := by
  induction properties with
  | nil =>
    rw [writeProperties]
    exact .nothing
  | cons p rest ih =>
    obtain ⟨⟨hname, nested, hp⟩, hrest⟩ := List.forall_mem_cons.1 hproperties
    rw [writeProperties_cons]
    exact .andThen (rows_writeProperty hnames (fun inner hinner => hcontent inner (hinner.trans (sizeOf_valueOf_le fields p)))
      hp hname) (ih hrest)

/-- **What is written for a value of an elemental type is a row of elements.** The induction is on the value, of which only
parts are written further in. -/
theorem rows_writeContent (v : Value) : ContentRows s files v := by
  intro type d hd helemental
  rw [writeContent]
  cases hshape : d.shape with
  | simple primitive => exact absurd hshape (helemental.not_simple type d .refl hd primitive)
  | sequence properties subtypes isAbstract =>
    have hproperties : d.properties = properties := by rw [Descriptor.properties, hshape]
    cases v with
    | object type' fields =>
      refine rows_writeProperties hnames (fun inner hinner => rows_writeContent inner) fun p hp => ?_
      rw [← hproperties] at hp
      exact ⟨fun hwritten => hnames _ (.property hd hp hwritten), helemental.property hd hp⟩
    | _ => exact .throw
  | choice variants =>
    cases v with
    | choice tag inner =>
      dsimp only
      cases hfind : variants.find? (·.tag == tag) with
      | none => exact .throw
      | some variant =>
        have hmem : variant ∈ d.variants := by
          rw [Descriptor.variants, hshape]
          exact List.mem_of_find?_eq_some hfind
        refine .descriptor fun nested hnested => ?_
        cases hdispatch : variant.dispatch with
        | element name => exact rows_writeWrapped hnames (hnames _ (.variant hd hmem hdispatch)) hnested
        | inline => exact rows_writeContent inner hnested (helemental.variant hd hmem hdispatch)
    | _ => exact .throw
termination_by sizeOf v
decreasing_by
  · simp only [Value.object.sizeOf_spec]
    omega
  · simp only [Value.choice.sizeOf_spec]
    omega

end

end Encoding
end SoapBinding
