import SoapBinding.Proofs.Codec.Leaves

/-!
# Elements read back

What writing adds to a document is a body, if anything at all, that shows nodes (`Adds`). Given that the
content of a value is read back, so is the element around it (`written_wrapped`): whether it is marked
with a subtype, refers to an attachment, or is marked nil because there is no value.

Values of sequences and choices are also read back with no element around, as long as nothing comes behind them
that the reader would take for a part of them (`BareWritten`). A choice is written as the element of its variant, or as
the bare value of an inline one (`written_choice`).
-/

namespace SoapBinding.Encoding

open Outcome Typing
open Decoding (Starts GoesOnWithout)
open Xml (Sink Writing Cursor Element Node Ending Shows ShowsInside elementText IsName)

variable {P : Passage} {s : Schema} {attached : Bool} {type : TypeName} {d declared : Descriptor} {v : Value}
  {name : String} {e e' e'' : Encoder} {body body' : Option String} {nodes nodes' : List Node}

/-! ### Additions to a document -/

/-- A body has been written, or nothing, and shows nodes wherever it stands. -/
structure Adds (s : Schema) (e e' : Encoder) (body : Option String) (nodes : List Node) : Prop where
  follows : e'.Follows s e
  sink : e'.sink = e.sink.wrote [] body
  shows_nodes : Shows (body.getD "") nodes
  nothing : body = none → nodes = []

theorem Adds.refl (h : e.registry.Over s) : Adds s e e none [] :=
  ⟨⟨h, .refl _⟩, (Sink.wrote_nothing _).symm, Xml.shows_nil, fun _ => rfl⟩

/-- What happens without the document in front of an addition does not matter. -/
theorem Adds.behind {e₁ : Encoder} (h : Adds s e₁ e' body nodes) (hfollows : e₁.Follows s e)
    (hsink : e₁.sink = e.sink) : Adds s e e' body nodes :=
  ⟨h.follows.trans hfollows, by rw [h.sink, hsink], h.shows_nodes, h.nothing⟩

/-- Additions in a row are one. -/
theorem Adds.trans (h : Adds s e e' body nodes) (h' : Adds s e' e'' body' nodes') :
    Adds s e e'' (Option.merge (· ++ ·) body body') (nodes ++ nodes') := by
  refine ⟨h'.follows.trans h.follows, by rw [h'.sink, h.sink, Sink.wrote_wrote], ?_, ?_⟩
  · have happend := h.shows_nodes.append h'.shows_nodes
    cases body <;> cases body' <;> simpa using happend
  · intro hnone
    cases body with
    | none =>
      cases body' with
      | none => rw [h.nothing rfl, h'.nothing rfl]; rfl
      | some text => cases hnone
    | some text => cases body' <;> cases hnone

/-! ### Elements -/

/-- How an element has been written around a value, or marked nil where there is none. -/
structure ElementWritten (P : Passage) (name : String) (declared : Descriptor) (v : Value) (e e' : Encoder)
    (body : Option String) (element : Element) (inside : List Node) : Prop where
  adds : Adds P.schema e e' body (.start element :: inside ++ [.finish])
  isElement : ∃ t inner, body = some (elementText t inner)
  localName : element.localName = name
  isNil : element.isNil = v.isNull
  reads : ∀ (later : Context) (steps : Nat) (owner : TypeName) (nilable : Bool) (ending : Ending)
    (opened : List Element) (tail : List Node), P.Knows later e'.context → sizeOf v ≤ steps →
    (v.isNull = true → nilable = true) →
    P.Delivers (Decoding.readWrapped (Decoding.readContent later steps) owner nilable declared)
      ⟨.start element :: inside ++ [.finish] ++ tail, ending, opened⟩ ⟨tail, ending, opened⟩ (P.Conveys v)

/-- An element marked nil is written and read where there is no value. -/
theorem written_nil (hname : IsName name) (hready : e.IsReady P.schema P.attached)
    (h : onSink (writeNil name) e = .ok () e') :
    ∃ body element, ElementWritten P name declared .null e e' body element [] := by
  obtain ⟨sink, hsink, rfl⟩ := onSink_ok h
  obtain ⟨_, started, hstart, hsink⟩ := bind_eq_ok.1 hsink
  obtain ⟨_, marked, hmark, hend⟩ := bind_eq_ok.1 hsink
  have hnil : Element.isNil ⟨name, none, [⟨some Xml.xsiNamespace, "nil", "true"⟩], none⟩ = true := by
    rfl
  have hadds : Adds P.schema e { e with sink } (some (elementText ⟨name, Xml.nilAttributes⟩ none)) _ :=
    ⟨hready.follows_write sink, Sink.nil_eq hstart hmark hend, Xml.shows_empty (Xml.standsFor_nil hname),
      fun hnone => absurd hnone (Option.some_ne_none _)⟩
  refine ⟨_, _, hadds, ⟨_, _, rfl⟩, rfl, hnil, ?_⟩
  intro later steps owner nilable ending opened tail _ _ hnilable
  exact (Decoding.delivers_readWrapped_nil hnil (hnilable rfl)).mono fun v hv _ => hv ▸ .same

/-- The element that refers to an attachment, or to none. -/
def hrefElement (name : String) (href : Option String) : Element :=
  ⟨name, none, (href.map (⟨none, "href", ·⟩)).toList, none⟩

theorem standsFor_hrefElement (hname : IsName name) (href : Option String) :
    Xml.StandsFor ⟨name, hrefAttributes href⟩ (hrefElement name href) := by
  cases href with
  | none => exact Xml.standsFor_plain hname
  | some reference => exact Xml.standsFor_href hname reference

theorem hrefElement_attribute? (name : String) (href : Option String) :
    (hrefElement name href).attribute? none "href" = href := by
  cases href <;> rfl

theorem hrefElement_isNil (name : String) (href : Option String) :
    (hrefElement name href).isNil = false := by
  cases href <;> rfl

/-- What has been written for a value, as the content of a type, is read back. -/
def ContentReturns (P : Passage) (v : Value) : Prop :=
  ∀ {type : TypeName} {d : Descriptor} {e e' : Encoder}, P.schema.Tells type →
    Descriptor.compile P.schema type = .ok d → (P.sound → ContentOf P.schema type v ∧ v.HasWritableInstants) →
    P.schema.Admits d v → e.IsReady P.schema P.attached → writeContent P.files d v e = .ok () e' →
    ∃ href body nodes, ContentWritten P d v e e' href body nodes

/-- The choice of a subtype settles what the value is written as. -/
theorem subtypeOf_ok {chosen : Option Descriptor} (htells : s.Tells type)
    (hd : Descriptor.compile s type = .ok d) (hready : e.IsReady s attached)
    (h : subtypeOf d v e = .ok chosen e') :
    (chosen = none ∧ e' = e ∧ s.writtenAs d v = d) ∨
      ∃ fields runtime, v = .object runtime.name fields ∧ chosen = some runtime ∧ s.writtenAs d v = runtime ∧
        runtime.name ≠ d.name ∧ runtime.name ∈ d.subtypes ∧
        Descriptor.compile s runtime.name = .ok runtime ∧
        e'.IsReady s attached ∧ e'.Follows s e ∧ e'.sink = e.sink := by
  unfold subtypeOf at h
  unfold Schema.writtenAs
  cases hobject : v.object? with
  | none =>
    rw [hobject] at h
    cases h
    exact .inl ⟨rfl, rfl, rfl⟩
  | some object =>
    obtain ⟨u, fields⟩ := object
    obtain rfl : v = .object u fields := by
      cases v <;> first | (cases hobject; rfl) | cases hobject
    rw [hobject] at h
    dsimp only at h ⊢
    by_cases hsubtype : (u != d.name && d.subtypes.contains u) = true
    · rw [if_pos hsubtype] at h
      rw [if_pos hsubtype]
      obtain ⟨hne, hmem⟩ : u ≠ d.name ∧ u ∈ d.subtypes := by simpa using hsubtype
      obtain ⟨runtime, hruntime⟩ := (htells.subtype hd hmem).compile
      obtain ⟨found, e₁, hdescriptor, hpure⟩ := bind_eq_ok.1 h
      cases hpure
      obtain ⟨rfl, hready', hfollows, hsink⟩ := descriptor_ok hruntime hready hdescriptor
      obtain rfl := Descriptor.name_of_compile hruntime
      refine .inr ⟨fields, found, rfl, rfl, ?_, hne, hmem, hruntime, hready', hfollows, hsink⟩
      rw [hruntime]
      rfl
    · rw [if_neg hsubtype] at h
      cases h
      rw [if_neg hsubtype]
      exact .inl ⟨rfl, rfl, rfl⟩

/-- The element around content that has been written and is read back. -/
theorem elementWritten_of_content (front : List (String × String)) (element : Element)
    {runtime : Descriptor} {e₁ e₂ : Encoder} {href body : Option String} {inside : List Node} {sink : Sink}
    (hcontent : ContentWritten P runtime v e₁ e₂ href body inside)
    (hfollows : e₁.Follows P.schema e) (hsink : e₁.sink = (e.sink.started name).wrote front none)
    (hend : Sink.endElement e₂.sink = .ok () sink)
    (hstands : Xml.StandsFor ⟨name, front ++ hrefAttributes href⟩ element)
    (hlocal : element.localName = name) (hnil : element.isNil = false) (hnull : v.isNull = false)
    (hhref : element.attribute? none "href" = href)
    (hruntime : ∀ c, P.Delivers (Decoding.runtimeType declared element) c c (· = runtime)) :
    ∃ body element inside, ElementWritten P name declared v e { e₂ with sink } body element inside := by
  have hwrote : e₂.sink = (e.sink.started name).wrote (front ++ hrefAttributes href) body := by
    rw [hcontent.sink, hsink, Sink.wrote_attributes]
  rw [hwrote] at hend
  have hafter := hcontent.follows.trans hfollows
  have hadds : Adds P.schema e { e₂ with sink }
      (some (elementText ⟨name, front ++ hrefAttributes href⟩ body)) (.start element :: inside ++ [.finish]) :=
    ⟨⟨hafter.registry, hafter.context⟩, Sink.endElement_eq hend,
      Xml.shows_element hstands hcontent.shows_nodes hcontent.nothing,
      fun hnone => absurd hnone (Option.some_ne_none _)⟩
  refine ⟨_, element, inside, hadds, ⟨_, _, rfl⟩, hlocal, hnil.trans hnull.symm, ?_⟩
  intro later steps owner nilable ending opened tail hlater hsteps _
  exact Decoding.delivers_readWrapped hnil hruntime
    (hcontent.reads later steps ending element opened tail hlater hsteps hhref)

/-- **An element is read back** if the content of a value is. -/
theorem written_wrapped (hreturns : ContentReturns P v) (htells : P.schema.Tells type)
    (hd : Descriptor.compile P.schema type = .ok d) (hname : IsName name)
    (hv : P.sound → v = .null ∨ ElementOf P.schema type v ∧ v.HasWritableInstants)
    (hadmits : v ≠ .null → P.schema.Admits (P.schema.writtenAs d v) v)
    (hready : e.IsReady P.schema P.attached) (h : writeWrapped P.files name d v e = .ok () e') :
    ∃ body element inside, ElementWritten P name d v e e' body element inside := by
  rw [writeWrapped] at h
  cases hnull : v.isNull with
  | true =>
    obtain rfl : v = .null := by cases v <;> first | rfl | cases hnull
    rw [if_pos hnull] at h
    obtain ⟨body, element, hwritten⟩ := @written_nil P d _ _ _ hname hready h
    exact ⟨body, element, [], hwritten⟩
  | false =>
    have hne : v ≠ .null := fun heq => by rw [heq] at hnull; cases hnull
    obtain ⟨htells', hd'⟩ := htells.writtenAs hd v
    have hcontent (hs : P.sound) :
        ContentOf P.schema (P.schema.writtenAs d v).name v ∧ v.HasWritableInstants :=
      have helement := (hv hs).resolve_left hne
      ⟨helement.1.writtenAs hd, helement.2⟩
    rw [hnull, if_neg (by decide)] at h
    obtain ⟨_, e₁, hstart, h⟩ := bind_eq_ok.1 h
    obtain ⟨started, hstarted, rfl⟩ := onSink_ok hstart
    obtain rfl := Sink.startElement_eq hstarted
    have hready₁ := hready.write (e.sink.started name)
    have hfollows₁ := hready.follows_write (e.sink.started name)
    obtain ⟨chosen, e₂, hchosen, h⟩ := bind_eq_ok.1 h
    rcases subtypeOf_ok htells hd hready₁ hchosen with
      ⟨rfl, rfl, hsame⟩ | ⟨fields, runtime, rfl, rfl, hsame, hother, hmem, hruntime, hready₂, hfollows₂, hsink₂⟩
    · obtain ⟨_, e₃, hwrite, hend⟩ := bind_eq_ok.1 h
      obtain ⟨sink, hsink, rfl⟩ := onSink_ok hend
      have hadmits' := hadmits hne
      rw [hsame] at htells' hd' hcontent hadmits'
      obtain ⟨href, body, inside, hwritten⟩ := hreturns htells' hd' hcontent hadmits' hready₁ hwrite
      have hfront : e.sink.started name = (e.sink.started name).wrote [] none :=
        (Sink.wrote_nothing _).symm
      exact elementWritten_of_content [] (hrefElement name href) hwritten hfollows₁ hfront hsink
        (standsFor_hrefElement hname href) rfl (hrefElement_isNil name href) hnull
        (hrefElement_attribute? name href) fun c => Decoding.delivers_runtimeType rfl c
    · -- The element is marked with the subtype, and read as that.
      have hmark := (htells.isTellable hd).subtypes _ hmem
      obtain ⟨_, e₃, hmarked, h⟩ := bind_eq_ok.1 h
      obtain ⟨marked, hmarkType, rfl⟩ := onSink_ok hmarked
      rw [hsink₂] at hmarkType
      obtain rfl := Sink.markType_eq hmarkType
      obtain ⟨_, e₄, hwrite, hend⟩ := bind_eq_ok.1 h
      obtain ⟨sink, hsink, rfl⟩ := onSink_ok hend
      have hadmits' := hadmits hne
      rw [hsame] at htells' hd' hcontent hadmits'
      obtain ⟨href, body, inside, hwritten⟩ :=
        hreturns htells' hd' hcontent hadmits' (hready₂.write _) hwrite
      obtain rfl : href = none := hwritten.no_href.resolve_right (fun hkind => by cases hkind)
      have hstands := Xml.standsFor_type hname hmark
      rw [← List.append_nil (Xml.typeAttributes runtime.name)] at hstands
      exact elementWritten_of_content (Xml.typeAttributes runtime.name) _ hwritten
        ((hready₂.follows_write _).trans (hfollows₂.trans hfollows₁)) rfl hsink hstands rfl rfl hnull rfl
        fun c => Decoding.delivers_runtimeType_subtype rfl hother hmem hruntime c

/-! ### Values with no element around -/

/-- How a value of a sequence or a choice has been written. It is read back wherever its nodes stand, unless they are
continued behind it. -/
structure BareWritten (P : Passage) (d : Descriptor) (v : Value) (e e' : Encoder) (body : Option String)
    (nodes : List Node) : Prop where
  adds : Adds P.schema e e' body nodes
  leads : d.leadsAlways = true → Starts (fun element => P.schema.TypeBegins element.localName d ∧
    (element.isNil = true → P.schema.TypeBeginsNil element.localName d v)) nodes
  reads : ∀ (later : Context) (steps : Nat) (ending : Ending) (opened : List Element) (tail : List Node),
    P.Knows later e'.context → sizeOf v ≤ steps →
    GoesOnWithout (P.schema.TypeContinues · d) tail →
    P.Delivers (Decoding.readContent later steps d) ⟨nodes ++ tail, ending, opened⟩ ⟨tail, ending, opened⟩
      (P.Conveys v)

/-- Inside an element such a value is a content like others. -/
theorem BareWritten.content (h : BareWritten P d v e e' body nodes) :
    ContentWritten P d v e e' none body nodes := by
  refine ⟨h.adds.follows, h.adds.sink, h.adds.shows_nodes.inside, h.adds.nothing, .inl rfl, ?_⟩
  intro later steps ending around opened tail hlater hsteps _
  exact h.reads later steps ending (around :: opened) (.finish :: tail) hlater hsteps (.inl ⟨tail, rfl⟩)

/-- What has been written for a value, as a sequence or a choice, is read back with no element around. -/
def Returns (P : Passage) (v : Value) : Prop :=
  ∀ {type : TypeName} {d : Descriptor} {e e' : Encoder}, P.schema.Tells type →
    Descriptor.compile P.schema type = .ok d → (∀ primitive, d.shape ≠ .simple primitive) →
    (P.sound → ContentOf P.schema type v ∧ v.HasWritableInstants) →
    P.schema.Admits d v → e.IsReady P.schema P.attached → writeContent P.files d v e = .ok () e' →
    ∃ body nodes, BareWritten P d v e e' body nodes

/-- With leaves, that covers all contents. -/
theorem Returns.content (h : Returns P v) : ContentReturns P v := by
  intro type d e e' htells hd hv hadmits hready hwrite
  obtain ⟨name, shape⟩ := d
  cases shape with
  | simple primitive =>
    rw [writeContent] at hwrite
    obtain rfl := Descriptor.name_of_compile hd
    exact written_leaf rfl (fun hs => (hv hs).imp_left fun hcontent => hcontent.holds hd) hready hwrite
  | sequence | choice =>
    obtain ⟨body, nodes, hwritten⟩ := h htells hd (fun _ => nofun) hv hadmits hready hwrite
    exact ⟨none, body, nodes, hwritten.content⟩

/-! ### Choices -/

/-- The variant that the next element begins is found, as that begins no other. -/
theorem delivers_readVariants {sound : Prop} {content : Descriptor → Decoding Value} {owner : TypeName}
    {variants : List Variant} {variant : Variant} {nested : Descriptor} {c c' : Cursor}
    {post : Value → Prop} (htells : ∀ v ∈ variants, s.Tells v.type)
    (hdistinct : variants.Pairwise fun v w => ∀ name, s.VariantBegins name w → ¬s.VariantBegins name v)
    (hmem : variant ∈ variants) (hconstruct : variant.construct = none) (hbegins : s.VariantBegins name variant)
    (hnested : Descriptor.compile s variant.type = .ok nested)
    (hread : Decoding.Delivers s sound (match variant.dispatch with
      | .element _ => Decoding.readWrapped content owner true nested
      | .inline => content nested) c c' post) :
    Decoding.Delivers s sound (Decoding.readVariants content owner name variants) c c'
      fun w => ∃ inner, w = .choice variant.tag inner ∧ post inner := by
  have hbuild (inner : Value) (h : post inner) :
      Decoding.Delivers s sound (pure (variant.build inner)) c' c'
        fun w => ∃ inner, w = .choice variant.tag inner ∧ post inner :=
    Decoding.Delivers.pure ⟨inner, by rw [Variant.build, hconstruct], h⟩
  induction variants with
  | nil => cases hmem
  | cons v rest ih =>
    have hv := htells v List.mem_cons_self
    obtain ⟨dv, hdv⟩ := hv.compile
    rw [List.pairwise_cons] at hdistinct
    rw [Decoding.readVariants]
    apply Decoding.Delivers.bind (Decoding.Delivers.descriptor hdv)
    rintro _ rfl
    rcases List.mem_cons.1 hmem with rfl | hrest
    · rw [hnested] at hdv
      cases hdv
      cases hbegins with
      | element hdispatch =>
        rw [hdispatch] at hread ⊢
        dsimp only
        rw [if_pos rfl]
        exact Decoding.Delivers.bind hread hbuild
      | inline hinline hd' hbegins =>
        rw [hnested] at hd'
        cases hd'
        rw [hinline] at hread ⊢
        apply Decoding.Delivers.bind (Decoding.delivers_begins hv hnested _ _)
        intro answer hanswer
        rw [if_pos (hanswer.2 hbegins)]
        exact Decoding.Delivers.bind hread hbuild
    · have hnot := hdistinct.1 variant hrest name hbegins
      have hlater := ih (fun w hw => htells w (List.mem_cons_of_mem v hw)) hdistinct.2 hrest
      cases hdispatch : v.dispatch with
      | element other =>
        dsimp only
        rw [if_neg (fun heq : other = name => hnot (.element (heq ▸ hdispatch)))]
        exact hlater
      | inline =>
        apply Decoding.Delivers.bind (Decoding.delivers_begins hv hdv _ _)
        intro answer hanswer
        rw [if_neg (fun htrue : answer = true => hnot (.inline hdispatch hdv (hanswer.1 htrue)))]
        exact hlater

/-- No value is the content of a sequence or a choice. -/
theorem not_writeContent_null {files : Files} (hbare : ∀ primitive, d.shape ≠ .simple primitive) :
    writeContent files d .null e ≠ .ok () e' := by
  intro h
  rw [writeContent] at h
  cases hshape : d.shape with
  | simple primitive => exact hbare primitive hshape
  | sequence | choice =>
    rw [hshape] at h
    cases h

/-- A choice whose variant begins with the element that comes next is read as that variant. -/
theorem BareWritten.choice {variant : Variant} {nested : Descriptor} {variants : List Variant} {tag : UInt32}
    {element : Element} {rest : List Node} (htells : P.schema.Tells d.name)
    (hd : Descriptor.compile P.schema d.name = .ok d) (hshape : d.shape = .choice variants)
    (hfind : variants.find? (·.tag == tag) = some variant)
    (hnested : Descriptor.compile P.schema variant.type = .ok nested)
    (hadds : Adds P.schema e e' body (.start element :: rest))
    (hbegins : P.schema.VariantBegins element.localName variant)
    (hnil : element.isNil = true → P.schema.VariantBeginsNil element.localName variant v)
    (hreads : ∀ (later : Context) (steps : Nat) (owner : TypeName) (ending : Ending) (opened : List Element)
      (tail : List Node), P.Knows later e'.context → sizeOf v ≤ steps →
      GoesOnWithout (P.schema.TypeContinues · d) tail →
      P.Delivers (match variant.dispatch with
        | .element _ => Decoding.readWrapped (Decoding.readContent later steps) owner true nested
        | .inline => Decoding.readContent later steps nested)
        ⟨.start element :: rest ++ tail, ending, opened⟩ ⟨tail, ending, opened⟩ (P.Conveys v)) :
    BareWritten P d (.choice tag v) e e' body (.start element :: rest) := by
  obtain ⟨type, shape⟩ := d
  obtain rfl : shape = .choice variants := hshape
  have htellable := htells.isTellable hd
  have hmem : variant ∈ variants := List.mem_of_find?_eq_some hfind
  have htag : variant.tag = tag := by simpa using List.find?_some hfind
  refine ⟨hadds, fun _ => ⟨element, rest, rfl, .variant hmem hbegins, fun h => .variant hfind (hnil h)⟩, ?_⟩
  intro later steps ending opened tail hlater hsteps htail
  rw [Value.choice.sizeOf_spec] at hsteps
  obtain ⟨steps, rfl⟩ : ∃ n, steps = n + 1 := ⟨steps - 1, by omega⟩
  rw [Decoding.readContent]
  dsimp only
  apply Decoding.Delivers.bind (Decoding.Delivers.onCursor Decoding.peekStart_start)
  rintro _ rfl
  dsimp only
  refine (delivers_readVariants (fun w hw => htells.variant hd hw) htellable.distinct hmem
    (htellable.variants variant hmem).construct hbegins hnested
    (hreads later steps type ending opened tail hlater (by omega) htail)).mono ?_
  rintro _ ⟨inner, rfl, hconveyed⟩
  exact fun hs => htag ▸ .choice (hconveyed hs)

/-- **A choice is read back** if its value is. -/
theorem written_choice {variants : List Variant} {tag : UInt32} (hreturns : Returns P v)
    (htells : P.schema.Tells d.name) (hd : Descriptor.compile P.schema d.name = .ok d)
    (hshape : d.shape = .choice variants)
    (hv : P.sound → ContentOf P.schema d.name (.choice tag v) ∧ v.HasWritableInstants)
    (hadmits : P.schema.Admits d (.choice tag v)) (hready : e.IsReady P.schema P.attached)
    (h : writeContent P.files d (.choice tag v) e = .ok () e') :
    ∃ body nodes, BareWritten P d (.choice tag v) e e' body nodes := by
  have hvariants : d.variants = variants := by rw [Descriptor.variants, hshape]
  rw [writeContent, hshape] at h
  dsimp only at h
  cases hfind : variants.find? (·.tag == tag) with
  | none =>
    rw [hfind] at h
    cases h
  | some variant =>
    rw [hfind] at h
    have hmem : variant ∈ d.variants := hvariants ▸ List.mem_of_find?_eq_some hfind
    have htells' := htells.variant hd hmem
    have htellable := (htells.isTellable hd).variants variant hmem
    obtain ⟨nested, hnested⟩ := htells'.compile
    obtain ⟨_, e₁, hdescriptor, h⟩ := bind_eq_ok.1 h
    obtain ⟨rfl, hready₁, hfollows₁, hsink₁⟩ := descriptor_ok hnested hready hdescriptor
    have hvariant (hs : P.sound) : VariantOf P.schema variant v ∧ v.HasWritableInstants := by
      obtain ⟨hcontent, hinstants⟩ := hv hs
      obtain ⟨other, hfind', _, hvariant⟩ := hcontent.variantOf hd
      rw [hvariants, hfind] at hfind'
      cases hfind'
      exact ⟨hvariant, hinstants⟩
    have hadmits' (hne : v ≠ .null) := hadmits.variant (hvariants ▸ hfind) hne hnested
    cases hdispatch : variant.dispatch with
    | element name =>
      rw [hdispatch] at h
      have hinner (hs : P.sound) : v = .null ∨ ElementOf P.schema variant.type v ∧ v.HasWritableInstants := by
        obtain ⟨hvariant, hinstants⟩ := hvariant hs
        cases hvariant with
        | null _ => exact .inl rfl
        | element _ hv => exact .inr ⟨hv, hinstants⟩
        | inline hinline _ =>
          rw [hdispatch] at hinline
          cases hinline
      rw [hdispatch, if_neg (by simp)] at hadmits'
      obtain ⟨body, element, inside, hwritten⟩ := written_wrapped hreturns.content htells' hnested
        (htellable.isName name hdispatch) hinner hadmits' hready₁ h
      have hbegins : P.schema.VariantBegins element.localName variant :=
        .element (hwritten.localName ▸ hdispatch)
      refine ⟨body, _, .choice htells hd hshape hfind hnested (hwritten.adds.behind hfollows₁ hsink₁) hbegins ?_ ?_⟩
      · intro hnil
        rw [hwritten.isNil] at hnil
        obtain rfl : v = .null := by cases v <;> first | rfl | cases hnil
        exact .null (hwritten.localName ▸ hdispatch)
      · intro later steps owner ending opened tail hlater hsteps _
        rw [hdispatch]
        exact hwritten.reads later steps owner true ending opened tail hlater hsteps fun _ => rfl
    | inline =>
      rw [hdispatch] at h
      have hleads := htellable.leads _ hdispatch hnested
      have hne : v ≠ .null := by
        rintro rfl
        exact not_writeContent_null (Descriptor.not_simple_of_leadsAlways hleads) h
      have hinner (hs : P.sound) : ContentOf P.schema variant.type v ∧ v.HasWritableInstants := by
        obtain ⟨hvariant, hinstants⟩ := hvariant hs
        cases hvariant with
        | null helement | element helement _ =>
          rw [hdispatch] at helement
          cases helement
        | inline _ hv => exact ⟨hv, hinstants⟩
      rw [if_pos hdispatch] at hadmits'
      obtain ⟨body, nodes, hwritten⟩ := hreturns htells' hnested (Descriptor.not_simple_of_leadsAlways hleads)
        hinner (hadmits' hne) hready₁ h
      obtain ⟨element, rest, rfl, hbegins, hnil⟩ := hwritten.leads hleads
      refine ⟨body, _, .choice htells hd hshape hfind hnested (hwritten.adds.behind hfollows₁ hsink₁)
        (.inline hdispatch hnested hbegins) (fun h => .inline hdispatch hnested (hnil h)) ?_⟩
      intro later steps owner ending opened tail hlater hsteps htail
      rw [hdispatch]
      refine hwritten.reads later steps ending opened tail hlater hsteps (htail.mono fun name hcontinues => ?_)
      obtain ⟨type, shape⟩ := d
      obtain rfl : shape = .choice variants := hshape
      exact .variant hmem hdispatch hnested hcontinues

end SoapBinding.Encoding
