import SoapBinding.Proofs.Codec.Children
import SoapBinding.Proofs.Codec.Properties
import SoapBinding.Proofs.Codec.Rows

/-!
# Fields in their places

The field of a property is written as some children, and it is read back from them wherever they stand, as long as the child
behind them does not go on with it (`FieldReturns`). So an object is read back field by field, if no element that may come
first of a field goes on with one in front of it:

    readElement_of_fields : … writeElement P.files element type (.object type' fields) e = .ok () e' → …
      readElement later element type … = .ok (.object type fields') t ∧ …

What may come first, and what goes on, is left open here; it is told for each kind of field by itself.
-/

namespace SoapBinding

open Outcome
open Xml (Sink Cursor Element Node Markup Scope ShowsIn IsName elementText)

namespace Decoding

/-- There are steps enough for what some children hold. -/
def AreEnough (s : Schema) (steps : Nat) (cs : List Child) : Prop :=
  ((cs.flatMap Child.nodes).length + 2) * Descriptor.chainBound s ≤ steps

theorem AreEnough.of_append {s : Schema} {steps : Nat} {cs cs' : List Child} (h : AreEnough s steps (cs ++ cs')) :
    AreEnough s steps cs ∧ AreEnough s steps cs' := by
  unfold AreEnough at h ⊢
  rw [List.flatMap_append, List.length_append] at h
  exact ⟨(Nat.mul_le_mul_right _ (by omega)).trans h, (Nat.mul_le_mul_right _ (by omega)).trans h⟩

/-- What is enough for all is enough for each. -/
theorem AreEnough.isEnough {s : Schema} {steps : Nat} {cs : List Child} (h : AreEnough s steps cs) : IsEnough s steps cs := by
  intro c hc
  refine (Nat.mul_le_mul_right _ ?_).trans h
  have := (List.sublist_flatten_of_mem (List.mem_map_of_mem hc) : List.Sublist c.nodes (cs.map Child.nodes).flatten).length_le
  rw [List.flatMap_def]
  omega

end Decoding

namespace Encoding

open Decoding (StandsAt Behind AreEnough readContent readProperty readProperties readElement)

variable {P : Passage} {α β γ : Type} {owner type type' : TypeName} {p : Property} {ps : List Property} {v : Value}
  {fields : Fields} {e e' e'' : Encoder} {cs cs' : List Child} {leads leads' goesOn goesOn' : String → Prop}

/-- Children have been written, and something is read from them wherever they stand, unless the child behind them goes on with
it. No blank text is written in front of a child. -/
structure RowWritten (P : Passage) (leads goesOn : String → Prop) (read : Context → Nat → Decoding α) (post : α → Prop)
    (e e' : Encoder) (cs : List Child) : Prop where
  puts : ∃ row, Puts P.schema e e' row ∧ ShowsIn .initial (Markup.renderAll row) (cs.flatMap Child.nodes)
  leads : ∀ c ∈ cs.head?, c.IsFlush ∧ leads c.element.localName
  reads : ∀ (later : Context) (steps : Nat) (b : Behind) (rest : List Child) (st : Decoder), P.Knows later e'.context →
    AreEnough P.schema steps (cs ++ rest) → StandsAt P.schema b st (cs ++ rest) →
    (∀ c ∈ rest.head?, c.IsFlush ∧ ¬goesOn c.element.localName) →
      ∃ a t, read later steps st = .ok a t ∧ StandsAt P.schema b t rest ∧ post a

/-- A row of nothing is read where it stands, in front of whatever does not go on with it. -/
theorem RowWritten.nothing {read : Context → Nat → Decoding α} {post : α → Prop} (hover : e.registry.Over P.schema)
    (hread : ∀ later steps b rest st, StandsAt P.schema b st rest → (∀ c ∈ rest.head?, ¬goesOn c.element.localName) →
      ∃ a t, read later steps st = .ok a t ∧ StandsAt P.schema b t rest ∧ post a) :
    RowWritten P leads goesOn read post e e [] :=
  ⟨⟨[], .refl hover, Xml.showsIn_nil _⟩, fun _ hc => absurd hc (Option.not_mem_none _),
    fun later steps b rest st _ _ hst hrest => hread later steps b rest st hst fun c hc => (hrest c hc).2⟩

/-- Rows are read one behind the other, if what comes first of the second does not go on with the first. -/
theorem RowWritten.trans {read : Context → Nat → Decoding α} {read' : Context → Nat → Decoding β} {post : α → Prop}
    {post' : β → Prop} {both : γ → Prop} (h : RowWritten P leads goesOn read post e e' cs)
    (h' : RowWritten P leads' goesOn' read' post' e' e'' cs') (hapart : ∀ name, leads' name → ¬goesOn name) (f : α → β → γ)
    (hboth : ∀ a a', post a → post' a' → both (f a a')) :
    RowWritten P (fun name => leads name ∨ leads' name) (fun name => goesOn name ∨ goesOn' name)
      (fun later steps => do
        let a ← read later steps
        let a' ← read' later steps
        return f a a') both e e'' (cs ++ cs') := by
  obtain ⟨row, hputs, hshows⟩ := h.puts
  obtain ⟨row', hputs', hshows'⟩ := h'.puts
  refine ⟨⟨row ++ row', hputs.trans hputs', ?_⟩, ?_, ?_⟩
  · rw [Markup.renderAll_append, List.flatMap_append]
    exact hshows.append hshows'
  · intro c hc
    cases cs with
    | nil => exact (h'.leads c hc).imp_right .inr
    | cons first cs => exact (h.leads c hc).imp_right .inl
  · intro later steps b rest st hlater hsteps hst hrest
    rw [List.append_assoc] at hst hsteps
    obtain ⟨a, t, hread, ht, ha⟩ :=
      h.reads later steps b (cs' ++ rest) st (hlater.before hputs'.follows.context) hsteps hst fun c hc => by
        cases cs' with
        | nil => exact (hrest c hc).imp_right fun hnot hgoes => hnot (.inl hgoes)
        | cons first cs' => exact (h'.leads c hc).imp_right (hapart _)
    obtain ⟨a', t', hread', ht', ha'⟩ := h'.reads later steps b rest t hlater hsteps.of_append.2 ht
      fun c hc => (hrest c hc).imp_right fun hnot hgoes => hnot (.inr hgoes)
    rw [bind_ok hread, bind_ok hread']
    exact ⟨_, t', rfl, ht', hboth a a' ha ha'⟩

theorem RowWritten.imp {read : Context → Nat → Decoding α} {post : α → Prop}
    (h : RowWritten P leads goesOn read post e e' cs) (hleads : ∀ name, leads name → leads' name)
    (hgoes : ∀ name, goesOn name → goesOn' name) : RowWritten P leads' goesOn' read post e e' cs :=
  ⟨h.puts, fun c hc => (h.leads c hc).imp_right (hleads _), fun later steps b rest st hlater hsteps hst hrest =>
    h.reads later steps b rest st hlater hsteps hst fun c hc => (hrest c hc).imp_right fun hnot hgoesOn =>
      hnot (hgoes _ hgoesOn)⟩

/-- The field of a property is read back wherever it stands, unless what comes behind it goes on with it. -/
def FieldReturns (P : Passage) (owner : TypeName) (p : Property) (v : Value) (leads goesOn : String → Prop) : Prop :=
  ∀ e e', e.IsReady P.schema P.attached → writeProperty P.files owner p v e = .ok () e' →
    ∃ cs, RowWritten P leads goesOn (fun later steps => readProperty (readContent later steps) owner p) (P.Conveys v) e e' cs

theorem FieldReturns.imp (h : FieldReturns P owner p v leads goesOn) (hleads : ∀ name, leads name → leads' name)
    (hgoes : ∀ name, goesOn name → goesOn' name) : FieldReturns P owner p v leads' goesOn' := by
  intro e e' hready hwrite
  obtain ⟨cs, hwritten⟩ := h e e' hready hwrite
  exact ⟨cs, hwritten.imp hleads hgoes⟩

/-- Fields are read back one after the other. -/
theorem fieldsWritten (leads goesOn : Property → String → Prop)
    (hreturns : ∀ p ∈ ps, FieldReturns P owner p (fields.valueOf p) (leads p) (goesOn p))
    (hapart : ps.Pairwise fun p q => ∀ name, leads q name → ¬goesOn p name) (hready : e.IsReady P.schema P.attached)
    (h : writeProperties P.files owner fields ps e = .ok () e') :
    ∃ cs, RowWritten P (fun name => ∃ p ∈ ps, leads p name) (fun name => ∃ p ∈ ps, goesOn p name)
      (fun later steps => readProperties (readContent later steps) owner ps)
      (fun fields' => P.sound → Value.FieldsConveyedAs P.files P.attached (ps.map fun p => (p.name, fields.valueOf p)) fields')
      e e' cs := by
  induction ps generalizing e with
  | nil =>
    rw [writeProperties] at h
    cases h
    exact ⟨[], .nothing hready.registry fun _ _ _ _ st hst _ => ⟨[], st, rfl, hst, fun _ => .nil⟩⟩
  | cons p ps ih =>
    obtain ⟨hp, hps⟩ := List.forall_mem_cons.1 hreturns
    obtain ⟨hfirst, hapart⟩ := List.pairwise_cons.1 hapart
    rw [writeProperties_cons] at h
    obtain ⟨_, middle, hfield, h⟩ := bind_eq_ok.1 h
    obtain ⟨cs, hwritten⟩ := hp e middle hready hfield
    obtain ⟨_, hputs, -⟩ := hwritten.puts
    obtain ⟨cs', hwritten'⟩ := ih hps hapart (hready.follow hputs.follows) h
    have hbehind : ∀ name, (∃ q ∈ ps, leads q name) → ¬goesOn p name := by
      rintro name ⟨q, hq, hleads⟩
      exact hfirst q hq name hleads
    refine ⟨cs ++ cs', (hwritten.trans hwritten' hbehind (fun v fields' => (p.name, v) :: fields')
      fun v fields' hv hfields hs => .cons (hv hs) (hfields hs)).imp ?_ ?_⟩
    · rintro name (hleads | ⟨q, hq, hleads⟩)
      · exact ⟨p, List.mem_cons_self, hleads⟩
      · exact ⟨q, List.mem_cons_of_mem p hq, hleads⟩
    · rintro name (hgoes | ⟨q, hq, hgoes⟩)
      · exact ⟨p, List.mem_cons_self, hgoes⟩
      · exact ⟨q, List.mem_cons_of_mem p hq, hgoes⟩

/-! ### Objects -/

/-- The value of a property is found by its name among those of others, which have the same value if they have the name. -/
theorem get?_map_valueOf (fields : Fields) (hp : p ∈ ps) :
    Fields.get? p.name (ps.map fun q => (q.name, fields.valueOf q)) = some (fields.valueOf p) := by
  induction ps with
  | nil => cases hp
  | cons q ps ih =>
    rw [List.map_cons, Fields.get?]
    by_cases hname : q.name = p.name
    · rw [if_pos hname, Fields.valueOf, hname, Fields.valueOf]
    · rw [if_neg hname]
      exact ih ((List.mem_cons.1 hp).resolve_left fun heq => hname (heq ▸ rfl))

/-- An object of another type than the registered subtypes is written as the declared one. -/
theorem subtypeOf_eq_none {d : Descriptor} (htype : type' = d.name ∨ type' ∉ d.subtypes) :
    subtypeOf d (.object type' fields) e = .ok none e := by
  unfold subtypeOf
  dsimp only [Value.object?]
  rw [if_neg]
  · rfl
  · simp only [Bool.and_eq_true, bne_iff_ne, List.contains_eq_mem, decide_eq_true_eq, not_and_or, not_not]
    exact htype

/-- An element has been written around the fields of an object, and shows their children. -/
theorem writeElement_object {d : Descriptor} {properties : List Property} {subtypes : List TypeName} {isAbstract : Bool}
    {element : String} {limit : Option Nat} (hd : Descriptor.compile P.schema type = .ok d)
    (hshape : d.shape = .sequence properties subtypes isAbstract) (htype : type' = type ∨ type' ∉ subtypes)
    (hready : e.IsReady P.schema P.attached) (hempty : e.sink = .empty limit)
    (h : writeElement P.files element type (.object type' fields) e = .ok () e') :
    ∃ first last, first.IsReady P.schema P.attached ∧ writeProperties P.files type fields properties first = .ok () last ∧
      e'.context = last.context ∧ ∀ row, Puts P.schema first last row →
        e'.sink.finish = .ok (elementText ⟨element, []⟩ (Markup.rowText row)) := by
  obtain rfl := Descriptor.name_of_compile hd
  obtain ⟨found, e₁, hdescriptor, hwrapped⟩ := bind_eq_ok.1 h
  obtain ⟨rfl, hready₁, -, hsink₁⟩ := descriptor_ok hd hready hdescriptor
  have hnull : (Value.object type' fields).isNull = false := rfl
  rw [writeWrapped, hnull, if_neg Bool.false_ne_true] at hwrapped
  obtain ⟨_, e₂, hstart, hrest⟩ := bind_eq_ok.1 hwrapped
  obtain ⟨started, hstarted, rfl⟩ := onSink_ok hstart
  obtain rfl := Sink.startElement_eq hstarted
  have hsubtypes : found.subtypes = subtypes := by rw [Descriptor.subtypes, hshape]
  rw [bind_ok (subtypeOf_eq_none (hsubtypes ▸ htype))] at hrest
  obtain ⟨_, e₃, hwrite, hend⟩ := bind_eq_ok.1 hrest
  obtain ⟨sink, hsink, rfl⟩ := onSink_ok hend
  rw [writeContent, hshape] at hwrite
  refine ⟨_, e₃, hready₁.write _, hwrite, rfl, fun row hputs => ?_⟩
  rw [hputs.sink] at hsink
  obtain rfl := Sink.endElement_eq hsink
  rw [hsink₁, hempty]
  show Except.ok ("" ++ "" ++ elementText _ _) = _
  rw [String.empty_append, String.empty_append]

/-- A row is a document inside an element without attributes, which is read as the children that the row shows. -/
theorem ofSource_row {element : String} {row : List Markup} (hname : IsName element)
    (hshows : ShowsIn .initial (Markup.renderAll row) (cs.flatMap Child.nodes)) {text : Option String}
    (htext : text.getD "" = Markup.renderAll row) :
    Cursor.ofSource (.ofBytes (Utf8.ofString (elementText ⟨element, []⟩ text))) =
      ⟨.start ⟨element, none, [], none⟩ :: (Behind.alone [⟨element, none, [], none⟩]).nodes cs, .complete, []⟩ := by
  rw [← htext] at hshows
  have hdocument := Xml.showsIn_plain hname Scope.isBare_initial hshows fun hnone => by
    subst hnone
    exact hshows.eq (Xml.showsIn_nil _)
  rw [Xml.ofSource_showsIn hdocument]
  rfl

/-- **An object is read back field by field**, if each of its fields is read back where it stands, and no element that may come
first of one goes on with a field in front of it. -/
theorem readElement_of_fields {d : Descriptor} {subtypes : List TypeName} {element : String} {limit : Option Nat}
    (leads goesOn : Property → String → Prop) (hd : Descriptor.compile P.schema type = .ok d)
    (hshape : d.shape = .sequence ps subtypes false) (hname : IsName element)
    (hreturns : ∀ p ∈ ps, FieldReturns P type p (fields.valueOf p) (leads p) (goesOn p))
    (hapart : ps.Pairwise fun p q => ∀ name, leads q name → ¬goesOn p name) (htype : type' = type ∨ type' ∉ subtypes)
    (hready : e.IsReady P.schema P.attached) (hempty : e.sink = .empty limit)
    (h : writeElement P.files element type (.object type' fields) e = .ok () e') :
    ∃ document, e'.sink.finish = .ok document ∧ ∀ (later : Context) (registry : Registry) (nonces : Nonces),
      P.Knows later e'.context → registry.Over P.schema → ∃ fields' t,
        readElement later element type ⟨registry, .ofSource (.ofBytes (Utf8.ofString document)), nonces⟩ =
          .ok (.object type fields') t ∧ t.cursor = ⟨[], .complete, []⟩ ∧
        (P.sound → Value.FieldsConveyedAs P.files P.attached (ps.map fun p => (p.name, fields.valueOf p)) fields') := by
  obtain ⟨first, last, hfirst, hwrite, hcontext, hfinish⟩ := writeElement_object hd hshape htype hready hempty h
  obtain ⟨cs, hwritten⟩ := fieldsWritten leads goesOn hreturns hapart hfirst hwrite
  obtain ⟨row, hputs, hshows⟩ := hwritten.puts
  refine ⟨_, hfinish row hputs, fun later registry nonces hlater hover => ?_⟩
  rw [ofSource_row hname hshows (Markup.rowText_getD row)]
  let root : Element := ⟨element, none, [], none⟩
  let b : Behind := .alone [root]
  let start : Decoder := ⟨registry, ⟨.start root :: b.nodes cs, .complete, []⟩, nonces⟩
  have hroot : Decoding.IsReadAs root type := ⟨rfl, fun _ h => absurd h (Option.not_mem_none _)⟩
  have hover' : start.registry.Over P.schema := hover
  have hahead : start.cursor.ahead = [] ++ .start root :: b.nodes cs := rfl
  obtain ⟨steps, st, hsteps, hst, heq⟩ := @Decoding.readElement_of_children P.schema later type root start b cs d ps subtypes
    element [] hd hshape hover' hroot rfl rfl rfl (List.forall_mem_nil _) hahead
  have henough : AreEnough P.schema steps cs := by
    have hnodes : (b.nodes cs).length = (cs.flatMap Child.nodes).length + 1 := by simp [b, Behind.alone, Behind.nodes]
    rw [hnodes, Nat.add_right_comm, Nat.add_mul] at hsteps
    have : 1 ≤ Descriptor.chainBound P.schema := by
      unfold Descriptor.chainBound
      omega
    unfold AreEnough
    omega
  rw [hcontext] at hlater
  rw [← List.append_nil cs] at hst henough
  obtain ⟨fields', t, hread, ht, hconveyed⟩ := hwritten.reads later steps b [] st hlater henough hst
    fun _ hc => absurd hc (Option.not_mem_none _)
  refine ⟨fields', _, heq.trans ((bind_ok hread).trans (bind_ok ht.finishElement)), ?_, hconveyed⟩
  show Cursor.mk [] t.cursor.ending (t.cursor.opened.drop 1) = _
  rw [ht.ending, ht.opened]
  rfl

end Encoding

end SoapBinding
