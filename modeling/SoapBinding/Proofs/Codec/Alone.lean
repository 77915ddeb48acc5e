import SoapBinding.Proofs.Codec.Singles

/-!
# Fields by themselves

What has been written for the field of a property may be read from an element that holds nothing else (`Decoding.readAlone`).
A field that is read back so is read back beside others as well, as long as no element behind it goes on with it:

    fieldReturns_of_alone : … P.ReadsBackAlone element owner p v → FieldReturns P owner p v (P.schema.MayLead · p)
      (P.schema.FieldGoesOn · p)

So is an item that is read back as a list of its own (`singleReturns_of_alone`). Both are read from some children, all of which
are taken (`Decoding.TakesAll`), and what has been read from them alone goes along in front of others.
-/

namespace SoapBinding

open Outcome
open Xml (Sink Cursor Element Node Markup Scope ShowsIn FailsIn IsName elementText)

namespace Decoding

/-- Reads the field of a property from the next element, which holds nothing else. -/
def readAlone (context : Context) (owner : TypeName) (p : Property) : Decoding Value := do
  let _ ← onCursor Cursor.expectStart
  let v ← readProperty (readContent context (depthBound (← get))) owner p
  onCursor Cursor.finishElement
  return v

variable {s : Schema} {context : Context} {owner : TypeName} {p : Property} {b b' : Behind} {c : Child} {cs : List Child}
  {st t : Decoder} {v : Value}

/-- Where the end tag is next, no child is. -/
theorem StandsAt.eq_nil (h : StandsAt s b st cs) (hend : StandsAt s b' st []) : cs = [] := by
  cases cs with
  | nil => rfl
  | cons c cs =>
    obtain ⟨-, inner, -, -, -, hdrop⟩ := h.dropWhile_cons
    rw [hend.dropWhile_nil] at hdrop
    cases hdrop

section
variable {around : List Element} {rest : List Child} {st' : Decoder} {goesOn leads : String → Prop} {lacks : Prop} {α : Type}
  {a : α} {work' : Decoding α}

/-- What all of some children have been taken for may begin with the first of them. -/
theorem Arrives.head_leads (h : Arrives s around b rest goesOn leads lacks cs st t a work')
    (ht : StandsAt s (.alone around) t []) : ∀ c ∈ cs.head?, leads c.element.localName := by
  obtain ⟨left, hleft, hadvances, -⟩ := h
  obtain rfl := hleft.eq_nil ht
  intro c hc
  cases hadvances with
  | nothing => cases hc
  | children hleads =>
    obtain rfl := Option.some.inj hc
    exact hleads

/-- It is read from them in front of others, too. -/
theorem Arrives.reads (h : Arrives s around b rest goesOn leads lacks cs st t a work') (ht : StandsAt s (.alone around) t [])
    (halong : Alongside s around b rest cs st st') (hrest : ∀ c ∈ rest.head?, ¬goesOn c.element.localName) :
    ∃ t', work' st' = .ok a t' ∧ StandsAt s b t' rest := by
  obtain ⟨left, hleft, -, hreads⟩ := h
  obtain rfl := hleft.eq_nil ht
  obtain ⟨t', hread, halong'⟩ := hreads st' halong fun _ => hrest
  exact ⟨t', hread, halong'.second⟩

variable {nested : Descriptor} {steps steps' : Nat} (b : Behind) (rest : List Child)
  (hp : p.IsElemental s nested) (hle : steps ≤ steps') (hst : StandsAt s (.alone around) st cs)
include hp hle hst

theorem arrives_readProperty (hread : readProperty (readContent context steps) owner p st = .ok v t) :
    Arrives s around b rest (s.FieldGoesOn · p) (s.MayLead · p) (s.MayPassBy p) cs st t v
      (readProperty (readContent context steps') owner p) :=
  goesAlong_readProperty hle (goesAlong_readContent hle) hp cs st v t hst hread

theorem arrives_readSingle (hread : readSingle (readContent context steps) owner p nested st = .ok v t) :
    Arrives s around b rest (s.SingleGoesOn · p) (s.MayLead · p) ((nested.isChoice || p.content) = true) cs st t v
      (readSingle (readContent context steps') owner p nested) :=
  goesAlong_readSingle hle (goesAlong_readContent hle) hp cs st v t hst hread

end

/-- An element that holds a field has been taken as a whole. -/
theorem exists_element_of_readAlone (hover : st.registry.Over s) (h : readAlone context owner p st = .ok v t) :
    ∃ e ns, Node.AreElement e ns ∧ st.cursor.ahead = ns ++ t.cursor.ahead := by
  obtain ⟨e, st₁, hstart, h⟩ := bind_eq_ok.1 h
  obtain ⟨c₁, hcursor, rfl⟩ := onCursor_eq_ok.1 hstart
  obtain ⟨rest, hdrop, rfl⟩ := Cursor.expectStart_iff.1 hcursor
  rw [bind_ok (get_apply _)] at h
  obtain ⟨w, t₁, hread, h⟩ := bind_eq_ok.1 h
  obtain ⟨_, t₂, hfinish, h⟩ := bind_eq_ok.1 h
  cases h
  obtain ⟨c₂, hend, rfl⟩ := onCursor_eq_ok.1 hfinish
  let inside : Cursor := ⟨rest, st.cursor.ending, e :: st.cursor.opened⟩
  have hmoves {steps : Nat} : Follows ((Rereading.anyhow s).decoders (Cursor.same (inside.IsInside 0)))
      (readProperty (readContent context steps) owner p) (readProperty (readContent context steps) owner p) (fun _ _ => True)
      ((Rereading.anyhow s).decoders (Cursor.same (inside.IsInside 0))) :=
    Rereading.follows_readProperty (W := .moving inside) (repeats_readContent context steps inside) (Rereading.readsTypes_eq _)
      (counts_moving inside _) 0
  have hover₁ : (⟨st.registry, inside, st.nonces⟩ : Decoder).registry.Over s := hover
  obtain ⟨hinside, -⟩ := again hmoves hover₁ .self hread
  obtain ⟨between, behind, hahead, hbetween, rfl⟩ := Cursor.exists_finish_of_finishElement hend
  obtain ⟨⟨inner, hinner, hwhole⟩, -, -⟩ := hinside.hasLeft hahead hbetween
  have hblank : ∀ n ∈ st.cursor.ahead.takeWhile Cursor.isBlankText, Cursor.isBlankText n = true :=
    List.all_eq_true.1 List.all_takeWhile
  refine ⟨e, _, ⟨_, inner, hblank, hwhole, rfl⟩, ?_⟩
  rw [show rest = inner ++ .finish :: behind from hinner] at hdrop
  simpa using Cursor.ahead_eq_of_dropWhile hdrop

/-- An element around some children is read from its start tag on in front of them. -/
theorem readAlone_row {root : Element} {registry : Registry} {nonces : Nonces} (hover : registry.Over s) :
    ∃ st, StandsAt s (.alone [root]) st cs ∧ st.nonces = nonces ∧
      readAlone context owner p ⟨registry, ⟨.start root :: (Behind.alone [root]).nodes cs, .complete, []⟩, nonces⟩ =
        (do
          let v ← readProperty (readContent context (((cs.flatMap Child.nodes).length + 2) * Descriptor.chainBound s)) owner p
          onCursor Cursor.finishElement
          return v) st := by
  let st : Decoder := ⟨registry, ⟨(Behind.alone [root]).nodes cs, .complete, [root]⟩, nonces⟩
  have hstart : onCursor Cursor.expectStart
      ⟨registry, ⟨.start root :: (Behind.alone [root]).nodes cs, .complete, []⟩, nonces⟩ = .ok root st :=
    onCursor_expectStart (Cursor.dropWhile_blanks (List.forall_mem_nil _) _ _)
  have hbound : depthBound st = ((cs.flatMap Child.nodes).length + 2) * Descriptor.chainBound s := by
    have hlength : ((Behind.alone [root]).nodes cs).length = (cs.flatMap Child.nodes).length + 1 := by
      simp [Behind.alone, Behind.nodes]
    rw [depthBound, hover.schema_eq, hlength]
  refine ⟨st, ⟨hover, rfl, rfl, rfl⟩, rfl, ?_⟩
  rw [readAlone, bind_ok hstart, bind_ok (get_apply st), hbound]

/-- The field of a property is read from some children in an element, so that none of them is left. -/
def TakesAll (s : Schema) (context : Context) (owner : TypeName) (p : Property) (root : Element) (cs : List Child)
    (nonces : Nonces) (v : Value) : Prop :=
  ∃ st t, StandsAt s (.alone [root]) st cs ∧ st.nonces = nonces ∧ StandsAt s (.alone [root]) t [] ∧
    readProperty (readContent context (((cs.flatMap Child.nodes).length + 2) * Descriptor.chainBound s)) owner p st = .ok v t

theorem takesAll_of_readAlone {nested : Descriptor} {root : Element} {registry : Registry} {nonces : Nonces}
    (hp : p.IsElemental s nested) (hover : registry.Over s) (h : readAlone context owner p
      ⟨registry, ⟨.start root :: (Behind.alone [root]).nodes cs, .complete, []⟩, nonces⟩ = .ok v t) :
    TakesAll s context owner p root cs nonces v := by
  obtain ⟨st, hst, hnonces, heq⟩ := @readAlone_row s context owner p cs root registry nonces hover
  rw [heq] at h
  obtain ⟨w, t₁, hread, h⟩ := bind_eq_ok.1 h
  obtain ⟨_, t₂, hfinish, h⟩ := bind_eq_ok.1 h
  cases h
  obtain ⟨left, ht₁, -⟩ := arrives_readProperty (.alone []) [] hp (Nat.le_refl _) hst hread
  obtain rfl := ht₁.eq_nil_of_finishElement hfinish
  exact ⟨st, t₁, hst, hnonces, ht₁, hread⟩

/-- Where no item is read, no child is taken. -/
theorem StandsAt.of_readItems_nil {content : Descriptor → Decoding Value} {nested : Descriptor} {limit : Nat}
    (h : StandsAt s b st cs) (hp : p.IsElemental s nested) (hread : readItems content owner p nested limit st = .ok [] t) :
    StandsAt s b t cs := by
  cases limit with
  | zero => cases hread
  | succ limit =>
    obtain ⟨answer, registry, hnext, hover, -⟩ := h.comesNext hp
    rw [readItems, bind_ok hnext] at hread
    split at hread
    · obtain ⟨_, _, -, hread⟩ := bind_eq_ok.1 hread
      obtain ⟨_, _, -, hread⟩ := bind_eq_ok.1 hread
      cases hread
    · cases hread
      exact ⟨hover, h.pastBlanks.ahead, h.ending, h.opened⟩

/-- Where a list of one item takes all children, the item does. -/
theorem TakesAll.single {nested : Descriptor} {root : Element} {nonces : Nonces} (hp : p.IsElemental s nested)
    (hrepeated : p.repeated = true) (h : TakesAll s context owner p root cs nonces (.list [v])) :
    Child.nextBegins s p cs ∧
      ∃ st t, StandsAt s (.alone [root]) st cs ∧ st.nonces = nonces ∧ StandsAt s (.alone [root]) t [] ∧
        readSingle (readContent context (((cs.flatMap Child.nodes).length + 2) * Descriptor.chainBound s)) owner p nested st =
          .ok v t := by
  obtain ⟨st, t, hst, hnonces, ht, hread⟩ := h
  obtain ⟨registry, hover, hdescriptor⟩ := descriptor_ok hst.registry hp.compile
  have hst₁ : StandsAt s (.alone [root]) ⟨registry, st.cursor, st.nonces⟩ cs := ⟨hover, hst.ahead, hst.ending, hst.opened⟩
  rw [readProperty, bind_ok hdescriptor, if_pos hrepeated, bind_ok (get_apply _)] at hread
  obtain ⟨items, _, hitems, hread⟩ := bind_eq_ok.1 hread
  cases hread
  obtain ⟨answer, registry', hnext, hover', hiff⟩ := hst₁.comesNext hp
  rw [readItems, bind_ok hnext] at hitems
  split at hitems
  · next htrue =>
    obtain ⟨item, t₁, hitem, hitems⟩ := bind_eq_ok.1 hitems
    obtain ⟨others, _, hothers, hitems⟩ := bind_eq_ok.1 hitems
    cases hitems
    have hst₂ : StandsAt s (.alone [root]) ⟨registry', (pastBlanks ⟨registry, st.cursor, st.nonces⟩).cursor, st.nonces⟩ cs :=
      ⟨hover', hst₁.pastBlanks.ahead, hst.ending, hst.opened⟩
    obtain ⟨left, ht₁, -⟩ := arrives_readSingle (.alone []) [] hp (Nat.le_refl _) hst₂ hitem
    refine ⟨hiff.1 htrue, _, t₁, hst₂, hnonces, ?_, hitem⟩
    -- Behind the item, no other begins with what is left.
    obtain rfl := (ht₁.of_readItems_nil hp hothers).eq_nil ht
    exact ht₁
  · cases hitems

end Decoding

/-- The field of a property is read back by itself. What has been written for it, wherever that is, can be read from an
element that holds nothing else. -/
def Passage.ReadsBackAlone (P : Passage) (element : String) (owner : TypeName) (p : Property) (v : Value) : Prop :=
  ∀ e e', e.IsReady P.schema P.attached → Encoding.writeProperty P.files owner p v e = .ok () e' →
    ∃ text : Option String, e'.sink = e.sink.wrote [] text ∧
      ∀ (later : Context) (registry : Registry) (nonces : Nonces), P.Knows later e'.context → registry.Over P.schema →
        ∃ v' t, Decoding.readAlone later owner p
          ⟨registry, .ofSource (.ofBytes (Utf8.ofString (elementText ⟨element, []⟩ text))), nonces⟩ = .ok v' t ∧ P.Conveys v v'

namespace Encoding

open Decoding (Behind StandsAt AreEnough readAlone readContent readProperty readSingle readItems)

variable {P : Passage} {element : String} {owner : TypeName} {p : Property} {nested : Descriptor} {v : Value} {e e' : Encoder}

/-- What is read back wherever it stands is read back by itself. -/
theorem FieldReturns.alone {leads goesOn : String → Prop} (h : FieldReturns P owner p v leads goesOn)
    (hname : IsName element) : P.ReadsBackAlone element owner p v := by
  intro e e' hready hwrite
  obtain ⟨cs, hwritten⟩ := h e e' hready hwrite
  obtain ⟨row, hputs, hshows⟩ := hwritten.puts
  refine ⟨Markup.rowText row, hputs.sink, fun later registry nonces hlater hover => ?_⟩
  rw [ofSource_row hname hshows (Markup.rowText_getD row)]
  obtain ⟨st, hst, -, heq⟩ := @Decoding.readAlone_row P.schema later owner p cs _ registry nonces hover
  rw [← List.append_nil cs] at hst
  obtain ⟨v', t, hread, ht, hconveyed⟩ := hwritten.reads later _ _ [] st hlater (by rw [List.append_nil]; exact Nat.le_refl _)
    hst fun _ hc => absurd hc (Option.not_mem_none _)
  rw [heq]
  exact ⟨v', _, (bind_ok hread).trans (bind_ok ht.finishElement), hconveyed⟩

section
variable (hnames : ∀ name, P.schema.NamesTag name → Xml.IsTagName name) (hname : IsName element)
  (hp : p.IsElemental P.schema nested) (hpname : HasTagName P.schema p)
include hnames hname hp hpname

/-- A field that is read back by itself stands for some children, all of which are read for it. -/
theorem exists_children_of_alone (hback : P.ReadsBackAlone element owner p v) (hready : e.IsReady P.schema P.attached)
    (h : writeProperty P.files owner p v e = .ok () e') :
    ∃ (cs : List Child) (row : List Markup), (∀ c ∈ cs.head?, c.IsFlush) ∧ Puts P.schema e e' row ∧
      ShowsIn .initial (Markup.renderAll row) (cs.flatMap Child.nodes) ∧
      ∀ (later : Context) (nonces : Nonces), P.Knows later e'.context →
        ∃ v', Decoding.TakesAll P.schema later owner p ⟨element, none, [], none⟩ cs nonces v' ∧ P.Conveys v v' := by
  obtain ⟨row, hputs⟩ :=
    rows_writeProperty hnames (fun inner _ => rows_writeContent hnames inner) hp hpname e e' hready.registry h
  obtain ⟨text, hsink, hread⟩ := hback e e' hready h
  have htext := Sink.getD_eq_of_wrote _ (hsink.symm.trans hputs.sink)
  rw [Markup.rowText_getD] at htext
  obtain ⟨cs, hflush, hshows⟩ | hfails := Markup.showsRow_or_fails row hputs.elements hputs.tags .initial
  · refine ⟨cs, row, hflush, hputs, hshows, fun later nonces hlater => ?_⟩
    obtain ⟨v', t, halone, hconveyed⟩ := hread later (.ofSchema P.schema) nonces hlater (Registry.over_ofSchema _)
    rw [ofSource_row hname hshows htext] at halone
    exact ⟨v', Decoding.takesAll_of_readAlone hp (Registry.over_ofSchema _) halone, hconveyed⟩
  · -- A reader that has taken the element has come to its end tag.
    have hself : P.Knows e'.context e'.context := fun _ _ => .refl _
    obtain ⟨v', t, halone, -⟩ := hread e'.context (.ofSchema P.schema) .fresh hself (Registry.over_ofSchema _)
    obtain ⟨root, ns, helement, hahead⟩ := Decoding.exists_element_of_readAlone (Registry.over_ofSchema _) halone
    rw [← htext] at hfails
    cases text with
    | none => exact absurd hfails (Xml.showsIn_nil _).not_failsIn
    | some text =>
      rw [Option.getD_some] at hfails
      obtain ⟨nodes, fault, hnone, hsource⟩ := Xml.ofSource_breaksIn (Xml.breaksIn_plain hname Scope.isBare_initial hfails)
      rw [hsource] at hahead
      exact absurd hahead (hnone root ns _ helement)

/-- **A field that is read back by itself is read back wherever it stands.** -/
theorem fieldReturns_of_alone (hback : P.ReadsBackAlone element owner p v) :
    FieldReturns P owner p v (P.schema.MayLead · p) (P.schema.FieldGoesOn · p) := by
  intro e e' hready h
  obtain ⟨cs, row, hflush, hputs, hshows, hread⟩ := exists_children_of_alone hnames hname hp hpname hback hready h
  refine ⟨cs, ⟨row, hputs, hshows⟩, fun c hc => ⟨hflush c hc, ?_⟩, fun later steps b rest st hlater hsteps hst hrest => ?_⟩
  · have hself : P.Knows e'.context e'.context := fun _ _ => .refl _
    obtain ⟨v', ⟨st, t, hst, -, ht, hok⟩, -⟩ := hread e'.context .fresh hself
    exact (Decoding.arrives_readProperty (.alone []) [] hp (Nat.le_refl _) hst hok).head_leads ht c hc
  · obtain ⟨v', ⟨st₁, t₁, hst₁, hnonces, ht₁, hok⟩, hconveyed⟩ := hread later st.nonces hlater
    obtain ⟨t, hread', ht⟩ := (Decoding.arrives_readProperty b rest hp hsteps.of_append.1 hst₁ hok).reads ht₁
      ⟨hst₁, hst, hnonces.symm⟩ fun c hc => (hrest c hc).2
    exact ⟨v', t, hread', ht, hconveyed⟩

/-- **An item that is read back as a list of its own is read back wherever it stands.** -/
theorem singleReturns_of_alone (hrepeated : p.repeated = true) (hsound : P.sound)
    (hback : P.ReadsBackAlone element owner p (.list [v])) :
    SingleReturns P owner p nested v (P.schema.PropertyBegins · p) (P.schema.SingleGoesOn · p) := by
  intro e e' hready h
  have hlist : writeProperty P.files owner p (.list [v]) e = .ok () e' := by
    rw [writeProperty, hrepeated, Bool.not_true, if_neg Bool.false_ne_true]
    show writeItems P.files owner p [v] e = _
    rw [writeItems, bind_ok h, writeItems]
    rfl
  obtain ⟨cs, row, hflush, hputs, hshows, hread⟩ := exists_children_of_alone hnames hname hp hpname hback hready hlist
  have hone (later : Context) (nonces : Nonces) (hlater : P.Knows later e'.context) :
      ∃ v', Decoding.TakesAll P.schema later owner p ⟨element, none, [], none⟩ cs nonces (.list [v']) ∧ P.Conveys v v' := by
    obtain ⟨w, htakes, hconveyed⟩ := hread later nonces hlater
    obtain ⟨_, rfl, _ | ⟨hv, ⟨⟩⟩⟩ := (hconveyed hsound).items
    exact ⟨_, htakes, fun _ => hv⟩
  have hself : P.Knows e'.context e'.context := fun _ _ => .refl _
  obtain ⟨_, htakes, -⟩ := hone e'.context .fresh hself
  obtain ⟨c, hc, hbegins⟩ := (htakes.single hp hrepeated).1
  refine ⟨cs, Decoding.areNext_of_begins hp ⟨c, hc, hbegins⟩, ⟨row, hputs, hshows⟩, fun d hd => ?_,
    fun later steps b rest st hlater hsteps hst hrest => ?_⟩
  · obtain rfl := Option.some.inj (hc.symm.trans hd)
    exact ⟨hflush c hc, hbegins⟩
  · obtain ⟨v', htakes, hconveyed⟩ := hone later st.nonces hlater
    obtain ⟨-, st₁, t₁, hst₁, hnonces, ht₁, hok⟩ := htakes.single hp hrepeated
    obtain ⟨t, hread', ht⟩ := (Decoding.arrives_readSingle b rest hp hsteps.of_append.1 hst₁ hok).reads ht₁
      ⟨hst₁, hst, hnonces.symm⟩ fun c hc => (hrest c hc).2
    exact ⟨v', t, hread', ht, hconveyed⟩

end

end Encoding
end SoapBinding
