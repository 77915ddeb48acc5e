import SoapBinding.Proofs.Codec.Continuing
import SoapBinding.Proofs.Codec.InPlace

/-!
# Single values in their places

The field of a property is put together from single values, each of which stands for some children. Where each of them is read
back wherever it stands, and is known to come next (`SingleReturns`), the field is read back as well, be it a list or not
(`fieldReturns_items`, `fieldReturns_single`).

Where there is no value, there is an element marked nil or nothing at all. The first is found by the name of the property
(`singleReturns_nil`), and the second as long as nothing behind it begins a value (`fieldReturns_absent`).
-/

namespace SoapBinding

open Outcome
open Xml (Sink Cursor Markup Scope ShowsIn IsName)

/-! ### No value -/

namespace Decoding

variable {s : Schema} {p : Property} {nested : Descriptor} {owner : TypeName} {content : Descriptor → Decoding Value}
  {b : Behind} {c : Child} {cs rest : List Child} {st : Decoder}

/-- Some children are known to begin a value of a property, whatever is behind them. -/
def AreNext (s : Schema) (p : Property) (cs : List Child) : Prop :=
  cs ≠ [] ∧ ∀ (b : Behind) (rest : List Child) (st : Decoder), StandsAt s b st (cs ++ rest) →
    ∃ st', StandsAt s b st' (cs ++ rest) ∧ comesNext p st = .ok true st'

/-- That is so for an element of the property's name. -/
theorem areNext_named (hname : c.element.localName = p.name) : AreNext s p [c] := by
  refine ⟨List.cons_ne_nil _ _, fun b rest st hst => ⟨pastBlanks st, hst.pastBlanks, ?_⟩⟩
  rw [comesNext, bind_ok hst.peekStart]
  show onRegistry (Property.begins c.element.localName p) _ = _
  rw [Property.begins, Property.beginsBy, if_pos hname]
  rfl

theorem areNext_of_begins (hp : p.IsElemental s nested) (hnext : Child.nextBegins s p cs) : AreNext s p cs := by
  obtain ⟨c, hc, hbegins⟩ := hnext
  obtain ⟨cs, rfl⟩ := List.head?_eq_some_iff.1 hc
  refine ⟨List.cons_ne_nil _ _, fun b rest st hst => ?_⟩
  obtain ⟨answer, registry, hok, hover, hiff⟩ := hst.comesNext hp
  obtain rfl := hiff.2 ⟨c, rfl, hbegins⟩
  exact ⟨⟨registry, (pastBlanks st).cursor, st.nonces⟩, ⟨hover, hst.pastBlanks.ahead, hst.ending, hst.opened⟩, hok⟩

/-- Where the next child does not begin one, no value comes next. -/
theorem comesNext_false (hp : p.IsElemental s nested) (hrest : ∀ c ∈ rest.head?, ¬s.PropertyBegins c.element.localName p)
    (h : StandsAt s b st rest) : ∃ st', StandsAt s b st' rest ∧ comesNext p st = .ok false st' := by
  obtain ⟨answer, registry, hok, hover, hiff⟩ := h.comesNext hp
  cases answer with
  | false =>
    exact ⟨⟨registry, (pastBlanks st).cursor, st.nonces⟩, ⟨hover, h.pastBlanks.ahead, h.ending, h.opened⟩, hok⟩
  | true =>
    obtain ⟨c, hc, hbegins⟩ := hiff.1 rfl
    exact absurd hbegins (hrest c hc)

section
variable (h : StandsAt s b st (c :: cs)) (hnil : c.element.isNil = true)
include h hnil

/-- A child that is marked nil is no value, whatever it holds. -/
theorem readWrapped_nil :
    ∃ t, readWrapped content owner true nested (pastBlanks st) = .ok .null t ∧ StandsAt s b t cs := by
  obtain ⟨-, inner, -, hinner, -, hdrop⟩ := h.dropWhile_cons
  have hstart : onCursor Cursor.expectStart (pastBlanks st) = .ok c.element _ :=
    onCursor_expectStart ((List.dropWhile_idempotent ..).trans hdrop)
  have hend : onCursor Cursor.skipToEnd ⟨st.registry, ⟨inner ++ .finish :: b.nodes cs, st.cursor.ending,
      c.element :: st.cursor.opened⟩, st.nonces⟩ = .ok () _ :=
    onCursor_eq_ok.2 ⟨_, (Cursor.skipToEnd_iff rfl).2 ⟨inner, b.nodes cs, rfl, hinner, rfl⟩, rfl⟩
  rw [readWrapped, bind_ok hstart, hnil, if_pos rfl, if_pos rfl]
  refine ⟨_, bind_ok hend, h.registry, rfl, h.ending, h.opened⟩

variable (hname : c.element.localName = p.name) (hnilable : p.nilable = true)
  (hcontent : p.content = true → nested.isChoice = true)
include hname hnilable hcontent

/-- The mark is looked for on an element of the property's own, unless it is content and no choice. -/
theorem readSingle_nil : ∃ t, readSingle content owner p nested st = .ok .null t ∧ StandsAt s b t cs := by
  obtain ⟨t, hread, ht⟩ := @readWrapped_nil s nested owner content b c cs st h hnil
  have hsequence : (p.content && !nested.isChoice) = false := by
    cases hp : p.content with
    | false => rfl
    | true =>
      rw [hcontent hp]
      rfl
  refine ⟨t, ?_, ht⟩
  rw [readSingle, hsequence, if_neg Bool.false_ne_true, bind_ok h.peekStart]
  dsimp only [List.head?_cons, Option.map_some]
  rw [hnil, hname, hnilable, decide_eq_true (rfl : p.name = p.name), Bool.and_true, if_pos rfl, if_pos rfl, ite_self]
  exact hread

end

end Decoding

namespace Encoding

open Decoding (Behind StandsAt AreNext readContent readProperty readSingle readItems)

variable {P : Passage} {owner : TypeName} {p : Property} {nested : Descriptor} {e e' : Encoder}

/-- An element marked nil is a child marked nil. -/
theorem exists_nilChild {name : String} (hname : IsName name) (hready : e.IsReady P.schema P.attached)
    (h : onSink (writeNil name) e = .ok () e') :
    ∃ (c : Child) (row : List Markup), c.IsFlush ∧ c.element.localName = name ∧ c.element.isNil = true ∧ Puts P.schema e e' row ∧
      ShowsIn .initial (Markup.renderAll row) ([c].flatMap Child.nodes) := by
  obtain ⟨m, -, hputs⟩ := exists_puts_of_refers (refers_writeNil hname.toIsTagName) hready.registry h
  obtain ⟨body, element, hwritten⟩ := @written_nil P ⟨⟨"", name⟩, .choice []⟩ name e e' hname hready h
  have htext := Sink.getD_eq_of_wrote _ (hputs.sink.symm.trans hwritten.adds.sink)
  rw [Markup.rowText_getD] at htext
  refine ⟨⟨element, .start element :: ([] ++ [.finish]), [], [], List.forall_mem_nil _, rfl, rfl⟩, [m], ⟨_, rfl⟩,
    hwritten.localName, hwritten.isNil, hputs, ?_⟩
  rw [htext]
  exact hwritten.adds.shows_nodes.showsIn Scope.isBare_initial

/-! ### Values of a property -/

/-- A single value is read back wherever it stands, and is known to come next. -/
def SingleReturns (P : Passage) (owner : TypeName) (p : Property) (nested : Descriptor) (v : Value)
    (leads goesOn : String → Prop) : Prop :=
  ∀ e e', e.IsReady P.schema P.attached → writeSingle P.files owner p v e = .ok () e' →
    ∃ cs, AreNext P.schema p cs ∧
      RowWritten P leads goesOn (fun later steps => readSingle (readContent later steps) owner p nested) (P.Conveys v) e e' cs

variable {α : Type} {leads leads' goesOn goesOn' : String → Prop} {cs rest : List Child} {v : Value} {items : List Value}

theorem SingleReturns.imp (h : SingleReturns P owner p nested v leads goesOn) (hleads : ∀ name, leads name → leads' name)
    (hgoes : ∀ name, goesOn name → goesOn' name) : SingleReturns P owner p nested v leads' goesOn' := by
  intro e e' hready hwrite
  obtain ⟨cs, hnext, hwritten⟩ := h e e' hready hwrite
  exact ⟨cs, hnext, hwritten.imp hleads hgoes⟩

/-- In front of what is read, a reader may look what comes next. -/
theorem RowWritten.behind {read read' : Context → Nat → Decoding α} {post : α → Prop}
    (h : RowWritten P leads goesOn read post e e' cs)
    (hread : ∀ later steps b rest st, StandsAt P.schema b st (cs ++ rest) →
      ∃ st', StandsAt P.schema b st' (cs ++ rest) ∧ read' later steps st = read later steps st') :
    RowWritten P leads goesOn read' post e e' cs := by
  refine ⟨h.puts, h.leads, fun later steps b rest st hlater hsteps hst hrest => ?_⟩
  obtain ⟨st', hst', heq⟩ := hread later steps b rest st hst
  rw [heq]
  exact h.reads later steps b rest st' hlater hsteps hst' hrest

/-- Items are read back one by one, if what comes first of one does not go on with the one in front of it. -/
theorem itemsWritten (hp : p.IsElemental P.schema nested)
    (hitems : ∀ item ∈ items, SingleReturns P owner p nested item leads goesOn) (hapart : ∀ name, leads name → ¬goesOn name)
    (hready : e.IsReady P.schema P.attached) (h : writeItems P.files owner p items e = .ok () e') :
    ∃ cs, items.length ≤ cs.length ∧ ∀ limit, items.length < limit →
      RowWritten P leads (fun name => P.schema.PropertyBegins name p ∨ goesOn name)
        (fun later steps => readItems (readContent later steps) owner p nested limit)
        (fun items' => P.sound → Value.ItemsConveyedAs P.files P.attached items items') e e' cs := by
  induction items generalizing e with
  | nil =>
    rw [writeItems] at h
    cases h
    refine ⟨[], Nat.le_refl _, fun limit hlimit => .nothing hready.registry fun later steps b rest st hst hrest => ?_⟩
    obtain ⟨limit, rfl⟩ := Nat.exists_eq_add_one_of_ne_zero (Nat.ne_of_gt hlimit)
    obtain ⟨st', hst', hnext⟩ := Decoding.comesNext_false hp (fun c hc hbegins => hrest c hc (.inl hbegins)) hst
    rw [readItems, bind_ok hnext]
    exact ⟨[], st', rfl, hst', fun _ => .nil⟩
  | cons item items ih =>
    obtain ⟨hitem, hitems⟩ := List.forall_mem_cons.1 hitems
    rw [writeItems] at h
    obtain ⟨_, middle, hsingle, h⟩ := bind_eq_ok.1 h
    obtain ⟨cs, hnext, hwritten⟩ := hitem e middle hready hsingle
    obtain ⟨_, hputs, -⟩ := hwritten.puts
    obtain ⟨cs', hlength, hwritten'⟩ := ih hitems (hready.follow hputs.follows) h
    have hpos := List.length_pos_of_ne_nil hnext.1
    refine ⟨cs ++ cs', by rw [List.length_cons, List.length_append]; omega, fun limit hlimit => ?_⟩
    obtain ⟨limit, rfl⟩ := Nat.exists_eq_add_one_of_ne_zero (Nat.ne_of_gt (Nat.lt_of_le_of_lt (Nat.zero_le _) hlimit))
    have hothers := hwritten' limit (Nat.lt_of_succ_lt_succ hlimit)
    refine RowWritten.behind (RowWritten.imp (RowWritten.trans hwritten hothers hapart (· :: ·)
      fun v vs hv hvs hs => .cons (hv hs) (hvs hs)) (fun _ => Or.rec id id) fun _ => Or.rec .inr id)
      fun later steps b rest st hst => ?_
    rw [List.append_assoc] at hst ⊢
    obtain ⟨st', hst', hcomes⟩ := hnext.2 b (cs' ++ rest) st hst
    exact ⟨st', hst', by rw [readItems, bind_ok hcomes, if_pos rfl]⟩

/-- A list is read back item by item, unless what comes behind it is one more item or goes on with the last. -/
theorem fieldReturns_items (hp : p.IsElemental P.schema nested) (hrepeated : p.repeated = true)
    (hitems : ∀ item ∈ items, SingleReturns P owner p nested item leads goesOn) (hapart : ∀ name, leads name → ¬goesOn name) :
    FieldReturns P owner p (.list items) leads (fun name => P.schema.PropertyBegins name p ∨ goesOn name) := by
  intro e e' hready h
  rw [writeProperty, hrepeated, Bool.not_true, if_neg Bool.false_ne_true] at h
  obtain ⟨cs, hlength, hwritten⟩ := itemsWritten hp hitems hapart hready h
  have hany := hwritten (items.length + 1) (Nat.lt_succ_self _)
  refine ⟨cs, hany.puts, hany.leads, fun later steps b rest st hlater hsteps hst hrest => ?_⟩
  obtain ⟨st', hdescriptor, hst'⟩ := hst.descriptor hp.compile
  -- There is a child for each item at least.
  have hlimit : items.length < st'.cursor.ahead.length + 1 := by
    have hnodes := hst'.length_le
    rw [List.length_append] at hnodes
    omega
  obtain ⟨items', t, hread, ht, hconveyed⟩ := (hwritten _ hlimit).reads later steps b rest st' hlater hsteps hst' hrest
  rw [readProperty, bind_ok hdescriptor, if_pos hrepeated, bind_ok (get_apply st'), bind_ok hread]
  exact ⟨.list items', t, rfl, ht, fun hs => .list (hconveyed hs)⟩

/-- A value that comes next is read back, whether it may be missing or not. -/
theorem fieldReturns_single (hd : Descriptor.compile P.schema p.type = .ok nested) (hrepeated : p.repeated = false)
    (hv : SingleReturns P owner p nested v leads goesOn) : FieldReturns P owner p v leads goesOn := by
  intro e e' hready h
  unfold writeProperty at h
  rw [hrepeated, Bool.not_false, if_pos rfl] at h
  obtain ⟨cs, hnext, hwritten⟩ := hv e e' hready h
  refine ⟨cs, hwritten.behind fun later steps b rest st hst => ?_⟩
  obtain ⟨st', hdescriptor, hst'⟩ := hst.descriptor hd
  rw [readProperty, bind_ok hdescriptor, hrepeated, if_neg Bool.false_ne_true]
  split
  · obtain ⟨st'', hst'', hcomes⟩ := hnext.2 b rest st' hst'
    exact ⟨st'', hst'', by rw [bind_ok hcomes, if_pos rfl]⟩
  · exact ⟨st', hst', rfl⟩

/-- A value that is left out is read back as none, unless what comes behind it begins one. -/
theorem fieldReturns_absent (hp : p.IsElemental P.schema nested) (hrepeated : p.repeated = false)
    (hnilable : p.nilable = false) : FieldReturns P owner p .null leads (P.schema.PropertyBegins · p) := by
  intro e e' hready h
  have hnull : Value.null.isNull = true := rfl
  rw [writeProperty, hrepeated, Bool.not_false, if_pos rfl, writeSingle, hnull, if_pos rfl, writeNothing, hnilable,
    if_neg Bool.false_ne_true] at h
  split at h
  · next hoptional =>
    cases h
    refine ⟨[], .nothing hready.registry fun later steps b rest st hst hrest => ?_⟩
    obtain ⟨st', hdescriptor, hst'⟩ := hst.descriptor hp.compile
    obtain ⟨st'', hst'', hcomes⟩ := Decoding.comesNext_false hp hrest hst'
    rw [readProperty, bind_ok hdescriptor, hrepeated, if_neg Bool.false_ne_true, if_pos hoptional, bind_ok hcomes]
    exact ⟨.null, st'', rfl, hst'', fun _ => .same⟩
  · cases h

/-- Where there is no value, an element is marked nil, unless a value may be left out. -/
theorem singleReturns_nil (hname : IsName p.name) (hnilable : p.optional = true → p.nilable = true)
    (hcontent : p.content = true → nested.isChoice = true) :
    SingleReturns P owner p nested .null (· = p.name) (fun _ => False) := by
  intro e e' hready h
  have hnull : Value.null.isNull = true := rfl
  rw [writeSingle, hnull, if_pos rfl, writeNothing] at h
  split at h
  · next hmarked =>
    obtain ⟨c, row, hflush, hlocal, hnil, hputs, hshows⟩ := exists_nilChild hname hready h
    refine ⟨[c], Decoding.areNext_named hlocal, ⟨row, hputs, hshows⟩, ?_, ?_⟩
    · rintro _ ⟨⟩
      exact ⟨hflush, hlocal⟩
    · intro later steps b rest st _ _ hst _
      obtain ⟨t, hread, ht⟩ := Decoding.readSingle_nil hst hnil hlocal hmarked hcontent
      exact ⟨.null, t, hread, ht, fun _ => .same⟩
  · next hmarked =>
    rw [if_neg fun hoptional => hmarked (hnilable hoptional)] at h
    cases h

end Encoding
end SoapBinding
