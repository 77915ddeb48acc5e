import SoapBinding.Codec.Decoding
import SoapBinding.Proofs.Codec.Placement

/-!
# What reading delivers

`Delivers s sound work c c' post` — a decoder over the schema whose cursor stands at `c` delivers something that
satisfies `post`, and stands at `c'` then. Which descriptors have been compiled before and which ids have been
given does not matter. Unlike `Outcome.Ensures` it promises that the work delivers, so the steps of a reading are
gone through one by one.

What is read may be known to be `sound`, that is, to have been written for a value of its type. Where it is not,
the work may also fail, but only because of the document (`Error.IsHarmless`): neither the schema nor the name of
a type is at fault.

The second half tells how the reader moves over the element that comes next: `delivers_readWrapped` over one with a
value inside, `delivers_readWrapped_nil` over one marked nil. Before it moves it looks ahead: `delivers_comesNext`
if the element begins a value of a property, `delivers_comesNext_not` if it does not.
-/

namespace SoapBinding

/-- A failure that is neither a fault of the schema nor one of the name of a type. -/
def Error.IsHarmless (e : Error) : Prop := e.kind ≠ .configuration ∧ e.kind ≠ .typeResolution

theorem Error.IsHarmless.of_content (fault : ContentFault) : IsHarmless (.content fault) := ⟨nofun, nofun⟩

theorem Error.IsHarmless.of_attachment (fault : AttachmentFault) : IsHarmless (.attachment fault) :=
  ⟨nofun, nofun⟩

namespace Decoding

open Outcome
open Xml (Cursor Element Node Reading Ending)

variable {s : Schema} {sound : Prop} {α β : Type}

/-- Work on the document delivers where the cursor does. -/
theorem onCursor_eq_ok {work : Reading α} {st t : Decoder} {a : α} :
    onCursor work st = .ok a t ↔ ∃ c, work st.cursor = .ok a c ∧ t = { st with cursor := c } := by
  unfold onCursor
  cases work st.cursor with
  | error fault c => simp
  | ok a' c =>
    simp only [EStateM.Result.ok.injEq]
    constructor
    · rintro ⟨rfl, rfl⟩
      exact ⟨c, ⟨rfl, rfl⟩, rfl⟩
    · rintro ⟨c', ⟨rfl, rfl⟩, rfl⟩
      exact ⟨rfl, rfl⟩

/-- Work on the types delivers where the registry does. -/
theorem onRegistry_eq_ok {work : Typed α} {st t : Decoder} {a : α} :
    onRegistry work st = .ok a t ↔ ∃ r, work st.registry = .ok a r ∧ t = { st with registry := r } := by
  unfold onRegistry
  cases work st.registry with
  | error fault r => simp
  | ok a' r =>
    simp only [EStateM.Result.ok.injEq]
    constructor
    · rintro ⟨rfl, rfl⟩
      exact ⟨r, ⟨rfl, rfl⟩, rfl⟩
    · rintro ⟨r', ⟨rfl, rfl⟩, rfl⟩
      exact ⟨rfl, rfl⟩

/-- A type that compiles is looked up, and the document stays as it is. -/
theorem descriptor_ok {st : Decoder} {type : TypeName} {d : Descriptor} (hover : st.registry.Over s)
    (hd : Descriptor.compile s type = .ok d) :
    ∃ r, r.Over s ∧ descriptor type st = .ok d { st with registry := r } := by
  obtain ⟨r, hr, hover'⟩ := Registry.descriptor_ok hover hd
  exact ⟨r, hover', onRegistry_eq_ok.2 ⟨r, hr, rfl⟩⟩

/-- A decoder over the schema that stands at `c` delivers what satisfies `post`, and stands at `c'` then. Unless
what is read is sound, it may also fail without harm. -/
def Delivers (s : Schema) (sound : Prop) (work : Decoding α) (c c' : Cursor) (post : α → Prop) : Prop :=
  ∀ st : Decoder, st.registry.Over s → st.cursor = c →
    (∃ a st', work st = .ok a st' ∧ st'.registry.Over s ∧ st'.cursor = c' ∧ post a) ∨
      (¬sound ∧ ∃ e st', work st = .error e st' ∧ e.IsHarmless)

namespace Delivers

variable {work : Decoding α} {next : α → Decoding β} {c c' c'' : Cursor} {P P' : α → Prop} {Q : β → Prop}

theorem bind (hw : Delivers s sound work c c' P) (hn : ∀ a, P a → Delivers s sound (next a) c' c'' Q) :
    Delivers s sound (work >>= next) c c'' Q := by
  intro st hover hst
  rcases hw st hover hst with ⟨a, st', hwork, hover', hst', ha⟩ | ⟨hunsound, e, st', hwork, he⟩
  · rw [bind_ok hwork]
    exact hn a ha st' hover' hst'
  · exact .inr ⟨hunsound, e, st', bind_error hwork, he⟩

theorem pure {a : α} (h : P a) : Delivers s sound (Pure.pure a : Decoding α) c c P :=
  fun st hover hst => .inl ⟨a, st, rfl, hover, hst, h⟩

theorem throw {e : Error} (hunsound : ¬sound) (he : e.IsHarmless) :
    Delivers s sound (MonadExcept.throw e : Decoding α) c c' P :=
  fun st _ _ => .inr ⟨hunsound, e, st, rfl, he⟩

theorem mono (hw : Delivers s sound work c c' P) (h : ∀ a, P a → P' a) : Delivers s sound work c c' P' := by
  intro st hover hst
  rcases hw st hover hst with ⟨a, st', hwork, hover', hst', ha⟩ | hfails
  · exact .inl ⟨a, st', hwork, hover', hst', h a ha⟩
  · exact .inr hfails

theorem get : Delivers s sound (MonadState.get : Decoding Decoder) c c fun st => st.cursor = c :=
  fun st hover hst => .inl ⟨st, st, rfl, hover, hst, hst⟩

theorem onCursor {work : Reading α} {a : α} (h : work c = .ok a c') :
    Delivers s sound (onCursor work) c c' (· = a) := by
  rintro st hover rfl
  exact .inl ⟨a, { st with cursor := c' }, onCursor_eq_ok.2 ⟨c', h, rfl⟩, hover, rfl, rfl⟩

/-- Work on the types delivers if nothing can go wrong. -/
theorem onRegistry {work : Typed α}
    (h : Triple (Registry.Over s) work (fun a r => r.Over s ∧ P a) fun _ => True) :
    Delivers s sound (onRegistry work) c c P := by
  intro st hover hst
  obtain ⟨a, r, hwork, hover', ha⟩ := h.exists_ok hover
  exact .inl ⟨a, { st with registry := r }, onRegistry_eq_ok.2 ⟨r, hwork, rfl⟩, hover', hst, ha⟩

theorem descriptor {type : TypeName} {d : Descriptor} (hd : Descriptor.compile s type = .ok d) :
    Delivers s sound (descriptor type) c c (· = d) := by
  intro st hover hst
  obtain ⟨r, hover', hdescriptor⟩ := descriptor_ok hover hd
  exact .inl ⟨d, { st with registry := r }, hdescriptor, hover', hst, rfl⟩

end Delivers

/-! ### Moving over elements -/

section
variable {e : Element} {inside tail : List Node} {ending : Ending} {opened : List Element}

theorem peekStart_start :
    Cursor.peekStart ⟨.start e :: tail, ending, opened⟩ = .ok (some e) ⟨.start e :: tail, ending, opened⟩ :=
  rfl

theorem peekStart_finish :
    Cursor.peekStart ⟨.finish :: tail, ending, opened⟩ = .ok none ⟨.finish :: tail, ending, opened⟩ :=
  rfl

theorem expectStart_start :
    Cursor.expectStart ⟨.start e :: tail, ending, opened⟩ = .ok e ⟨tail, ending, e :: opened⟩ :=
  rfl

theorem finishElement_finish :
    Cursor.finishElement ⟨.finish :: tail, ending, e :: opened⟩ = .ok () ⟨tail, ending, opened⟩ :=
  rfl

/-- Nothing is skipped in an element that ends at once. -/
theorem skipToEnd_finish :
    Cursor.skipToEnd ⟨.finish :: tail, ending, e :: opened⟩ = .ok () ⟨tail, ending, opened⟩ := by
  have hpast : Cursor.skipBelow (opened.length + 1) ending opened tail = .ok () ⟨tail, ending, opened⟩ := by
    cases tail <;> rw [Cursor.skipBelow, if_pos (Nat.lt_succ_self _)]
  unfold Cursor.skipToEnd Cursor.depth
  dsimp only
  rw [List.length_cons, if_neg (Nat.succ_ne_zero _), Cursor.skipBelow,
    if_neg (by rw [List.length_cons]; exact Nat.lt_irrefl _)]
  exact hpast

variable {content : Descriptor → Decoding Value} {owner : TypeName} {nilable : Bool}
  {declared runtime : Descriptor} {post : Value → Prop}

/-- An element with a value inside is read as what its content is read as. -/
theorem delivers_readWrapped (hnil : e.isNil = false)
    (hruntime : ∀ c, Delivers s sound (runtimeType declared e) c c (· = runtime))
    (hcontent : Delivers s sound (content runtime) ⟨inside ++ .finish :: tail, ending, e :: opened⟩
      ⟨.finish :: tail, ending, e :: opened⟩ post) :
    Delivers s sound (readWrapped content owner nilable declared)
      ⟨.start e :: inside ++ [.finish] ++ tail, ending, opened⟩ ⟨tail, ending, opened⟩ post := by
  have hahead : Node.start e :: inside ++ [.finish] ++ tail = .start e :: (inside ++ .finish :: tail) := by
    simp
  rw [hahead]
  apply Delivers.bind (Delivers.onCursor expectStart_start)
  rintro _ rfl
  rw [hnil, if_neg (by decide)]
  apply Delivers.bind (hruntime _)
  rintro _ rfl
  apply Delivers.bind hcontent
  intro value hvalue
  apply Delivers.bind (Delivers.onCursor finishElement_finish)
  intro _ _
  exact Delivers.pure hvalue

/-- An element marked nil is read as no value. -/
theorem delivers_readWrapped_nil (hnil : e.isNil = true) (hnilable : nilable = true) :
    Delivers s sound (readWrapped content owner nilable declared)
      ⟨.start e :: [] ++ [.finish] ++ tail, ending, opened⟩ ⟨tail, ending, opened⟩ (· = .null) := by
  apply Delivers.bind (Delivers.onCursor expectStart_start)
  rintro _ rfl
  rw [hnil, if_pos rfl, if_pos hnilable]
  apply Delivers.bind (Delivers.onCursor skipToEnd_finish)
  intro _ _
  exact Delivers.pure rfl

/-- An element without a type mark is read as the declared type. -/
theorem delivers_runtimeType (h : e.xsiType = none) (c : Cursor) :
    Delivers s sound (runtimeType declared e) c c (· = declared) := by
  unfold runtimeType
  rw [h]
  exact Delivers.pure rfl

/-- A reference to a type names that type and no other. -/
theorem names_iff {type other : TypeName} :
    names ⟨type, !type.space.isEmpty⟩ other = true ↔ other = type := by
  obtain ⟨space, localName⟩ := type
  obtain ⟨space', localName'⟩ := other
  simp only [names, Bool.not_not, Bool.or_eq_true, Bool.and_eq_true, beq_iff_eq, String.isEmpty_iff,
    TypeName.mk.injEq]
  constructor
  · rintro (h | ⟨⟨rfl, rfl⟩, h⟩)
    · exact h
    · exact ⟨rfl, h⟩
  · exact .inl

theorem find?_names {type : TypeName} {types : List TypeName} (hmem : type ∈ types) :
    types.find? (names ⟨type, !type.space.isEmpty⟩) = some type := by
  cases hfound : types.find? (names ⟨type, !type.space.isEmpty⟩) with
  | none => exact absurd (names_iff.2 rfl) (List.find?_eq_none.1 hfound type hmem)
  | some other => rw [names_iff.1 (List.find?_some hfound)]

/-- An element that is marked with a subtype is read as that type. -/
theorem delivers_runtimeType_subtype {type : TypeName} (h : e.xsiType = some ⟨type, !type.space.isEmpty⟩)
    (hne : type ≠ declared.name) (hmem : type ∈ declared.subtypes)
    (hd : Descriptor.compile s type = .ok runtime) (c : Cursor) :
    Delivers s sound (runtimeType declared e) c c (· = runtime) := by
  unfold runtimeType
  rw [h]
  dsimp only
  rw [if_neg (fun hnames => hne (names_iff.1 hnames).symm), find?_names hmem]
  exact Delivers.descriptor hd

/-! ### Looking ahead -/

/-- Nodes that begin with the start tag of such an element. -/
def Starts (ok : Element → Prop) (nodes : List Node) : Prop :=
  ∃ element rest, nodes = .start element :: rest ∧ ok element

theorem Starts.append {ok : Element → Prop} {nodes : List Node} (h : Starts ok nodes) (behind : List Node) :
    Starts ok (nodes ++ behind) := by
  obtain ⟨element, rest, rfl, hok⟩ := h
  exact ⟨element, rest ++ behind, rfl, hok⟩

theorem Starts.mono {ok ok' : Element → Prop} {nodes : List Node} (h : Starts ok nodes)
    (himp : ∀ e, ok e → ok' e) : Starts ok' nodes := by
  obtain ⟨element, rest, rfl, hok⟩ := h
  exact ⟨element, rest, rfl, himp element hok⟩

theorem Starts.length_pos {ok : Element → Prop} {nodes : List Node} (h : Starts ok nodes) :
    0 < nodes.length := by
  obtain ⟨element, rest, rfl, _⟩ := h
  exact Nat.succ_pos _

/-- Nodes that go on with something else: the end of the element around, or an element of another name. -/
def GoesOnWithout (names : String → Prop) (nodes : List Node) : Prop :=
  (∃ rest, nodes = .finish :: rest) ∨ Starts (fun e => ¬names e.localName) nodes

theorem GoesOnWithout.mono {names names' : String → Prop} {nodes : List Node} (h : GoesOnWithout names nodes)
    (himp : ∀ name, names' name → names name) : GoesOnWithout names' nodes :=
  h.imp_right fun hstarts => hstarts.mono fun e he hname => he (himp e.localName hname)

variable {p : Property} {nodes : List Node}

/-- What matching answers is right, and it always answers. -/
theorem delivers_begins_property (htells : s.Tells p.type) (element : String) (c : Cursor) :
    Delivers s sound (onRegistry (p.begins element)) c c fun b => b = true ↔ s.PropertyBegins element p :=
  Delivers.onRegistry (triple_property_begins (htells.excuses _) fun _ => htells.grounded)

theorem delivers_begins {type : TypeName} (htells : s.Tells type) (hd : Descriptor.compile s type = .ok declared)
    (element : String) (c : Cursor) :
    Delivers s sound (onRegistry (declared.begins element)) c c fun b =>
      b = true ↔ s.TypeBegins element declared := by
  obtain rfl := Descriptor.name_of_compile hd
  exact Delivers.onRegistry (triple_begins (htells.excuses _) (fun _ => htells.grounded) hd)

theorem delivers_comesNext (htells : s.Tells p.type)
    (h : Starts (fun e => s.PropertyBegins e.localName p) nodes) :
    Delivers s sound (comesNext p) ⟨nodes, ending, opened⟩ ⟨nodes, ending, opened⟩ (· = true) := by
  obtain ⟨element, rest, rfl, hbegins⟩ := h
  apply Delivers.bind (Delivers.onCursor peekStart_start)
  rintro _ rfl
  exact (delivers_begins_property htells _ _).mono fun b hb => hb.2 hbegins

theorem delivers_comesNext_not (htells : s.Tells p.type) (h : GoesOnWithout (s.PropertyBegins · p) nodes) :
    Delivers s sound (comesNext p) ⟨nodes, ending, opened⟩ ⟨nodes, ending, opened⟩ (· = false) := by
  rcases h with ⟨rest, rfl⟩ | ⟨element, rest, rfl, hbegins⟩
  · apply Delivers.bind (Delivers.onCursor peekStart_finish)
    rintro _ rfl
    exact Delivers.pure rfl
  · apply Delivers.bind (Delivers.onCursor peekStart_start)
    rintro _ rfl
    refine (delivers_begins_property htells _ _).mono fun b hb => ?_
    exact Bool.eq_false_iff.2 fun htrue => hbegins (hb.1 htrue)

/-! ### Single values of a property -/

/-- An element of the property's name is read, be it marked nil or not, unless the property is of a choice
type, where only the mark makes it one. -/
theorem delivers_readSingle_element {c' : Cursor} (hcontent : p.content = false)
    (hname : e.localName = p.name) (hchoice : declared.isChoice = false ∨ e.isNil = true)
    (hread : Delivers s sound (readWrapped content owner p.nilable declared) ⟨.start e :: tail, ending, opened⟩
      c' post) :
    Delivers s sound (readSingle content owner p declared) ⟨.start e :: tail, ending, opened⟩ c' post := by
  unfold readSingle
  rw [hcontent, Bool.false_and, if_neg (by decide)]
  apply Delivers.bind (Delivers.onCursor peekStart_start)
  rintro _ rfl
  dsimp only
  cases hkind : declared.isChoice with
  | false =>
    rw [if_neg (by decide), if_pos hname]
    exact hread
  | true =>
    have hnil : e.isNil = true := hchoice.resolve_left (by rw [hkind]; decide)
    rw [if_pos rfl, if_pos (by rw [hnil]; simpa using hname)]
    exact hread

/-- An element of a choice is read as a choice, unless it could be the nil mark of the property. -/
theorem delivers_readSingle_choice {c' : Cursor} (hcontent : p.content = false)
    (hnil : e.isNil = true → e.localName ≠ p.name) (hchoice : declared.isChoice = true)
    (hread : Delivers s sound (content declared) ⟨.start e :: tail, ending, opened⟩ c' post) :
    Delivers s sound (readSingle content owner p declared) ⟨.start e :: tail, ending, opened⟩ c' post := by
  unfold readSingle
  rw [hcontent, Bool.false_and, if_neg (by decide)]
  apply Delivers.bind (Delivers.onCursor peekStart_start)
  rintro _ rfl
  dsimp only
  rw [hchoice, if_pos rfl, if_neg (by simpa using fun hname hmarked => hnil hmarked hname)]
  exact hread

end

end Decoding
end SoapBinding
