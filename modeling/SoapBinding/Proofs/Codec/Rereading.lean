import Mathlib.Data.List.Forall2
import SoapBinding.Proofs.Codec.Delivery
import SoapBinding.Proofs.Xml.Captured

/-!
# Reading twice

Each rule of the reader is gone through in two places at once. What is read in the one is read in the other as well, if
every step of the cursor that succeeds in the one does so in the other:

    follows_readElement : Follows … (readElement context element type) (readElement context element type) L.values …

What the places have to do with each other is left open. All that the rules ask of them are the steps of the cursor
(`Places`), that elements are read as the same type (`Rereading.ReadsTypes`), and that there are nodes enough for the items of
a property (`Rereading.Counts`). Which relation the ids of payloads and the values are in is left open as well (`Rereading`).

One pair of places is a document that is read alone, and where it stands inside another. A default namespace of the elements
around captures the names of elements, of which only the local part is looked at, and a type that is named without a
qualifier, which still names the type of no namespace (`readsTypes_captured`).
-/

namespace SoapBinding

open Outcome
open Xml (Cursor Element Node Reading)

/-- Among a type and its subtypes, one of no namespace is told by its local name. -/
def Schema.TellsBareNames (s : Schema) : Prop :=
  ∀ {type : TypeName} {d : Descriptor}, Descriptor.compile s type = .ok d → ∀ t ∈ d.name :: d.subtypes,
    ∀ u ∈ d.name :: d.subtypes, t.space = "" → t.localName = u.localName → t = u

/-- What the ids given and the values read have to do with each other, when something is read twice. -/
structure Rereading (s : Schema) where
  /-- The supplies of ids. -/
  supplies : Nonces → Nonces → Prop
  /-- The values. -/
  values : Value → Value → Prop
  same : ∀ v, values v v
  payload : ∀ {n n' : Nonces} (bytes : Bytes), supplies n n' → supplies n.next.2 n'.next.2 ∧
    values (.binary (.ofBytes n.next.1 bytes)) (.binary (.ofBytes n'.next.1 bytes))
  list : ∀ {items items' : List Value}, List.Forall₂ values items items' → values (.list items) (.list items')
  object : ∀ {type : TypeName} {fields fields' : Fields}, fields'.names = fields.names →
    List.Forall₂ values (fields.map (·.2)) (fields'.map (·.2)) → values (.object type fields) (.object type fields')
  build : ∀ {type : TypeName} {d : Descriptor} {variant : Variant} {v v' : Value},
    Descriptor.compile s type = .ok d → variant ∈ d.variants → values v v' → values (variant.build v) (variant.build v')

/-! ### Types -/

namespace Registry

variable {s : Schema}

/-- Two registries over a schema. -/
def both (s : Schema) : Pairing Registry Registry := ⟨fun r r' => r.Over s ∧ r'.Over s, fun _ => False⟩

/-- A type has the same descriptor in both. -/
theorem follows_descriptor (type : TypeName) :
    Follows (both s) (descriptor type) (descriptor type) (fun d d' => d' = d ∧ Descriptor.compile s type = .ok d)
      (both s) := by
  refine ⟨fun _ _ _ => False.elim, ?_⟩
  rintro r r' d t ⟨hover, hover'⟩ hok
  obtain ⟨ht, hd⟩ := ensures_descriptor s type r d t hover hok
  obtain ⟨t', hok', ht'⟩ := descriptor_ok hover' hd
  exact .inr ⟨d, t', hok', ⟨rfl, hd⟩, ht, ht'⟩

end Registry

section
variable {s : Schema} {element : String}

/-- The question whether an element begins a value is answered alike for each type. -/
def AnswersAlike (s : Schema) (begins : Descriptor → Typed Bool) : Prop :=
  ∀ {type : TypeName} {d : Descriptor}, Descriptor.compile s type = .ok d →
    Follows (Registry.both s) (begins d) (begins d) Eq (Registry.both s)

variable {begins : Descriptor → Typed Bool}

theorem Property.follows_beginsBy (h : AnswersAlike s begins) (p : Property) :
    Follows (Registry.both s) (p.beginsBy begins element) (p.beginsBy begins element) Eq (Registry.both s) := by
  unfold beginsBy
  split
  · exact .pure rfl
  · refine .bind (Registry.follows_descriptor p.type) ?_
    rintro d _ ⟨rfl, hd⟩
    split
    · exact h hd
    · exact .pure rfl

theorem Variant.follows_beginsBy (h : AnswersAlike s begins) (v : Variant) :
    Follows (Registry.both s) (v.beginsBy begins element) (v.beginsBy begins element) Eq (Registry.both s) := by
  unfold beginsBy
  cases v.dispatch with
  | element name => exact .pure rfl
  | inline =>
    refine .bind (Registry.follows_descriptor v.type) ?_
    rintro d _ ⟨rfl, hd⟩
    exact h hd

theorem Variant.follows_anyBeginsBy (h : AnswersAlike s begins) (variants : List Variant) :
    Follows (Registry.both s) (anyBeginsBy begins element variants) (anyBeginsBy begins element variants) Eq
      (Registry.both s) := by
  induction variants with
  | nil => exact .pure rfl
  | cons v rest ih =>
    refine .bind (follows_beginsBy h v) ?_
    rintro b _ rfl
    split
    · exact .pure rfl
    · exact ih

theorem Descriptor.answersAlike_beginsWithin (element : String) (steps : Nat) :
    AnswersAlike s (beginsWithin element steps) := by
  induction steps with
  | zero => exact fun _ => .throw
  | succ steps ih =>
    intro type d _
    unfold beginsWithin
    cases d.shape with
    | simple primitive => exact .pure rfl
    | sequence properties subtypes isAbstract =>
      cases properties with
      | nil => exact .pure rfl
      | cons p rest => exact p.follows_beginsBy ih
    | choice variants => exact Variant.follows_anyBeginsBy ih variants

theorem Descriptor.answersAlike_begins (element : String) : AnswersAlike s (Descriptor.begins element) := by
  intro type d hd
  refine .bind (.get (R := fun r r' => r'.schema = r.schema) (fun _ => False.elim) ?_) ?_
  · rintro r r' ⟨hover, hover'⟩
    rw [hover.schema_eq, hover'.schema_eq]
  · intro r r' hsame
    rw [hsame]
    exact answersAlike_beginsWithin element _ hd

end

namespace Decoding

variable {α : Type}

/-- Whichever types a name names alone, among types that are told by it, are those it names where it is captured. -/
theorem names_captured {r r' : Xml.TypeReference} {types : List TypeName} {found : TypeName} (h : r.IsCaptured r')
    (hbare : ∀ t ∈ types, ∀ u ∈ types, t.space = "" → t.localName = u.localName → t = u) (hmem : found ∈ types)
    (hfound : names r found = true) : ∀ t ∈ types, names r' t = names r t := by
  intro t ht
  cases h with
  | same => rfl
  | bare name uri =>
    have hiff (u : TypeName) : names ⟨⟨"", name⟩, false⟩ u = true ↔ u = ⟨"", name⟩ := names_iff
    obtain rfl := (hiff found).1 hfound
    -- Captured, the name also names a type of the namespace around; but among these types no other has its local name.
    rw [Bool.eq_iff_iff, hiff]
    constructor
    · intro hnames
      have hlocal : t.localName = name := by
        obtain ⟨space, localName⟩ := t
        simp only [names, Bool.or_eq_true, Bool.and_eq_true, beq_iff_eq, TypeName.mk.injEq] at hnames
        exact hnames.elim And.right And.right
      exact (hbare _ hmem t ht rfl hlocal.symm).symm
    · rintro rfl
      simp [names]

/-- An element that includes an attachment is in a namespace, so that it is not captured. -/
theorem includedReference_captured {e e' : Element} {reference : String} (he : e.IsCaptured e')
    (h : includedReference e = .ok reference) : includedReference e' = .ok reference := by
  unfold includedReference at h ⊢
  split at h
  · cases h
  · next hinclude =>
    have hxop : e.space = some Xml.xopNamespace := by simp_all
    have hspace : e'.space = e.space := he.space.resolve_left (by simp [hxop])
    rwa [he.localName, hspace, if_neg hinclude, he.attribute?]

end Decoding

/-! ### Places -/

/-- What crossing an element does to two cursors: in front of it, inside, and behind its end tag. -/
structure Crosses (one : Element → Element → Prop) (before inside behind : Pairing Cursor Cursor) : Prop where
  expectStart : Follows before Cursor.expectStart Cursor.expectStart one inside.surely
  skipToEnd : Follows inside.surely Cursor.skipToEnd Cursor.skipToEnd (fun _ _ => True) behind
  finishElement : Follows inside Cursor.finishElement Cursor.finishElement (fun _ _ => True) behind

/-- Two cursors inside an element, each step of which succeeds for the second if it does for the first. The places are told
apart by the number of elements that have been opened on the way. -/
structure Places where
  /-- An element, and what stands for it in the other place. -/
  one : Element → Element → Prop
  /-- The cursors, where a number of elements have been opened. -/
  within : Nat → Pairing Cursor Cursor
  isCaptured : ∀ {e e' : Element}, one e e' → e.IsCaptured e'
  href : ∀ {n : Nat} {c c' : Cursor}, (within n).linked c c' →
    c'.current?.bind (·.attribute? none "href") = c.current?.bind (·.attribute? none "href")
  peekStart : ∀ n, Follows (within n) Cursor.peekStart Cursor.peekStart (Option.Rel one) (within n)
  peek : ∀ n, Follows (within n) Cursor.peek Cursor.peek (Option.Rel Node.IsCaptured) (within n)
  skipBlankText : ∀ n,
    Follows (within n) Decoding.skipBlankText Decoding.skipBlankText (fun _ _ => True) (within n)
  foldText : ∀ n {σ : Type} (f : σ → String → Except Error σ) (a : σ),
    Follows (within n) (Cursor.foldText f a) (Cursor.foldText f a) Eq (within n)
  crosses : ∀ n, Crosses one (within n) (within (n + 1)) (within n).surely

/-- An element is passed in both places. -/
theorem Crosses.skipElement {one : Element → Element → Prop} {before inside behind : Pairing Cursor Cursor}
    (h : Crosses one before inside behind) :
    Follows before Cursor.skipElement Cursor.skipElement (fun _ _ => True) behind :=
  .bind h.expectStart fun _ _ _ => h.skipToEnd

/-- Fewer items are read than the limit allows. -/
theorem Decoding.length_readItems_lt {content : Descriptor → Decoding Value} {owner : TypeName} {p : Property}
    {nested : Descriptor} {limit : Nat} {st t : Decoder} {items : List Value}
    (h : readItems content owner p nested limit st = .ok items t) : items.length < limit := by
  induction limit generalizing st items with
  | zero => cases h
  | succ limit ih =>
    obtain ⟨next, st₁, -, h⟩ := bind_eq_ok.1 h
    split at h
    · obtain ⟨item, st₂, -, h⟩ := bind_eq_ok.1 h
      obtain ⟨rest, st₃, hrest, h⟩ := bind_eq_ok.1 h
      cases h
      exact Nat.succ_lt_succ (ih hrest)
    · cases h
      exact Nat.succ_pos limit

/-- Any limit that allows for the items does as well. -/
theorem Decoding.readItems_of_length_lt {content : Descriptor → Decoding Value} {owner : TypeName} {p : Property}
    {nested : Descriptor} {limit limit' : Nat} {st t : Decoder} {items : List Value}
    (h : readItems content owner p nested limit st = .ok items t) (hlength : items.length < limit') :
    readItems content owner p nested limit' st = .ok items t := by
  induction limit generalizing st items limit' with
  | zero => cases h
  | succ limit ih =>
    obtain ⟨limit', rfl⟩ : ∃ n, limit' = n + 1 := ⟨limit' - 1, by omega⟩
    obtain ⟨next, st₁, hnext, h⟩ := bind_eq_ok.1 h
    refine bind_eq_ok.2 ⟨next, st₁, hnext, ?_⟩
    split at h
    · next htrue =>
      obtain ⟨item, st₂, hitem, h⟩ := bind_eq_ok.1 h
      obtain ⟨rest, st₃, hrest, h⟩ := bind_eq_ok.1 h
      cases h
      rw [if_pos htrue]
      exact bind_eq_ok.2 ⟨item, st₂, hitem, bind_eq_ok.2 ⟨rest, _, ih hrest (Nat.lt_of_succ_lt_succ hlength), rfl⟩⟩
    · next hfalse =>
      cases h
      rw [if_neg hfalse]
      rfl

namespace Rereading

open Decoding

variable {s : Schema} (L : Rereading s) {P Q : Pairing Cursor Cursor} {α β : Type} {R : α → β → Prop}

/-- Two decoders over a schema. -/
def decoders (P : Pairing Cursor Cursor) : Pairing Decoder Decoder where
  linked st st' :=
    st.registry.Over s ∧ st'.registry.Over s ∧ L.supplies st.nonces st'.nonces ∧ P.linked st.cursor st'.cursor
  lost st := st.registry.Over s ∧ P.lost st.cursor

theorem decoders_implies (h : P.Implies Q) : (L.decoders P).Implies (L.decoders Q) :=
  ⟨fun _ _ ⟨hover, hover', hsupplies, hP⟩ => ⟨hover, hover', hsupplies, h.linked _ _ hP⟩,
    fun _ ⟨hover, hP⟩ => ⟨hover, h.lost _ hP⟩⟩

/-- Where the first decoder may be lost anyway, it does no harm that it is not. -/
theorem unsure {work : Decoding α} {work' : Decoding β} {start : Pairing Decoder Decoder}
    (h : Follows start work work' R (L.decoders Q.surely)) : Follows start work work' R (L.decoders Q) :=
  h.adapt (.refl _) (L.decoders_implies Q.surely_implies)

/-! ### Work on the parts of a decoder -/

theorem follows_onCursor {work : Reading α} {work' : Reading β} (h : Follows P work work' R Q) :
    Follows (L.decoders P) (onCursor work) (onCursor work') R (L.decoders Q) := by
  constructor
  · rintro st a t ⟨hover, hlost⟩ hok
    obtain ⟨c, hwork, rfl⟩ := onCursor_eq_ok.1 hok
    exact (h.stays _ _ _ hlost hwork).imp_left fun hgone => ⟨hover, hgone⟩
  · rintro st st' a t ⟨hover, hover', hsupplies, hlinked⟩ hok
    obtain ⟨c, hwork, rfl⟩ := onCursor_eq_ok.1 hok
    obtain hgone | ⟨b, c', hwork', hR, hQ⟩ := h.follows _ _ _ _ hlinked hwork
    · exact .inl (hgone.imp_left fun hgone => ⟨hover, hgone⟩)
    · exact .inr ⟨b, _, onCursor_eq_ok.2 ⟨c', hwork', rfl⟩, hR, hover, hover', hsupplies, hQ⟩

theorem follows_onRegistry {work : Typed α} {work' : Typed β}
    (h : Follows (Registry.both s) work work' R (Registry.both s)) :
    Follows (L.decoders P) (onRegistry work) (onRegistry work') R (L.decoders P) := by
  constructor
  · rintro st a t ⟨hover, hlost⟩ hok
    obtain ⟨r, hwork, rfl⟩ := onRegistry_eq_ok.1 hok
    -- A registry is never lost: beside itself, the first gives what a second would.
    obtain ⟨b, _, _, hR, hover', -⟩ := (h.follows _ _ _ _ ⟨hover, hover⟩ hwork).resolve_left And.left
    exact ⟨⟨hover', hlost⟩, b, hR⟩
  · rintro st st' a t ⟨hover, hover', hsupplies, hlinked⟩ hok
    obtain ⟨r, hwork, rfl⟩ := onRegistry_eq_ok.1 hok
    obtain ⟨b, r', hwork', hR, hboth⟩ := (h.follows _ _ _ _ ⟨hover, hover'⟩ hwork).resolve_left And.left
    exact .inr ⟨b, _, onRegistry_eq_ok.2 ⟨r', hwork', rfl⟩, hR, hboth.1, hboth.2, hsupplies, hlinked⟩

theorem follows_descriptor (type : TypeName) :
    Follows (L.decoders P) (descriptor type) (descriptor type) (fun d d' => d' = d ∧ Descriptor.compile s type = .ok d)
      (L.decoders P) :=
  L.follows_onRegistry (Registry.follows_descriptor type)

/-! ### Leaves -/

theorem follows_freshBinary (bytes : Bytes) :
    Follows (L.decoders P) (freshBinary bytes) (freshBinary bytes) (fun b b' => L.values (.binary b) (.binary b'))
      (L.decoders P) := by
  constructor
  · rintro st _ _ ⟨hover, hlost⟩ ⟨⟩
    exact ⟨⟨hover, hlost⟩, _, L.same _⟩
  · rintro st st' _ _ ⟨hover, hover', hsupplies, hlinked⟩ ⟨⟩
    obtain ⟨hnext, hvalues⟩ := L.payload bytes hsupplies
    exact .inr ⟨_, _, rfl, hvalues, hover, hover', hnext, hlinked⟩

theorem follows_readReference (context : Context) (reference : String) :
    Follows (L.decoders P) (readReference context reference) (readReference context reference) L.values (L.decoders P) := by
  unfold readReference
  cases resolve context reference with
  | ok b => exact .pure (L.same _)
  | error fault => exact .throw

section
variable (W : Places)

theorem follows_readBase64 (n : Nat) :
    Follows (L.decoders (W.within n)) readBase64 readBase64 L.values (L.decoders (W.within n)) := by
  refine .bind (L.follows_onCursor (W.foldText n _ _)) ?_
  rintro decoder _ rfl
  cases decoder.finish with
  | error fault => exact .throw
  | ok bytes => exact .bind (L.follows_freshBinary bytes) fun _ _ h => .pure h

/-- A payload is read in both places. The element around has the same reference in both, and an element that includes
an attachment is in the namespace that says so. -/
theorem follows_readBinary (context : Context) (n : Nat) :
    Follows (L.decoders (W.within n)) (readBinary context) (readBinary context) L.values (L.decoders (W.within n)) := by
  -- All that is looked at of the element around is its reference.
  refine .bind (.get (R := fun st st' => (st'.cursor.current?.bind (·.attribute? none "href")) =
    st.cursor.current?.bind (·.attribute? none "href")) (fun st _ => ⟨st, rfl⟩) ?_) ?_
  · rintro st st' ⟨-, -, -, hwithin⟩
    exact W.href hwithin
  · intro st st' href
    rw [href]
    split
    · exact L.follows_readReference context _
    · refine .bind (L.follows_onCursor (W.skipBlankText n)) fun _ _ _ => ?_
      refine .bind (L.follows_onCursor (W.peek n)) fun node node' hnode => ?_
      cases hnode with
      | none => exact L.follows_readBase64 W n
      | some hnode =>
        cases hnode with
        | text | finish => exact L.follows_readBase64 W n
        | @start e e' he =>
          dsimp only
          cases hreference : includedReference e with
          | error fault => exact .throw
          | ok reference =>
            rw [includedReference_captured he hreference]
            exact .bind (L.unsure (L.follows_onCursor (W.crosses n).skipElement)) fun _ _ _ =>
              L.follows_readReference context reference

theorem follows_readTextType (type : TextType) (n : Nat) :
    Follows (L.decoders (W.within n)) (readTextType type) (readTextType type) L.values (L.decoders (W.within n)) := by
  refine .bind (.get (R := fun _ _ => True) (fun st _ => ⟨st, trivial⟩) fun _ _ _ => trivial) fun st st' _ => ?_
  refine .bind (L.follows_onCursor (W.foldText n _ _)) ?_
  rintro text _ rfl
  cases type.parse text with
  | error fault => exact .throw
  | ok value => exact .pure (L.same value)

theorem follows_readPrimitive (context : Context) (primitive : Primitive) (n : Nat) :
    Follows (L.decoders (W.within n)) (readPrimitive context primitive) (readPrimitive context primitive) L.values
      (L.decoders (W.within n)) := by
  cases primitive with
  | base64Binary => exact L.follows_readBinary W context n
  | text type => exact L.follows_readTextType W type n

end

/-! ### Elements -/

/-- An element is read as the same type in both places. -/
def ReadsTypes (one : Element → Element → Prop) : Prop :=
  ∀ {P : Pairing Cursor Cursor} {type : TypeName} {declared : Descriptor} {e e' : Element},
    Descriptor.compile s type = .ok declared → one e e' →
      Follows (L.decoders P) (runtimeType declared e) (runtimeType declared e')
        (fun d d' => d' = d ∧ ∃ type, Descriptor.compile s type = .ok d) (L.decoders P)

/-- The same element is read as the same type. -/
theorem readsTypes_eq : L.ReadsTypes Eq := by
  rintro P type declared e _ hd rfl
  unfold runtimeType
  cases e.xsiType with
  | none => exact .pure ⟨rfl, type, hd⟩
  | some reference =>
    dsimp only
    split
    · exact .pure ⟨rfl, type, hd⟩
    · cases declared.subtypes.find? (names reference) with
      | none => exact .throw
      | some subtype => exact (L.follows_descriptor subtype).mono fun _ _ ⟨hsame, hsubtype⟩ => ⟨hsame, subtype, hsubtype⟩

/-- A type that an element names without a qualifier may be captured, but is told by its local name. -/
theorem readsTypes_captured (hbare : s.TellsBareNames) : L.ReadsTypes Element.IsCaptured := by
  intro P type declared e e' hd he
  have hxsi := he.xsiType
  unfold runtimeType
  generalize e.xsiType = reference at hxsi
  generalize e'.xsiType = reference' at hxsi
  cases hxsi with
  | none => exact .pure ⟨rfl, type, hd⟩
  | @some r r' hr =>
    dsimp only
    by_cases hself : names r declared.name = true
    · have hsame := names_captured hr (hbare hd) List.mem_cons_self hself declared.name List.mem_cons_self
      rw [if_pos hself, if_pos (hsame.trans hself)]
      exact .pure ⟨rfl, type, hd⟩
    · rw [if_neg hself]
      cases hfind : declared.subtypes.find? (names r) with
      | none => exact .throw
      | some subtype =>
        have hmem := List.mem_cons_of_mem declared.name (List.mem_of_find?_eq_some hfind)
        have hsame := names_captured hr (hbare hd) hmem (List.find?_some hfind)
        -- Each subtype is named in both places or in neither, so the first one that is named is the same.
        have hfind' : declared.subtypes.find? (names r') = some subtype := by
          rw [← hfind, ← List.head?_filter, ← List.head?_filter,
            List.filter_congr fun t ht => hsame t (List.mem_cons_of_mem _ ht)]
        rw [if_neg (by rwa [hsame _ List.mem_cons_self]), hfind']
        exact (L.follows_descriptor subtype).mono fun _ _ ⟨hsame, hsubtype⟩ => ⟨hsame, subtype, hsubtype⟩

/-- The content of each type is read alike in both places. -/
def ReadsAlike (P : Pairing Cursor Cursor) (content content' : Descriptor → Decoding Value) : Prop :=
  ∀ {type : TypeName} {d : Descriptor}, Descriptor.compile s type = .ok d →
    Follows (L.decoders P) (content d) (content' d) L.values (L.decoders P)

/-- Where items of a property are read in the first place, there are as many nodes at least in the second. -/
def Counts (W : Places) (content : Descriptor → Decoding Value) : Prop :=
  ∀ {n : Nat} {owner type : TypeName} {p : Property} {nested : Descriptor} {limit : Nat} {st st' t : Decoder}
    {items : List Value}, Descriptor.compile s type = .ok nested → (L.decoders (W.within n)).linked st st' →
      limit = st.cursor.ahead.length + 1 → readItems content owner p nested limit st = .ok items t →
      items.length ≤ st'.cursor.ahead.length

section
variable {L} {content content' : Descriptor → Decoding Value} {owner type : TypeName} {declared : Descriptor}

/-- An element is read alike in both places. When its end has been found, nothing is lost. -/
theorem follows_readWrapped {one : Element → Element → Prop} {before inside behind : Pairing Cursor Cursor}
    (hcross : Crosses one before inside behind) (hcaptured : ∀ {e e' : Element}, one e e' → e.IsCaptured e')
    (hcontent : L.ReadsAlike inside content content') (htypes : L.ReadsTypes one) (nilable : Bool)
    (hd : Descriptor.compile s type = .ok declared) :
    Follows (L.decoders before) (readWrapped content owner nilable declared)
      (readWrapped content' owner nilable declared) L.values (L.decoders behind) := by
  refine .bind (L.follows_onCursor hcross.expectStart) fun e e' he => ?_
  rw [(hcaptured he).isNil]
  split
  · split
    · exact .bind (L.follows_onCursor hcross.skipToEnd) fun _ _ _ => .pure (L.same _)
    · exact .throw
  · -- The content may lose the first decoder, which then finds no end tag and fails.
    refine .adapt ?_ (L.decoders_implies (Pairing.surely_implies _)) (.refl _)
    refine .bind (htypes hd he) ?_
    rintro runtime _ ⟨rfl, runtimeType, hruntime⟩
    refine .bind (hcontent hruntime) fun v v' hv => ?_
    exact .bind (L.follows_onCursor hcross.finishElement) fun _ _ _ => .pure hv

end

/-! ### Properties -/

section
variable {L} {W : Places} {content content' : Descriptor → Decoding Value}
  (hcontent : ∀ n, L.ReadsAlike (W.within n) content content') (htypes : L.ReadsTypes W.one) (hcounts : L.Counts W content)
  {owner type : TypeName} {declared nested : Descriptor} {p : Property}

include hcontent htypes

/-- Inside an element, another one is read alike in both places. -/
theorem follows_readNested (nilable : Bool) (hd : Descriptor.compile s type = .ok declared) (n : Nat) :
    Follows (L.decoders (W.within n)) (readWrapped content owner nilable declared)
      (readWrapped content' owner nilable declared) L.values (L.decoders (W.within n)) :=
  L.unsure (follows_readWrapped (W.crosses n) W.isCaptured (hcontent (n + 1)) htypes nilable hd)

theorem follows_readSingle (hd : Descriptor.compile s type = .ok nested) (n : Nat) :
    Follows (L.decoders (W.within n)) (readSingle content owner p nested) (readSingle content' owner p nested)
      L.values (L.decoders (W.within n)) := by
  have hwrapped := @follows_readNested s L W content content' hcontent htypes owner type nested p.nilable hd n
  unfold readSingle
  split
  · exact hcontent n hd
  · refine .bind (L.follows_onCursor (W.peekStart n)) fun next next' hnext => ?_
    cases hnext with
    | none => exact .throw
    | some he =>
      dsimp only
      rw [(W.isCaptured he).localName, (W.isCaptured he).isNil]
      split
      · split
        · exact hwrapped
        · exact hcontent n hd
      · split
        · exact hwrapped
        · exact .throw

omit hcontent htypes in
theorem follows_comesNext (p : Property) (n : Nat) :
    Follows (L.decoders (W.within n)) (comesNext p) (comesNext p) Eq (L.decoders (W.within n)) := by
  refine .bind (L.follows_onCursor (W.peekStart n)) fun next next' hnext => ?_
  cases hnext with
  | none => exact .pure rfl
  | some he =>
    dsimp only
    rw [(W.isCaptured he).localName]
    exact L.follows_onRegistry (p.follows_beginsBy (Descriptor.answersAlike_begins _))

/-- Items are read alike in both places, if the second bound is not the lower one. -/
theorem follows_readItems (hd : Descriptor.compile s type = .ok nested) (n : Nat) {limit limit' : Nat}
    (hlimit : limit ≤ limit') :
    Follows (L.decoders (W.within n)) (readItems content owner p nested limit)
      (readItems content' owner p nested limit') (List.Forall₂ L.values) (L.decoders (W.within n)) := by
  induction limit generalizing limit' with
  | zero => exact .throw
  | succ limit ih =>
    obtain ⟨limit', rfl⟩ : ∃ n, limit' = n + 1 := ⟨limit' - 1, by omega⟩
    refine .bind (follows_comesNext p n) ?_
    rintro next _ rfl
    split
    · refine .bind (follows_readSingle hcontent htypes hd n) fun item item' hitem => ?_
      exact .bind (ih (by omega)) fun rest rest' hrest => .pure (.cons hitem hrest)
    · exact .pure .nil

include hcounts

/-- Items are read alike in both places, as many as there are. -/
theorem follows_allItems (hd : Descriptor.compile s type = .ok nested) (n : Nat) :
    Follows (L.decoders (W.within n))
      (do let limit := (← get).cursor.ahead.length + 1; readItems content owner p nested limit)
      (do let limit := (← get).cursor.ahead.length + 1; readItems content' owner p nested limit)
      (List.Forall₂ L.values) (L.decoders (W.within n)) := by
  constructor
  · intro st items t hlost hok
    rw [bind_ok (get_apply st)] at hok
    exact (follows_readItems hcontent htypes hd n (Nat.le_refl _)).stays st items t hlost hok
  · intro st st' items t hlinked hok
    rw [bind_ok (get_apply st)] at hok
    rw [bind_ok (get_apply st')]
    -- One more than the items is enough in the first place, and so is the number of nodes in the second.
    have hleast := readItems_of_length_lt hok (Nat.lt_succ_self items.length)
    have hlimit := Nat.succ_le_succ (hcounts hd hlinked rfl hok)
    exact (follows_readItems hcontent htypes hd n hlimit).follows st st' items t hlinked hleast

theorem follows_readProperty (n : Nat) :
    Follows (L.decoders (W.within n)) (readProperty content owner p) (readProperty content' owner p) L.values
      (L.decoders (W.within n)) := by
  refine .bind (L.follows_descriptor p.type) ?_
  rintro _ nested ⟨rfl, hd⟩
  split
  · have hitems := @follows_allItems s L W content content' hcontent htypes hcounts owner p.type nested p hd n
    simpa only [bind_assoc] using hitems.bind fun items items' h => .pure (L.list h)
  · split
    · refine .bind (follows_comesNext p n) ?_
      rintro next _ rfl
      split
      · exact follows_readSingle hcontent htypes hd n
      · exact .pure (L.same _)
    · exact follows_readSingle hcontent htypes hd n

theorem follows_readProperties (properties : List Property) (n : Nat) :
    Follows (L.decoders (W.within n)) (readProperties content owner properties)
      (readProperties content' owner properties) (fun fields fields' => fields'.names = fields.names ∧
        List.Forall₂ L.values (fields.map (·.2)) (fields'.map (·.2))) (L.decoders (W.within n)) := by
  induction properties with
  | nil => exact .pure ⟨rfl, .nil⟩
  | cons p rest ih =>
    refine .bind (follows_readProperty hcontent htypes hcounts n) fun v v' hv => .bind ih ?_
    rintro fields fields' ⟨hnames, hfields⟩
    exact .pure ⟨congrArg (p.name :: ·) hnames, .cons hv hfields⟩

/-! ### Variants -/

omit hcounts

theorem follows_readVariants {variants : List Variant}
    (hbuild : ∀ variant ∈ variants, ∀ v v', L.values v v' → L.values (variant.build v) (variant.build v'))
    (element : String) (n : Nat) :
    Follows (L.decoders (W.within n)) (readVariants content owner element variants)
      (readVariants content' owner element variants) L.values (L.decoders (W.within n)) := by
  induction variants with
  | nil => exact .throw
  | cons variant rest ih =>
    obtain ⟨hvariant, hrest⟩ := List.forall_mem_cons.1 hbuild
    rw [readVariants, readVariants]
    refine .bind (L.follows_descriptor variant.type) ?_
    rintro nested _ ⟨rfl, hd⟩
    cases variant.dispatch with
    | element name =>
      dsimp only
      split
      · exact .bind (follows_readNested hcontent htypes true hd n) fun v v' hv => .pure (hvariant v v' hv)
      · exact ih hrest
    | inline =>
      refine .bind (L.follows_onRegistry (Descriptor.answersAlike_begins element hd)) ?_
      rintro begins _ rfl
      split
      · exact .bind (hcontent n hd) fun v v' hv => .pure (hvariant v v' hv)
      · exact ih hrest

theorem follows_readChoice {variants : List Variant}
    (hbuild : ∀ variant ∈ variants, ∀ v v', L.values v v' → L.values (variant.build v) (variant.build v')) (n : Nat) :
    Follows (L.decoders (W.within n)) (readChoice content owner variants) (readChoice content' owner variants)
      L.values (L.decoders (W.within n)) := by
  refine .bind (L.follows_onCursor (W.peekStart n)) fun next next' hnext => ?_
  cases hnext with
  | none => exact .throw
  | some he =>
    dsimp only
    rw [(W.isCaptured he).localName]
    exact follows_readVariants hcontent htypes hbuild _ n

end

/-! ### Contents -/

section
variable {L} {W : Places} (htypes : L.ReadsTypes W.one) {context : Context}
include htypes

/-- Where the types inside are read alike, so is the type around them. -/
theorem readsAlike_succ {steps steps' : Nat} (hcounts : L.Counts W (readContent context steps))
    (hcontent : ∀ n, L.ReadsAlike (W.within n) (readContent context steps) (readContent context steps')) (n : Nat) :
    L.ReadsAlike (W.within n) (readContent context (steps + 1)) (readContent context (steps' + 1)) := by
  intro type d hd
  unfold readContent
  cases hshape : d.shape with
  | simple primitive => exact L.follows_readPrimitive W context primitive n
  | sequence properties subtypes isAbstract =>
    dsimp only
    split
    · exact .throw
    · refine .bind (follows_readProperties hcontent htypes hcounts properties n) ?_
      rintro fields fields' ⟨hnames, hfields⟩
      exact .pure (L.object hnames hfields)
  | choice variants =>
    refine follows_readChoice hcontent htypes (fun variant hvariant v v' => L.build hd ?_) n
    rwa [Descriptor.variants, hshape]

/-- **Contents are read alike in both places**, if the second bound is not the lower one. -/
theorem readsAlike_readContent (hcounts : ∀ steps, L.Counts W (readContent context steps)) {steps steps' : Nat}
    (hsteps : steps ≤ steps') (n : Nat) :
    L.ReadsAlike (W.within n) (readContent context steps) (readContent context steps') := by
  induction steps generalizing steps' n with
  | zero => exact fun _ => .throw
  | succ steps ih =>
    obtain ⟨steps', rfl⟩ : ∃ n, steps' = n + 1 := ⟨steps' - 1, by omega⟩
    exact readsAlike_succ htypes (hcounts steps) (fun n => ih (by omega) n) n

end

/-- **An element is read alike in both places.** -/
theorem follows_readElement {one : Element → Element → Prop} {start before inside behind : Pairing Cursor Cursor}
    (hpeek : Follows start Cursor.peekStart Cursor.peekStart (Option.Rel one) before)
    (hcross : Crosses one before inside behind) (hcaptured : ∀ {e e' : Element}, one e e' → e.IsCaptured e')
    (htypes : L.ReadsTypes one) (context : Context)
    (hlost : ∀ st, (L.decoders before).lost st →
      L.ReadsAlike inside (readContent context (depthBound st)) (readContent context (depthBound st)))
    (hcontent : ∀ st st', (L.decoders before).linked st st' →
      L.ReadsAlike inside (readContent context (depthBound st)) (readContent context (depthBound st')))
    (element : String) (type : TypeName) :
    Follows (L.decoders start) (readElement context element type) (readElement context element type) L.values
      (L.decoders behind) := by
  refine .bind (L.follows_descriptor type) ?_
  rintro declared _ ⟨rfl, hd⟩
  refine .bind (L.follows_onCursor hpeek) fun next next' hnext => ?_
  cases hnext with
  | none => exact .throw
  | some he =>
    dsimp only
    rw [(hcaptured he).localName]
    split
    · refine .bind (.get (R := fun st st' =>
        L.ReadsAlike inside (readContent context (depthBound st)) (readContent context (depthBound st')))
        (fun st hst => ⟨st, hlost st hst⟩) hcontent) fun st st' hbelow => ?_
      exact follows_readWrapped hcross hcaptured hbelow htypes true hd
    · exact .throw

end Rereading
end SoapBinding
