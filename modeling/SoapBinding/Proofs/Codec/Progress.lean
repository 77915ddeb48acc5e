import SoapBinding.Codec.Decoding
import SoapBinding.Proofs.Codec.Beginning
import SoapBinding.Proofs.Xml.Facing

/-!
# Reading takes what it accepts

Whenever the next element begins a value of a property, reading the property takes that element at least.
So a repeated property is read in no more rounds than there are nodes, and from one element to the next the
reading goes through types that do not lead back to themselves. Both together bound the steps:

    triple_readContent : … (front ++ nodes).length * chainBound s + (unmet s met).length < steps → …
      Triple (Faces s ending front nodes) (readContent context steps d) (fun _ => Faces s ending none nodes) fault

`front` is the element that is known to come next, if there is one, and `nodes` is what is left behind it. The
`fault` that is ruled out is `Error.endless`; where it is none at all, nothing is asked of the steps.

An element that bears the name of a property counts as its beginning even where the property is content, which
has no element of its own. Such an element is accepted and then not taken, so it may not occur
(`Schema.HasNoContentNames`).
-/

namespace SoapBinding

open Outcome Xml

/-- No element among the nodes bears the name of a property that is content, unless the property is of a
choice type. -/
def Schema.HasNoContentNames (s : Schema) (root : TypeName) (nodes : List Node) : Prop :=
  ∀ type d p nested, s.Reaches root type → Descriptor.compile s type = .ok d → p ∈ d.properties →
    p.content = true → Descriptor.compile s p.type = .ok nested → nested.isChoice = false →
    ∀ e, Node.start e ∈ nodes → e.localName ≠ p.name

/-- Whether no element among the nodes bears the name of a property of a type that is content. -/
def Descriptor.avoids (nodes : List Node) (d : Descriptor) : Bool :=
  d.properties.all fun p => !p.content || nodes.all fun
    | .start e => e.localName ≠ p.name
    | _ => true

theorem Schema.hasNoContentNames_of_avoids {s : Schema} {root : TypeName} {nodes : List Node}
    (h : s.types.all (fun t => (Descriptor.compile s t.1).toOption.all (Descriptor.avoids nodes)) = true) :
    s.HasNoContentNames root nodes := by
  intro type d p nested _ hd hp hcontent _ _ e he
  rcases Descriptor.check_of_all h hd with ⟨primitive, hshape⟩ | havoids
  · rw [Descriptor.properties, hshape] at hp
    cases hp
  · have hnodes := List.all_eq_true.1 havoids p hp
    rw [hcontent, Bool.not_true, Bool.false_or] at hnodes
    simpa using List.all_eq_true.1 hnodes _ he

namespace Decoding

variable {s : Schema} {α : Type} {ending : Ending} {fault : Error → Prop} {front : Option Element}
  {nodes rest : List Node} {st : Decoder}

/-- A decoder over the schema has moved on to the nodes given, or stands in front of an element that they are
behind. -/
def Faces (s : Schema) (ending : Ending) (front : Option Element) (nodes : List Node) (st : Decoder) : Prop :=
  st.registry.Over s ∧ st.cursor.Faces ending front nodes

theorem Faces.mono (h : Faces s ending none rest st) (hrest : rest <:+ nodes) : Faces s ending none nodes st :=
  ⟨h.1, h.2.mono hrest⟩

/-! ### Work on the parts of a decoder -/

theorem triple_onCursor {work : Reading α} {pre : Cursor → Prop} {post : α → Cursor → Prop}
    (h : Triple pre work post fault) :
    Triple (fun st => st.registry.Over s ∧ pre st.cursor) (onCursor work)
      (fun a st => st.registry.Over s ∧ post a st.cursor) fault := by
  rintro st ⟨hover, hpre⟩
  obtain ⟨hok, herror⟩ := h st.cursor hpre
  unfold onCursor
  cases hwork : work st.cursor with
  | ok a c =>
    exact Triple.of_ok ⟨hover, hok a c hwork⟩
  | error e c =>
    exact Triple.of_error (herror e c hwork)

theorem triple_onRegistry {work : Typed α} {P : α → Prop} {at' : Cursor → Prop}
    (h : Triple (Registry.Over s) work (fun a r => r.Over s ∧ P a) fault) :
    Triple (fun st => st.registry.Over s ∧ at' st.cursor) (onRegistry work)
      (fun a st => (st.registry.Over s ∧ at' st.cursor) ∧ P a) fault := by
  rintro st ⟨hover, hat⟩
  obtain ⟨hok, herror⟩ := h st.registry hover
  unfold onRegistry
  cases hwork : work st.registry with
  | ok a r =>
    refine Triple.of_ok ?_
    obtain ⟨hover', hP⟩ := hok a r hwork
    exact ⟨⟨hover', hat⟩, hP⟩
  | error e r =>
    exact Triple.of_error (herror e r hwork)

theorem triple_descriptor (hf : Cursor.IsEndless ending fault) (type : TypeName) :
    Triple (Faces s ending front nodes) (descriptor type)
      (fun d st => Faces s ending front nodes st ∧ Descriptor.compile s type = .ok d) fault :=
  triple_onRegistry (Registry.triple_descriptor fun _ _ he => nomatch hf.only _ he)

/-! ### Leaves -/

/-- What is true of a cursor, and stays true while a leaf is read. Malformed content and attachments that are missing are
no faults. -/
structure KeepsLeaves (inv : Cursor → Prop) (fault : Error → Prop) : Prop where
  foldText : ∀ {σ : Type} (f : σ → String → Except Error σ) (a : σ), (∀ a t e, f a t = .error e → ¬fault e) →
    Triple inv (Cursor.foldText f a) (fun _ => inv) fault
  peek : Triple inv Cursor.peek (fun _ => inv) fault
  skipBlankText : Triple inv skipBlankText (fun _ => inv) fault
  skipElement : Triple inv Cursor.skipElement (fun _ => inv) fault
  content : ∀ f, ¬fault (.content f)
  attachment : ∀ f, ¬fault (.attachment f)

section
variable {inv : Cursor → Prop} (hkeeps : KeepsLeaves inv fault)

/-- A decoder over the schema, with a cursor of which something is true. -/
def Meets (s : Schema) (inv : Cursor → Prop) (st : Decoder) : Prop := st.registry.Over s ∧ inv st.cursor

include hkeeps

theorem triple_readReference (context : Context) (reference : String) :
    Triple (Meets s inv) (readReference context reference) (fun _ => Meets s inv) fault := by
  unfold readReference
  cases h : resolve context reference with
  | ok b => exact Triple.pure fun _ hst => hst
  | error e =>
    unfold resolve Context.resolve at h
    dsimp only at h
    split at h <;> cases h
    exact Triple.throw (hkeeps.attachment _)

theorem triple_readBase64 : Triple (Meets s inv) readBase64 (fun _ => Meets s inv) fault := by
  have hpush (d : Base64.Decoder) (t : String) (e : Error)
      (h : ((d.push t.toList).mapError fun fault => Error.content (.base64 fault)) = .error e) : ¬fault e := by
    cases hd : d.push t.toList with
    | ok _ =>
      rw [hd] at h
      cases h
    | error _ =>
      rw [hd] at h
      cases h
      exact hkeeps.content _
  apply Triple.bind (triple_onCursor (hkeeps.foldText _ _ hpush))
  intro decoder
  cases decoder.finish with
  | ok bytes =>
    have hfresh : Triple (Meets s inv) (freshBinary bytes) (fun _ => Meets s inv) fault := by
      intro st hst
      exact Triple.of_ok hst
    exact Triple.bind hfresh fun b => Triple.pure fun _ hst => hst
  | error _ => exact Triple.throw (hkeeps.content _)

theorem triple_readBinary (context : Context) :
    Triple (Meets s inv) (readBinary context) (fun _ => Meets s inv) fault := by
  apply Triple.bind Triple.get
  intro st
  apply Triple.mono _ (fun _ h => h.2) fun _ _ h => h
  split
  · exact triple_readReference hkeeps context _
  · apply Triple.bind (triple_onCursor hkeeps.skipBlankText)
    intro _
    apply Triple.bind (triple_onCursor hkeeps.peek)
    intro node
    split
    · next e =>
      split
      · next fault' h =>
        unfold includedReference at h
        split at h
        · cases h
          exact Triple.throw (hkeeps.content _)
        · split at h <;> cases h
          exact Triple.throw (hkeeps.attachment _)
      · apply Triple.bind (triple_onCursor hkeeps.skipElement)
        intro _
        exact triple_readReference hkeeps context _
    · exact triple_readBase64 hkeeps

/-- Reading a leaf keeps what is true of the cursor. -/
theorem triple_readPrimitive (context : Context) (primitive : Primitive) :
    Triple (Meets s inv) (readPrimitive context primitive) (fun _ => Meets s inv) fault := by
  cases primitive with
  | base64Binary => exact triple_readBinary hkeeps context
  | text type =>
    apply Triple.bind Triple.get
    intro st
    apply Triple.mono _ (fun _ h => h.2) fun _ _ h => h
    apply Triple.bind (triple_onCursor (hkeeps.foldText _ _ (by rintro _ _ _ ⟨⟩)))
    intro text
    cases type.parse text with
    | ok v => exact Triple.pure fun _ hst => hst
    | error _ => exact Triple.throw (hkeeps.content _)

end

/-- Reading a leaf only moves on. -/
theorem keepsLeaves_faces (hf : Cursor.IsEndless ending fault) : KeepsLeaves (Cursor.Faces ending none nodes) fault where
  foldText f a hstep := Cursor.triple_foldText hf hstep
  peek := Cursor.triple_peek hf
  skipBlankText := by
    intro c hc
    exact Triple.of_ok ⟨hc.ending_eq, (List.dropWhile_suffix _).trans hc.ahead, fun hnone => absurd rfl hnone⟩
  skipElement := Cursor.triple_skipElement hf
  content _ := hf.not_fault (by simp)
  attachment _ := hf.not_fault (by simp)

/-! ### What is asked of the content of types -/

/-- An element can begin the content of a type: that of a choice is refused where it does not. -/
def MayBegin (s : Schema) (d : Descriptor) (e : Element) : Prop :=
  d.isChoice = true ∨ s.TypeBegins e.localName d

/-- Reading the content of a type moves on, past the element known to come next if there is one. -/
def Passes (s : Schema) (ending : Ending) (fault : Error → Prop) (content : Descriptor → Decoding Value)
    (d : Descriptor) (front : Option Element) (nodes : List Node) : Prop :=
  Triple (Faces s ending front nodes) (content d) (fun _ => Faces s ending none nodes) fault

/-- Reading the content of types moves on within fewer nodes than `bound` of a document. -/
def PassesBelow (s : Schema) (ending : Ending) (fault : Error → Prop) (root : TypeName) (document : List Node)
    (content : Descriptor → Decoding Value) (bound : Nat) : Prop :=
  ∀ type d nodes, s.Reaches root type → Descriptor.compile s type = .ok d → nodes <:+ document →
    nodes.length < bound → Passes s ending fault content d none nodes

/-- What the content of a type may rely on when it is read from no more than `bound` nodes of a document: the
content of types that stand in it without an element in between, and in less of the document, of all types. -/
structure Inner (s : Schema) (ending : Ending) (fault : Error → Prop) (root : TypeName) (document : List Node)
    (content : Descriptor → Decoding Value) (type : TypeName) (bound : Nat) : Prop where
  nested : ∀ {inner d front nodes}, s.Nests type inner → Descriptor.compile s inner = .ok d →
    Cursor.facing front nodes <:+ document → (Cursor.facing front nodes).length ≤ bound →
    (∀ e ∈ front, MayBegin s d e) → Passes s ending fault content d front nodes
  below : PassesBelow s ending fault root document content bound

variable {root : TypeName} {document : List Node} {content : Descriptor → Decoding Value} {d nested : Descriptor}
  {bound : Nat} {owner : TypeName} {nilable : Bool} {p : Property} {e : Element}

/-- The next element is read as the declared type or as one of its subtypes, and it is taken. -/
theorem triple_readWrapped (hf : Cursor.IsEndless ending fault)
    (hbelow : PassesBelow s ending fault root document content bound) {type : TypeName}
    (hreach : s.Reaches root type) (hd : Descriptor.compile s type = .ok d)
    (hdocument : Cursor.facing front nodes <:+ document) (hbound : (Cursor.facing front nodes).length ≤ bound) :
    Triple (Faces s ending front nodes) (readWrapped content owner nilable d)
      (fun _ => Faces s ending none nodes) fault := by
  apply Triple.bind (triple_onCursor (Cursor.triple_expectStart hf))
  intro e
  refine Triple.obtain (fun st ⟨hover, rest, hfaces, h⟩ => ⟨rest, (⟨hover, hfaces⟩ : Faces s ending none rest st), h⟩) ?_
  rintro rest ⟨hsuffix, hrest⟩
  refine Triple.mono ?_ (fun _ h => h) fun _ _ h => Faces.mono h hrest
  have hshort : rest.length < bound := by
    have := hsuffix.length_le
    rw [Cursor.facing_some, List.length_cons] at this
    omega
  have hrestdoc : rest <:+ document := ((List.suffix_cons _ _).trans hsuffix).trans hdocument
  apply Triple.ite
  · intro _
    apply Triple.ite
    · intro _
      apply Triple.bind (triple_onCursor (Cursor.triple_skipToEnd hf))
      intro _
      exact Triple.pure fun _ h => h
    · intro _
      exact Triple.throw (hf.not_fault (by simp))
  · intro _
    have hruntime : Triple (Faces s ending none rest) (runtimeType d e)
        (fun found st => Faces s ending none rest st ∧
          ∃ u, s.Reaches root u ∧ Descriptor.compile s u = .ok found) fault := by
      unfold runtimeType
      split
      · exact Triple.pure fun _ hst => ⟨hst, type, hreach, hd⟩
      · apply Triple.ite
        · intro _
          exact Triple.pure fun _ hst => ⟨hst, type, hreach, hd⟩
        · intro _
          split
          · next u hfind =>
            have hmem : u ∈ d.subtypes := List.mem_of_find?_eq_some hfind
            refine (triple_descriptor hf u).mono (fun _ h => h) fun found st ⟨hst, hfound⟩ => ?_
            exact ⟨hst, u, .step hreach hd (Descriptor.mem_parts_of_subtype hmem), hfound⟩
          · exact Triple.throw (hf.not_fault (by simp))
    apply Triple.bind hruntime
    intro found
    apply Triple.given
    rintro ⟨u, hu, hfound⟩
    apply Triple.bind (hbelow u found rest hu hfound hrestdoc hshort)
    intro value
    apply Triple.bind (triple_onCursor (Cursor.triple_finishElement hf))
    intro _
    exact Triple.pure fun _ h => h

/-! ### Properties -/

/-- The element that comes next, found by looking ahead. -/
theorem triple_peekStart (hf : Cursor.IsEndless ending fault) :
    Triple (Faces s ending front nodes) (onCursor Cursor.peekStart)
      (fun found st => (found = none → Faces s ending none nodes st) ∧
        ∀ e ∈ found, ∃ rest, Faces s ending (some e) rest st ∧
          (Cursor.facing (some e) rest <:+ Cursor.facing front nodes ∧ rest <:+ nodes ∧ ∀ known ∈ front, known = e))
      fault := by
  refine (triple_onCursor (Cursor.triple_peekStart hf)).mono (fun _ h => h) ?_
  rintro found st ⟨hover, hnone, hsome⟩
  refine ⟨fun h => ⟨hover, hnone h⟩, fun e he => ?_⟩
  obtain ⟨rest, hfaces, h⟩ := hsome e he
  exact ⟨rest, ⟨hover, hfaces⟩, h⟩

section
variable (hf : Cursor.IsEndless ending fault) (hin : Inner s ending fault root document content d.name bound)
  (hd : Descriptor.compile s d.name = .ok d) (hreach : s.Reaches root d.name)
  (hnames : s.HasNoContentNames root document)

include hf hin hd hreach hnames

/-- **A value of a property takes the element that begins it.** -/
theorem triple_readSingle (hp : p ∈ d.properties) (hnested : Descriptor.compile s p.type = .ok nested)
    (hdocument : Cursor.facing front nodes <:+ document) (hbound : (Cursor.facing front nodes).length ≤ bound)
    (hbegins : ∀ e ∈ front, s.PropertyBegins e.localName p) :
    Triple (Faces s ending front nodes) (readSingle content d.name p nested)
      (fun _ => Faces s ending none nodes) fault := by
  have hpart : s.Reaches root p.type := .step hreach hd (Descriptor.mem_parts_of_property hp)
  unfold readSingle
  apply Triple.ite
  · -- The property is content: its type begins with the element, since the element does not bear its name.
    intro hcontent
    simp only [Bool.and_eq_true, Bool.not_eq_true'] at hcontent
    apply hin.nested (.property hd hp hnested (by simp [hcontent.1])) hnested hdocument hbound
    rintro e ⟨⟩
    have hmem : Node.start e ∈ document := hdocument.subset (by simp)
    rcases hbegins e rfl with hname | ⟨hd', -, hbegins⟩
    · exact absurd hname (hnames d.name d p nested hreach hd hp hcontent.1 hnested hcontent.2 e hmem)
    · rw [hnested] at hd'
      cases hd'
      exact .inr hbegins
  · intro _
    apply Triple.bind (triple_peekStart hf)
    rintro (_ | e)
    · exact Triple.throw (hf.not_fault (by simp))
    · refine Triple.obtain (fun st h => h.2 e rfl) ?_
      rintro rest ⟨hsuffix, hrest, -⟩
      refine Triple.mono ?_ (fun _ h => h) fun _ _ h => Faces.mono h hrest
      have hdocument' := hsuffix.trans hdocument
      have hbound' := Nat.le_trans hsuffix.length_le hbound
      have hwrapped : Triple (Faces s ending (some e) rest) (readWrapped content d.name p.nilable nested)
          (fun _ => Faces s ending none rest) fault :=
        triple_readWrapped hf hin.below hpart hnested hdocument' hbound'
      apply Triple.ite
      · intro hchoice
        apply Triple.ite
        · exact fun _ => hwrapped
        · intro _
          apply hin.nested (.property hd hp hnested (by simp [hchoice])) hnested hdocument' hbound'
          exact fun _ _ => .inl hchoice
      · intro _
        apply Triple.ite
        · exact fun _ => hwrapped
        · intro _
          exact Triple.throw (hf.not_fault (by simp))

omit hnames hin in
/-- Looking ahead finds the element that comes next, if it begins a value of the property. -/
theorem triple_comesNext (hg : fault .endless → s.IsGrounded root) (hp : p ∈ d.properties)
    (hbegins : ∀ e ∈ front, s.PropertyBegins e.localName p) :
    Triple (Faces s ending front nodes) (comesNext p)
      (fun comes st => (comes = false → Faces s ending none nodes st) ∧
        (comes = true → ∃ found : Element × List Node, Faces s ending (some found.1) found.2 st ∧
          (Cursor.facing (some found.1) found.2 <:+ Cursor.facing front nodes ∧ found.2 <:+ nodes ∧
            s.PropertyBegins found.1.localName p))) fault := by
  have hpart : s.Reaches root p.type := .step hreach hd (Descriptor.mem_parts_of_property hp)
  unfold comesNext
  apply Triple.bind (triple_peekStart hf)
  rintro (_ | e)
  · exact Triple.pure fun st h => ⟨fun _ => h.1 rfl, fun h => (nomatch h)⟩
  · refine Triple.obtain (fun st h => h.2 e rfl) ?_
    rintro rest ⟨hsuffix, hrest, hknown⟩
    have hmatch : Triple (Registry.Over s) (p.begins e.localName)
        (fun b r => r.Over s ∧ (b = true ↔ s.PropertyBegins e.localName p)) fault :=
      triple_property_begins (Schema.excuses_of_endless hf.only) fun he => (hg he).part hpart
    refine (triple_onRegistry hmatch).mono (fun _ h => h) ?_
    rintro comes st ⟨hst, hiff⟩
    refine ⟨?_, fun hcomes => ⟨(e, rest), hst, hsuffix, hrest, hiff.1 hcomes⟩⟩
    intro hcomes
    cases front with
    | none =>
      have hfaces : Cursor.Faces ending none (.start e :: rest) st.cursor := hst.2.loosen
      exact ⟨hst.1, hfaces.mono hsuffix⟩
    | some known =>
      -- An element that is known to come next begins a value, and that has been found out.
      obtain rfl := hknown known rfl
      rw [hiff.2 (hbegins known rfl)] at hcomes
      cases hcomes

/-- Each round takes an element, so there are fewer rounds than nodes. -/
theorem triple_readItems (hg : fault .endless → s.IsGrounded root) (hp : p ∈ d.properties)
    (hnested : Descriptor.compile s p.type = .ok nested) {limit : Nat}
    (hdocument : Cursor.facing front nodes <:+ document) (hbound : (Cursor.facing front nodes).length ≤ bound)
    (hlimit : fault .endless → (Cursor.facing front nodes).length < limit)
    (hbegins : ∀ e ∈ front, s.PropertyBegins e.localName p) :
    Triple (Faces s ending front nodes) (readItems content d.name p nested limit)
      (fun _ => Faces s ending none nodes) fault := by
  induction limit generalizing front nodes with
  | zero => exact Triple.throw fun he => Nat.not_lt_zero _ (hlimit he)
  | succ limit ih =>
    apply Triple.bind (triple_comesNext hf hd hreach hg hp hbegins)
    rintro (_ | _)
    · exact Triple.pure fun _ h => h.1 rfl
    · refine Triple.obtain (fun st h => h.2 rfl) ?_
      rintro ⟨e, rest⟩ ⟨hsuffix, hrest, hbegins'⟩
      refine Triple.mono ?_ (fun _ h => h) fun _ _ h => Faces.mono h hrest
      have hshort := hsuffix.length_le
      simp only [Cursor.facing_some, List.length_cons] at hshort
      have hrestdoc : rest <:+ document := ((List.suffix_cons _ _).trans hsuffix).trans hdocument
      apply Triple.bind (triple_readSingle hf hin hd hreach hnames hp hnested (hsuffix.trans hdocument)
        (Nat.le_trans hsuffix.length_le hbound) fun _ h => by cases h; exact hbegins')
      intro item
      have hrounds := @ih none rest hrestdoc (by simp; omega)
        (fun he => by have := hlimit he; simp; omega) (fun _ h => (nomatch h))
      apply Triple.bind hrounds
      intro items
      exact Triple.pure fun _ h => h

theorem triple_readProperty (hg : fault .endless → s.IsGrounded root) (hp : p ∈ d.properties)
    (hdocument : Cursor.facing front nodes <:+ document) (hbound : (Cursor.facing front nodes).length ≤ bound)
    (hbegins : ∀ e ∈ front, s.PropertyBegins e.localName p) :
    Triple (Faces s ending front nodes) (readProperty content d.name p)
      (fun _ => Faces s ending none nodes) fault := by
  apply Triple.bind (triple_descriptor hf p.type)
  intro nested
  apply Triple.given
  intro hnested
  apply Triple.ite
  · intro _
    apply Triple.bind Triple.get
    -- The limit is told by the nodes that are really ahead.
    rintro st _ ⟨rfl, hst⟩
    obtain ⟨rest, hrest, hahead, hfaces⟩ := hst.2.tighten
    have hsuffix : Cursor.facing front rest <:+ Cursor.facing front nodes := by
      rw [← hahead]
      exact hst.2.ahead
    have hitems : Triple (Faces s ending front rest)
        (readItems content d.name p nested (st.cursor.ahead.length + 1)) (fun _ => Faces s ending none rest) fault :=
      triple_readItems hf hin hd hreach hnames hg hp hnested (hsuffix.trans hdocument)
        (Nat.le_trans hsuffix.length_le hbound) (fun _ => by rw [hahead]; omega) hbegins
    have hlist : Triple (Faces s ending front rest)
        (readItems content d.name p nested (st.cursor.ahead.length + 1) >>= fun items => pure (Value.list items))
        (fun _ => Faces s ending none nodes) fault :=
      Triple.bind hitems fun items => Triple.pure fun _ h => Faces.mono h hrest
    exact hlist st ⟨hst.1, hfaces⟩
  · intro _
    apply Triple.ite
    · intro _
      apply Triple.bind (triple_comesNext hf hd hreach hg hp hbegins)
      rintro (_ | _)
      · exact Triple.pure fun _ h => h.1 rfl
      · refine Triple.obtain (fun st h => h.2 rfl) ?_
        rintro ⟨e, rest⟩ ⟨hsuffix, hrest, hbegins'⟩
        have hsingle := triple_readSingle hf hin hd hreach hnames hp hnested (hsuffix.trans hdocument)
          (Nat.le_trans hsuffix.length_le hbound) fun _ h => by cases h; exact hbegins'
        exact hsingle.mono (fun _ h => h) fun _ _ h => Faces.mono h hrest
    · intro _
      exact triple_readSingle hf hin hd hreach hnames hp hnested hdocument hbound hbegins

/-- The first property takes the element known to come next, and the others go on from there. -/
theorem triple_readProperties (hg : fault .endless → s.IsGrounded root) {properties : List Property}
    (hp : ∀ p ∈ properties, p ∈ d.properties)
    (hdocument : Cursor.facing front nodes <:+ document) (hbound : (Cursor.facing front nodes).length ≤ bound)
    (hbegins : ∀ e ∈ front, ∃ p ∈ properties.head?, s.PropertyBegins e.localName p) :
    Triple (Faces s ending front nodes) (readProperties content d.name properties)
      (fun _ => Faces s ending none nodes) fault := by
  induction properties generalizing front with
  | nil =>
    cases front with
    | none => exact Triple.pure fun _ h => h
    | some e =>
      obtain ⟨p, hmem, -⟩ := hbegins e rfl
      cases hmem
  | cons p properties ih =>
    have hfirst (e : Element) (he : e ∈ front) : s.PropertyBegins e.localName p := by
      obtain ⟨q, ⟨⟩, h⟩ := hbegins e he
      exact h
    have hless : nodes <:+ Cursor.facing front nodes := List.suffix_append _ _
    apply Triple.bind (triple_readProperty hf hin hd hreach hnames hg (hp p List.mem_cons_self) hdocument hbound
      hfirst)
    intro value
    apply Triple.bind (@ih none (fun q hq => hp q (List.mem_cons_of_mem p hq)) (hless.trans hdocument)
      (Nat.le_trans hless.length_le hbound) fun _ h => (nomatch h))
    intro fields
    exact Triple.pure fun _ h => h

/-! ### Variants -/

omit hnames in
/-- A choice takes the element that comes next, or it is refused. -/
theorem triple_readVariants (hg : fault .endless → s.IsGrounded root) {variants : List Variant}
    (hv : ∀ v ∈ variants, v ∈ d.variants)
    (hdocument : Cursor.facing (some e) rest <:+ document) (hbound : (Cursor.facing (some e) rest).length ≤ bound) :
    Triple (Faces s ending (some e) rest) (readVariants content d.name e.localName variants)
      (fun _ => Faces s ending none rest) fault := by
  induction variants with
  | nil => exact Triple.throw (hf.not_fault (by simp))
  | cons v variants ih =>
    have hothers := ih fun w hw => hv w (List.mem_cons_of_mem v hw)
    have hmem := hv v List.mem_cons_self
    have hpart : s.Reaches root v.type := .step hreach hd (Descriptor.mem_parts_of_variant hmem)
    apply Triple.bind (triple_descriptor hf v.type)
    intro nested
    apply Triple.given
    intro hnested
    cases hdispatch : v.dispatch with
    | element name =>
      apply Triple.ite
      · intro _
        apply Triple.bind (triple_readWrapped hf hin.below hpart hnested hdocument hbound)
        intro value
        exact Triple.pure fun _ h => h
      · exact fun _ => hothers
    | inline =>
      have hname := Descriptor.name_of_compile hnested
      have hmatch : Answers s e.localName fault (Descriptor.begins e.localName) nested :=
        triple_begins (Schema.excuses_of_endless hf.only) (fun he => hname ▸ (hg he).part hpart) (hname ▸ hnested)
      apply Triple.bind (triple_onRegistry hmatch)
      intro begins
      apply Triple.given
      intro hbegins
      apply Triple.ite
      · intro htrue
        apply Triple.bind (hin.nested (.variant hd hmem hdispatch) hnested hdocument hbound fun _ h => by
          cases h
          exact .inr (hbegins.1 htrue))
        intro value
        exact Triple.pure fun _ h => h
      · exact fun _ => hothers

end

end Decoding
end SoapBinding
