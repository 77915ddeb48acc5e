import SoapBinding.Proofs.Codec.Children
import SoapBinding.Proofs.Codec.Rows

/-!
# Values in front of others

A value with no element around it is read up to where the reader finds nothing more of it. Alone that is the end of the element
around; in front of other children it is the first that does not go on with the value (`Schema.GoesOn`). So what is read from
some children alone is read from them in front of others too, if the next one does not go on with it:

    goesAlong_readContent : … GoesAlong … (readContent context steps d) (readContent context steps' d)

Two readers go through the same children side by side, the second of which has more behind them (`Alongside`). They find the
same until no child is left. There the first finds the end tag, and the second a child which no property in question begins
with; both take it for the end of what they read.
-/

namespace SoapBinding

open Outcome
open Xml (Cursor Element Node)

/-- Where no child is left, a reader does without an element of a property: there may be none of it, or it is a sequence whose
elements stand in the place of its own, and none of them has to be there. -/
def Schema.MayMiss (s : Schema) (p : Property) : Prop :=
  (p.repeated || p.optional) = true ∨ p.content = true ∧ ∃ d, Descriptor.compile s p.type = .ok d ∧ d.isChoice = false

/-- Nothing has to be taken for a property: there may be none of it, or its values stand in no element of their own. -/
def Schema.MayPassBy (s : Schema) (p : Property) : Prop :=
  (p.repeated || p.optional) = true ∨ ∃ d, Descriptor.compile s p.type = .ok d ∧ (d.isChoice || p.content) = true

/-- An element of a name behind a value, which stands in no element of its own, is read as a part of it: as the value of a
property that may be missing at the end, or as one more item. -/
inductive Schema.GoesOn (s : Schema) (name : String) : Descriptor → Prop where
  | missing {type : TypeName} {front behind : List Property} {p : Property} {subtypes : List TypeName} {isAbstract : Bool} :
      (p.repeated || p.optional) = true → s.PropertyBegins name p → (∀ q ∈ behind, s.MayMiss q) →
      GoesOn s name ⟨type, .sequence (front ++ p :: behind) subtypes isAbstract⟩
  | last {type : TypeName} {front behind : List Property} {p : Property} {d : Descriptor} {subtypes : List TypeName}
      {isAbstract : Bool} : Descriptor.compile s p.type = .ok d → (d.isChoice || p.content) = true → GoesOn s name d →
      (∀ q ∈ behind, s.MayMiss q) → GoesOn s name ⟨type, .sequence (front ++ p :: behind) subtypes isAbstract⟩
  | variant {type : TypeName} {variants : List Variant} {v : Variant} {d : Descriptor} : v ∈ variants →
      v.dispatch = .inline → Descriptor.compile s v.type = .ok d → GoesOn s name d → GoesOn s name ⟨type, .choice variants⟩

/-- An element of a name behind a single value of a property is read as a part of it. -/
def Schema.SingleGoesOn (s : Schema) (name : String) (p : Property) : Prop :=
  ∃ d, Descriptor.compile s p.type = .ok d ∧ (d.isChoice || p.content) = true ∧ s.GoesOn name d

/-- An element of a name behind the field of a property is read as a part of it. -/
def Schema.FieldGoesOn (s : Schema) (name : String) (p : Property) : Prop :=
  (p.repeated || p.optional) = true ∧ s.PropertyBegins name p ∨ s.SingleGoesOn name p

/-- An element of a name behind the fields of some properties is read as a part of one, with those behind it missing. -/
def Schema.FieldsGoOn (s : Schema) (name : String) (ps : List Property) : Prop :=
  ∃ front p behind, ps = front ++ p :: behind ∧ s.FieldGoesOn name p ∧ ∀ q ∈ behind, s.MayMiss q

/-- An element of a name may come first of those of a property: it begins a value, or it stands in the sequence in the place of
one, with nothing taken in front of it. -/
inductive Schema.MayLead (s : Schema) (name : String) : Property → Prop where
  | begins {p : Property} : s.PropertyBegins name p → MayLead s name p
  | behind {p q : Property} {d : Descriptor} {front behind : List Property} : p.content = true →
      Descriptor.compile s p.type = .ok d → d.properties = front ++ q :: behind → (∀ r ∈ front, s.MayPassBy r) →
      MayLead s name q → MayLead s name p

/-- An element of a name may come first of those of some properties. -/
def Schema.FieldsMayLead (s : Schema) (name : String) (ps : List Property) : Prop :=
  ∃ front q behind, ps = front ++ q :: behind ∧ (∀ r ∈ front, s.MayPassBy r) ∧ s.MayLead name q

/-- An element of a name may come first of those of a value with no element around it. -/
def Schema.ContentMayLead (s : Schema) (name : String) (d : Descriptor) : Prop :=
  s.TypeBegins name d ∨ s.FieldsMayLead name d.properties

section
variable {s : Schema} {p : Property} {ps : List Property} {nested d : Descriptor} {type : TypeName} {r : Registry}
  {name : String}

theorem Schema.FieldsGoOn.goesOn {subtypes : List TypeName} {isAbstract : Bool} (h : s.FieldsGoOn name ps) :
    s.GoesOn name ⟨type, .sequence ps subtypes isAbstract⟩ := by
  obtain ⟨front, p, behind, rfl, ⟨hmissing, hbegins⟩ | ⟨d, hd, hbare, hgoes⟩, hbehind⟩ := h
  · exact .missing hmissing hbegins hbehind
  · exact .last hd hbare hgoes hbehind

theorem Schema.FieldsGoOn.cons (h : s.FieldsGoOn name ps) : s.FieldsGoOn name (p :: ps) := by
  obtain ⟨front, q, behind, rfl, hgoes, hbehind⟩ := h
  exact ⟨p :: front, q, behind, rfl, hgoes, hbehind⟩

theorem Schema.FieldsMayLead.cons (hp : s.MayPassBy p) (h : s.FieldsMayLead name ps) : s.FieldsMayLead name (p :: ps) := by
  obtain ⟨front, q, behind, rfl, hfront, hq⟩ := h
  exact ⟨p :: front, q, behind, rfl, List.forall_mem_cons.2 ⟨hp, hfront⟩, hq⟩

/-- What comes first of a value that stands in the place of an element comes first of its property. -/
theorem Schema.ContentMayLead.mayLead (hp : p.IsElemental s nested) (hbare : (nested.isChoice || p.content) = true)
    (h : s.ContentMayLead name nested) : s.MayLead name p := by
  obtain hbegins | ⟨front, q, behind, heq, hfront, hq⟩ := h
  · exact .begins (.nested hp.compile hbare hbegins)
  · cases hcontent : p.content with
    | true => exact .behind hcontent hp.compile heq hfront hq
    | false =>
      -- A choice has no properties.
      rw [hcontent, Bool.or_false] at hbare
      obtain ⟨type, shape⟩ := nested
      cases shape with
      | choice variants => exact absurd heq (by simp [Descriptor.properties])
      | simple | sequence => cases hbare

/-- Where values stand in elements of the property's own, only those are its elements. -/
theorem Decoding.IsWrapped.eq_of_begins (hp : IsWrapped s p nested) (h : s.PropertyBegins name p) : name = p.name := by
  cases h with
  | named h => exact h
  | nested hd hbare =>
    rw [hp.compile] at hd
    cases hd
    simp [hp.not_choice, hp.not_content] at hbare

theorem Decoding.IsWrapped.eq_of_mayLead (hp : IsWrapped s p nested) (h : s.MayLead name p) : name = p.name := by
  cases h with
  | begins h => exact hp.eq_of_begins h
  | behind hcontent => exact absurd (hp.not_content.symm.trans hcontent) Bool.false_ne_true

theorem Decoding.IsWrapped.not_singleGoesOn (hp : IsWrapped s p nested) : ¬s.SingleGoesOn name p := by
  rintro ⟨d, hd, hbare, -⟩
  rw [hp.compile] at hd
  cases hd
  simp [hp.not_choice, hp.not_content] at hbare

theorem Decoding.IsWrapped.eq_of_goesOn (hp : IsWrapped s p nested) (h : s.FieldGoesOn name p) : name = p.name :=
  hp.eq_of_begins (h.resolve_right hp.not_singleGoesOn).2

theorem Decoding.IsWrapped.isElemental (hp : IsWrapped s p nested) : p.IsElemental s nested :=
  ⟨hp.compile, fun hbare => by simp [hp.not_choice, hp.not_content] at hbare⟩

/-! ### What comes next -/

/-- It is told whether an element begins a value. -/
theorem Schema.IsElemental.begins_ok (h : s.IsElemental type) (hd : Descriptor.compile s type = .ok d) (name : String)
    (hover : r.Over s) : ∃ answer r', d.begins name r = .ok answer r' ∧ r'.Over s ∧ (answer = true ↔ s.TypeBegins name d) := by
  obtain ⟨answer, r', hok⟩ := h.answers type d name r .refl hd hover
  exact ⟨answer, r', hok, ensures_begins name hd r answer r' hover hok⟩

/-- It is told where no type leads back to itself with no element in between. -/
theorem Schema.IsGrounded.isElemental (h : s.IsGrounded type)
    (hcompiles : ∀ type', s.Reaches type type' → ∃ d, Descriptor.compile s type' = .ok d)
    (hsimple : ∀ type' d, Relation.ReflTransGen s.Nests type type' → Descriptor.compile s type' = .ok d →
      ∀ primitive, d.shape ≠ .simple primitive) : s.IsElemental type := by
  refine ⟨hcompiles, fun type' d name r hinner hd hover => ?_, hsimple⟩
  have hreach : s.Reaches type type' := Schema.Reaches.refl.nests hinner
  obtain rfl := Descriptor.name_of_compile hd
  have hexcuses : s.Excuses d.name (fun _ => True) := by
    intro type' fault hinside herror
    obtain ⟨d', hd'⟩ := hcompiles type' (hinside.trans hreach)
    rw [herror] at hd'
    cases hd'
  have hanswers : Answers s name (fun _ => True) (Descriptor.begins name) d :=
    triple_begins hexcuses (fun _ => h.part hreach) hd
  obtain ⟨answer, r', hok, -⟩ := Triple.exists_ok hanswers hover
  exact ⟨answer, r', hok⟩

theorem Property.IsElemental.begins_ok (hp : p.IsElemental s nested) (name : String) (hover : r.Over s) :
    ∃ answer r', p.begins name r = .ok answer r' ∧ r'.Over s ∧ (answer = true ↔ s.PropertyBegins name p) := by
  unfold Property.begins Property.beginsBy
  by_cases hname : name = p.name
  · rw [if_pos hname]
    exact ⟨true, r, rfl, hover, iff_of_true rfl (.named hname)⟩
  · obtain ⟨r₁, hok, hover₁⟩ := Registry.descriptor_ok hover hp.compile
    rw [if_neg hname, bind_ok hok]
    have hnested : s.PropertyBegins name p ↔ (nested.isChoice || p.content) = true ∧ s.TypeBegins name nested := by
      refine ⟨?_, fun ⟨hbare, hbegins⟩ => .nested hp.compile hbare hbegins⟩
      rintro (heq | ⟨hd, hbare, hbegins⟩)
      · exact absurd heq hname
      · rw [hp.compile] at hd
        cases hd
        exact ⟨hbare, hbegins⟩
    split
    · next hbare =>
      obtain ⟨answer, r', hbegins, hover', hiff⟩ := (hp.bare hbare).begins_ok hp.compile name hover₁
      exact ⟨answer, r', hbegins, hover', by rw [hiff, hnested, and_iff_right hbare]⟩
    · next hwrapped =>
      exact ⟨false, r₁, rfl, hover₁, iff_of_false Bool.false_ne_true fun h => hwrapped (hnested.1 h).1⟩

/-- A property is asked for the name of the next child. -/
def Child.nextBegins (s : Schema) (p : Property) (cs : List Child) : Prop :=
  ∃ c ∈ cs.head?, s.PropertyBegins c.element.localName p

end

namespace Decoding

variable {s : Schema} {context : Context} {type owner : TypeName} {d nested : Descriptor} {p : Property}
  {ps : List Property} {around : List Element} {b : Behind} {c : Child} {cs rest left left' : List Child}
  {st st' t t' : Decoder} {v : Value} {steps steps' : Nat} {α β : Type}

/-- Where children are ahead, it is known whether the next one begins a value of a property. -/
theorem StandsAt.comesNext (h : StandsAt s b st cs) (hp : p.IsElemental s nested) :
    ∃ answer registry, comesNext p st = .ok answer ⟨registry, (Decoding.pastBlanks st).cursor, st.nonces⟩ ∧ registry.Over s ∧
      (answer = true ↔ Child.nextBegins s p cs) := by
  have hstands := h.pastBlanks
  unfold Decoding.comesNext
  rw [bind_ok h.peekStart]
  cases cs with
  | nil => exact ⟨false, st.registry, rfl, h.registry, iff_of_false Bool.false_ne_true fun ⟨_, hc, _⟩ => nomatch hc⟩
  | cons c cs =>
    obtain ⟨answer, registry, hok, hover, hiff⟩ := hp.begins_ok c.element.localName hstands.registry
    refine ⟨answer, registry, onRegistry_eq_ok.2 ⟨registry, hok, rfl⟩, hover,
      hiff.trans ⟨fun hbegins => ⟨c, rfl, hbegins⟩, ?_⟩⟩
    rintro ⟨_, ⟨⟩, hbegins⟩
    exact hbegins

/-- Items are looked for behind blank text. -/
theorem StandsAt.readItems_pastBlanks {content : Descriptor → Decoding Value} {limit : Nat} {items : List Value}
    (h : StandsAt s b st cs) (hread : readItems content owner p nested limit st = .ok items t) :
    readItems content owner p nested limit (Decoding.pastBlanks st) = .ok items t := by
  have hidempotent : Decoding.pastBlanks (Decoding.pastBlanks st) = Decoding.pastBlanks st := by
    simp only [Decoding.pastBlanks, List.dropWhile_idempotent]
  have hsame : Decoding.comesNext p (Decoding.pastBlanks st) = Decoding.comesNext p st := by
    rw [Decoding.comesNext, bind_ok h.pastBlanks.peekStart, bind_ok h.peekStart, hidempotent]
  cases limit with
  | zero => cases hread
  | succ limit =>
    obtain ⟨next, st₁, hnext, hread⟩ := bind_eq_ok.1 hread
    exact bind_eq_ok.2 ⟨next, st₁, hsame.trans hnext, hread⟩

/-! ### Side by side -/

/-- Two readers in front of the same children. The first finds nothing behind them, the second some more. -/
structure Alongside (s : Schema) (around : List Element) (b : Behind) (rest cs : List Child) (st st' : Decoder) : Prop where
  first : StandsAt s (.alone around) st cs
  second : StandsAt s b st' (cs ++ rest)
  nonces : st'.nonces = st.nonces

namespace Alongside

theorem pastBlanks (h : Alongside s around b rest cs st st') :
    Alongside s around b rest cs (pastBlanks st) (Decoding.pastBlanks st') :=
  ⟨h.first.pastBlanks, h.second.pastBlanks, h.nonces⟩

/-- What has been compiled does not matter. -/
theorem compiled (h : Alongside s around b rest cs st st') {registry registry' : Registry} (hover : registry.Over s)
    (hover' : registry'.Over s) :
    Alongside s around b rest cs ⟨registry, st.cursor, st.nonces⟩ ⟨registry', st'.cursor, st'.nonces⟩ :=
  ⟨⟨hover, h.first.ahead, h.first.ending, h.first.opened⟩, ⟨hover', h.second.ahead, h.second.ending, h.second.opened⟩,
    h.nonces⟩

/-- No more is ahead of the first than of the second, but for blank text. -/
theorem length_le (h : Alongside s around b rest cs st st') :
    (st.cursor.ahead.dropWhile Cursor.isBlankText).length ≤ (st'.cursor.ahead.dropWhile Cursor.isBlankText).length := by
  obtain ⟨h, h', -⟩ := h
  cases cs with
  | nil =>
    rw [h.dropWhile_nil]
    show 1 ≤ _
    cases rest with
    | nil =>
      rw [List.nil_append] at h'
      rw [h'.dropWhile_nil]
      exact Nat.succ_le_succ (Nat.zero_le _)
    | cons c rest =>
      obtain ⟨-, inner, -, -, -, hdrop⟩ := h'.dropWhile_cons
      rw [hdrop]
      exact Nat.succ_le_succ (Nat.zero_le _)
  | cons c cs =>
    obtain ⟨blanks, inner, hblanks, -, hnodes, hdrop⟩ := h.dropWhile_cons
    rw [hdrop, StandsAt.dropWhile_of_nodes h' hblanks hnodes]
    simp only [List.length_append, List.length_cons]
    have hless : ((Behind.alone around).nodes cs).length ≤ (b.nodes (cs ++ rest)).length := by
      simp only [Behind.alone, Behind.nodes, List.flatMap_append, List.length_append, List.length_cons, List.length_nil]
      omega
    exact Nat.succ_le_succ (Nat.add_le_add_left (Nat.succ_le_succ hless) _)

end Alongside

/-! ### Along the way -/

/-- Of some children those in front have been taken, the first of which may come first, or none if that may be. -/
inductive Advances (leads : String → Prop) (lacks : Prop) : List Child → List Child → Prop where
  | nothing {cs : List Child} : lacks → Advances leads lacks cs cs
  | children {c : Child} {taken left : List Child} : leads c.element.localName →
      Advances leads lacks (c :: (taken ++ left)) left

section
variable {leads leads₁ leads₂ : String → Prop} {lacks lacks₁ lacks₂ : Prop}

theorem Advances.of_nil (h : Advances leads lacks [] left) : left = [] := by
  cases h
  rfl

theorem Advances.imp (h : Advances leads₁ lacks₁ cs left) (hleads : ∀ name, leads₁ name → leads name)
    (hlacks : lacks₁ → lacks) : Advances leads lacks cs left := by
  cases h with
  | nothing h => exact .nothing (hlacks h)
  | children h => exact .children (hleads _ h)

theorem Advances.trans (h : Advances leads₁ lacks₁ cs left) (h' : Advances leads₂ lacks₂ left left')
    (hleads₁ : ∀ name, leads₁ name → leads name) (hleads₂ : lacks₁ → ∀ name, leads₂ name → leads name)
    (hlacks : lacks₁ → lacks₂ → lacks) : Advances leads lacks cs left' := by
  cases h with
  | nothing h => exact h'.imp (hleads₂ h) (hlacks h)
  | @children c taken _ h =>
    cases h' with
    | nothing => exact .children (hleads₁ _ h)
    | @children c' taken' =>
      have heq : c :: (taken ++ c' :: (taken' ++ left')) = c :: ((taken ++ c' :: taken') ++ left') := by simp
      rw [heq]
      exact .children (hleads₁ _ h)

end

section
variable (s : Schema) (around : List Element) (b : Behind) (rest : List Child) (goesOn leads : String → Prop) (lacks : Prop)

/-- How far a reader has come in front of some children, and what another finds in front of more. That is the same, as long as
the first child behind them, in case that none of them is left, does not go on with what has been read. -/
def Arrives (cs : List Child) (st t : Decoder) (a : α) (work' : Decoding α) : Prop :=
  ∃ left, StandsAt s (.alone around) t left ∧ Advances leads lacks cs left ∧
    ∀ st', Alongside s around b rest cs st st' → (left = [] → ∀ c ∈ rest.head?, ¬goesOn c.element.localName) →
      ∃ t', work' st' = .ok a t' ∧ Alongside s around b rest left t t'

/-- What is read from some children is read from them in front of more. -/
def GoesAlong (work work' : Decoding α) : Prop :=
  ∀ cs st a t, StandsAt s (.alone around) st cs → work st = .ok a t →
    Arrives s around b rest goesOn leads lacks cs st t a work'

end

section
variable {goesOn goesOn₁ goesOn₂ leads leads₁ leads₂ : String → Prop} {lacks lacks₁ lacks₂ : Prop} {a a₁ : α} {a₂ : β}
  {work' : Decoding α}

theorem Arrives.pure (h : StandsAt s (.alone around) st cs) (hlacks : lacks) :
    Arrives s around b rest goesOn leads lacks cs st st a (pure a) :=
  ⟨cs, h, .nothing hlacks, fun st' halong _ => ⟨st', rfl, halong⟩⟩

theorem Arrives.imp (h : Arrives s around b rest goesOn₁ leads₁ lacks₁ cs st t a work')
    (hgoes : ∀ name, goesOn₁ name → goesOn name) (hleads : ∀ name, leads₁ name → leads name) (hlacks : lacks₁ → lacks) :
    Arrives s around b rest goesOn leads lacks cs st t a work' := by
  obtain ⟨left, ht, hadvances, halong⟩ := h
  exact ⟨left, ht, hadvances.imp hleads hlacks,
    fun st' hst' hstops => halong st' hst' fun hnone c hc h => hstops hnone c hc (hgoes _ h)⟩

/-- It is known which child comes first. -/
theorem Arrives.leads_head (h : Arrives s around b rest goesOn leads₁ lacks (c :: cs) st t a work')
    (hleads : leads c.element.localName) : Arrives s around b rest goesOn leads lacks (c :: cs) st t a work' := by
  obtain ⟨left, ht, hadvances, halong⟩ := h
  refine ⟨left, ht, ?_, halong⟩
  cases hadvances with
  | nothing hlacks => exact .nothing hlacks
  | children => exact .children hleads

/-- One way behind the other. Where no child is left in the middle, the next one may go on with what has been read so far. -/
theorem Arrives.bind {next' : α → Decoding β} {t₂ : Decoder}
    (h : Arrives s around b rest goesOn₁ leads₁ lacks₁ cs st t a₁ work')
    (hnext : ∀ left, StandsAt s (.alone around) t left →
      Arrives s around b rest goesOn₂ leads₂ lacks₂ left t t₂ a₂ (next' a₁))
    (hgoes₁ : StandsAt s (.alone around) t [] → ∀ name, goesOn₁ name → goesOn name)
    (hgoes₂ : ∀ name, goesOn₂ name → goesOn name) (hleads₁ : ∀ name, leads₁ name → leads name)
    (hleads₂ : lacks₁ → ∀ name, leads₂ name → leads name) (hlacks : lacks₁ → lacks₂ → lacks) :
    Arrives s around b rest goesOn leads lacks cs st t₂ a₂ (work' >>= next') := by
  obtain ⟨left, ht, hadvances, halong⟩ := h
  obtain ⟨last, ht₂, hadvances₂, halong₂⟩ := hnext left ht
  refine ⟨last, ht₂, hadvances.trans hadvances₂ hleads₁ hleads₂ hlacks, fun st' hst' hstops => ?_⟩
  obtain ⟨t', hwork', ht'⟩ := halong st' hst' fun hnone c hc hgoes => by
    subst hnone
    exact hstops hadvances₂.of_nil c hc (hgoes₁ ht _ hgoes)
  obtain ⟨t₂', hnext', ht₂'⟩ := halong₂ t' ht' fun hnone c hc hgoes => hstops hnone c hc (hgoes₂ _ hgoes)
  rw [bind_ok hwork']
  exact ⟨t₂', hnext', ht₂'⟩

/-- Something else is made of what has been read. -/
theorem Arrives.map (h : Arrives s around b rest goesOn leads lacks cs st t a work') (f : α → β) :
    Arrives s around b rest goesOn leads lacks cs st t (f a) (do return f (← work')) :=
  h.bind (fun _ hleft => (.pure hleft trivial : Arrives s around b rest (fun _ => False) (fun _ => False) True _ _ _ _ _))
    (fun _ _ => id) (fun _ => False.elim) (fun _ => id) (fun _ _ => False.elim) fun h _ => h

/-- In front of what a reader does, another may pass the blank text that is next. -/
theorem Arrives.behindBlanks {work'' : Decoding α}
    (h : Arrives s around b rest goesOn leads lacks cs (pastBlanks st) t a work')
    (heq : ∀ st', Alongside s around b rest cs st st' → work'' st' = work' (pastBlanks st')) :
    Arrives s around b rest goesOn leads lacks cs st t a work'' := by
  obtain ⟨left, ht, hadvances, halong⟩ := h
  refine ⟨left, ht, hadvances, fun st' hst' hstops => ?_⟩
  rw [heq st' hst']
  exact halong _ hst'.pastBlanks hstops

/-- The start tag of a child is found behind blank text. -/
theorem StandsAt.readWrapped_pastBlanks {content : Descriptor → Decoding Value} {nilable : Bool}
    (h : StandsAt s b st (c :: cs)) :
    readWrapped content owner nilable nested (Decoding.pastBlanks st) = readWrapped content owner nilable nested st := by
  obtain ⟨-, inner, -, -, -, hdrop⟩ := h.dropWhile_cons
  have hstart : onCursor Cursor.expectStart (Decoding.pastBlanks st) = .ok c.element _ :=
    onCursor_expectStart ((List.dropWhile_idempotent ..).trans hdrop)
  rw [readWrapped, bind_ok (onCursor_expectStart hdrop), bind_ok hstart]
  rfl

/-- A child is read as an element of a declared type, whatever comes behind it. -/
theorem arrives_readWrapped {nilable : Bool} (h : StandsAt s (.alone around) st (c :: cs)) (hle : steps ≤ steps')
    (hd : Descriptor.compile s type = .ok nested) (hleads : leads c.element.localName)
    (hread : readWrapped (readContent context steps) owner nilable nested st = .ok v t) :
    Arrives s around b rest goesOn leads lacks (c :: cs) st t v
      (readWrapped (readContent context steps') owner nilable nested) := by
  rw [← h.readWrapped_pastBlanks] at hread
  obtain ⟨blanks, inner, hblanks, hinner, hnodes, hahead⟩ := h.dropWhile_cons
  have hover := h.pastBlanks.registry
  obtain ⟨hcursor, ht, -⟩ := readWrapped_of_le hd hover hover hinner hahead hahead hle hread
  have hfirst : StandsAt s (.alone around) t cs :=
    ⟨ht, by rw [hcursor], by rw [hcursor]; exact h.ending, by rw [hcursor]; exact h.opened⟩
  refine ⟨cs, hfirst, @Advances.children _ _ c [] cs hleads, fun st' halong _ => ?_⟩
  have hahead' := StandsAt.dropWhile_of_nodes halong.second hblanks hnodes
  obtain ⟨-, -, v', t', hread', ht', hcursor', hsame, hnonces⟩ :=
    readWrapped_of_le hd hover halong.second.pastBlanks.registry hinner hahead hahead' hle hread
  obtain rfl := hsame.1 halong.nonces
  have hsecond : StandsAt s b t' (cs ++ rest) :=
    ⟨ht', by rw [hcursor']; rfl, by rw [hcursor']; exact halong.second.ending, by rw [hcursor']; exact halong.second.opened⟩
  exact ⟨t', halong.second.readWrapped_pastBlanks.symm.trans hread', hfirst, hsecond, hnonces halong.nonces⟩

/-- Nothing is taken, and the other finds the same. -/
def Keeps (s : Schema) (around : List Element) (b : Behind) (rest cs : List Child) (st t : Decoder) (a : α)
    (work' : Decoding α) : Prop :=
  StandsAt s (.alone around) t cs ∧ ∀ st', Alongside s around b rest cs st st' →
    ∃ t', work' st' = .ok a t' ∧ Alongside s around b rest cs t t'

theorem Keeps.bind {next' : α → Decoding β} {t₂ : Decoder} (h : Keeps s around b rest cs st t a₁ work')
    (hnext : Arrives s around b rest goesOn leads lacks cs t t₂ a₂ (next' a₁)) :
    Arrives s around b rest goesOn leads lacks cs st t₂ a₂ (work' >>= next') := by
  obtain ⟨left, ht, hadvances, halong⟩ := hnext
  refine ⟨left, ht, hadvances, fun st' hst' hstops => ?_⟩
  obtain ⟨t', hwork', ht'⟩ := h.2 st' hst'
  obtain ⟨t₂', hnext', ht₂'⟩ := halong t' ht' hstops
  rw [bind_ok hwork']
  exact ⟨t₂', hnext', ht₂'⟩

/-- A type is looked up in both places. -/
theorem keeps_descriptor (h : StandsAt s (.alone around) st cs) (hd : Descriptor.compile s type = .ok d) :
    ∃ t, descriptor type st = .ok d t ∧ Keeps s around b rest cs st t d (descriptor type) := by
  obtain ⟨registry, hover, hok⟩ := descriptor_ok h.registry hd
  refine ⟨_, hok, ⟨hover, h.ahead, h.ending, h.opened⟩, fun st' halong => ?_⟩
  obtain ⟨registry', hover', hok'⟩ := descriptor_ok halong.second.registry hd
  exact ⟨_, hok', halong.compiled hover hover'⟩

/-- Whether an element begins a value is answered alike in both places. -/
theorem keeps_begins (h : StandsAt s (.alone around) st cs) (hd : Descriptor.compile s type = .ok nested)
    (htype : s.IsElemental type) (name : String) :
    ∃ answer t, onRegistry (nested.begins name) st = .ok answer t ∧ (answer = true ↔ s.TypeBegins name nested) ∧
      Keeps s around b rest cs st t answer (onRegistry (nested.begins name)) := by
  obtain ⟨answer, registry, hok, hover, hiff⟩ :=
    htype.begins_ok hd name h.registry
  refine ⟨answer, _, onRegistry_eq_ok.2 ⟨registry, hok, rfl⟩, hiff, ⟨hover, h.ahead, h.ending, h.opened⟩,
    fun st' halong => ?_⟩
  obtain ⟨answer', registry', hok', hover', hiff'⟩ :=
    htype.begins_ok hd name halong.second.registry
  obtain rfl : answer' = answer := Bool.eq_iff_iff.2 (hiff'.trans hiff.symm)
  exact ⟨_, onRegistry_eq_ok.2 ⟨registry', hok', rfl⟩, halong.compiled hover hover'⟩

/-- The same comes next in both places. Where no child is left in the first, that is nothing; in the second, it is a child
that does not begin a value of the property. -/
theorem arrives_comesNext (h : StandsAt s (.alone around) st cs) (hp : p.IsElemental s nested) :
    ∃ answer t, comesNext p st = .ok answer t ∧ (answer = true ↔ Child.nextBegins s p cs) ∧
      Arrives s around b rest (fun name => answer = false ∧ s.PropertyBegins name p) (fun _ => False) True cs st t answer
        (comesNext p) := by
  obtain ⟨answer, registry, hnext, hover, hiff⟩ := h.comesNext hp
  refine ⟨answer, _, hnext, hiff, cs, ⟨hover, h.pastBlanks.ahead, h.ending, h.opened⟩, .nothing trivial,
    fun st' halong hstops => ?_⟩
  obtain ⟨answer', registry', hnext', hover', hiff'⟩ := halong.second.comesNext hp
  have hsame : answer' = true ↔ answer = true := by
    rw [hiff', hiff]
    cases cs with
    | nil =>
      refine ⟨fun ⟨c, hc, hbegins⟩ => ?_, fun ⟨_, hc, _⟩ => nomatch hc⟩
      have hfalse : answer = false := by
        rw [← Bool.not_eq_true, hiff]
        exact fun ⟨_, hc, _⟩ => nomatch hc
      exact absurd ⟨hfalse, hbegins⟩ (hstops rfl c hc)
    | cons c cs => exact Iff.rfl
  obtain rfl : answer' = answer := Bool.eq_iff_iff.2 hsame
  exact ⟨_, hnext', halong.pastBlanks.compiled hover hover'⟩

end

/-! ### Properties -/

/-- Where no child is left, only a property that may be missing is read. -/
theorem mayMiss_of_readProperty {content : Descriptor → Decoding Value} (hp : p.IsElemental s nested)
    (h : StandsAt s b st []) (hread : readProperty content owner p st = .ok v t) : s.MayMiss p := by
  obtain ⟨st', hdescriptor, hst'⟩ := h.descriptor hp.compile
  rw [readProperty, bind_ok hdescriptor] at hread
  split at hread
  · next hrepeated => exact .inl (by rw [hrepeated, Bool.true_or])
  · split at hread
    · next hoptional => exact .inl (by rw [hoptional, Bool.or_true])
    · unfold readSingle at hread
      split at hread
      · next hsequence =>
        rw [Bool.and_eq_true, Bool.not_eq_true'] at hsequence
        exact .inr ⟨hsequence.1, nested, hp.compile, hsequence.2⟩
      · rw [bind_ok hst'.peekStart] at hread
        cases hread

/-- Contents go along, where they stand in no element of their own. -/
def ContentsGoAlong (s : Schema) (context : Context) (around : List Element) (b : Behind) (rest : List Child)
    (steps steps' : Nat) : Prop :=
  ∀ type nested, Descriptor.compile s type = .ok nested → s.IsElemental type →
    GoesAlong s around b rest (s.GoesOn · nested) (s.ContentMayLead · nested) True (readContent context steps nested)
      (readContent context steps' nested)

section
variable (hle : steps ≤ steps') (hcontents : ContentsGoAlong s context around b rest steps steps')
include hle hcontents

section
variable (hp : p.IsElemental s nested)
include hp

/-- A single value is read from some children if its content is, or from the first one. -/
theorem goesAlong_readSingle : GoesAlong s around b rest (s.SingleGoesOn · p) (s.MayLead · p)
    ((nested.isChoice || p.content) = true) (readSingle (readContent context steps) owner p nested)
    (readSingle (readContent context steps') owner p nested) := by
  intro cs st v t h hread
  have hcontent (hbare : (nested.isChoice || p.content) = true) {st : Decoder} (h : StandsAt s (.alone around) st cs)
      (hread : readContent context steps nested st = .ok v t) :
      Arrives s around b rest (s.SingleGoesOn · p) (s.MayLead · p) ((nested.isChoice || p.content) = true) cs st t v
        (readContent context steps' nested) :=
    (hcontents _ nested hp.compile (hp.bare hbare) cs st v t h hread).imp (fun _ hgoes => ⟨nested, hp.compile, hbare, hgoes⟩)
      (fun _ hleads => hleads.mayLead hp hbare) fun _ => hbare
  unfold readSingle at hread ⊢
  split at hread
  · next hsequence =>
    rw [if_pos hsequence]
    rw [Bool.and_eq_true] at hsequence
    exact hcontent (by rw [hsequence.1, Bool.or_true]) h hread
  · next hsequence =>
    rw [if_neg hsequence]
    rw [bind_ok h.peekStart] at hread
    cases cs with
    | nil => cases hread
    | cons c cs =>
      have hnamed (hname : c.element.localName = p.name) : s.MayLead c.element.localName p := .begins (.named hname)
      have harrives : Arrives s around b rest (s.SingleGoesOn · p) (s.MayLead · p) ((nested.isChoice || p.content) = true)
          (c :: cs) (pastBlanks st) t v
          (if nested.isChoice = true then
            if (decide (c.element.localName = p.name) && c.element.isNil) = true then
              readWrapped (readContent context steps') owner p.nilable nested
            else readContent context steps' nested
          else if c.element.localName = p.name then readWrapped (readContent context steps') owner p.nilable nested
          else throw (.content (.wrongElement c.element.localName p.name (some owner)))) := by
        dsimp only [List.head?_cons, Option.map_some] at hread
        split at hread
        · next hchoice =>
          rw [if_pos hchoice]
          split at hread
          · next hnil =>
            rw [if_pos hnil]
            rw [Bool.and_eq_true, decide_eq_true_eq] at hnil
            exact arrives_readWrapped h.pastBlanks hle hp.compile (hnamed hnil.1) hread
          · next hnil =>
            rw [if_neg hnil]
            exact hcontent (by rw [hchoice, Bool.true_or]) h.pastBlanks hread
        · next hchoice =>
          rw [if_neg hchoice]
          split at hread
          · next hname =>
            rw [if_pos hname]
            exact arrives_readWrapped h.pastBlanks hle hp.compile (hnamed hname) hread
          · cases hread
      exact harrives.behindBlanks fun st' halong => by
        rw [bind_ok halong.second.peekStart]
        rfl

/-- Items are read one by one. -/
theorem goesAlong_readItems (limit : Nat) :
    GoesAlong s around b rest (fun name => s.PropertyBegins name p ∨ s.SingleGoesOn name p) (s.MayLead · p) True
      (readItems (readContent context steps) owner p nested limit)
      (readItems (readContent context steps') owner p nested limit) := by
  induction limit with
  | zero =>
    intro cs st items t _ hread
    cases hread
  | succ limit ih =>
    intro cs st items t h hread
    obtain ⟨answer, t₁, hnext, -, harrives⟩ := arrives_comesNext h hp
    rw [readItems, bind_ok hnext] at hread
    unfold readItems
    refine harrives.bind (fun left hleft => ?_) (fun _ _ h => .inl h.2) (fun _ => id) (fun _ => False.elim) (fun _ _ => id)
      fun _ => id
    cases answer with
    | false =>
      cases hread
      exact .pure hleft trivial
    | true =>
      rw [if_pos rfl] at hread ⊢
      obtain ⟨item, t₂, hitem, hread⟩ := bind_eq_ok.1 hread
      obtain ⟨items, _, hitems, hread⟩ := bind_eq_ok.1 hread
      cases hread
      exact (goesAlong_readSingle hle hcontents hp left t₁ item t₂ hleft hitem).bind
        (fun left₂ hleft₂ => (ih left₂ t₂ items t hleft₂ hitems).map (item :: ·)) (fun _ _ => .inr) (fun _ => id)
        (fun _ => id) (fun _ _ => id) fun _ => id

end

/-- The field of a property is read. -/
theorem goesAlong_readProperty (hp : p.IsElemental s nested) : GoesAlong s around b rest (s.FieldGoesOn · p) (s.MayLead · p)
    (s.MayPassBy p) (readProperty (readContent context steps) owner p) (readProperty (readContent context steps') owner p) := by
  intro cs st v t h hread
  obtain ⟨t₁, hdescriptor, hkeeps⟩ := @keeps_descriptor s p.type nested around b cs rest st h hp.compile
  unfold readProperty at hread ⊢
  rw [bind_ok hdescriptor] at hread
  refine hkeeps.bind ?_
  have hsingle {left : List Child} {st : Decoder} (hleft : StandsAt s (.alone around) st left)
      (hread : readSingle (readContent context steps) owner p nested st = .ok v t) :
      Arrives s around b rest (s.FieldGoesOn · p) (s.MayLead · p) (s.MayPassBy p) left st t v
        (readSingle (readContent context steps') owner p nested) :=
    (goesAlong_readSingle hle hcontents hp left st v t hleft hread).imp (fun _ => .inr) (fun _ => id)
      fun hbare => .inr ⟨nested, hp.compile, hbare⟩
  split at hread
  · next hrepeated =>
    have hmissing : (p.repeated || p.optional) = true := by rw [hrepeated, Bool.true_or]
    rw [if_pos hrepeated]
    rw [bind_ok (get_apply t₁)] at hread
    obtain ⟨items, _, hitems, hread⟩ := bind_eq_ok.1 hread
    cases hread
    obtain ⟨last, ht, hadvances, halong⟩ := goesAlong_readItems hle hcontents hp _ cs t₁ items t hkeeps.1 hitems
    refine ⟨last, ht, hadvances.imp (fun _ => id) fun _ => .inl hmissing, fun st' hst' hstops => ?_⟩
    obtain ⟨t', hitems', ht'⟩ := halong st' hst' fun hnone c hc hgoes =>
      hstops hnone c hc (hgoes.imp_left fun hbegins => ⟨hmissing, hbegins⟩)
    -- Each item takes a node, and there are no fewer of them in the second place.
    have hcount := length_readItems_le (repeats_readContent context steps) hp.compile hkeeps.1.pastBlanks.registry
      (hkeeps.1.readItems_pastBlanks hitems)
    have hlength := hst'.length_le
    have hdrop := (List.dropWhile_suffix Cursor.isBlankText (l := st'.cursor.ahead)).length_le
    have hless : items.length < st'.cursor.ahead.length + 1 := by
      dsimp only [pastBlanks] at hcount
      omega
    rw [bind_ok (get_apply st'), bind_ok (readItems_of_length_lt hitems' hless)]
    exact ⟨t', rfl, ht'⟩
  · next hrepeated =>
    rw [if_neg hrepeated]
    split at hread
    · next hoptional =>
      have hmissing : (p.repeated || p.optional) = true := by rw [hoptional, Bool.or_true]
      rw [if_pos hoptional]
      obtain ⟨answer, t₂, hnext, -, harrives⟩ := arrives_comesNext hkeeps.1 hp
      rw [bind_ok hnext] at hread
      refine harrives.bind (fun left hleft => ?_) (fun _ _ h => .inl ⟨hmissing, h.2⟩) (fun _ => id) (fun _ => False.elim)
        (fun _ _ => id) fun _ => id
      cases answer with
      | false =>
        cases hread
        exact .pure hleft (.inl hmissing)
      | true =>
        rw [if_pos rfl] at hread ⊢
        exact hsingle hleft hread
    · next hoptional =>
      rw [if_neg hoptional]
      exact hsingle hkeeps.1 hread

/-- The fields of properties are read in order. -/
theorem goesAlong_readProperties (hps : ∀ p ∈ ps, ∃ nested, p.IsElemental s nested) :
    GoesAlong s around b rest (s.FieldsGoOn · ps) (s.FieldsMayLead · ps) True
      (readProperties (readContent context steps) owner ps) (readProperties (readContent context steps') owner ps) ∧
    ∀ st fields t, StandsAt s (.alone around) st [] → readProperties (readContent context steps) owner ps st = .ok fields t →
      ∀ p ∈ ps, s.MayMiss p := by
  induction ps with
  | nil =>
    refine ⟨fun cs st fields t h hread => ?_, fun _ _ _ _ _ => List.forall_mem_nil _⟩
    cases hread
    exact .pure h trivial
  | cons p ps ih =>
    obtain ⟨⟨nested, hp⟩, hps⟩ := List.forall_mem_cons.1 hps
    obtain ⟨halong, hmiss⟩ := ih hps
    constructor
    · intro cs st fields t h hread
      obtain ⟨v, t₁, hfield, hread⟩ := bind_eq_ok.1 hread
      obtain ⟨fields, _, hfields, hread⟩ := bind_eq_ok.1 hread
      cases hread
      refine (goesAlong_readProperty hle hcontents hp cs st v t₁ h hfield).bind
        (fun left hleft => (halong left t₁ fields t hleft hfields).map ((p.name, v) :: ·)) (fun hnone name hgoes => ?_)
        (fun _ => .cons) (fun name hleads => ⟨[], p, ps, rfl, List.forall_mem_nil _, hleads⟩) (fun hpass _ => .cons hpass)
        fun _ => id
      exact ⟨[], p, ps, rfl, hgoes, hmiss t₁ fields t hnone hfields⟩
    · intro st fields t h hread
      obtain ⟨v, t₁, hfield, hread⟩ := bind_eq_ok.1 hread
      obtain ⟨fields, _, hfields, hread⟩ := bind_eq_ok.1 hread
      cases hread
      obtain ⟨left, ht₁, hadvances, -⟩ :=
        @goesAlong_readProperty s context owner nested p around b rest steps steps' hle hcontents hp [] st v t₁ h hfield
      rw [hadvances.of_nil] at ht₁
      exact List.forall_mem_cons.2 ⟨mayMiss_of_readProperty hp h hfield, hmiss t₁ fields t ht₁ hfields⟩

/-! ### Variants and contents -/

/-- The first variant that the next child begins is read. -/
theorem goesAlong_readVariants {all variants : List Variant} (hsub : ∀ v ∈ variants, v ∈ all)
    (hvariants : ∀ v ∈ variants, (∃ d, Descriptor.compile s v.type = .ok d) ∧ (v.dispatch = .inline → s.IsElemental v.type))
    (h : StandsAt s (.alone around) st (c :: cs))
    (hread : readVariants (readContent context steps) owner c.element.localName variants st = .ok v t) :
    Arrives s around b rest (s.GoesOn · ⟨owner, .choice all⟩) (s.TypeBegins · ⟨owner, .choice all⟩) True (c :: cs) st t v
      (readVariants (readContent context steps') owner c.element.localName variants) := by
  induction variants generalizing st with
  | nil => cases hread
  | cons variant variants ih =>
    obtain ⟨hmem, hsub⟩ := List.forall_mem_cons.1 hsub
    obtain ⟨⟨⟨nested, hd⟩, helemental⟩, hvariants⟩ := List.forall_mem_cons.1 hvariants
    obtain ⟨t₁, hdescriptor, hkeeps⟩ := @keeps_descriptor s variant.type nested around b (c :: cs) rest st h hd
    rw [readVariants, bind_ok hdescriptor] at hread
    unfold readVariants
    refine hkeeps.bind ?_
    cases hdispatch : variant.dispatch with
    | element name =>
      rw [hdispatch] at hread
      dsimp only at hread ⊢
      split at hread
      · next hname =>
        obtain ⟨inner, _, hinner, hread⟩ := bind_eq_ok.1 hread
        cases hread
        rw [if_pos hname]
        have hbegins : s.TypeBegins c.element.localName ⟨owner, .choice all⟩ :=
          .variant hmem (.element (hname ▸ hdispatch))
        exact (arrives_readWrapped hkeeps.1 hle hd hbegins hinner).map variant.build
      · next hname =>
        rw [if_neg hname]
        exact ih hsub hvariants hkeeps.1 hread
    | inline =>
      rw [hdispatch] at hread
      dsimp only at hread ⊢
      have htype := helemental hdispatch
      obtain ⟨answer, t₂, hanswer, hiff, hkeeps₂⟩ :=
        @keeps_begins s variant.type nested around b (c :: cs) rest t₁ hkeeps.1 hd htype c.element.localName
      rw [bind_ok hanswer] at hread
      refine hkeeps₂.bind ?_
      split at hread
      · next htrue =>
        obtain ⟨inner, _, hinner, hread⟩ := bind_eq_ok.1 hread
        cases hread
        rw [if_pos htrue]
        have hbegins : s.TypeBegins c.element.localName ⟨owner, .choice all⟩ :=
          .variant hmem (.inline hdispatch hd (hiff.1 htrue))
        have hcontent : Arrives s around b rest (s.GoesOn · nested) (s.TypeBegins · ⟨owner, .choice all⟩) True (c :: cs) t₂ t
            inner (readContent context steps' nested) :=
          (hcontents _ nested hd htype (c :: cs) t₂ inner t hkeeps₂.1 hinner).leads_head hbegins
        exact (hcontent.imp (fun _ => .variant hmem hdispatch hd) (fun _ => id) id).map variant.build
      · next hfalse =>
        rw [if_neg hfalse]
        exact ih hsub hvariants hkeeps₂.1 hread

end

/-- **The content of an elemental type that is read from some children alone is read from them in front of others too**, if
the first of these does not go on with it. -/
theorem goesAlong_readContent (hle : steps ≤ steps') : ContentsGoAlong s context around b rest steps steps' := by
  induction steps generalizing steps' with
  | zero =>
    intro type d hd htype cs st v t h hread
    cases hread
  | succ steps ih =>
    intro type d hd htype cs st v t h hread
    obtain ⟨steps', rfl⟩ := Nat.exists_eq_add_one_of_ne_zero (Nat.ne_of_gt (Nat.lt_of_lt_of_le (Nat.succ_pos _) hle))
    have hbelow := Nat.le_of_succ_le_succ hle
    obtain ⟨name, shape⟩ := d
    rw [readContent] at hread
    unfold readContent
    cases shape with
    | simple primitive => exact absurd rfl (htype.not_simple type _ .refl hd primitive)
    | sequence properties subtypes isAbstract =>
      dsimp only at hread ⊢
      split at hread
      · cases hread
      · next hconcrete =>
        obtain ⟨fields, _, hfields, hread⟩ := bind_eq_ok.1 hread
        cases hread
        rw [if_neg hconcrete]
        have hps (p : Property) (hp : p ∈ properties) : ∃ nested, p.IsElemental s nested := htype.property hd hp
        have halong := (goesAlong_readProperties hbelow (ih hbelow) hps).1 cs st fields t h hfields
        exact (halong.imp (fun _ hgoes => hgoes.goesOn) (fun _ => .inr) id).map (Value.object name)
    | choice variants =>
      dsimp only at hread ⊢
      unfold readChoice at hread ⊢
      rw [bind_ok h.peekStart] at hread
      cases cs with
      | nil => cases hread
      | cons c cs =>
        have hvariants (v : Variant) (hv : v ∈ variants) :
            (∃ d, Descriptor.compile s v.type = .ok d) ∧ (v.dispatch = .inline → s.IsElemental v.type) :=
          ⟨htype.compiles _ (.step .refl hd (Descriptor.mem_parts_of_variant hv)), htype.variant hd hv⟩
        have halong := goesAlong_readVariants hbelow (ih hbelow) (fun _ => id) hvariants h.pastBlanks hread
        refine (halong.imp (fun _ => id) (fun _ => .inl) id).behindBlanks fun st' hst' => ?_
        rw [bind_ok hst'.second.peekStart]
        rfl

end Decoding
end SoapBinding
