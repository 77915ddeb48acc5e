import SoapBinding.Context
import SoapBinding.Proofs.Xml.Written

/-!
# Documents as trees

What is written to a sink is a row of texts and elements (`Markup`), with attributes in front if a tag waits. A document
tells where it refers to attachments: by the `href` attributes of its tags, read in order (`Markup.references`).

`Sink.Gained` says of a sink and a later one what has been written in between, by the references in it and the names of
its tags. Every operation on a sink is of that kind, operations in a row are (`Gained.trans`), and so is an element around
what is (`GainedElement.around`).
-/

namespace SoapBinding.Xml

open Outcome

/-- A piece of a document. -/
inductive Markup where
  /-- A text. -/
  | text (t : String)
  /-- An element without an end tag of its own. -/
  | empty (tag : PendingTag)
  /-- An element around a row of pieces. -/
  | element (tag : PendingTag) (body : List Markup)

/-- The name of elements that include an attachment. -/
def includeName : String := "xop:Include"

/-- How a tag refers to an attachment, if it does. An element that includes one says so by its name, and declares what it
means. -/
def PendingTag.reference (t : PendingTag) : Reference :=
  if t.name = includeName ∧ ("xmlns:xop", xopNamespace) ∈ t.attributes then .xopInclude else .href

/-- The references of a tag to attachments. -/
def PendingTag.references (t : PendingTag) : List (Reference × String) :=
  (t.attributes.filter (·.1 == "href")).map fun a => (t.reference, a.2)

namespace Markup

mutual

/-- The text of a piece. -/
def render : Markup → String
  | .text t => escape t
  | .empty tag => elementText tag none
  | .element tag body => elementText tag (some (renderAll body))

/-- The text of a row of pieces. -/
def renderAll : List Markup → String
  | [] => ""
  | m :: rest => m.render ++ renderAll rest

end

mutual

/-- The start tags of a piece, in the order of the document. -/
def tags : Markup → List PendingTag
  | .text _ => []
  | .empty tag => [tag]
  | .element tag body => tag :: tagsAll body

/-- The start tags of a row of pieces. -/
def tagsAll : List Markup → List PendingTag
  | [] => []
  | m :: rest => m.tags ++ tagsAll rest

end

/-- The references of a piece to attachments, in the order of the document. -/
def references (m : Markup) : List (Reference × String) := m.tags.flatMap PendingTag.references

@[simp] theorem renderAll_append (front back : List Markup) :
    renderAll (front ++ back) = renderAll front ++ renderAll back := by
  induction front with
  | nil => simp [renderAll]
  | cons m front ih => simp [renderAll, ih, String.append_assoc]

@[simp] theorem tagsAll_append (front back : List Markup) : tagsAll (front ++ back) = tagsAll front ++ tagsAll back := by
  induction front with
  | nil => simp [tagsAll]
  | cons m front ih => simp [tagsAll, ih]

/-- A tag of a row is that of a piece. -/
theorem exists_of_mem_tagsAll {row : List Markup} {t : PendingTag} (h : t ∈ tagsAll row) : ∃ m ∈ row, t ∈ m.tags := by
  induction row with
  | nil => cases h
  | cons m row ih =>
    rcases List.mem_append.1 h with h | h
    · exact ⟨m, List.mem_cons_self, h⟩
    · obtain ⟨m', hm', ht⟩ := ih h
      exact ⟨m', List.mem_cons_of_mem _ hm', ht⟩

/-- An element, with an end tag if there is a body. -/
def around (tag : PendingTag) : Option (List Markup) → Markup
  | none => .empty tag
  | some body => .element tag body

theorem render_around (tag : PendingTag) (body : Option (List Markup)) :
    (around tag body).render = elementText tag (body.map renderAll) := by
  cases body <;> rfl

theorem tags_around (tag : PendingTag) (body : Option (List Markup)) :
    (around tag body).tags = tag :: tagsAll (body.getD []) := by
  cases body <;> simp [around, tags, tagsAll]

/-- The piece is an element of a name. -/
def IsElement (name : String) (m : Markup) : Prop := ∃ attributes body, m = around ⟨name, attributes⟩ body

end Markup

/-- The names of the attributes that mark an element, or make it refer to an attachment. -/
def markKeys : List String := ["xmlns:xsi", "xsi:nil", "xsi:type", "xmlns:tns", "href"]

/-- A tag of a known name with attributes that are written for values. -/
structure PendingTag.IsKnown (names : String → Prop) (t : PendingTag) : Prop where
  name : names t.name
  keys : ∀ a ∈ t.attributes, a.1 ∈ "xmlns:xop" :: markKeys

/-- A tag with some attributes that does not include an attachment refers to one by each `href`. -/
theorem PendingTag.references_href {name : String} {attributes : List (String × String)}
    (h : ∀ a ∈ attributes, a.1 ∈ markKeys) :
    (PendingTag.mk name attributes).references = (attributes.filter (·.1 == "href")).map fun a => (.href, a.2) := by
  have hreference : (PendingTag.mk name attributes).reference = .href :=
    if_neg fun hinclude => absurd (h _ hinclude.2) (by decide)
  rw [references, hreference]

/-! ### What a sink gains -/

namespace Sink

/-- What has been written to a sink: attributes for the tag that waits, and a body behind it. The names of the tags are known,
and so are the references. -/
structure Gains (names : String → Prop) (references : List (Reference × String)) (s s' : Sink)
    (attributes : List (String × String)) (body : Option (List Markup)) : Prop where
  wrote : s' = s.wrote attributes (body.map Markup.renderAll)
  waiting : attributes ≠ [] → s.pending.isSome = true
  keys : ∀ a ∈ attributes, a.1 ∈ markKeys
  tags : ∀ t ∈ Markup.tagsAll (body.getD []), t.IsKnown names
  references : references = ((attributes.filter (·.1 == "href")).map fun a => (.href, a.2)) ++
    (Markup.tagsAll (body.getD [])).flatMap PendingTag.references

/-- A sink has come to be by writing to another. -/
def Gained (names : String → Prop) (references : List (Reference × String)) (s s' : Sink) : Prop :=
  ∃ attributes body, Gains names references s s' attributes body

namespace Gained

variable {names : String → Prop} {references references' : List (Reference × String)} {s s' s'' : Sink}
  {name value : String}

theorem refl (s : Sink) : Gained names [] s s :=
  ⟨[], none, (wrote_nothing s).symm, fun h => (h rfl).elim, nofun, nofun, rfl⟩

/-- Behind a body, there is no tag left for attributes. -/
theorem trans (h : Gained names references s s') (h' : Gained names references' s' s'') :
    Gained names (references ++ references') s s'' := by
  obtain ⟨attributes, body, rfl, hwaiting, hkeys, htags, rfl⟩ := h
  obtain ⟨attributes', body', rfl, hwaiting', hkeys', htags', rfl⟩ := h'
  cases body with
  | none =>
    refine ⟨attributes ++ attributes', body', wrote_attributes .., ?_, ?_, htags', ?_⟩
    · intro hne
      by_cases hnil : attributes = []
      · subst hnil
        have hsome := hwaiting' (by simpa using hne)
        simpa [wrote] using hsome
      · exact hwaiting hnil
    · intro a ha
      exact (List.mem_append.1 ha).elim (hkeys a) (hkeys' a)
    · simp [Markup.tagsAll]
  | some pieces =>
    obtain rfl : attributes' = [] := by
      cases attributes' with
      | nil => rfl
      | cons => cases hwaiting' (List.cons_ne_nil _ _)
    refine ⟨attributes, some (pieces ++ body'.getD []), ?_, hwaiting, hkeys, ?_, ?_⟩
    · rw [Option.map_some, wrote_wrote]
      cases body' <;> simp [Option.merge]
    · intro t ht
      rw [Option.getD_some, Markup.tagsAll_append] at ht
      exact (List.mem_append.1 ht).elim (htags t) (htags' t)
    · simp

/-- One more piece has been written. -/
theorem piece (m : Markup) (htags : ∀ t ∈ m.tags, t.IsKnown names) :
    Gained names m.references s (s.wrote [] (some m.render)) := by
  refine ⟨[], some [m], ?_, fun h => (h rfl).elim, nofun, ?_, ?_⟩
  · simp [Markup.renderAll]
  · simpa [Markup.tagsAll] using htags
  · simp [Markup.tagsAll, Markup.references]

theorem text {t : String} (h : Sink.text t s = .ok () s') : Gained names [] s s' := by
  rw [text_eq h]
  exact piece (.text t) nofun

theorem waiting_of_addAttribute (h : addAttribute name value s = .ok () s') : s.pending.isSome = true := by
  unfold addAttribute at h
  split at h
  · cases h
  · next htag =>
    rw [htag]
    rfl

/-- An attribute refers to an attachment by its name. -/
theorem added (h : addAttribute name value s = .ok () s') (hname : name ∈ markKeys) :
    Gained names (if name = "href" then [(.href, value)] else []) s s' := by
  refine ⟨[(name, value)], none, addAttribute_eq h, fun _ => waiting_of_addAttribute h, ?_, nofun, ?_⟩
  · simpa using hname
  · by_cases href : name = "href" <;> simp [href, Markup.tagsAll]

/-- An attribute that marks the element refers to nothing. -/
theorem mark (h : addAttribute name value s = .ok () s') (hname : name ∈ markKeys) (href : name ≠ "href") :
    Gained names [] s s' := by
  have := @added names _ _ _ _ h hname
  rwa [if_neg href] at this

theorem declare {qualifier uri : String} (h : Sink.declare qualifier uri s = .ok () s')
    (hname : "xmlns:" ++ qualifier ∈ markKeys) (href : "xmlns:" ++ qualifier ≠ "href") : Gained names [] s s' := by
  obtain ⟨_, middle, hget, hrest⟩ := bind_eq_ok.1 h
  cases hget
  split at hrest
  · cases hrest
    exact refl s
  · exact mark hrest hname href

theorem markNil (h : Sink.markNil s = .ok () s') : Gained names [] s s' := by
  obtain ⟨_, middle, hdeclare, hmark⟩ := bind_eq_ok.1 h
  exact (declare hdeclare (by decide) (by decide)).trans (mark hmark (by decide) (by decide))

theorem markType {type : TypeName} (h : Sink.markType type s = .ok () s') : Gained names [] s s' := by
  obtain ⟨_, middle, hdeclare, hmark⟩ := bind_eq_ok.1 h
  have hfront : Gained names [] s middle := declare hdeclare (by decide) (by decide)
  split at hmark
  · exact hfront.trans (mark hmark (by decide) (by decide))
  · obtain ⟨_, middle', hspace, hmark⟩ := bind_eq_ok.1 hmark
    exact hfront.trans ((declare hspace (by decide) (by decide)).trans (mark hmark (by decide) (by decide)))

end Gained

/-- An element has been written behind the tag that waits. The names of the tags in it are known, and so are the
references. -/
def GainedElement (names : String → Prop) (name : String) (references : List (Reference × String)) (s s' : Sink) : Prop :=
  ∃ m : Markup, m.IsElement name ∧ s' = s.wrote [] (some m.render) ∧ (∀ t ∈ m.tags, t.IsKnown names) ∧
    m.references = references

namespace GainedElement

variable {names : String → Prop} {references : List (Reference × String)} {s s' s'' : Sink} {name : String}

theorem gained (h : GainedElement names name references s s') : Gained names references s s' := by
  obtain ⟨m, -, rfl, htags, rfl⟩ := h
  exact .piece m htags

/-- An element has the references of its tag, and behind them those of what is inside. -/
theorem around (h : Gained names references (s.started name) s') (hend : endElement s' = .ok () s'') (hname : names name) :
    GainedElement names name references s s'' := by
  obtain ⟨attributes, body, rfl, -, hkeys, htags, rfl⟩ := h
  refine ⟨.around ⟨name, attributes⟩ body, ⟨attributes, body, rfl⟩, ?_, ?_, ?_⟩
  · rw [endElement_eq hend, Markup.render_around]
  · rw [Markup.tags_around, List.forall_mem_cons]
    exact ⟨⟨hname, fun a ha => List.mem_cons_of_mem _ (hkeys a ha)⟩, htags⟩
  · rw [Markup.references, Markup.tags_around, List.flatMap_cons, PendingTag.references_href hkeys]

/-- An element that includes an attachment has one reference. -/
theorem including (hname : names includeName) (reference : String) :
    GainedElement names includeName [(.xopInclude, reference)] s
      (s.wrote [] (some (elementText ⟨includeName, includeAttributes reference⟩ none))) := by
  refine ⟨.empty ⟨includeName, includeAttributes reference⟩, ⟨_, none, rfl⟩, rfl, ?_, ?_⟩
  · rw [Markup.tags, List.forall_mem_singleton]
    exact ⟨hname, by simp [includeAttributes, markKeys]⟩
  · have hdeclares : ("xmlns:xop", xopNamespace) ∈ includeAttributes reference := by simp [includeAttributes]
    simp [Markup.references, Markup.tags, PendingTag.references, PendingTag.reference, hdeclares]
    simp [includeAttributes]

end GainedElement
end Sink
end SoapBinding.Xml
