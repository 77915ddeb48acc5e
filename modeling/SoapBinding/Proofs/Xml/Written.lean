import SoapBinding.Proofs.Outcome
import SoapBinding.Proofs.Xml.Marks
import SoapBinding.Proofs.Xml.Shown

/-!
# What a sink has written

Every piece of work on a sink adds attributes to the tag that waits, or closes that tag and writes a body
behind it, or leaves the sink alone. So its outcome, where it has one, is `Sink.wrote attributes body` of
the sink before, and the outcomes of work in a row compose (`Sink.wrote_wrote`). Between the start and the
end of an element stands what `Sink.started` gives; the element is then one more body (`endElement_eq`).
-/

namespace SoapBinding.Xml

open Outcome

/-- The tag with more attributes. -/
def PendingTag.adding (t : PendingTag) (attributes : List (String × String)) : PendingTag :=
  { t with attributes := t.attributes ++ attributes }

/-- The text of a tag that is closed, if there is one. -/
def openingText : Option PendingTag → String
  | none => ""
  | some t => "<" ++ t.render ++ ">"

namespace Sink

/-- The sink with attributes added to the tag that waits. If there is a body, the tag is closed and the
body stands behind it. -/
def wrote (attributes : List (String × String)) (body : Option String) (s : Sink) : Sink :=
  match body with
  | none => { s with pending := s.pending.map (·.adding attributes) }
  | some text =>
    { s with
      written := s.written ++ openingText (s.pending.map (·.adding attributes)) ++ text
      pending := none }

/-- The sink behind the start of an element. -/
def started (name : String) (s : Sink) : Sink :=
  { s.wrote [] (some "") with pending := some ⟨name, []⟩, opened := name :: s.opened }

variable {s s' : Sink} {name value : String} {attributes : List (String × String)} {body : Option String}

theorem adding_nil (t : PendingTag) : t.adding [] = t := by
  rw [PendingTag.adding, List.append_nil]

theorem wrote_nothing (s : Sink) : s.wrote [] none = s := by
  have : (fun t : PendingTag => t.adding []) = id := funext adding_nil
  rw [wrote, this, Option.map_id]
  rfl

/-- Attributes first, then more of both. -/
theorem wrote_attributes (s : Sink) (front back : List (String × String)) (body : Option String) :
    (s.wrote front none).wrote back body = s.wrote (front ++ back) body := by
  have hpending : (s.pending.map (·.adding front)).map (·.adding back) =
      s.pending.map (·.adding (front ++ back)) := by
    rw [Option.map_map]
    congr 1
    funext t
    show (t.adding front).adding back = _
    simp only [PendingTag.adding, List.append_assoc]
  cases body <;> simp only [wrote, hpending]

/-- One body behind the other. -/
theorem wrote_wrote (s : Sink) (attributes : List (String × String)) (body body' : Option String) :
    (s.wrote attributes body).wrote [] body' =
      s.wrote attributes (Option.merge (· ++ ·) body body') := by
  cases body with
  | none =>
    rw [wrote_attributes, List.append_nil]
    cases body' <;> rfl
  | some text =>
    cases body' with
    | none => exact wrote_nothing _
    | some text' =>
      simp only [wrote, Option.merge, Option.map_none, openingText, String.append_assoc,
        String.empty_append]

/-- What has been written can be told from the outcome. -/
theorem getD_eq_of_wrote (s : Sink) {body body' : Option String} (h : s.wrote [] body = s.wrote [] body') :
    body.getD "" = body'.getD "" := by
  have hcancel {front t t' : String} (h : front ++ t = front ++ t') : t = t' := by
    simpa [← String.toList_inj] using h
  have hnothing {t : String} (h : s = s.wrote [] (some t)) : t = "" := by
    have hpending : s.pending = none := congrArg Sink.pending h
    have hwritten : s.written = s.written ++ openingText (s.pending.map (·.adding [])) ++ t := congrArg Sink.written h
    rw [hpending, Option.map_none, openingText, String.append_empty] at hwritten
    exact hcancel (hwritten.symm.trans String.append_empty.symm)
  cases body with
  | none =>
    rw [wrote_nothing] at h
    cases body' with
    | none => rfl
    | some t' => exact (hnothing h).symm
  | some t =>
    cases body' with
    | none =>
      rw [wrote_nothing] at h
      exact hnothing h.symm
    | some t' => exact hcancel (congrArg Sink.written h)

/-! ### What the operations write -/

theorem emit_eq {piece : String} (h : emit piece s = .ok () s') :
    s' = { s with written := s.written ++ piece } := by
  unfold emit at h
  dsimp only at h
  split at h
  · cases h
    rfl
  · cases h

theorem closeTag_eq (h : closeTag s = .ok () s') : s' = s.wrote [] (some "") := by
  obtain ⟨written, pending, opened, limit⟩ := s
  unfold closeTag at h
  cases pending with
  | none =>
    cases h
    simp only [wrote, Option.map_none, openingText, String.append_empty]
  | some tag =>
    rw [emit_eq h]
    simp only [wrote, Option.map_some, adding_nil, openingText, String.append_empty]

theorem text_eq {t : String} (h : text t s = .ok () s') : s' = s.wrote [] (some (escape t)) := by
  obtain ⟨_, middle, hclose, hrest⟩ := bind_eq_ok.1 h
  rw [closeTag_eq hclose] at hrest
  split at hrest
  · next hempty =>
    have ht : t = "" := by simpa using hempty
    subst ht
    cases hrest
    rfl
  · rw [emit_eq hrest]
    simp only [wrote, String.append_assoc, String.empty_append]

theorem addAttribute_eq (h : addAttribute name value s = .ok () s') :
    s' = s.wrote [(name, value)] none := by
  unfold addAttribute at h
  split at h
  · cases h
  · next tag htag =>
    cases h
    rw [wrote, htag]
    rfl

theorem startElement_eq (h : startElement name s = .ok () s') : s' = s.started name := by
  obtain ⟨_, middle, hclose, hrest⟩ := bind_eq_ok.1 h
  rw [closeTag_eq hclose] at hrest
  cases hrest
  rfl

/-- The end of an element makes it one more body. -/
theorem endElement_eq (h : endElement ((s.started name).wrote attributes body) = .ok () s') :
    s' = s.wrote [] (some (elementText ⟨name, attributes⟩ body)) := by
  cases body with
  | none =>
    have hemit := emit_eq h
    rw [hemit]
    simp only [started, wrote, PendingTag.adding, List.nil_append, elementText, String.append_empty,
      String.append_assoc]
  | some text =>
    have hemit := emit_eq h
    rw [hemit]
    simp only [started, wrote, PendingTag.adding, List.nil_append, elementText, Option.map_some, openingText,
      String.append_empty, String.append_assoc]

/-! ### Marks -/

/-- A qualifier that the tag does not declare yet is declared. -/
theorem declare_eq {qualifier uri : String} (h : declare qualifier uri s = .ok () s')
    (hnew : s.hasAttribute ("xmlns:" ++ qualifier) = false) :
    s' = s.wrote [("xmlns:" ++ qualifier, uri)] none := by
  obtain ⟨_, middle, hget, hrest⟩ := bind_eq_ok.1 h
  cases hget
  rw [hnew, if_neg (by decide)] at hrest
  exact addAttribute_eq hrest

/-- A tag without attributes declares nothing. -/
theorem hasAttribute_started (s : Sink) (name key : String) :
    (s.started name).hasAttribute key = false := rfl

/-- The qualifier of the marks is not that of the types. -/
theorem hasAttribute_xsi (s : Sink) (name : String) :
    ((s.started name).wrote [("xmlns:xsi", xsiNamespace)] none).hasAttribute "xmlns:tns" = false := by
  have hkeys : (RawAttributes.keys (Utf8.ofString (String.join
      ([("xmlns:xsi", xsiNamespace)].map PendingTag.renderAttribute)))).contains
        (Utf8.ofString "xmlns:tns") = false := by
    decide +kernel
  unfold hasAttribute
  exact hkeys

theorem markNil_eq (h : markNil (s.started name) = .ok () s') :
    s' = (s.started name).wrote nilAttributes none := by
  obtain ⟨_, middle, hdeclare, hmark⟩ := bind_eq_ok.1 h
  rw [declare_eq hdeclare (hasAttribute_started s name _)] at hmark
  rw [addAttribute_eq hmark, wrote_attributes]
  rfl

theorem markType_eq {type : TypeName} (h : markType type (s.started name) = .ok () s') :
    s' = (s.started name).wrote (typeAttributes type) none := by
  obtain ⟨_, middle, hdeclare, hmark⟩ := bind_eq_ok.1 h
  rw [declare_eq hdeclare (hasAttribute_started s name _)] at hmark
  by_cases hempty : type.space.isEmpty
  · rw [if_pos hempty] at hmark
    rw [addAttribute_eq hmark, wrote_attributes, typeAttributes, typeText, if_pos hempty, if_pos hempty]
    rfl
  · rw [if_neg hempty] at hmark
    obtain ⟨_, middle', hspace, htype⟩ := bind_eq_ok.1 hmark
    rw [declare_eq hspace (hasAttribute_xsi s name), wrote_attributes] at htype
    rw [addAttribute_eq htype, wrote_attributes, typeAttributes, typeText, if_neg hempty, if_neg hempty]
    rfl

/-- An element marked nil. -/
theorem nil_eq {s₁ s₂ : Sink} (hstart : startElement name s = .ok () s₁) (hmark : markNil s₁ = .ok () s₂)
    (hend : endElement s₂ = .ok () s') :
    s' = s.wrote [] (some (elementText ⟨name, nilAttributes⟩ none)) := by
  rw [startElement_eq hstart] at hmark
  rw [markNil_eq hmark] at hend
  exact endElement_eq hend

/-! ### What can be written -/

variable {sink : Sink} {opened : List String}

/-- Nothing limits the document, and these are the elements that are open. -/
structure Stands (opened : List String) (sink : Sink) : Prop where
  limit : sink.limit = none
  opened : sink.opened = opened

theorem Stands.wrote (h : sink.Stands opened) (attributes : List (String × String)) (body : Option String) :
    (sink.wrote attributes body).Stands opened := by
  cases body with
  | none => exact ⟨h.limit, h.opened⟩
  | some text => exact ⟨h.limit, h.opened⟩

theorem Stands.started (h : sink.Stands opened) (name : String) : (sink.started name).Stands (name :: opened) :=
  ⟨h.limit, congrArg (name :: ·) h.opened⟩

theorem emit_ok (h : sink.limit = none) (piece : String) : ∃ sink', emit piece sink = .ok () sink' := by
  unfold emit admits
  rw [h]
  exact ⟨_, rfl⟩

theorem closeTag_ok (h : sink.limit = none) : closeTag sink = .ok () (sink.wrote [] (some "")) := by
  have hok : ∃ sink', closeTag sink = .ok () sink' := by
    unfold closeTag
    cases sink.pending with
    | none => exact ⟨_, rfl⟩
    | some tag => exact @emit_ok { sink with pending := none } h _
  obtain ⟨sink', hclose⟩ := hok
  rw [hclose, closeTag_eq hclose]

theorem startElement_ok (h : sink.limit = none) (name : String) :
    startElement name sink = .ok () (sink.started name) :=
  (bind_ok (closeTag_ok h)).trans rfl

theorem text_ok (h : sink.limit = none) (t : String) : ∃ sink', text t sink = .ok () sink' := by
  unfold text
  rw [bind_ok (closeTag_ok h)]
  split
  · exact ⟨_, rfl⟩
  · exact @emit_ok (sink.wrote [] (some "")) h _

theorem endElement_ok (h : sink.Stands (name :: opened)) :
    ∃ sink', endElement sink = .ok () sink' ∧ sink'.Stands opened := by
  have hemit (piece : String) (s : Sink) (hs : s.Stands opened) :
      ∃ sink', emit piece s = .ok () sink' ∧ sink'.Stands opened := by
    obtain ⟨sink', hok⟩ := emit_ok hs.limit piece
    rw [emit_eq hok] at hok
    exact ⟨_, hok, hs.limit, hs.opened⟩
  unfold endElement
  rw [h.opened]
  cases sink.pending with
  | none => exact hemit _ _ ⟨h.limit, rfl⟩
  | some tag => exact hemit _ _ ⟨h.limit, rfl⟩

/-- Behind the end of an element, no tag waits. -/
theorem pending_of_endElement {sink' : Sink} (h : endElement sink = .ok () sink') : sink'.pending = none := by
  unfold endElement at h
  split at h
  · cases h
  · split at h
    · rw [emit_eq h]
    · next hpending => rw [emit_eq h, hpending]

/-- Attributes can be added to a tag that waits. -/
theorem addAttribute_ok (sink : Sink) (name key value : String) (attributes : List (String × String)) :
    ∃ sink', addAttribute key value ((sink.started name).wrote attributes none) = .ok () sink' :=
  ⟨_, rfl⟩

theorem declare_ok (sink : Sink) (name qualifier uri : String) (attributes : List (String × String)) :
    ∃ sink', declare qualifier uri ((sink.started name).wrote attributes none) = .ok () sink' := by
  show ∃ sink', (if hasAttribute ((sink.started name).wrote attributes none) ("xmlns:" ++ qualifier) = true then
    pure () else addAttribute ("xmlns:" ++ qualifier) uri : Writing Unit) _ = _
  split
  · exact ⟨_, rfl⟩
  · exact addAttribute_ok sink name _ _ attributes

theorem markNil_ok (sink : Sink) (name : String) : ∃ sink', markNil (sink.started name) = .ok () sink' :=
  ⟨_, rfl⟩

theorem markType_ok (sink : Sink) (name : String) (type : TypeName) :
    ∃ sink', markType type (sink.started name) = .ok () sink' := by
  obtain ⟨declared, hdeclare⟩ := declare_ok sink name "xsi" xsiNamespace []
  rw [wrote_nothing] at hdeclare
  unfold markType
  rw [bind_ok hdeclare, declare_eq hdeclare (hasAttribute_started sink name _)]
  split
  · exact addAttribute_ok sink name _ _ _
  · obtain ⟨spaced, hspace⟩ := declare_ok sink name typeQualifier type.space [("xmlns:" ++ "xsi", xsiNamespace)]
    rw [bind_ok hspace, declare_eq hspace (hasAttribute_xsi sink name), wrote_attributes]
    exact addAttribute_ok sink name _ _ _

end Sink
end SoapBinding.Xml
