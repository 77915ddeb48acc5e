import SoapBinding.Proofs.Xml.Captured
import SoapBinding.Proofs.Xml.Written

/-!
# Tags with references

Payloads that are written with no element around them leave their references on the tag that waits, behind its marks. One
reference is one more attribute of the element (`mayStandFor_referring`). Two are attributes of one name, and the tag is
refused by whoever reads it: a fault of the markup, and of no name.
-/

namespace SoapBinding.Xml

open Outcome

/-- The bytes of a tag stand for an element, or they are refused. -/
def MayStandFor (t : PendingTag) (e : Element) : Prop :=
  IsTag t ∧ ∀ outer : Scope, outer.IsBare →
    (∃ scope : Scope, scope.IsBare ∧ Element.ofTag outer (tagBytes t) = .ok (e, scope)) ∨
      Element.ofTag outer (tagBytes t) = .error .markup

/-- The attributes that refer to attachments, as they are written. -/
def referring (references : List String) : List (String × String) := references.map fun r => ("href", r)

/-- The attributes that refer to attachments, as they are read. -/
def referred (references : List String) : List Attribute := references.map fun r => ⟨none, "href", r⟩

variable {outer scope : Scope} {t : PendingTag} {e : Element} {attributes : List Attribute}

theorem StandsFor.mayStandFor (h : StandsFor t e) : MayStandFor t e :=
  ⟨h.1, fun outer houter => .inl (h.2 outer houter)⟩

theorem mem_referring {references : List String} {a : String × String} (h : a ∈ referring references) : a.1 = "href" := by
  obtain ⟨r, -, rfl⟩ := List.mem_map.1 h
  rfl

/-- References declare nothing. -/
theorem Scope.enter_referring (references : List String) :
    scope.enter ⟨(referring references).map rawOf, false⟩ = .ok scope :=
  Scope.enter_plain fun _ ha => by
    rw [mem_referring ha]
    decide

/-- What stands behind other attributes is entered behind them. -/
theorem Scope.enter_append {front back : List RawAttribute} (h : outer.enter ⟨front, false⟩ = .ok scope) :
    outer.enter ⟨front ++ back, false⟩ = scope.enter ⟨back, false⟩ := by
  unfold Scope.enter at h ⊢
  dsimp only at h ⊢
  rw [List.foldlM_append, h]
  rfl

namespace Element

/-- Attributes behind others are resolved as on their own, with more keys met. -/
theorem resolveAttributes_append {met : List Bytes} {front : List RawAttribute}
    (h : resolveAttributes scope false met front = .ok attributes) :
    ∃ met', (∀ key, key ∈ met' → key ∈ met ∨ key ∈ front.map (·.key)) ∧ ∀ back,
      resolveAttributes scope false met (front ++ back) =
        (resolveAttributes scope false met' back).map (attributes ++ ·) := by
  induction front generalizing met attributes with
  | nil =>
    cases h
    refine ⟨met, fun _ => .inl, fun back => ?_⟩
    rw [List.nil_append]
    cases resolveAttributes scope false met back <;> rfl
  | cons a front ih =>
    have hkeys {key : Bytes} (hkey : key ∈ a.key :: met ∨ key ∈ front.map (·.key)) :
        key ∈ met ∨ key ∈ (a :: front).map (·.key) := by
      rw [List.map_cons, List.mem_cons]
      rcases hkey with hkey | hkey
      · exact (List.mem_cons.1 hkey).elim (fun heq => .inr (.inl heq)) .inl
      · exact .inr (.inr hkey)
    unfold resolveAttributes at h
    by_cases hmet : met.contains a.key = true
    · rw [if_pos hmet] at h
      cases h
    rw [if_neg hmet] at h
    by_cases hdeclaration : Scope.isDeclaration a.key = true
    · rw [if_pos hdeclaration] at h
      obtain ⟨met', hmet', hback⟩ := ih h
      refine ⟨met', fun key hkey => hkeys (hmet' key hkey), fun back => ?_⟩
      rw [List.cons_append, resolveAttributes, if_neg hmet, if_pos hdeclaration]
      exact hback back
    · rw [if_neg hdeclaration] at h
      dsimp only at h
      obtain ⟨space, hspace, h⟩ := except_bind_eq_ok.1 h
      obtain ⟨localName, htext, h⟩ := except_bind_eq_ok.1 h
      obtain ⟨value, hvalue, h⟩ := except_bind_eq_ok.1 h
      obtain ⟨others, hothers, h⟩ := except_bind_eq_ok.1 h
      cases h
      obtain ⟨met', hmet', hback⟩ := ih hothers
      refine ⟨met', fun key hkey => hkeys (hmet' key hkey), fun back => ?_⟩
      rw [List.cons_append, resolveAttributes, if_neg hmet, if_neg hdeclaration]
      dsimp only
      rw [hspace, htext, hvalue, hback back]
      cases resolveAttributes scope false met' back <;> rfl

/-- A name that is met twice is refused. -/
theorem resolveAttributes_twice {met : List Bytes} {key value value' localName : String} {resolution : Resolution}
    {space : Option String} (rest : List (String × String)) (hmet : met.contains (Utf8.ofString key) = false)
    (hkey : Scope.isDeclaration (Utf8.ofString key) = false)
    (hresolve : scope.resolve false (Utf8.ofString key) = (resolution, Utf8.ofString localName))
    (hspace : spaceOf (Utf8.ofString key) resolution = .ok space) :
    resolveAttributes scope false met (((key, value) :: (key, value') :: rest).map rawOf) = .error .markup := by
  have hsecond : resolveAttributes scope false (Utf8.ofString key :: met) (((key, value') :: rest).map rawOf) =
      .error .markup := by
    rw [List.map_cons, rawOf, resolveAttributes]
    dsimp only
    rw [if_pos (by simp)]
  rw [List.map_cons, rawOf, resolveAttributes]
  dsimp only
  rw [hmet, if_neg (by decide), hkey, if_neg (by decide), hresolve]
  dsimp only
  rw [hspace, text_ofString, unescaped_escape, hsecond]
  rfl

/-- One reference is one more attribute, and two are refused. -/
theorem resolveAttributes_referring (hbare : scope.IsBare) {met : List Bytes} (hmet : Utf8.ofString "href" ∉ met)
    (references : List String) :
    resolveAttributes scope false met ((referring references).map rawOf) = .ok (referred references) ∨
      resolveAttributes scope false met ((referring references).map rawOf) = .error .markup := by
  have hnew : met.contains (Utf8.ofString "href") = false := by simpa using hmet
  have hresolve : scope.resolve false (Utf8.ofString "href") = (.unbound, Utf8.ofString "href") :=
    hbare.resolve (by decide) false
  match references with
  | [] => exact .inl rfl
  | [r] => exact .inl (resolveAttributes_mark hnew (by decide) hresolve rfl)
  | r :: r' :: rest => exact .inr (resolveAttributes_twice (referring rest) hnew (by decide) hresolve rfl)

/-- References name no type. -/
theorem typeValue?_referred (references : List String) :
    typeValue? (attributes ++ referred references) = typeValue? attributes := by
  have hnone : (referred references).find? (fun a => a.localName == "type" && a.space == some xsiNamespace) = none := by
    rw [List.find?_eq_none]
    intro a ha
    obtain ⟨r, -, rfl⟩ := List.mem_map.1 ha
    simp
  rw [typeValue?, typeValue?, List.find?_append, hnone, Option.or_none]

/-- A tag is refused for its attributes, if nothing in front of them is refused. -/
theorem ofTag_eq_error {tag : Bytes} {space : Option String} {localName : String} {raw : RawAttributes}
    (hscan : RawAttributes.scan (tag.drop (nameOf tag).length) = raw) (henter : outer.enter raw = .ok scope)
    (hspace : spaceOf (nameOf tag) (scope.resolve true (nameOf tag)).1 = .ok space)
    (htext : text (scope.resolve true (nameOf tag)).2 = .ok localName)
    (hattributes : resolveAttributes scope raw.isFaulty [] raw.items = .error .markup) :
    ofTag outer tag = .error .markup := by
  unfold ofTag
  dsimp only
  rw [hscan, henter]
  simp only [bind, Except.bind, hspace, htext, hattributes]

end Element

/-- **A tag that comes to refer to attachments stands for its element with one more attribute**, or it is refused. -/
theorem mayStandFor_referring (h : StandsFor t e) (hkeys : ∀ a ∈ t.attributes, a.1 ≠ "href") (references : List String) :
    MayStandFor (t.adding (referring references)) { e with attributes := e.attributes ++ referred references } := by
  have htag : IsTag (t.adding (referring references)) := by
    refine ⟨h.1.name, fun a ha => ?_⟩
    rcases List.mem_append.1 ha with ha | ha
    · exact h.1.keys a ha
    · rw [mem_referring ha]
      exact isTagName_href
  refine ⟨htag, fun outer houter => ?_⟩
  obtain ⟨scope, hbare, hread⟩ := h.2 outer houter
  obtain ⟨henter, hspace, htext, hattributes, htype⟩ := Element.ofTag_eq_ok.1 hread
  rw [scan_tag h.1] at henter hattributes
  rw [nameOf_tagBytes h.1] at hspace htext
  -- The references stand behind the marks and declare nothing, so the scope is that of the marks.
  have hscan := scan_tag htag
  have hname : Element.nameOf (tagBytes (t.adding (referring references))) = Utf8.ofString t.name := nameOf_tagBytes htag
  have henter' : outer.enter ⟨(t.adding (referring references)).attributes.map rawOf, false⟩ = .ok scope := by
    rw [PendingTag.adding, List.map_append, Scope.enter_append henter, Scope.enter_referring]
  obtain ⟨met, hmet, hback⟩ := Element.resolveAttributes_append hattributes
  have hnew : Utf8.ofString "href" ∉ met := by
    intro hmem
    rcases hmet _ hmem with hmem | hmem
    · cases hmem
    · rw [List.map_map] at hmem
      obtain ⟨a, ha, heq⟩ := List.mem_map.1 hmem
      exact hkeys a ha (Utf8.ofString_inj heq)
  have hback' := hback ((referring references).map rawOf)
  rw [← List.map_append] at hback'
  rcases Element.resolveAttributes_referring hbare hnew references with hmore | hmore
  · left
    rw [hmore] at hback'
    refine ⟨scope, hbare, Element.ofTag_eq_ok.2 ⟨by rw [hscan, henter'], by rw [hname, hspace], by rw [hname, htext],
      by rw [hscan]; exact hback', ?_⟩⟩
    rw [Element.typeValue?_referred]
    exact htype
  · right
    rw [hmore] at hback'
    exact Element.ofTag_eq_error hscan henter' (by rw [hname, hspace]) (by rw [hname, htext]) hback'

end SoapBinding.Xml
