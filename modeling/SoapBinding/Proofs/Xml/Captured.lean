import SoapBinding.Proofs.Outcome
import SoapBinding.Proofs.Xml.Shown

/-!
# Elements in other places

What an element means depends on the namespaces in scope around it. Compare a place with no more than the bindings that hold
everywhere to a place inside other elements (`Scope.Captures`). A qualifier that the element itself declares stands for the
same there, and attributes without a qualifier stay in no namespace. But a default namespace from outside applies to the
names of elements, and to a type that is named without a qualifier. It captures them, and nothing else differs
(`Element.IsCaptured`).

So the nodes of a document that is read alone are in front of those that are read in its place inside another document
(`fronts_ofTokens`).
-/

namespace SoapBinding.Xml

open Outcome

/-- A scope that binds what another does. Its default namespace is that of the other, or a text. -/
structure Scope.Captures (inner outer : Scope) : Prop where
  keeps : ∀ qualifier uri, inner.uri? qualifier = some uri → outer.uri? qualifier = some uri
  default : ∀ uri, outer.uri? [] = some uri → inner.uri? [] = some uri ∨ ∃ t, Element.text uri = .ok t

/-- A type that is named without a qualifier is captured by a default namespace. -/
inductive TypeReference.IsCaptured : TypeReference → TypeReference → Prop where
  | same (r : TypeReference) : IsCaptured r r
  | bare (name uri : String) : IsCaptured ⟨⟨"", name⟩, false⟩ ⟨⟨uri, name⟩, false⟩

/-- An element, and what becomes of it in another place. -/
structure Element.IsCaptured (e e' : Element) : Prop where
  localName : e'.localName = e.localName
  space : e.space = none ∨ e'.space = e.space
  attributes : e'.attributes = e.attributes
  xsiType : Option.Rel TypeReference.IsCaptured e.xsiType e'.xsiType

namespace Element.IsCaptured

variable {e e' : Element}

theorem refl (e : Element) : e.IsCaptured e := by
  refine ⟨rfl, .inr rfl, rfl, ?_⟩
  cases e.xsiType with
  | none => exact .none
  | some r => exact .some (.same r)

/-- The attributes say the same in the other place. -/
theorem attribute? (h : e.IsCaptured e') (space : Option String) (localName : String) :
    e'.attribute? space localName = e.attribute? space localName := by
  rw [Element.attribute?, Element.attribute?, h.attributes]

theorem isNil (h : e.IsCaptured e') : e'.isNil = e.isNil := by
  rw [Element.isNil, Element.isNil, h.attribute?]

end Element.IsCaptured

namespace Scope.Captures

variable {inner outer : Scope}

/-- A name that stands for something stands for the same, unless it is captured. -/
theorem resolveQualifier (h : inner.Captures outer) {qualifier uri : Bytes}
    (hbound : inner.resolveQualifier qualifier = .bound uri) : outer.resolveQualifier qualifier = .bound uri := by
  unfold Scope.resolveQualifier at hbound ⊢
  by_cases hempty : qualifier.isEmpty
  · rw [if_pos hempty] at hbound
    cases hbound
  · rw [if_neg hempty] at hbound ⊢
    cases huri : inner.uri? qualifier with
    | none =>
      rw [huri] at hbound
      cases hbound
    | some found =>
      rw [huri] at hbound
      rw [h.keeps _ _ huri]
      exact hbound

/-- The default namespace is that of the scope inside, if there is one; or else it is a text, or none. -/
theorem resolveDefault (h : inner.Captures outer) :
    outer.resolveDefault = inner.resolveDefault ∨
      inner.resolveDefault = .unbound ∧ ∃ uri t, outer.resolveDefault = .bound uri ∧ Element.text uri = .ok t := by
  unfold Scope.resolveDefault
  cases hinner : inner.uri? [] with
  | some uri =>
    rw [h.keeps _ _ hinner]
    exact .inl rfl
  | none =>
    cases houter : outer.uri? [] with
    | none => exact .inl rfl
    | some uri =>
      by_cases hempty : uri.isEmpty
      · simp [hempty]
      · obtain ⟨t, ht⟩ := (h.default uri houter).resolve_left (by simp [hinner])
        simp [hempty, ht]

/-- The space of a name that is resolved is the same, unless the name has no qualifier and is captured. -/
theorem spaceOf (h : inner.Captures outer) {useDefault : Bool} {key name : Bytes} {space : Option String}
    (hspace : Element.spaceOf key (inner.resolve useDefault name).1 = .ok space) :
    (outer.resolve useDefault name).2 = (inner.resolve useDefault name).2 ∧
      ∃ space', Element.spaceOf key (outer.resolve useDefault name).1 = .ok space' ∧
        (space' = space ∨ useDefault = true ∧ space = none ∧ 0x3A ∉ name) := by
  unfold Scope.resolve at hspace ⊢
  cases hsplit : split name with
  | mk qualifier localPart =>
    rw [hsplit] at hspace
    cases qualifier with
    | some qualifier =>
      refine ⟨rfl, space, ?_, .inl rfl⟩
      dsimp only at hspace ⊢
      cases hbound : inner.resolveQualifier qualifier with
      | bound uri => rwa [h.resolveQualifier hbound, ← hbound]
      | unbound =>
        unfold Scope.resolveQualifier at hbound
        split at hbound
        · cases hbound
        · split at hbound
          · cases hbound
          · split at hbound <;> cases hbound
      | undeclared =>
        rw [hbound] at hspace
        cases hspace
    | none =>
      refine ⟨rfl, ?_⟩
      dsimp only at hspace ⊢
      cases useDefault with
      | false => exact ⟨space, hspace, .inl rfl⟩
      | true =>
        obtain hsame | ⟨hunbound, uri, t, hbound, ht⟩ := h.resolveDefault
        · rw [if_pos rfl] at hspace ⊢
          exact ⟨space, by rwa [hsame], .inl rfl⟩
        · -- Only a name without a colon is captured: the split has found no qualifier.
          rw [if_pos rfl, hunbound] at hspace
          cases hspace
          refine ⟨some t, by rw [if_pos rfl, hbound, Element.spaceOf, ht]; rfl, .inr ⟨rfl, rfl, ?_⟩⟩
          unfold split at hsplit
          split at hsplit
          · next hnone =>
            have hname := @List.takeWhile_append_dropWhile _ (· != 0x3A) name
            rw [hnone, List.append_nil] at hname
            have hall := @List.all_takeWhile _ (· != 0x3A) name
            rw [hname] at hall
            exact fun hmem => by simpa using List.all_eq_true.1 hall _ hmem
          · cases hsplit

/-- What an attribute declares is added to both scopes. -/
theorem declare (h : inner.Captures outer) {a : RawAttribute} {scope : Scope} (hdeclare : inner.declare a = .ok scope) :
    ∃ scope', outer.declare a = .ok scope' ∧ scope.Captures scope' := by
  -- A binding in front of both scopes hides the same in both, also where it is the default namespace.
  have hcons (qualifier uri : Bytes) : Captures (⟨qualifier, uri⟩ :: inner) (⟨qualifier, uri⟩ :: outer) := by
    constructor
    · intro other uri' hother
      by_cases heq : other = qualifier
      · subst heq
        rwa [uri?_cons_self] at hother ⊢
      · rw [uri?_cons_of_ne (Ne.symm heq)] at hother ⊢
        exact h.keeps _ _ hother
    · intro uri' huri
      by_cases heq : [] = qualifier
      · subst heq
        rw [uri?_cons_self] at huri ⊢
        exact .inl huri
      · rw [uri?_cons_of_ne (Ne.symm heq)] at huri ⊢
        exact h.default _ huri
  unfold Scope.declare at hdeclare ⊢
  by_cases hdefault : a.key = defaultKey
  · rw [if_pos hdefault] at hdeclare ⊢
    cases hdeclare
    exact ⟨_, rfl, hcons _ _⟩
  · rw [if_neg hdefault] at hdeclare ⊢
    by_cases hqualified : qualifiedKey.isPrefixOf a.key = true
    · rw [if_pos hqualified] at hdeclare ⊢
      dsimp only at hdeclare ⊢
      split at hdeclare
      · split at hdeclare
        · next hxml huri =>
          cases hdeclare
          exact ⟨outer, by rw [if_pos hxml, if_pos huri], h⟩
        · cases hdeclare
      · split at hdeclare
        · cases hdeclare
        · next hxml hreserved =>
          cases hdeclare
          exact ⟨_, by rw [if_neg hxml, if_neg hreserved], hcons _ _⟩
    · rw [if_neg hqualified] at hdeclare ⊢
      cases hdeclare
      exact ⟨outer, rfl, h⟩

/-- What a tag declares is added to both scopes. -/
theorem enter (h : inner.Captures outer) {as : RawAttributes} {scope : Scope} (henter : inner.enter as = .ok scope) :
    ∃ scope', outer.enter as = .ok scope' ∧ scope.Captures scope' := by
  unfold Scope.enter at henter ⊢
  generalize as.items = raw at henter ⊢
  induction raw generalizing inner outer with
  | nil =>
    cases henter
    exact ⟨outer, rfl, h⟩
  | cons a rest ih =>
    rw [List.foldlM_cons] at henter ⊢
    cases hdeclare : inner.declare a with
    | error fault =>
      rw [hdeclare] at henter
      cases henter
    | ok middle =>
      obtain ⟨middle', hdeclare', hmiddle⟩ := h.declare hdeclare
      rw [hdeclare] at henter
      rw [hdeclare']
      exact ih hmiddle henter

end Scope.Captures

namespace Element

variable {inner outer : Scope}

/-- Attributes are the same in both places, as those without a qualifier are in no namespace. -/
theorem resolveAttributes_captured (h : inner.Captures outer) {isFaulty : Bool} {met : List Bytes}
    {raw : List RawAttribute} {attributes : List Attribute}
    (hresolve : resolveAttributes inner isFaulty met raw = .ok attributes) :
    resolveAttributes outer isFaulty met raw = .ok attributes := by
  induction raw generalizing met attributes with
  | nil => exact hresolve
  | cons a rest ih =>
    unfold resolveAttributes at hresolve ⊢
    by_cases hmet : met.contains a.key = true
    · rw [if_pos hmet] at hresolve
      cases hresolve
    rw [if_neg hmet] at hresolve ⊢
    by_cases hdeclaration : Scope.isDeclaration a.key = true
    · rw [if_pos hdeclaration] at hresolve ⊢
      exact ih hresolve
    rw [if_neg hdeclaration] at hresolve ⊢
    dsimp only at hresolve ⊢
    obtain ⟨space, hspace, hresolve⟩ := except_bind_eq_ok.1 hresolve
    obtain ⟨localName, htext, hresolve⟩ := except_bind_eq_ok.1 hresolve
    obtain ⟨unescaped, hvalue, hresolve⟩ := except_bind_eq_ok.1 hresolve
    obtain ⟨others, hrest, hresolve⟩ := except_bind_eq_ok.1 hresolve
    obtain ⟨hlocal, space', hspace', hsame⟩ := h.spaceOf hspace
    -- The default namespace does not apply to attributes.
    obtain rfl : space' = space := hsame.resolve_right fun h => Bool.false_ne_true h.1
    rw [hlocal]
    exact except_bind_eq_ok.2 ⟨_, hspace', except_bind_eq_ok.2 ⟨_, htext, except_bind_eq_ok.2 ⟨_, hvalue,
      except_bind_eq_ok.2 ⟨_, ih hrest, hresolve⟩⟩⟩⟩

/-- A type that is named in one place is named in the other, or captured there. -/
theorem resolveType_captured (h : inner.Captures outer) {element value : String} {r : TypeReference}
    (hresolve : resolveType inner element value = .ok r) :
    ∃ r', resolveType outer element value = .ok r' ∧ r.IsCaptured r' := by
  unfold resolveType at hresolve ⊢
  dsimp only at hresolve ⊢
  cases hspace : spaceOf [] (inner.resolve true (Utf8.ofString (Text.trim value))).1 with
  | error fault =>
    rw [hspace] at hresolve
    cases hresolve
  | ok space =>
    obtain ⟨hlocal, space', hspace', hsame⟩ := h.spaceOf hspace
    rw [hspace] at hresolve
    rw [hlocal, hspace']
    cases hresolve
    refine ⟨_, rfl, ?_⟩
    obtain rfl | ⟨-, rfl, hcolon⟩ := hsame
    · exact .same _
    · have hbare : (Text.trim value).toList.contains ':' = false := by
        rw [← Bool.not_eq_true, List.contains_iff_mem]
        exact fun hmem => hcolon ((Utf8.mem_encode_iff (by decide) _).2 hmem)
      rw [hbare]
      exact .bare _ _

/-- So it is where a type may be named. -/
theorem resolveTypes_captured (h : inner.Captures outer) {element : String} {value : Option String}
    {r : Option TypeReference} (hresolve : value.mapM (resolveType inner element) = .ok r) :
    ∃ r', value.mapM (resolveType outer element) = .ok r' ∧ Option.Rel TypeReference.IsCaptured r r' := by
  cases value with
  | none =>
    cases hresolve
    exact ⟨none, rfl, .none⟩
  | some value =>
    rw [Option.mapM_some] at hresolve
    cases hone : resolveType inner element value with
    | error fault =>
      rw [hone] at hresolve
      cases hresolve
    | ok one =>
      obtain ⟨one', hone', hcaptured⟩ := resolveType_captured h hone
      rw [hone] at hresolve
      cases hresolve
      exact ⟨some one', by rw [Option.mapM_some, hone']; rfl, .some hcaptured⟩

/-- What is found for the element of a start tag, one step after the other. -/
theorem ofTag_eq_ok {tag : Bytes} {e : Element} {scope : Scope} : ofTag outer tag = .ok (e, scope) ↔
    outer.enter (RawAttributes.scan (tag.drop (nameOf tag).length)) = .ok scope ∧
      spaceOf (nameOf tag) (scope.resolve true (nameOf tag)).1 = .ok e.space ∧
      text (scope.resolve true (nameOf tag)).2 = .ok e.localName ∧
      resolveAttributes scope (RawAttributes.scan (tag.drop (nameOf tag).length)).isFaulty []
        (RawAttributes.scan (tag.drop (nameOf tag).length)).items = .ok e.attributes ∧
      (typeValue? e.attributes).mapM (resolveType scope e.localName) = .ok e.xsiType := by
  constructor
  · intro h
    unfold ofTag at h
    dsimp only at h
    obtain ⟨inside, henter, h⟩ := except_bind_eq_ok.1 h
    obtain ⟨space, hspace, h⟩ := except_bind_eq_ok.1 h
    obtain ⟨localName, htext, h⟩ := except_bind_eq_ok.1 h
    obtain ⟨attributes, hattributes, h⟩ := except_bind_eq_ok.1 h
    cases hvalue : typeValue? attributes with
    | none =>
      rw [hvalue] at h
      cases h
      exact ⟨henter, hspace, htext, hattributes, by rw [hvalue]; rfl⟩
    | some value =>
      rw [hvalue] at h
      dsimp only at h
      cases hresolve : resolveType inside localName value with
      | error fault =>
        rw [hresolve] at h
        cases h
      | ok r =>
        rw [hresolve] at h
        cases h
        exact ⟨henter, hspace, htext, hattributes, by rw [hvalue, Option.mapM_some, hresolve]; rfl⟩
  · obtain ⟨localName, space, attributes, xsiType⟩ := e
    rintro ⟨henter, hspace, htext, hattributes, htype⟩
    unfold ofTag
    dsimp only
    refine except_bind_eq_ok.2 ⟨_, henter, except_bind_eq_ok.2 ⟨_, hspace, except_bind_eq_ok.2 ⟨_, htext,
      except_bind_eq_ok.2 ⟨_, hattributes, ?_⟩⟩⟩⟩
    cases hvalue : typeValue? attributes with
    | none =>
      rw [hvalue] at htype
      cases htype
      rfl
    | some value =>
      rw [hvalue, Option.mapM_some] at htype
      dsimp only
      cases hresolve : resolveType scope localName value with
      | error fault =>
        rw [hresolve] at htype
        cases htype
      | ok r =>
        rw [hresolve] at htype
        cases htype
        rfl

/-- **An element that is read in one place is read in the other**, where it may be captured. -/
theorem ofTag_captured (h : inner.Captures outer) {tag : Bytes} {e : Element} {scope : Scope}
    (hread : ofTag inner tag = .ok (e, scope)) :
    ∃ e' scope', ofTag outer tag = .ok (e', scope') ∧ e.IsCaptured e' ∧ scope.Captures scope' := by
  obtain ⟨henter, hspace, htext, hattributes, htype⟩ := ofTag_eq_ok.1 hread
  -- Names are resolved behind the declarations of the tag itself.
  obtain ⟨scope', henter', hscope⟩ := h.enter henter
  obtain ⟨hlocal, space', hspace', hsame⟩ := hscope.spaceOf hspace
  obtain ⟨xsiType', htype', hcaptured⟩ := resolveTypes_captured hscope htype
  refine ⟨⟨e.localName, space', e.attributes, xsiType'⟩, scope', ofTag_eq_ok.2 ⟨henter', hspace', ?_, ?_, htype'⟩,
    ⟨rfl, hsame.elim .inr fun hnone => .inl hnone.2.1, rfl, hcaptured⟩, hscope⟩
  · rwa [hlocal]
  · exact resolveAttributes_captured hscope hattributes

end Element

/-! ### Nodes -/

/-- A node, and what becomes of it in another place. -/
inductive Node.IsCaptured : Node → Node → Prop where
  | start {e e' : Element} : e.IsCaptured e' → IsCaptured (.start e) (.start e')
  | finish : IsCaptured .finish .finish
  | text (s : String) : IsCaptured (.text s) (.text s)

theorem Node.IsCaptured.refl (n : Node) : n.IsCaptured n := by
  cases n with
  | start e => exact .start (.refl e)
  | finish => exact .finish
  | text s => exact .text s

/-- Nodes that are, in another place, in front of others. -/
inductive Fronts : List Node → List Node → Prop where
  | nil (behind : List Node) : Fronts [] behind
  | cons {n n' : Node} {ns ns' : List Node} : n.IsCaptured n' → Fronts ns ns' → Fronts (n :: ns) (n' :: ns')

/-- Open elements, and what becomes of them inside others. -/
inductive Frame.AreCaptured : List Frame → List Frame → Prop where
  | around {outer : List Frame} : Scope.initial.Captures (Node.scopeOf outer) → AreCaptured [] outer
  | cons {name : Bytes} {scope scope' : Scope} {opened opened' : List Frame} : scope.Captures scope' →
      AreCaptured opened opened' → AreCaptured (⟨name, scope⟩ :: opened) (⟨name, scope'⟩ :: opened')

theorem Frame.AreCaptured.scopeOf {opened opened' : List Frame} (h : AreCaptured opened opened') :
    (Node.scopeOf opened).Captures (Node.scopeOf opened') := by
  cases h with
  | around h => exact h
  | cons h => exact h

/-- In another place there are at least as many nodes. -/
theorem Fronts.length_le {ns ns' : List Node} (h : Fronts ns ns') : ns.length ≤ ns'.length := by
  induction h with
  | nil => exact Nat.zero_le _
  | cons _ _ ih => exact Nat.succ_le_succ ih

/-- **The nodes of a document alone come first where it stands inside another.** -/
theorem fronts_ofTokens {ending ending' : Ending} {opened opened' : List Frame} {tokens more : List Token}
    (h : Frame.AreCaptured opened opened') :
    Fronts (Node.ofTokens ending opened tokens).items (Node.ofTokens ending' opened' (tokens ++ more)).items := by
  induction tokens generalizing opened opened' with
  | nil => exact .nil _
  | cons token rest ih =>
    rw [List.cons_append]
    cases token with
    | text raw =>
      unfold Node.ofTokens
      cases Element.unescaped raw with
      | error fault => exact .nil _
      | ok s => exact .cons (.text s) (ih h)
    | data raw =>
      unfold Node.ofTokens
      cases Element.text raw with
      | error fault => exact .nil _
      | ok s => exact .cons (.text s) (ih h)
    | start tag isEmpty =>
      rw [Node.ofTokens, Node.ofTokens]
      cases hread : Element.ofTag (Node.scopeOf opened) tag with
      | error fault => exact .nil _
      | ok read =>
        obtain ⟨e', scope', hread', hcaptured, hscope⟩ := Element.ofTag_captured h.scopeOf hread
        rw [hread']
        cases isEmpty with
        | true => exact .cons (.start hcaptured) (.cons .finish (ih h))
        | false => exact .cons (.start hcaptured) (ih (.cons hscope h))
    | finish tag =>
      -- Alone, no element is open that another document has opened.
      cases h with
      | around => exact .nil _
      | @cons name scope scope' opened opened' hscope h =>
        rw [Node.ofTokens, Node.ofTokens]
        by_cases hname : Node.closingName tag = name
        · rw [if_pos hname, if_pos hname]
          exact .cons .finish (ih h)
        · rw [if_neg hname]
          exact .nil _

end SoapBinding.Xml
