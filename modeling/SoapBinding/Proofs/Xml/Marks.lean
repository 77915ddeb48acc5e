import SoapBinding.Proofs.Xml.Element

/-!
# Elements of each kind

The elements behind the tags that are written for values: an element may be plain, marked nil, marked
with a type, or refer to an attachment, and one of a fixed name includes an attachment. The marks stand
behind the qualifiers that they need.

A mark can name a type if its name and namespace are read as they are written (`IsMarkable`).
-/

namespace SoapBinding.Xml

/-- The attributes behind `Sink.markNil`. -/
def nilAttributes : List (String × String) := [("xmlns:xsi", xsiNamespace), ("xsi:nil", "true")]

/-- The text by which `Sink.markType` refers to a type. -/
def typeText (type : TypeName) : String :=
  if type.space.isEmpty then type.localName else Sink.typeQualifier ++ ":" ++ type.localName

/-- The attributes behind `Sink.markType`. -/
def typeAttributes (type : TypeName) : List (String × String) :=
  if type.space.isEmpty then [("xmlns:xsi", xsiNamespace), ("xsi:type", typeText type)]
  else [("xmlns:xsi", xsiNamespace), ("xmlns:tns", type.space), ("xsi:type", typeText type)]

/-- The attributes of an element that includes an attachment. -/
def includeAttributes (reference : String) : List (String × String) :=
  [("xmlns:xop", xopNamespace), ("href", reference)]

/-- A namespace that a tag can declare: nothing in it is escaped, and it is not reserved. -/
structure IsUri (uri : String) : Prop where
  not_escaped : ∀ c ∈ uri.toList, isMarkup c = false ∧ c ≠ '&'
  not_xml : Utf8.ofString uri ≠ xmlNamespace
  not_xmlns : Utf8.ofString uri ≠ xmlnsNamespace

instance (uri : String) : Decidable (IsUri uri) :=
  decidable_of_iff (uri.toList.all (fun c => !isMarkup c && c != '&') ∧
      Utf8.ofString uri ≠ xmlNamespace ∧ Utf8.ofString uri ≠ xmlnsNamespace)
    ⟨fun h => ⟨by simpa using h.1, h.2.1, h.2.2⟩, fun h => ⟨by simpa using h.not_escaped, h.not_xml, h.not_xmlns⟩⟩

/-- A type that a mark can name: what the mark says of it is read as it is written. -/
structure IsMarkable (type : TypeName) : Prop where
  space : IsUri type.space
  localName : IsName type.localName
  not_trimmed : Text.trim (typeText type) = typeText type

instance (type : TypeName) : Decidable (IsMarkable type) :=
  decidable_of_iff (IsUri type.space ∧ IsName type.localName ∧
      Text.trim (typeText type) = typeText type)
    ⟨fun h => ⟨h.1, h.2.1, h.2.2⟩, fun h => ⟨h.space, h.localName, h.not_trimmed⟩⟩

theorem isUri_xsiNamespace : IsUri xsiNamespace := by decide

theorem isUri_xopNamespace : IsUri xopNamespace := by decide

theorem isTagName_href : IsTagName "href" := by decide

section
variable {scope : Scope} {name reference : String} {type : TypeName}

/-- A declaration binds its qualifier. -/
theorem Scope.enter_declaration {key uri : String} (qualifier : Bytes) (rest : List (String × String))
    (hkey : Utf8.ofString key = Scope.qualifiedKey ++ qualifier)
    (hqualifier : qualifier ≠ Token.ascii "xml" ∧ qualifier ≠ Token.ascii "xmlns") (huri : IsUri uri) :
    scope.enter ⟨((key, uri) :: rest).map rawOf, false⟩ =
      Scope.enter (⟨qualifier, Utf8.ofString uri⟩ :: scope) ⟨rest.map rawOf, false⟩ := by
  unfold Scope.enter
  dsimp only
  rw [List.map_cons, List.foldlM_cons, rawOf, hkey, escape_eq huri.not_escaped,
    Scope.declare_qualified hqualifier.1 hqualifier.2 huri.not_xml huri.not_xmlns]
  rfl

/-- An attribute that is no declaration binds nothing. -/
theorem Scope.declare_plain {raw : RawAttribute} (h : Scope.isDeclaration raw.key = false) : scope.declare raw = .ok scope := by
  simp only [Scope.isDeclaration, Bool.or_eq_false_iff, beq_eq_false_iff_ne] at h
  rw [Scope.declare, if_neg h.1, if_neg (by simp [h.2])]

/-- Attributes that are no declarations bind nothing. -/
theorem Scope.enter_plain {attributes : List (String × String)}
    (h : ∀ a ∈ attributes, Scope.isDeclaration (Utf8.ofString a.1) = false) :
    scope.enter ⟨attributes.map rawOf, false⟩ = .ok scope := by
  induction attributes with
  | nil => rfl
  | cons a attributes ih =>
    obtain ⟨ha, hrest⟩ := List.forall_mem_cons.1 h
    have hfirst : scope.declare (rawOf a) = .ok scope := Scope.declare_plain ha
    have hothers := ih hrest
    unfold Scope.enter at hothers ⊢
    dsimp only at hothers ⊢
    rw [List.map_cons, List.foldlM_cons, hfirst]
    exact hothers

/-- A mark behind the declarations binds nothing. -/
theorem Scope.enter_mark {key value : String} (h : Scope.isDeclaration (Utf8.ofString key) = false) :
    scope.enter ⟨[(key, value)].map rawOf, false⟩ = .ok scope :=
  Scope.enter_plain (List.forall_mem_singleton.2 h)

/-- The bytes of a name hold no colon. -/
theorem IsName.no_colon_ofString (h : IsName name) : 0x3A ∉ Utf8.ofString name :=
  fun hmem => h.no_colon ((Utf8.mem_encode_iff (by decide : 0x3A < 0x80) _).1 hmem)

/-- Attributes of distinct names without a qualifier are resolved as they are written. -/
theorem Element.resolveAttributes_plain (hbare : scope.IsBare) {attributes : List (String × String)} {met : List Bytes}
    (hnames : ∀ a ∈ attributes, IsName a.1 ∧ Scope.isDeclaration (Utf8.ofString a.1) = false)
    (hdistinct : (attributes.map (·.1)).Nodup) (hmet : ∀ a ∈ attributes, Utf8.ofString a.1 ∉ met) :
    Element.resolveAttributes scope false met (attributes.map rawOf) =
      .ok (attributes.map fun a => ⟨none, a.1, a.2⟩) := by
  induction attributes generalizing met with
  | nil => rfl
  | cons a attributes ih =>
    obtain ⟨⟨hname, hkey⟩, hnames⟩ := List.forall_mem_cons.1 hnames
    obtain ⟨hnew, hmet⟩ := List.forall_mem_cons.1 hmet
    rw [List.map_cons, List.nodup_cons] at hdistinct
    have hunmet : ∀ b ∈ attributes, Utf8.ofString b.1 ∉ Utf8.ofString a.1 :: met := fun b hb => by
      rw [List.mem_cons, not_or]
      refine ⟨fun heq => hdistinct.1 ?_, hmet b hb⟩
      rw [← Utf8.ofString_inj heq]
      exact List.mem_map_of_mem hb
    have hothers := ih hnames hdistinct.2 hunmet
    rw [List.map_cons, rawOf, resolveAttributes]
    dsimp only
    rw [if_neg (by simpa using hnew), hkey, if_neg (by decide), hbare.resolve hname.no_colon_ofString false]
    dsimp only
    rw [Element.text_ofString, unescaped_escape, hothers]
    rfl

/-- A tag that a caller may write: names without a qualifier, and distinct names of attributes. The one name that does not name
an attribute is that of the default namespace. -/
structure PendingTag.IsPlain (t : PendingTag) : Prop where
  name : IsName t.name
  keys : ∀ a ∈ t.attributes, IsName a.1 ∧ a.1 ≠ "xmlns"
  distinct : (t.attributes.map (·.1)).Nodup

instance (t : PendingTag) : Decidable t.IsPlain :=
  decidable_of_iff (IsName t.name ∧ (∀ a ∈ t.attributes, IsName a.1 ∧ a.1 ≠ "xmlns") ∧ (t.attributes.map (·.1)).Nodup)
    ⟨fun h => ⟨h.1, h.2.1, h.2.2⟩, fun h => ⟨h.name, h.keys, h.distinct⟩⟩

/-- The element of such a tag. -/
def PendingTag.element (t : PendingTag) : Element := ⟨t.name, none, t.attributes.map fun a => ⟨none, a.1, a.2⟩, none⟩

/-- Only the name of the default namespace declares something without a colon. -/
theorem IsName.isDeclaration_eq_false (h : IsName name) (hne : name ≠ "xmlns") :
    Scope.isDeclaration (Utf8.ofString name) = false := by
  rw [Scope.isDeclaration, Bool.or_eq_false_iff, beq_eq_false_iff_ne]
  refine ⟨fun heq => hne (Utf8.ofString_inj heq), Bool.eq_false_iff.2 fun hprefix => ?_⟩
  exact h.no_colon_ofString ((List.isPrefixOf_iff_prefix.1 hprefix).subset (by decide))

/-- A plain tag stands for its element. -/
theorem standsFor_element {t : PendingTag} (h : t.IsPlain) : StandsFor t t.element := by
  have htag : IsTag t := ⟨h.name.toIsTagName, fun a ha => (h.keys a ha).1.toIsTagName⟩
  have hkeys (a : String × String) (ha : a ∈ t.attributes) : Scope.isDeclaration (Utf8.ofString a.1) = false :=
    (h.keys a ha).1.isDeclaration_eq_false (h.keys a ha).2
  have htype : Element.typeValue? (t.attributes.map fun a => ⟨none, a.1, a.2⟩) = none := by
    simp [Element.typeValue?]
  refine ⟨htag, fun outer houter => ⟨outer, houter, ?_⟩⟩
  refine Element.ofTag_tagBytes htag (Scope.enter_plain hkeys) (houter.resolve h.name.no_colon_ofString true) rfl
    (Element.resolveAttributes_plain houter (fun a ha => ⟨(h.keys a ha).1, hkeys a ha⟩) h.distinct (by simp)) ?_
  rw [htype]

/-- A name stands for an element without attributes. -/
theorem standsFor_plain (h : IsName name) : StandsFor ⟨name, []⟩ ⟨name, none, [], none⟩ :=
  standsFor_element ⟨h, by simp, List.nodup_nil⟩

/-- An element may refer to an attachment. -/
theorem standsFor_href (h : IsName name) (reference : String) :
    StandsFor ⟨name, [("href", reference)]⟩ ⟨name, none, [⟨none, "href", reference⟩], none⟩ :=
  standsFor_element ⟨h, by simpa using (by decide : IsName "href"), by simp⟩

/-- The names of the marks lie in the namespace of their qualifier. -/
theorem Scope.resolve_xsi {key localName : String}
    (h : scope.uri? (Token.ascii "xsi") = some (Utf8.ofString xsiNamespace))
    (hkey : Utf8.ofString key = Token.ascii "xsi" ++ 0x3A :: Utf8.ofString localName) :
    scope.resolve false (Utf8.ofString key) =
      (.bound (Utf8.ofString xsiNamespace), Utf8.ofString localName) := by
  rw [hkey]
  exact Scope.resolve_qualified (by decide) (by decide) h (by decide) false

/-- An element may be marked nil. -/
theorem standsFor_nil (h : IsName name) :
    StandsFor ⟨name, nilAttributes⟩ ⟨name, none, [⟨some xsiNamespace, "nil", "true"⟩], none⟩ := by
  have htag : IsTag ⟨name, nilAttributes⟩ :=
    ⟨h.toIsTagName, (by decide : ∀ a ∈ nilAttributes, IsTagName a.1)⟩
  refine ⟨htag, ?_⟩
  intro outer houter
  have hbare : Scope.IsBare (⟨Token.ascii "xsi", Utf8.ofString xsiNamespace⟩ :: outer) :=
    houter.cons (by decide)
  refine ⟨_, hbare, Element.ofTag_tagBytes htag ?_ (hbare.resolve h.no_colon_ofString true) rfl ?_ rfl⟩
  · show outer.enter ⟨nilAttributes.map rawOf, false⟩ = _
    rw [nilAttributes, Scope.enter_declaration (Token.ascii "xsi") _ (by rfl) (by decide) isUri_xsiNamespace,
      Scope.enter_mark (by decide)]
  · show Element.resolveAttributes _ false [] (nilAttributes.map rawOf) = _
    rw [nilAttributes, Element.resolveAttributes_declaration _ (by decide) (by decide)]
    exact Element.resolveAttributes_mark (by decide) (by decide)
      (Scope.resolve_xsi (Scope.uri?_cons_self _ _ outer) (by rfl))
      (congrArg (Except.map some) (Element.text_ofString xsiNamespace))

/-- The type that a mark names, from what its text resolves to. -/
theorem Element.resolveType_eq {value localName : String} {resolution : Resolution}
    {space : Option String} (htrim : Text.trim value = value)
    (hresolve : scope.resolve true (Utf8.ofString value) = (resolution, Utf8.ofString localName))
    (hspace : Element.spaceOf [] resolution = .ok space) (element : String) :
    Element.resolveType scope element value =
      .ok ⟨⟨space.getD "", localName⟩, value.toList.contains ':'⟩ := by
  unfold Element.resolveType
  dsimp only
  rw [htrim, hresolve]
  dsimp only
  rw [hspace]
  dsimp only
  rw [Utf8.toStringLossy_ofString]

/-- The type behind a mark is the one that it has been written for. -/
theorem Element.resolveType_typeText (h : IsMarkable type) (hbare : scope.IsBare) (element : String)
    (huri : type.space ≠ "" →
      scope.uri? (Token.ascii Sink.typeQualifier) = some (Utf8.ofString type.space)) :
    Element.resolveType scope element (typeText type) = .ok ⟨type, !type.space.isEmpty⟩ := by
  obtain ⟨space, localName⟩ := type
  by_cases hspace : space = ""
  · subst hspace
    have hcolon : localName.toList.contains ':' = false := by simpa using h.localName.no_colon
    rw [Element.resolveType_eq h.not_trimmed (hbare.resolve h.localName.no_colon_ofString true) rfl]
    show Except.ok (TypeReference.mk ⟨"", localName⟩ (localName.toList.contains ':')) = _
    rw [hcolon]
    rfl
  · have hempty : space.isEmpty = false := by simpa using hspace
    have htext : typeText ⟨space, localName⟩ = Sink.typeQualifier ++ ":" ++ localName := by
      rw [typeText, hempty]
      rfl
    have hresolve : scope.resolve true (Utf8.ofString (typeText ⟨space, localName⟩)) =
        (.bound (Utf8.ofString space), Utf8.ofString localName) := by
      have hne : Utf8.ofString space ≠ [] := by
        intro hnil
        have := congrArg Utf8.toStringLossy hnil
        rw [Utf8.toStringLossy_ofString] at this
        exact hspace (this.trans (by decide +kernel))
      rw [htext, Utf8.ofString_append]
      exact Scope.resolve_qualified (by decide) (by decide) (huri hspace) hne true
    have hcolon : (typeText ⟨space, localName⟩).toList.contains ':' = true := by
      rw [htext, String.toList_append, String.toList_append]
      simp
    rw [Element.resolveType_eq h.not_trimmed hresolve
      (congrArg (Except.map some) (Element.text_ofString space)), hcolon, hempty]
    rfl

/-- An element may be marked with its type. -/
theorem standsFor_type (h : IsName name) (htype : IsMarkable type) :
    StandsFor ⟨name, typeAttributes type⟩ ⟨name, none, [⟨some xsiNamespace, "type", typeText type⟩],
      some ⟨type, !type.space.isEmpty⟩⟩ := by
  have hkeys : ∀ a ∈ typeAttributes type, IsTagName a.1 := by
    have hnames : ∀ key ∈ ["xmlns:xsi", "xmlns:tns", "xsi:type"], IsTagName key := by decide
    intro a ha
    apply hnames
    unfold typeAttributes at ha
    split at ha <;> simp at ha <;> rcases ha with rfl | rfl | rfl <;> simp
  refine ⟨⟨h.toIsTagName, hkeys⟩, ?_⟩
  intro outer houter
  have hspace := congrArg (Except.map some) (Element.text_ofString xsiNamespace)
  -- The qualifier of the type's namespace is declared only where the type lies in one.
  by_cases hempty : type.space.isEmpty
  · have hbare : Scope.IsBare (⟨Token.ascii "xsi", Utf8.ofString xsiNamespace⟩ :: outer) :=
      houter.cons (by decide)
    have hxsiType := Element.resolveType_typeText htype hbare name fun hne =>
      absurd (by simpa using hempty) hne
    rw [typeAttributes, if_pos hempty] at hkeys ⊢
    refine ⟨_, hbare, Element.ofTag_tagBytes ⟨h.toIsTagName, hkeys⟩ ?_
      (hbare.resolve h.no_colon_ofString true) rfl ?_ (congrArg (Except.map some) hxsiType)⟩
    · rw [Scope.enter_declaration (Token.ascii "xsi") _ (by rfl) (by decide) isUri_xsiNamespace,
        Scope.enter_mark (by decide)]
    · rw [Element.resolveAttributes_declaration _ (by decide) (by decide)]
      exact Element.resolveAttributes_mark (by decide) (by decide)
        (Scope.resolve_xsi (Scope.uri?_cons_self _ _ outer) (by rfl)) hspace
  · have hbare : Scope.IsBare (⟨Token.ascii "tns", Utf8.ofString type.space⟩ ::
        ⟨Token.ascii "xsi", Utf8.ofString xsiNamespace⟩ :: outer) :=
      Scope.IsBare.cons (houter.cons (by decide)) (by decide)
    have hxsiType := Element.resolveType_typeText htype hbare name fun _ =>
      Scope.uri?_cons_self _ _ _
    rw [typeAttributes, if_neg hempty] at hkeys ⊢
    refine ⟨_, hbare, Element.ofTag_tagBytes ⟨h.toIsTagName, hkeys⟩ ?_
      (hbare.resolve h.no_colon_ofString true) rfl ?_ (congrArg (Except.map some) hxsiType)⟩
    · rw [Scope.enter_declaration (Token.ascii "xsi") _ (by rfl) (by decide) isUri_xsiNamespace,
        Scope.enter_declaration (Token.ascii "tns") _ (by rfl) (by decide) htype.space,
        Scope.enter_mark (by decide)]
    · have hxsi := (Scope.uri?_cons_of_ne (by decide : Token.ascii "tns" ≠ Token.ascii "xsi")
        (Utf8.ofString type.space) _).trans (Scope.uri?_cons_self _ (Utf8.ofString xsiNamespace) outer)
      rw [Element.resolveAttributes_declaration _ (by decide) (by decide),
        Element.resolveAttributes_declaration _ (by decide) (by decide)]
      exact Element.resolveAttributes_mark (by decide) (by decide) (Scope.resolve_xsi hxsi (by rfl)) hspace

/-- An element may include an attachment. -/
theorem standsFor_include (reference : String) :
    StandsFor ⟨"xop:Include", includeAttributes reference⟩
      ⟨"Include", some xopNamespace, [⟨none, "href", reference⟩], none⟩ := by
  have hnames : IsTagName "xop:Include" ∧ IsTagName "xmlns:xop" := by decide
  have htag : IsTag ⟨"xop:Include", includeAttributes reference⟩ :=
    ⟨hnames.1, by simpa [includeAttributes] using ⟨hnames.2, isTagName_href⟩⟩
  refine ⟨htag, ?_⟩
  intro outer houter
  have hbare : Scope.IsBare (⟨Token.ascii "xop", Utf8.ofString xopNamespace⟩ :: outer) :=
    houter.cons (by decide)
  have hresolve := @Scope.resolve_qualified (⟨Token.ascii "xop", Utf8.ofString xopNamespace⟩ :: outer)
    (Token.ascii "xop") (Utf8.ofString "Include") _ (by decide) (by decide)
    (Scope.uri?_cons_self _ _ outer) (by decide) true
  rw [← (by decide : Utf8.ofString "xop:Include" = Token.ascii "xop" ++ 0x3A :: Utf8.ofString "Include")]
    at hresolve
  refine ⟨_, hbare, Element.ofTag_tagBytes htag ?_ hresolve
    (congrArg (Except.map some) (Element.text_ofString xopNamespace)) ?_ rfl⟩
  · show outer.enter ⟨(includeAttributes reference).map rawOf, false⟩ = _
    rw [includeAttributes, Scope.enter_declaration (Token.ascii "xop") _ (by rfl) (by decide)
      isUri_xopNamespace, Scope.enter_mark (by decide)]
  · show Element.resolveAttributes _ false [] ((includeAttributes reference).map rawOf) = _
    rw [includeAttributes, Element.resolveAttributes_declaration _ (by decide) (by decide)]
    exact Element.resolveAttributes_mark (by decide) (by decide) (hbare.resolve (by decide) false) rfl

end

end SoapBinding.Xml
