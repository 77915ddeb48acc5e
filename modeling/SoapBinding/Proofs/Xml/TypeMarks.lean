import SoapBinding.Proofs.Xml.Marking

/-!
# Types that are named among other marks

A type may be named on a tag that has attributes, declarations and the mark of a nil element already. Inside the tag, a
qualifier stands for what the tag declares for it, and for what it stands for around the tag otherwise (`Scope.enter_marks`).
As the first declaration of a qualifier counts, the type that is read is the one that has been written if the first
declarations of the two qualifiers that its mark relies on are right (`markType_read`).

Where they are not, the mark is read in the namespace that has been declared, or is no mark at all (`not_markType_read`).
-/

namespace SoapBinding.Xml

open Outcome

variable {scope outer : Scope} {marks : List Mark} {m : Mark} {type : TypeName}

/-! ### The scope inside a tag -/

/-- A reserved namespace is none that can be declared. -/
theorem CanDeclare.not_reserved {qualifier uri : String} (h : CanDeclare qualifier uri) (hxml : qualifier ≠ "xml") :
    Utf8.ofString (escape uri) ≠ xmlNamespace ∧ Utf8.ofString (escape uri) ≠ xmlnsNamespace := by
  have hreserved := h.reserved
  rw [if_neg hxml, reservedNamespaces, List.mem_cons, List.mem_singleton, not_or] at hreserved
  have hxmlText : xmlNamespace = Utf8.ofString (escape "http://www.w3.org/XML/1998/namespace") := rfl
  have hxmlnsText : xmlnsNamespace = Utf8.ofString (escape "http://www.w3.org/2000/xmlns/") := rfl
  exact ⟨fun heq => hreserved.1 (escape_inj (Utf8.ofString_inj (heq.trans hxmlText))),
    fun heq => hreserved.2 (escape_inj (Utf8.ofString_inj (heq.trans hxmlnsText)))⟩

/-- A declaration binds its qualifier, unless that is the one that is bound everywhere. -/
theorem Scope.declare_mark {qualifier uri : String} (h : CanDeclare qualifier uri) (scope : Scope) :
    scope.declare (rawOf (Mark.declaration qualifier uri).written) =
      .ok (if qualifier = "xml" then scope else ⟨Utf8.ofString qualifier, Utf8.ofString (escape uri)⟩ :: scope) := by
  by_cases hxml : qualifier = "xml"
  · have hreserved := h.reserved
    rw [if_pos hxml] at hreserved
    subst hxml hreserved
    rfl
  · have hkey : Utf8.ofString ("xmlns:" ++ qualifier) = qualifiedKey ++ Utf8.ofString qualifier := Utf8.ofString_append _ _
    have hxmlText : Token.ascii "xml" = Utf8.ofString "xml" := by decide
    have hxmlnsText : Token.ascii "xmlns" = Utf8.ofString "xmlns" := by decide
    obtain ⟨hvalue, hvalue'⟩ := h.not_reserved hxml
    rw [if_neg hxml, Mark.written, rawOf, hkey]
    exact declare_qualified (fun heq => hxml (Utf8.ofString_inj (heq.trans hxmlText)))
      (fun heq => h.not_xmlns (Utf8.ofString_inj (heq.trans hxmlnsText))) hvalue hvalue'

/-- The declarations among marks are those that have the keys of declarations. -/
theorem Mark.IsProper.isDeclaration (h : m.IsProper) :
    Scope.isDeclaration (Utf8.ofString m.written.1) = m.declared?.isSome := by
  cases m with
  | plain name value => exact h.1.isDeclaration_eq_false h.2
  | declaration qualifier uri =>
    have hprefix : Scope.qualifiedKey.isPrefixOf (Utf8.ofString ("xmlns:" ++ qualifier)) = true := by
      rw [List.isPrefixOf_iff_prefix, Utf8.ofString_append]
      exact List.prefix_append _ _
    rw [Scope.isDeclaration, written, hprefix, Bool.or_true]
    rfl
  | xsi localName value =>
    rw [written, Utf8.ofString_append]
    rfl

/-- What one mark binds. -/
theorem Scope.exists_declare (h : m.IsProper) (hbare : scope.IsBare) :
    ∃ inner, scope.declare (rawOf m.written) = .ok inner ∧ inner.IsBare ∧ ∀ qualifier, qualifier ≠ "xml" →
      inner.uri? (Utf8.ofString qualifier) = ((Mark.uri? [m] qualifier).map fun uri => Utf8.ofString (escape uri)).or
        (scope.uri? (Utf8.ofString qualifier)) := by
  cases m with
  | plain name value => exact ⟨scope, declare_plain h.isDeclaration, hbare, fun _ _ => rfl⟩
  | xsi localName value => exact ⟨scope, declare_plain h.isDeclaration, hbare, fun _ _ => rfl⟩
  | declaration qualifier uri =>
    refine ⟨_, declare_mark h scope, ?_⟩
    by_cases hxml : qualifier = "xml"
    · rw [if_pos hxml]
      refine ⟨hbare, fun other hother => ?_⟩
      have hne : (other == qualifier) = false := by simpa [hxml] using hother
      simp [Mark.uri?, Mark.declared?, List.lookup_cons, hne]
    · rw [if_neg hxml]
      have hname : Utf8.ofString qualifier ≠ [] := fun hnil => h.name.ne_empty (Utf8.ofString_inj hnil)
      refine ⟨hbare.cons hname, fun other hother => ?_⟩
      by_cases heq : other = qualifier
      · subst heq
        rw [uri?_cons_self]
        simp [Mark.uri?, Mark.declared?]
      · have hne : (other == qualifier) = false := by simpa using heq
        rw [uri?_cons_of_ne fun hbytes => heq (Utf8.ofString_inj hbytes).symm]
        simp [Mark.uri?, Mark.declared?, List.lookup_cons, hne]

/-- A qualifier has one declaration on a tag. -/
theorem Mark.Fit.uri?_eq_none (h : Fit (m :: marks)) {qualifier : String} (hm : (uri? [m] qualifier).isSome = true) :
    uri? marks qualifier = none := by
  obtain ⟨hproper, hmarks⟩ := List.forall_mem_cons.1 h.proper
  obtain ⟨hnew, hdistinct⟩ := List.nodup_cons.1 h.distinct
  have hfirst : Fit [m] := ⟨List.forall_mem_singleton.2 hproper, by simp⟩
  rw [← hfirst.contains_iff, List.contains_iff_mem, List.map_singleton, List.mem_singleton] at hm
  rw [← Option.not_isSome_iff_eq_none, ← Fit.contains_iff ⟨hmarks, hdistinct⟩, List.contains_iff_mem, hm]
  exact hnew

/-- **Inside a tag, a qualifier stands for what the tag declares for it**, and for what it stands for around otherwise. -/
theorem Scope.enter_marks (h : Mark.Fit marks) (hbare : outer.IsBare) :
    ∃ inner, outer.enter ⟨(marks.map Mark.written).map rawOf, false⟩ = .ok inner ∧ inner.IsBare ∧
      ∀ qualifier, qualifier ≠ "xml" → inner.uri? (Utf8.ofString qualifier) =
        ((Mark.uri? marks qualifier).map fun uri => Utf8.ofString (escape uri)).or (outer.uri? (Utf8.ofString qualifier)) := by
  induction marks generalizing outer with
  | nil => exact ⟨outer, rfl, hbare, fun _ _ => rfl⟩
  | cons m marks ih =>
    obtain ⟨hm, hproper⟩ := List.forall_mem_cons.1 h.proper
    obtain ⟨next, hnext, hnextBare, hnextUri⟩ := exists_declare hm hbare
    obtain ⟨inner, hinner, hinnerBare, hinnerUri⟩ := ih ⟨hproper, (List.nodup_cons.1 h.distinct).2⟩ hnextBare
    refine ⟨inner, ?_, hinnerBare, fun qualifier hxml => ?_⟩
    · unfold enter at hinner ⊢
      dsimp only at hinner ⊢
      rw [List.map_cons, List.map_cons, List.foldlM_cons, hnext]
      exact hinner
    · rw [hinnerUri qualifier hxml, hnextUri qualifier hxml, show m :: marks = [m] ++ marks from rfl, Mark.uri?_append]
      cases hfirst : Mark.uri? [m] qualifier with
      | none => simp
      | some uri =>
        rw [h.uri?_eq_none (by rw [hfirst]; rfl)]
        simp

/-! ### Elements behind marked tags -/

namespace Element

/-- Marks are resolved as they are written, where the qualifier of the marks stands for their namespace. -/
theorem resolveAttributes_marks (h : Mark.Fit marks) (hbare : scope.IsBare)
    (hxsi : scope.uri? (Token.ascii "xsi") = some (Utf8.ofString xsiNamespace)) {met : List Bytes}
    (hmet : ∀ m ∈ marks, Utf8.ofString m.written.1 ∉ met) :
    resolveAttributes scope false met ((marks.map Mark.written).map rawOf) = .ok (marks.filterMap Mark.read?) := by
  induction marks generalizing met with
  | nil => rfl
  | cons m marks ih =>
    obtain ⟨hm, hproper⟩ := List.forall_mem_cons.1 h.proper
    obtain ⟨hnew, hdistinct⟩ := List.nodup_cons.1 h.distinct
    obtain ⟨hunmet, hmet⟩ := List.forall_mem_cons.1 hmet
    have hothers := @ih ⟨hproper, hdistinct⟩ (Utf8.ofString m.written.1 :: met) fun other hother => by
      rw [List.mem_cons, not_or]
      refine ⟨fun heq => hnew ?_, hmet other hother⟩
      dsimp only
      rw [← Utf8.ofString_inj heq]
      exact List.mem_map_of_mem hother
    have hdeclaration := hm.isDeclaration
    rw [List.map_cons, List.map_cons, rawOf, resolveAttributes]
    dsimp only
    rw [if_neg (by simpa using hunmet), hdeclaration]
    cases m with
    | plain name value =>
      rw [if_neg (by simp [Mark.declared?]), Mark.written, hbare.resolve hm.1.no_colon_ofString false]
      dsimp only
      rw [text_ofString, unescaped_escape]
      dsimp only [Mark.written] at hothers
      rw [hothers]
      rfl
    | declaration qualifier uri =>
      rw [if_pos (by rfl), hothers]
      rfl
    | xsi localName value =>
      have hkey : Utf8.ofString ("xsi:" ++ localName) = Token.ascii "xsi" ++ 0x3A :: Utf8.ofString localName :=
        Utf8.ofString_append _ _
      rw [if_neg (by simp [Mark.declared?]), Mark.written, Scope.resolve_xsi hxsi hkey]
      dsimp only
      dsimp only [Mark.written] at hothers
      rw [spaceOf, text_ofString, text_ofString, unescaped_escape, hothers]
      rfl

/-- The type behind marks of other names is the one that is found. -/
theorem typeValue?_marks (h : ∀ value, Mark.xsi "type" value ∉ marks) (value : String) :
    typeValue? ((marks ++ [Mark.xsi "type" value]).filterMap Mark.read?) = some value := by
  have hnone : (marks.filterMap Mark.read?).find? (fun a => a.localName == "type" && a.space == some xsiNamespace) = none := by
    rw [List.find?_eq_none]
    intro a ha
    obtain ⟨m, hm, hread⟩ := List.mem_filterMap.1 ha
    cases m with
    | plain name value => cases hread; simp
    | declaration qualifier uri => cases hread
    | xsi localName other =>
      cases hread
      simp only [Bool.and_eq_true, beq_iff_eq, not_and]
      rintro rfl
      exact absurd hm (h other)
  rw [typeValue?, List.filterMap_append, List.find?_append, hnone]
  rfl

end Element

/-- A name that has a meaning in a scope: one without a qualifier, or with one that stands for a namespace. -/
def Scope.Knows (scope : Scope) (name : String) : Prop :=
  IsName name ∨ ∃ qualifier localName uri, name = qualifier ++ ":" ++ localName ∧ IsName qualifier ∧ IsName localName ∧
    uri ≠ "" ∧ scope.uri? (Utf8.ofString qualifier) = some (Utf8.ofString uri)

/-- A tag whose name has a meaning inside it. -/
def PendingTag.HasMeaning (outer : Scope) (t : PendingTag) : Prop :=
  ∃ inner, outer.enter ⟨t.attributes.map rawOf, false⟩ = .ok inner ∧ inner.Knows t.name

theorem Scope.Knows.isTagName {name : String} (h : scope.Knows name) : IsTagName name := by
  obtain h | ⟨qualifier, localName, uri, rfl, hqualifier, hlocalName, -, -⟩ := h
  · exact h.toIsTagName
  · exact Mark.isTagName_qualified hqualifier hlocalName

/-- A name that has a meaning is resolved. -/
theorem Scope.Knows.exists_resolve {name : String} (h : scope.Knows name) (hbare : scope.IsBare) :
    ∃ resolution space localName, scope.resolve true (Utf8.ofString name) = (resolution, Utf8.ofString localName) ∧
      Element.spaceOf (Utf8.ofString name) resolution = .ok space := by
  obtain h | ⟨qualifier, localName, uri, rfl, hqualifier, hlocalName, huri, hscope⟩ := h
  · exact ⟨_, _, name, hbare.resolve h.no_colon_ofString true, rfl⟩
  · have hname : Utf8.ofString (qualifier ++ ":" ++ localName) =
        Utf8.ofString qualifier ++ 0x3A :: Utf8.ofString localName := by
      rw [Utf8.ofString_append, Utf8.ofString_append, List.append_assoc]
      rfl
    have hne : Utf8.ofString qualifier ≠ [] := fun hnil => hqualifier.ne_empty (Utf8.ofString_inj hnil)
    have hneUri : Utf8.ofString uri ≠ [] := fun hnil => huri (Utf8.ofString_inj hnil)
    refine ⟨.bound (Utf8.ofString uri), some uri, localName, ?_, congrArg (Except.map some) (Element.text_ofString uri)⟩
    rw [hname]
    exact resolve_qualified hqualifier.no_colon_ofString hne hscope hneUri true

/-- A tag that names its type among other marks is read as an element of that type. -/
theorem Element.exists_ofTag_marked (h : Mark.Fit marks) (htype : IsMarkable type)
    (hvalue : typeValue? (marks.filterMap Mark.read?) = some (typeText type))
    (hxsi : Mark.uri? marks "xsi" = some xsiNamespace)
    (htns : type.space ≠ "" → Mark.uri? marks Sink.typeQualifier = some type.space) (hbare : outer.IsBare) {name : String}
    (hname : PendingTag.HasMeaning outer ⟨name, marks.map Mark.written⟩) :
    ∃ e inner, e.xsiType = some ⟨type, !type.space.isEmpty⟩ ∧ inner.IsBare ∧ IsTag ⟨name, marks.map Mark.written⟩ ∧
      ofTag outer (tagBytes ⟨name, marks.map Mark.written⟩) = .ok (e, inner) := by
  obtain ⟨inner, henter, hinner, huri⟩ := Scope.enter_marks h hbare
  obtain ⟨inner', henter', hknows⟩ := hname
  obtain rfl : inner = inner' := Except.ok.inj (henter.symm.trans henter')
  have htag : IsTag ⟨name, marks.map Mark.written⟩ := by
    refine ⟨hknows.isTagName, fun a ha => ?_⟩
    obtain ⟨m, hm, rfl⟩ := List.mem_map.1 ha
    exact (h.proper m hm).isTagName
  have hinnerXsi : inner.uri? (Token.ascii "xsi") = some (Utf8.ofString xsiNamespace) := by
    have := huri "xsi" (by decide)
    rw [hxsi, Option.map_some, Option.some_or, escape_eq isUri_xsiNamespace.not_escaped] at this
    exact this
  have hinnerTns (hspace : type.space ≠ "") :
      inner.uri? (Token.ascii Sink.typeQualifier) = some (Utf8.ofString type.space) := by
    have := huri Sink.typeQualifier (by decide)
    rw [htns hspace, Option.map_some, Option.some_or, escape_eq htype.space.not_escaped] at this
    exact this
  obtain ⟨resolution, space, localName, hresolve, hspace⟩ := hknows.exists_resolve hinner
  refine ⟨⟨localName, space, marks.filterMap Mark.read?, some ⟨type, !type.space.isEmpty⟩⟩, inner, rfl, hinner, htag,
    ofTag_tagBytes htag henter hresolve hspace (resolveAttributes_marks h hinner hinnerXsi (by simp)) ?_⟩
  rw [hvalue]
  dsimp only
  rw [resolveType_typeText htype hinner localName hinnerTns]
  rfl

/-! ### There and back -/

/-- The mark of a type stands behind the other marks, and behind the declarations that it needs. -/
theorem Sink.Call.exists_mark_markType (type : TypeName) (h : ∀ value, Mark.xsi "type" value ∉ marks) :
    ∃ front, (Call.markType type).mark marks = front ++ [Mark.xsi "type" (typeText type)] ∧
      ∀ value, Mark.xsi "type" value ∉ front := by
  have hxsi (value : String) : Mark.xsi "type" value ∉ Mark.declaring "xsi" xsiNamespace marks := fun hmem =>
    h value (Mark.xsi_mem_of_mem_declaring hmem)
  refine ⟨_, rfl, fun value hmem => ?_⟩
  split at hmem
  · exact hxsi value hmem
  · exact hxsi value (Mark.xsi_mem_of_mem_declaring hmem)

/-- The namespace of a type that a mark can name can be declared. -/
theorem IsUri.canDeclare {uri : String} (h : IsUri uri) : CanDeclare Sink.typeQualifier uri := by
  have hqualifier : IsName Sink.typeQualifier ∧ Sink.typeQualifier ≠ "xmlns" ∧ Sink.typeQualifier ≠ "xml" := by decide
  refine ⟨hqualifier.1, hqualifier.2.1, ?_⟩
  rw [if_neg hqualifier.2.2, reservedNamespaces, List.mem_cons, List.mem_singleton, not_or]
  have hxmlText : Utf8.ofString "http://www.w3.org/XML/1998/namespace" = xmlNamespace := rfl
  have hxmlnsText : Utf8.ofString "http://www.w3.org/2000/xmlns/" = xmlnsNamespace := rfl
  constructor
  · rintro rfl
    exact h.not_xml hxmlText
  · rintro rfl
    exact h.not_xmlns hxmlnsText

/-- Calls in front of the mark of a type, and the marks that all of them make. -/
theorem Sink.IsMarking.exists_marks {calls : List Sink.Call} (h : Sink.IsMarking calls) (htype : IsMarkable type) :
    ∃ marks, Mark.Fit marks ∧ Element.typeValue? (marks.filterMap Mark.read?) = some (typeText type) ∧
      (∀ qualifier, Mark.uri? marks qualifier =
        ((calls.flatMap Call.declarations).lookup qualifier).or ((Call.markType type).declarations.lookup qualifier)) ∧
      ∀ (s : Sink) (name : String), Sink.performAll (calls ++ [.markType type]) (s.started name) =
        .ok () ((s.started name).wrote (marks.map Mark.written) none) := by
  have hempty : Mark.Fit [] := ⟨by simp, by simp⟩
  have hcalls (s : Sink) (name : String) :=
    h.performAll hempty (by simp) (by simp) s name
  have hno := h.not_mem_type fun value => (List.not_mem_nil : Mark.xsi "type" value ∉ [])
  have hadds : (Call.markType type).Adds (calls.foldl (fun marks c => c.mark marks) []) :=
    ⟨fun _ => htype.space.canDeclare, hno⟩
  obtain ⟨front, hfront, hnoFront⟩ := Call.exists_mark_markType type hno
  have htype (s : Sink) (name : String) := hadds.perform (hcalls s name).2 s name
  refine ⟨_, (htype (.empty none) "").2, ?_, fun qualifier => ?_, fun s name => ?_⟩
  · rw [hfront]
    exact Element.typeValue?_marks hnoFront _
  · rw [Call.uri?_mark, uri?_foldl_mark]
    rfl
  · have hstart : s.marked name [] = s.started name := wrote_nothing _
    rw [performAll_append, ← hstart, bind_ok (hcalls s name).1, Sink.performAll, bind_ok (htype s name).1]
    rfl

/-- A tag names a type: wherever its name has a meaning, whatever is in its element and behind it, it is read as an element of
that type. -/
def PendingTag.NamesType (t : PendingTag) (type : TypeName) : Prop :=
  ∀ opened, Scope.IsBare (Node.scopeOf opened) → t.HasMeaning (Node.scopeOf opened) →
    ∃ e : Element, e.xsiType = some ⟨type, !type.space.isEmpty⟩ ∧
      ∀ body nodes, ShowsInside (body.getD "") nodes → (body = none → nodes = []) → ∀ rest,
        nodesWithin opened (Utf8.ofString (elementText t body) ++ rest) =
          (nodesWithin opened rest).prepend (.start e :: nodes ++ [.finish])

/-- The first node of a document whose one element names a type. -/
theorem PendingTag.NamesType.exists_next {t : PendingTag} (h : t.NamesType type) (hmeaning : t.HasMeaning Scope.initial)
    {body : List Tree} (hplain : ∀ t ∈ Tree.tagsAll body, t.IsPlain) :
    ∃ e c, Cursor.next (.ofSource (.ofBytes (Utf8.ofString (elementText t (Tree.renderAll body))))) =
      .ok (some (.start e)) c ∧ e.xsiType = some ⟨type, !type.space.isEmpty⟩ := by
  obtain ⟨e, he, hnodes⟩ := h [] Scope.isBare_initial hmeaning
  have hbody : ShowsInside ((Tree.renderAll body).getD "") (Node.merged (Tree.nodesAll body)) := by
    simpa [escape, Node.merged] using (Tree.showsRun_all body "" hplain).inside
  have hnone (hrender : Tree.renderAll body = none) : Node.merged (Tree.nodesAll body) = [] := by
    cases body with
    | nil => rfl
    | cons t rest => cases hrest : Tree.renderAll rest <;> simp [Tree.renderAll, hrest] at hrender
  have hdocument := hnodes _ _ hbody hnone []
  rw [List.append_nil, nodesWithin_nil] at hdocument
  rw [ofSource_element hdocument]
  exact ⟨e, _, rfl, he⟩

/-- **The type that has been written is the one that is read**, among other marks. The calls in front of its mark may add
attributes, declarations and the mark of a nil element, if the first declarations of the two qualifiers that the mark relies on
are right. Then writing the mark succeeds, and the tag names the type. The name of the element has a meaning if it has no
qualifier, or one that stands for a namespace inside the tag. The element of a document of its own is the first that is read. -/
theorem markType_read {calls : List Sink.Call} (h : Sink.IsMarking calls) (htype : IsMarkable type)
    (hxsi : ∀ uri ∈ (calls.flatMap Sink.Call.declarations).lookup "xsi", uri = xsiNamespace)
    (htns : type.space ≠ "" → ∀ uri ∈ (calls.flatMap Sink.Call.declarations).lookup Sink.typeQualifier, uri = type.space) :
    ∃ attributes,
      (∀ (s : Sink) (name : String), Sink.performAll (calls ++ [.markType type]) (s.started name) =
        .ok () ((s.started name).wrote attributes none)) ∧
      (∀ name, PendingTag.NamesType ⟨name, attributes⟩ type) ∧
      (∀ outer name, Scope.IsBare outer → IsName name → PendingTag.HasMeaning outer ⟨name, attributes⟩) ∧
      ∀ name body, PendingTag.HasMeaning Scope.initial ⟨name, attributes⟩ → (∀ t ∈ Tree.tagsAll body, t.IsPlain) →
        ∃ s' document e c,
          Sink.performAll (.startElement name :: ((calls ++ [.markType type]) ++ (Tree.callsAll body ++ [.endElement])))
            (.empty none) = .ok () s' ∧ s'.finish = .ok document ∧
          Cursor.next (.ofSource (.ofBytes (Utf8.ofString document))) = .ok (some (.start e)) c ∧
          e.xsiType = some ⟨type, !type.space.isEmpty⟩ := by
  obtain ⟨marks, hfit, hvalue, huri, hperform⟩ := h.exists_marks htype
  have hxsiUri : Mark.uri? marks "xsi" = some xsiNamespace := by
    rw [huri]
    cases hlookup : (calls.flatMap Sink.Call.declarations).lookup "xsi" with
    | none => rfl
    | some uri => rw [hxsi uri hlookup]; rfl
  have htnsUri (hspace : type.space ≠ "") : Mark.uri? marks Sink.typeQualifier = some type.space := by
    rw [huri]
    cases hlookup : (calls.flatMap Sink.Call.declarations).lookup Sink.typeQualifier with
    | none =>
      have hdeclarations : (Sink.Call.markType type).declarations =
          [("xsi", xsiNamespace), (Sink.typeQualifier, type.space)] := by
        rw [Sink.Call.declarations, if_neg (by simpa using hspace)]
      rw [hdeclarations]
      rfl
    | some uri => rw [htns hspace uri hlookup]; rfl
  have hnames (name : String) : PendingTag.NamesType ⟨name, marks.map Mark.written⟩ type := by
    intro opened hbare hmeaning
    obtain ⟨e, inner, he, hinner, htag, hofTag⟩ := Element.exists_ofTag_marked hfit htype hvalue hxsiUri htnsUri hbare hmeaning
    exact ⟨e, he, fun body nodes hbody hnone rest =>
      nodesWithin_element htag hofTag (fun rest => hbody _ rest hinner) hnone rest⟩
  refine ⟨marks.map Mark.written, hperform, hnames, fun outer name houter hname => ?_, fun name body hmeaning hplain => ?_⟩
  · obtain ⟨inner, henter, -, -⟩ := Scope.enter_marks hfit houter
    exact ⟨inner, henter, .inl hname⟩
  · obtain ⟨s', hwritten, hfinish⟩ := ((Tree.writesAll body).marked fun s => hperform s name).exists_document
    obtain ⟨e, c, hnext, he⟩ := (hnames name).exists_next hmeaning hplain
    exact ⟨s', _, e, c, hwritten, hfinish, hnext, he⟩

/-- A type in a namespace that has been declared before, on the tag of a nil element. -/
theorem markType_read_card :
    ∃ s' document e c,
      Sink.performAll [.startElement "card", .addAttribute "id" "<1>", .declare "p" "urn:x&y", .markNil,
        .declare "tns" "urn:cards", .markType ⟨"urn:cards", "GiftCard"⟩, .text "5 < 6", .endElement] (.empty none) = .ok () s' ∧
      s'.finish = .ok document ∧
      Cursor.next (.ofSource (.ofBytes (Utf8.ofString document))) = .ok (some (.start e)) c ∧
      e.xsiType = some ⟨⟨"urn:cards", "GiftCard"⟩, true⟩ := by
  obtain ⟨attributes, -, -, hmeaning, hread⟩ := @markType_read ⟨"urn:cards", "GiftCard"⟩
    [.addAttribute "id" "<1>", .declare "p" "urn:x&y", .markNil, .declare "tns" "urn:cards"]
    (by decide +kernel) (by decide +kernel) (by decide +kernel) (by decide +kernel)
  exact hread "card" [.text "5 < 6"] (hmeaning _ "card" Scope.isBare_initial (by decide +kernel))
    (by simp [Tree.tagsAll, Tree.tags])

/-- What is read of the type of an element, behind calls in front of its mark. -/
def typeRead (calls : List Sink.Call) (type : TypeName) : Except Error (Option TypeReference) :=
  match Sink.performAll (.startElement "e" :: (calls ++ [.markType type, .endElement])) (.empty none) with
  | .error e _ => .error e
  | .ok _ s => do
    let document ← s.finish
    match Cursor.next (.ofSource (.ofBytes (Utf8.ofString document))) with
    | .ok (some (.start e)) _ => .ok e.xsiType
    | .ok _ _ => .ok none
    | .error e _ => .error e

/-- Not every type is read as it is written. A qualifier that the mark relies on may stand for another namespace already; a
reserved namespace cannot be declared for other qualifiers, nor its qualifier for other namespaces; and a blank that stands in a
name of XML is trimmed off at the end of it. -/
theorem not_markType_read :
    Sink.IsMarking [.declare "tns" "urn:b"] ∧
      typeRead [.declare "tns" "urn:b"] ⟨"urn:a", "T"⟩ = .ok (some ⟨⟨"urn:b", "T"⟩, true⟩) ∧
      Sink.IsMarking [.declare "xsi" "urn:b"] ∧ typeRead [.declare "xsi" "urn:b"] ⟨"", "T"⟩ = .ok none ∧
      typeRead [] ⟨"http://www.w3.org/XML/1998/namespace", "T"⟩ = .error .markup ∧
      typeRead [.declare "xml" "urn:b"] ⟨"", "T"⟩ = .error .markup ∧
      typeRead [] ⟨"", "T\u1680"⟩ = .ok (some ⟨⟨"", "T"⟩, false⟩) := by
  refine ⟨?_, ?_, ?_, ?_, ?_, ?_, ?_⟩
  all_goals decide +kernel

end SoapBinding.Xml
