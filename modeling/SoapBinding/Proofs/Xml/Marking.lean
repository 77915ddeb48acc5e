import Mathlib.Tactic.ByContra
import SoapBinding.Proofs.Xml.Forest

/-!
# Marks on a tag that waits

Calls add attributes, declarations and the marks of an element to a tag that waits (`Sink.Call.mark`), a declaration only where
its qualifier has none there yet. So of all declarations of a qualifier the first counts:

    uri?_foldl_mark : uri? (calls.foldl (fun marks c => c.mark marks) marks) qualifier =
      (uri? marks qualifier).or ((calls.flatMap declarations).lookup qualifier)

The sink looks for a declaration in the bytes of the tag, where it finds the attributes that have been written
(`Sink.hasAttribute_eq`). Marks can be read if their names can, and if no two of them have the same (`Mark.Fit`); calls that may
stand in front of the mark of a type (`Sink.IsMarking`) add such marks.
-/

namespace SoapBinding.Xml

open Outcome

/-! ### Keys of a tag -/

/-- Looking for keys finds those of written attributes, if they differ. -/
theorem RawAttributes.keysBehind_attributes {attributes : List (String × String)}
    (hkeys : ∀ a ∈ attributes, IsTagName a.1) (hdistinct : (attributes.map (·.1)).Nodup) {seen : List Bytes}
    (hseen : ∀ a ∈ attributes, Utf8.ofString a.1 ∉ seen) {steps : Nat} (hsteps : attributes.length ≤ steps) :
    keysBehind seen steps (attributes.flatMap attributeBytes) = attributes.map fun a => Utf8.ofString a.1 := by
  induction attributes generalizing seen steps with
  | nil => cases steps <;> rfl
  | cons a attributes ih =>
    cases steps with
    | zero => simp at hsteps
    | succ steps =>
      obtain ⟨hkey, hkeys⟩ := List.forall_mem_cons.1 hkeys
      obtain ⟨hnew, hseen⟩ := List.forall_mem_cons.1 hseen
      rw [List.map_cons, List.nodup_cons] at hdistinct
      obtain ⟨first, rest, hcons⟩ := hkey.exists_cons
      have hfirst : isSpace first = false := hkey.not_isSpace (by rw [hcons]; exact List.mem_cons_self)
      have hinKey : ∀ b ∈ rest, RawAttribute.inKey b = true := fun b hb =>
        hkey.inKey (by rw [hcons]; exact List.mem_cons_of_mem first hb)
      have hvalue : ∀ b ∈ Utf8.ofString (escape a.2), (b != 0x22) = true := by
        intro b hb
        rw [bne_iff_ne]
        rintro rfl
        exact not_mem_ofString_escape 0x22 (by decide) (by decide) a.2 hb
      have hdrop : ((a :: attributes).flatMap attributeBytes).dropWhile isSpace =
          first :: (rest ++ 0x3D :: 0x22 :: (Utf8.ofString (escape a.2) ++ 0x22 :: attributes.flatMap attributeBytes)) := by
        rw [List.flatMap_cons, attributeBytes, hcons]
        simp only [List.append_assoc, List.cons_append, List.nil_append]
        rw [List.dropWhile_cons, if_pos (by decide), List.dropWhile_cons, if_neg (by simp [hfirst])]
      have hothers : ∀ b ∈ attributes, Utf8.ofString b.1 ∉ Utf8.ofString a.1 :: seen := by
        intro b hb
        rw [List.mem_cons, not_or]
        refine ⟨fun heq => hdistinct.1 ?_, hseen b hb⟩
        rw [← Utf8.ofString_inj heq]
        exact List.mem_map_of_mem hb
      have hbehind := ih hkeys hdistinct.2 hothers (Nat.le_of_succ_le_succ hsteps)
      rw [keysBehind, hdrop]
      dsimp only
      rw [List.takeWhile_append_of_pos hinKey, List.dropWhile_append_of_pos hinKey, List.takeWhile_cons, if_neg (by decide),
        List.dropWhile_cons, if_neg (by decide), List.append_nil, List.dropWhile_cons, if_neg (by decide)]
      dsimp only
      rw [if_neg (by decide), ← hcons, if_neg (by simpa using hnew), List.dropWhile_cons, if_neg (by decide)]
      dsimp only
      rw [if_neg (by decide), List.dropWhile_append_of_pos hvalue, List.dropWhile_cons, if_neg (by decide)]
      dsimp only
      rw [hbehind, List.map_cons]

/-- A tag has the attributes that have been written for it. -/
theorem Sink.hasAttribute_eq {s : Sink} {tag : PendingTag} (hs : s.pending = some tag)
    (hkeys : ∀ a ∈ tag.attributes, IsTagName a.1) (hdistinct : (tag.attributes.map (·.1)).Nodup) (key : String) :
    s.hasAttribute key = (tag.attributes.map (·.1)).contains key := by
  have hbytes : Utf8.ofString tag.renderAttributes = tag.attributes.flatMap attributeBytes := by
    rw [PendingTag.renderAttributes, ofString_join, List.flatMap_map]
    simp only [ofString_renderAttribute]
  have hlen (attributes : List (String × String)) : attributes.length ≤ (attributes.flatMap attributeBytes).length := by
    induction attributes with
    | nil => exact Nat.le_refl 0
    | cons a attributes ih =>
      rw [List.flatMap_cons, List.length_append, List.length_cons, attributeBytes, List.length_cons]
      omega
  unfold hasAttribute
  rw [hs]
  dsimp only
  rw [hbytes, RawAttributes.keys, RawAttributes.keysBehind_attributes hkeys hdistinct (by simp) (hlen _), Bool.eq_iff_iff,
    List.contains_iff_mem, List.contains_iff_mem, List.mem_map, List.mem_map]
  constructor
  · rintro ⟨a, ha, heq⟩
    exact ⟨a, ha, Utf8.ofString_inj heq⟩
  · rintro ⟨a, ha, rfl⟩
    exact ⟨a, ha, rfl⟩

/-! ### Marks -/

/-- The texts of the reserved namespaces. -/
def reservedNamespaces : List String := ["http://www.w3.org/XML/1998/namespace", "http://www.w3.org/2000/xmlns/"]

/-- A qualifier can be declared for a namespace: nothing can be said of `xmlns`, and `xml` and its namespace belong together. -/
structure CanDeclare (qualifier uri : String) : Prop where
  name : IsName qualifier
  not_xmlns : qualifier ≠ "xmlns"
  reserved : if qualifier = "xml" then uri = "http://www.w3.org/XML/1998/namespace" else uri ∉ reservedNamespaces

instance (qualifier uri : String) : Decidable (CanDeclare qualifier uri) :=
  decidable_of_iff (IsName qualifier ∧ qualifier ≠ "xmlns" ∧
      if qualifier = "xml" then uri = "http://www.w3.org/XML/1998/namespace" else uri ∉ reservedNamespaces)
    ⟨fun h => ⟨h.1, h.2.1, h.2.2⟩, fun h => ⟨h.name, h.not_xmlns, h.reserved⟩⟩

/-- What a caller adds to a tag: an attribute without a qualifier, a declaration, or an attribute of the marks. -/
inductive Mark where
  | plain (name value : String)
  | declaration (qualifier uri : String)
  | xsi (localName value : String)
  deriving DecidableEq

namespace Mark

/-- The attribute of a mark. -/
def written : Mark → String × String
  | plain name value => (name, value)
  | declaration qualifier uri => ("xmlns:" ++ qualifier, uri)
  | xsi localName value => ("xsi:" ++ localName, value)

/-- What is read of a mark. -/
def read? : Mark → Option Attribute
  | plain name value => some ⟨none, name, value⟩
  | declaration .. => none
  | xsi localName value => some ⟨some xsiNamespace, localName, value⟩

/-- What a mark declares. -/
def declared? : Mark → Option (String × String)
  | declaration qualifier uri => some (qualifier, uri)
  | _ => none

/-- The namespace that marks declare for a qualifier. -/
def uri? (marks : List Mark) (qualifier : String) : Option String := (marks.filterMap declared?).lookup qualifier

/-- A mark that can be read. -/
def IsProper : Mark → Prop
  | plain name _ => IsName name ∧ name ≠ "xmlns"
  | declaration qualifier uri => CanDeclare qualifier uri
  | xsi localName _ => IsName localName

/-- Marks that can be read, with one attribute of each name. -/
structure Fit (marks : List Mark) : Prop where
  proper : ∀ m ∈ marks, m.IsProper
  distinct : (marks.map (·.written.1)).Nodup

variable {marks : List Mark} {m : Mark} {qualifier uri : String}

/-- A name behind a qualifier can be written in a tag. -/
theorem isTagName_qualified {name : String} (hqualifier : IsName qualifier) (hname : IsName name) :
    IsTagName (qualifier ++ ":" ++ name) := by
  refine ⟨?_, fun c hc => ?_⟩
  · intro hempty
    have := congrArg String.toList hempty
    simp at this
  · have hcolon : ':' ∉ tagBreaks := by decide
    have := hqualifier.not_mem c hc
    have := hname.not_mem c hc
    simp only [String.toList_append, List.mem_append, not_or]
    refine ⟨⟨by assumption, ?_⟩, by assumption⟩
    intro hmem
    obtain rfl : c = ':' := by simpa using hmem
    exact hcolon hc

theorem IsProper.isTagName (h : m.IsProper) : IsTagName m.written.1 := by
  cases m with
  | plain name value => exact h.1.toIsTagName
  | declaration qualifier uri => exact isTagName_qualified (by decide +kernel : IsName "xmlns") h.name
  | xsi localName value => exact isTagName_qualified (by decide +kernel : IsName "xsi") h

/-- Only a declaration has the name of one. -/
theorem IsProper.eq_declaration (h : m.IsProper) (hkey : m.written.1 = "xmlns:" ++ qualifier) :
    ∃ uri, m = declaration qualifier uri := by
  cases m with
  | plain name value =>
    have := h.1.no_colon
    rw [show name = _ from hkey] at this
    simp at this
  | declaration other uri =>
    obtain rfl : other = qualifier := by simpa [written, ← String.toList_inj] using hkey
    exact ⟨uri, rfl⟩
  | xsi localName value =>
    simp [written, ← String.toList_inj] at hkey

/-- Only a mark has the name of one. -/
theorem IsProper.eq_xsi (h : m.IsProper) {localName : String} (hkey : m.written.1 = "xsi:" ++ localName) :
    ∃ value, m = xsi localName value := by
  cases m with
  | plain name value =>
    have := h.1.no_colon
    rw [show name = _ from hkey] at this
    simp at this
  | declaration qualifier uri => simp [written, ← String.toList_inj] at hkey
  | xsi other value =>
    obtain rfl : other = localName := by simpa [written, ← String.toList_inj] using hkey
    exact ⟨value, rfl⟩

/-- Only an attribute without a qualifier has a name without one. -/
theorem IsProper.eq_plain (h : m.IsProper) {name : String} (hname : IsName name) (hkey : m.written.1 = name) :
    ∃ value, m = plain name value := by
  cases m with
  | plain other value => exact ⟨value, congrArg (plain · value) hkey⟩
  | declaration qualifier uri => exact absurd (by simp [← hkey, written]) hname.no_colon
  | xsi localName value => exact absurd (by simp [← hkey, written]) hname.no_colon

theorem Fit.concat (h : Fit marks) (hm : m.IsProper) (hnew : ∀ other ∈ marks, other.written.1 ≠ m.written.1) :
    Fit (marks ++ [m]) := by
  refine ⟨List.forall_mem_append.2 ⟨h.proper, List.forall_mem_singleton.2 hm⟩, ?_⟩
  rw [List.map_append, List.nodup_append]
  refine ⟨h.distinct, by simp, fun key hkey other hother heq => ?_⟩
  obtain ⟨mark, hmark, rfl⟩ := List.mem_map.1 hkey
  obtain rfl := List.mem_singleton.1 hother
  exact hnew mark hmark heq

/-! ### Declarations -/

/-- The marks with a declaration, unless the qualifier is declared. -/
def declaring (qualifier uri : String) (marks : List Mark) : List Mark :=
  if (uri? marks qualifier).isSome then marks else marks ++ [.declaration qualifier uri]

theorem uri?_append (marks others : List Mark) (qualifier : String) :
    uri? (marks ++ others) qualifier = (uri? marks qualifier).or (uri? others qualifier) := by
  rw [uri?, uri?, uri?, List.filterMap_append, List.lookup_append]

/-- A qualifier is declared where the tag has the attribute. -/
theorem Fit.contains_iff (h : Fit marks) (qualifier : String) :
    (marks.map (·.written.1)).contains ("xmlns:" ++ qualifier) = (uri? marks qualifier).isSome := by
  induction marks with
  | nil => rfl
  | cons m marks ih =>
    obtain ⟨hm, hmarks⟩ := List.forall_mem_cons.1 h.proper
    have hrest := ih ⟨hmarks, (List.nodup_cons.1 h.distinct).2⟩
    rw [List.map_cons, List.contains_cons, hrest, ← List.singleton_append, uri?_append, Option.isSome_or]
    congr 1
    rw [Bool.eq_iff_iff, beq_iff_eq, eq_comm]
    constructor
    · intro hkey
      obtain ⟨uri, rfl⟩ := hm.eq_declaration hkey
      simp [uri?, declared?]
    · intro hsome
      cases m with
      | declaration other uri =>
        by_contra hne
        have hother : (qualifier == other) = false := by
          rw [beq_eq_false_iff_ne]
          rintro rfl
          exact hne rfl
        simp [uri?, declared?, List.lookup_cons, hother] at hsome
      | plain name value => simp [uri?, declared?] at hsome
      | xsi localName value => simp [uri?, declared?] at hsome

/-- The first declaration counts. -/
theorem uri?_declaring (qualifier uri other : String) (marks : List Mark) :
    uri? (declaring qualifier uri marks) other = (uri? marks other).or ([(qualifier, uri)].lookup other) := by
  unfold declaring
  split
  · next hsome =>
    by_cases heq : other = qualifier
    · rw [heq, Option.or_of_isSome hsome]
    · have hne : (other == qualifier) = false := by simpa using heq
      simp [List.lookup_cons, hne]
  · rw [uri?_append]
    rfl

theorem Fit.declaring (h : Fit marks) (hdeclare : CanDeclare qualifier uri) : Fit (declaring qualifier uri marks) := by
  unfold Mark.declaring
  split
  · exact h
  · next hnone =>
    refine h.concat (m := .declaration qualifier uri) hdeclare fun other hother heq => hnone ?_
    rw [← h.contains_iff, List.contains_iff_mem]
    exact List.mem_map.2 ⟨other, hother, heq⟩

theorem mem_declaring (h : m ∈ declaring qualifier uri marks) : m ∈ marks ∨ m = .declaration qualifier uri := by
  unfold declaring at h
  split at h
  · exact .inl h
  · simpa using h

/-- A declaration is no mark of an element. -/
theorem xsi_mem_of_mem_declaring {localName value : String} (h : .xsi localName value ∈ declaring qualifier uri marks) :
    .xsi localName value ∈ marks := by
  rcases mem_declaring h with h | heq
  · exact h
  · cases heq

end Mark

/-! ### Calls -/

namespace Sink

variable {marks : List Mark}

/-- The sink behind the start of an element and some marks. -/
def marked (s : Sink) (name : String) (marks : List Mark) : Sink := (s.started name).wrote (marks.map Mark.written) none

/-- The marks with those that a call adds. -/
def Call.mark (marks : List Mark) : Call → List Mark
  | addAttribute name value => marks ++ [.plain name value]
  | declare qualifier uri => Mark.declaring qualifier uri marks
  | markNil => Mark.declaring "xsi" xsiNamespace marks ++ [.xsi "nil" "true"]
  | markType type =>
    let marks := Mark.declaring "xsi" xsiNamespace marks
    (if type.space.isEmpty then marks else Mark.declaring typeQualifier type.space marks) ++ [.xsi "type" (typeText type)]
  | _ => marks

/-- The declarations that a call asks for. -/
def Call.declarations : Call → List (String × String)
  | declare qualifier uri => [(qualifier, uri)]
  | markNil => [("xsi", xsiNamespace)]
  | markType type => ("xsi", xsiNamespace) :: if type.space.isEmpty then [] else [(typeQualifier, type.space)]
  | _ => []

/-- A call that adds marks which can be read. -/
def Call.Adds (marks : List Mark) : Call → Prop
  | addAttribute name _ => (IsName name ∧ name ≠ "xmlns") ∧ ∀ value, .plain name value ∉ marks
  | declare qualifier uri => CanDeclare qualifier uri
  | markNil => ∀ value, .xsi "nil" value ∉ marks
  | markType type => (type.space ≠ "" → CanDeclare typeQualifier type.space) ∧ ∀ value, .xsi "type" value ∉ marks
  | _ => False

theorem addAttribute_marked (s : Sink) (name key value : String) (m : Mark) (hm : m.written = (key, value)) :
    addAttribute key value (s.marked name marks) = .ok () (s.marked name (marks ++ [m])) := by
  obtain ⟨s', hok⟩ := addAttribute_ok s name key value (marks.map Mark.written)
  have heq := addAttribute_eq hok
  rw [wrote_attributes] at heq
  rw [marked, hok, heq, marked, List.map_append, List.map_cons, List.map_nil, hm]

theorem declare_marked (h : Mark.Fit marks) (s : Sink) (name qualifier uri : String) :
    declare qualifier uri (s.marked name marks) = .ok () (s.marked name (Mark.declaring qualifier uri marks)) := by
  have hkeys : ∀ a ∈ marks.map Mark.written, IsTagName a.1 := by
    intro a ha
    obtain ⟨m, hm, rfl⟩ := List.mem_map.1 ha
    exact (h.proper m hm).isTagName
  have hdistinct : ((marks.map Mark.written).map (·.1)).Nodup := by
    rw [List.map_map]
    exact h.distinct
  have htag : (s.marked name marks).pending = some ⟨name, marks.map Mark.written⟩ := rfl
  have hhas : (s.marked name marks).hasAttribute ("xmlns:" ++ qualifier) = (Mark.uri? marks qualifier).isSome := by
    rw [hasAttribute_eq htag hkeys hdistinct, List.map_map]
    exact h.contains_iff qualifier
  show (if (s.marked name marks).hasAttribute ("xmlns:" ++ qualifier) = true then pure ()
    else addAttribute ("xmlns:" ++ qualifier) uri : Writing Unit) _ = _
  rw [hhas, Mark.declaring]
  split
  · rfl
  · exact addAttribute_marked s name _ _ (.declaration qualifier uri) rfl

theorem isName_marks : IsName "xsi" ∧ IsName "nil" ∧ IsName "type" := by decide +kernel

theorem canDeclare_xsi : CanDeclare "xsi" xsiNamespace := by decide +kernel

/-- The mark of an element is new where no mark has its name. -/
theorem fit_xsi (h : Mark.Fit marks) {localName : String} (hname : IsName localName)
    (hnew : ∀ value, Mark.xsi localName value ∉ marks) (value : String) : Mark.Fit (marks ++ [.xsi localName value]) :=
  h.concat (m := .xsi localName value) hname fun other hother heq => by
    obtain ⟨value', rfl⟩ := (h.proper other hother).eq_xsi heq
    exact hnew value' hother

/-- **A call adds its marks.** -/
theorem Call.Adds.perform {c : Call} (h : c.Adds marks) (hfit : Mark.Fit marks) (s : Sink) (name : String) :
    c.perform (s.marked name marks) = .ok () (s.marked name (c.mark marks)) ∧ Mark.Fit (c.mark marks) := by
  have hxsi := hfit.declaring canDeclare_xsi
  cases c with
  | addAttribute key value =>
    obtain ⟨hkey, hnew⟩ := h
    refine ⟨addAttribute_marked s name key value (.plain key value) rfl, hfit.concat hkey fun other hother heq => ?_⟩
    obtain ⟨value', rfl⟩ := (hfit.proper other hother).eq_plain hkey.1 heq
    exact hnew value' hother
  | declare qualifier uri => exact ⟨declare_marked hfit s name qualifier uri, hfit.declaring h⟩
  | markNil =>
    refine ⟨?_, fit_xsi hxsi isName_marks.2.1 (fun value hmem => h value (Mark.xsi_mem_of_mem_declaring hmem)) "true"⟩
    rw [Call.perform, Sink.markNil, bind_ok (declare_marked hfit s name "xsi" xsiNamespace)]
    exact addAttribute_marked s name _ _ (.xsi "nil" "true") rfl
  | markType type =>
    obtain ⟨hspace, hnew⟩ := h
    have hnewXsi (value : String) : Mark.xsi "type" value ∉ Mark.declaring "xsi" xsiNamespace marks := fun hmem =>
      hnew value (Mark.xsi_mem_of_mem_declaring hmem)
    rw [Call.perform, Sink.markType, bind_ok (declare_marked hfit s name "xsi" xsiNamespace), Call.mark]
    by_cases hempty : type.space.isEmpty = true
    · rw [if_pos hempty, if_pos hempty, typeText, if_pos hempty]
      exact ⟨addAttribute_marked s name _ _ (.xsi "type" type.localName) rfl, fit_xsi hxsi isName_marks.2.2 hnewXsi _⟩
    · rw [if_neg hempty, if_neg hempty, typeText, if_neg hempty, bind_ok (declare_marked hxsi s name typeQualifier type.space)]
      refine ⟨addAttribute_marked s name _ _ (.xsi "type" _) rfl,
        fit_xsi (hxsi.declaring (hspace (by simpa using hempty))) isName_marks.2.2 (fun value hmem => ?_) _⟩
      exact hnewXsi value (Mark.xsi_mem_of_mem_declaring hmem)
  | _ => cases h

/-- A call adds no marks but its own. -/
theorem Call.mem_mark {c : Call} {m : Mark} (h : m ∈ c.mark marks) :
    m ∈ marks ∨ m.declared?.isSome = true ∨ (∃ name value, c = .addAttribute name value ∧ m = .plain name value) ∨
      (c = .markNil ∧ m = .xsi "nil" "true") ∨ ∃ type, c = .markType type ∧ m = .xsi "type" (typeText type) := by
  have hdeclaring {qualifier uri : String} {marks : List Mark} (h : m ∈ Mark.declaring qualifier uri marks) :
      m ∈ marks ∨ m.declared?.isSome = true :=
    (Mark.mem_declaring h).imp_right fun heq => by rw [heq]; rfl
  cases c with
  | addAttribute name value =>
    rcases List.mem_append.1 h with h | h
    · exact .inl h
    · exact .inr (.inr (.inl ⟨name, value, rfl, List.mem_singleton.1 h⟩))
  | declare qualifier uri =>
    rcases hdeclaring h with h | h
    · exact .inl h
    · exact .inr (.inl h)
  | markNil =>
    rcases List.mem_append.1 h with h | h
    · rcases hdeclaring h with h | h
      · exact .inl h
      · exact .inr (.inl h)
    · exact .inr (.inr (.inr (.inl ⟨rfl, List.mem_singleton.1 h⟩)))
  | markType type =>
    rw [Call.mark, List.mem_append] at h
    rcases h with h | h
    · have hxsi : m ∈ Mark.declaring "xsi" xsiNamespace marks ∨ m.declared?.isSome = true := by
        split at h
        · exact .inl h
        · exact hdeclaring h
      rcases hxsi with h | h
      · rcases hdeclaring h with h | h
        · exact .inl h
        · exact .inr (.inl h)
      · exact .inr (.inl h)
    · exact .inr (.inr (.inr (.inr ⟨type, rfl, List.mem_singleton.1 h⟩)))
  | _ => exact .inl h

/-- **The first declaration of a qualifier counts**, behind one call and behind calls in a row. -/
theorem Call.uri?_mark (c : Call) (marks : List Mark) (qualifier : String) :
    Mark.uri? (c.mark marks) qualifier = (Mark.uri? marks qualifier).or (c.declarations.lookup qualifier) := by
  have hxsi (marks : List Mark) (localName value : String) :
      Mark.uri? (marks ++ [.xsi localName value]) qualifier = Mark.uri? marks qualifier := by
    rw [Mark.uri?_append]
    exact Option.or_none
  cases c with
  | addAttribute name value =>
    rw [Call.mark, Mark.uri?_append]
    rfl
  | declare other uri => exact Mark.uri?_declaring other uri qualifier marks
  | markNil => exact (hxsi _ _ _).trans (Mark.uri?_declaring _ _ qualifier marks)
  | markType type =>
    rw [Call.mark, hxsi, Call.declarations]
    split
    · exact Mark.uri?_declaring _ _ qualifier marks
    · rw [Mark.uri?_declaring, Mark.uri?_declaring, Option.or_assoc, ← List.lookup_append]
      rfl
  | _ => exact Option.or_none.symm

theorem uri?_foldl_mark (calls : List Call) (marks : List Mark) (qualifier : String) :
    Mark.uri? (calls.foldl (fun marks c => c.mark marks) marks) qualifier =
      (Mark.uri? marks qualifier).or ((calls.flatMap Call.declarations).lookup qualifier) := by
  induction calls generalizing marks with
  | nil => exact Option.or_none.symm
  | cons c calls ih => rw [List.foldl_cons, ih, Call.uri?_mark, Option.or_assoc, List.flatMap_cons, List.lookup_append]

/-! ### Calls in front of the type -/

/-- The name of an attribute that a call adds. -/
def Call.name? : Call → Option String
  | addAttribute name _ => some name
  | _ => none

/-- A call that may stand in front of the mark of a type. -/
def Call.MayStand : Call → Prop
  | addAttribute name _ => IsName name ∧ name ≠ "xmlns"
  | declare qualifier uri => CanDeclare qualifier uri
  | markNil => True
  | _ => False

instance (c : Call) : Decidable c.MayStand :=
  match c with
  | .addAttribute name _ => inferInstanceAs (Decidable (IsName name ∧ name ≠ "xmlns"))
  | .declare qualifier uri => inferInstanceAs (Decidable (CanDeclare qualifier uri))
  | .markNil => inferInstanceAs (Decidable True)
  | .startElement _ | .markType _ | .text _ | .endElement => inferInstanceAs (Decidable False)

/-- Calls that may stand in front of the mark of a type: attributes of distinct names without a qualifier, declarations, and the
mark of a nil element at most once. -/
structure IsMarking (calls : List Call) : Prop where
  each : ∀ c ∈ calls, c.MayStand
  distinct : (calls.filterMap Call.name?).Nodup
  nil_once : calls.count .markNil ≤ 1

instance (calls : List Call) : Decidable (IsMarking calls) :=
  decidable_of_iff ((∀ c ∈ calls, c.MayStand) ∧ (calls.filterMap Call.name?).Nodup ∧ calls.count .markNil ≤ 1)
    ⟨fun h => ⟨h.1, h.2.1, h.2.2⟩, fun h => ⟨h.each, h.distinct, h.nil_once⟩⟩

/-- Such calls add marks that can be read. -/
theorem IsMarking.performAll {calls : List Call} (h : IsMarking calls) (hfit : Mark.Fit marks)
    (hnames : ∀ name value, .plain name value ∈ marks → name ∉ calls.filterMap Call.name?)
    (hnil : ∀ value, .xsi "nil" value ∈ marks → .markNil ∉ calls) (s : Sink) (name : String) :
    performAll calls (s.marked name marks) =
        .ok () (s.marked name (calls.foldl (fun marks c => c.mark marks) marks)) ∧
      Mark.Fit (calls.foldl (fun marks c => c.mark marks) marks) := by
  induction calls generalizing marks with
  | nil => exact ⟨rfl, hfit⟩
  | cons c calls ih =>
    obtain ⟨hc, heach⟩ := List.forall_mem_cons.1 h.each
    have hadds : c.Adds marks := by
      cases c with
      | addAttribute key value => exact ⟨hc, fun value' hmem => hnames key value' hmem (by simp [Call.name?])⟩
      | declare qualifier uri => exact hc
      | markNil => exact fun value hmem => hnil value hmem List.mem_cons_self
      | _ => exact hc.elim
    have hrest : IsMarking calls := by
      refine ⟨heach, h.distinct.sublist ?_, ?_⟩
      · exact (List.sublist_cons_self c calls).filterMap _
      · exact Nat.le_trans ((List.sublist_cons_self c calls).count_le _) h.nil_once
    obtain ⟨hperform, hfit'⟩ := hadds.perform hfit s name
    have hnames' (other value : String) (hmem : .plain other value ∈ c.mark marks) : other ∉ calls.filterMap Call.name? := by
      rcases Call.mem_mark hmem with hmem | hdeclared | ⟨_, _, rfl, heq⟩ | ⟨-, heq⟩ | ⟨_, -, heq⟩
      · exact fun hother => hnames other value hmem (((List.sublist_cons_self c calls).filterMap _).subset hother)
      · cases hdeclared
      · cases heq
        exact (List.nodup_cons.1 h.distinct).1
      · cases heq
      · cases heq
    have hnil' (value : String) (hmem : .xsi "nil" value ∈ c.mark marks) : .markNil ∉ calls := by
      rcases Call.mem_mark hmem with hmem | hdeclared | ⟨_, _, -, heq⟩ | ⟨rfl, -⟩ | ⟨_, -, heq⟩
      · exact fun hcall => hnil value hmem (List.mem_cons_of_mem c hcall)
      · cases hdeclared
      · simp at heq
      · intro hcall
        have := h.nil_once
        rw [List.count_cons_self] at this
        have := List.count_pos_iff.2 hcall
        omega
      · simp at heq
    obtain ⟨hall, hfit''⟩ := ih hrest hfit' hnames' hnil'
    rw [Sink.performAll, bind_ok hperform]
    exact ⟨hall, hfit''⟩

/-- None of them names a type. -/
theorem IsMarking.not_mem_type {calls : List Call} (h : IsMarking calls) (hmarks : ∀ value, .xsi "type" value ∉ marks)
    (value : String) : .xsi "type" value ∉ calls.foldl (fun marks c => c.mark marks) marks := by
  have heach := h.each
  clear h
  induction calls generalizing marks with
  | nil => exact hmarks value
  | cons c calls ih =>
    obtain ⟨hc, heach⟩ := List.forall_mem_cons.1 heach
    refine ih (fun value' hmem => ?_) heach
    rcases Call.mem_mark hmem with hmem | hdeclared | ⟨_, _, -, heq⟩ | ⟨-, heq⟩ | ⟨_, rfl, -⟩
    · exact hmarks value' hmem
    · cases hdeclared
    · cases heq
    · simp at heq
    · exact hc

end Sink

end SoapBinding.Xml
