import SoapBinding.Proofs.Text.Trim
import SoapBinding.Proofs.Xml.Tag

/-!
# Elements behind written tags

Which element a written tag stands for, wherever no default namespace is in scope (`StandsFor`). A tag
declares the qualifiers that it uses, so what the elements around declare does not matter otherwise; and
as none declares a default namespace, that remains so inside.
-/

namespace SoapBinding.Xml

/-- No default namespace is in scope. -/
def Scope.IsBare (scope : Scope) : Prop := scope.uri? [] = none

theorem Scope.isBare_initial : Scope.IsBare Scope.initial := rfl

/-- The bytes of a tag stand for an element. -/
def StandsFor (t : PendingTag) (e : Element) : Prop :=
  IsTag t ∧ ∀ outer : Scope, outer.IsBare →
    ∃ scope : Scope, scope.IsBare ∧ Element.ofTag outer (tagBytes t) = .ok (e, scope)

/-! ### Scopes -/

section
variable {scope : Scope} {qualifier value : Bytes}

/-- A qualifier that is not reserved is bound to a namespace that is not. -/
theorem Scope.declare_qualified (hxml : qualifier ≠ Token.ascii "xml")
    (hxmlns : qualifier ≠ Token.ascii "xmlns") (hvalue : value ≠ xmlNamespace)
    (hvalue' : value ≠ xmlnsNamespace) :
    scope.declare ⟨Scope.qualifiedKey ++ qualifier, value⟩ = .ok (⟨qualifier, value⟩ :: scope) := by
  have hkey : Scope.qualifiedKey ++ qualifier ≠ Scope.defaultKey := by
    intro he
    have := congrArg List.length he
    rw [List.length_append] at this
    have hlength : Scope.qualifiedKey.length = 6 := rfl
    have hlength' : Scope.defaultKey.length = 5 := rfl
    omega
  have hprefix : Scope.qualifiedKey.isPrefixOf (Scope.qualifiedKey ++ qualifier) = true := by
    rw [List.isPrefixOf_iff_prefix]
    exact List.prefix_append _ _
  unfold Scope.declare
  dsimp only
  rw [if_neg hkey, if_pos hprefix, List.drop_left, if_neg hxml, if_neg (by simp [hxmlns, hvalue, hvalue'])]

theorem Scope.IsBare.cons (h : scope.IsBare) (hqualifier : qualifier ≠ []) :
    Scope.IsBare (⟨qualifier, value⟩ :: scope) := by
  unfold Scope.IsBare Scope.uri? at *
  rw [List.find?_cons_of_neg (by simpa using hqualifier)]
  exact h

/-- A name without a colon lies in no namespace. -/
theorem Scope.IsBare.resolve (h : scope.IsBare) {name : Bytes} (hname : 0x3A ∉ name)
    (useDefault : Bool) : scope.resolve useDefault name = (.unbound, name) := by
  have hdrop : name.dropWhile (· != 0x3A) = [] := by
    have hall : ∀ b ∈ name, (b != 0x3A) = true := by
      intro b hb
      rw [bne_iff_ne]
      rintro rfl
      exact hname hb
    have hdrop := @List.dropWhile_append_of_pos _ (· != 0x3A) name [] hall
    rwa [List.append_nil] at hdrop
  have hdefault : scope.resolveDefault = .unbound := by
    unfold Scope.resolveDefault
    rw [h]
  unfold Scope.resolve Scope.split
  rw [hdrop, hdefault]
  dsimp only
  rw [ite_self]

/-- A qualified name lies in the namespace that the nearest binding of its qualifier gives. -/
theorem Scope.resolve_qualified {name uri : Bytes} (hqualifier : 0x3A ∉ qualifier)
    (hne : qualifier ≠ []) (huri : scope.uri? qualifier = some uri) (hneUri : uri ≠ [])
    (useDefault : Bool) :
    scope.resolve useDefault (qualifier ++ 0x3A :: name) = (.bound uri, name) := by
  have hall : ∀ b ∈ qualifier, (b != 0x3A) = true := by
    intro b hb
    rw [bne_iff_ne]
    rintro rfl
    exact hqualifier hb
  unfold Scope.resolve Scope.split Scope.resolveQualifier
  rw [List.dropWhile_append_of_pos hall, List.takeWhile_append_of_pos hall, List.dropWhile_cons,
    List.takeWhile_cons, if_neg (by decide), if_neg (by decide), List.append_nil]
  dsimp only
  rw [if_neg (by simpa using hne), huri]
  dsimp only
  rw [if_neg (by simpa using hneUri)]

theorem Scope.uri?_cons_self (qualifier uri : Bytes) (scope : Scope) :
    Scope.uri? (⟨qualifier, uri⟩ :: scope) qualifier = some uri := by
  rw [Scope.uri?, List.find?_cons_of_pos (by simp)]
  rfl

theorem Scope.uri?_cons_of_ne {other : Bytes} (h : other ≠ qualifier) (uri : Bytes) (scope : Scope) :
    Scope.uri? (⟨other, uri⟩ :: scope) qualifier = scope.uri? qualifier := by
  rw [Scope.uri?, List.find?_cons_of_neg (by simpa using h), Scope.uri?]

end

namespace Element

variable {scope : Scope} {met : List Bytes} {others : List Attribute}

/-! ### Attributes -/

theorem text_ofString (s : String) : text (Utf8.ofString s) = .ok s := by
  rw [text, Utf8.toString?_ofString]

/-- Declarations are no attributes. -/
theorem resolveAttributes_declaration {key value : String} (rest : List (String × String))
    (hmet : met.contains (Utf8.ofString key) = false)
    (h : Scope.isDeclaration (Utf8.ofString key) = true) :
    resolveAttributes scope false met (((key, value) :: rest).map rawOf) =
      resolveAttributes scope false (Utf8.ofString key :: met) (rest.map rawOf) := by
  rw [List.map_cons, rawOf, resolveAttributes]
  dsimp only
  rw [hmet, if_neg (by decide), if_pos h]

/-- Any other attribute is resolved by its name. -/
theorem resolveAttributes_mark {key value localName : String} {resolution : Resolution}
    {space : Option String} (hmet : met.contains (Utf8.ofString key) = false)
    (hkey : Scope.isDeclaration (Utf8.ofString key) = false)
    (hresolve : scope.resolve false (Utf8.ofString key) = (resolution, Utf8.ofString localName))
    (hspace : spaceOf (Utf8.ofString key) resolution = .ok space) :
    resolveAttributes scope false met ([(key, value)].map rawOf) = .ok [⟨space, localName, value⟩] := by
  rw [List.map_cons, rawOf, resolveAttributes]
  dsimp only
  rw [hmet, if_neg (by decide), hkey, if_neg (by decide), hresolve]
  dsimp only
  rw [hspace, text_ofString, unescaped_escape]
  rfl

/-! ### Tags -/

/-- The element of a written tag, from what its names resolve to. -/
theorem ofTag_tagBytes {t : PendingTag} (ht : IsTag t) {outer scope : Scope} {resolution : Resolution}
    {space : Option String} {localName : String} {attributes : List Attribute}
    {xsiType : Option TypeReference}
    (hscope : outer.enter ⟨t.attributes.map rawOf, false⟩ = .ok scope)
    (hresolve : scope.resolve true (Utf8.ofString t.name) = (resolution, Utf8.ofString localName))
    (hspace : spaceOf (Utf8.ofString t.name) resolution = .ok space)
    (hattributes : resolveAttributes scope false [] (t.attributes.map rawOf) = .ok attributes)
    (hxsiType : (match typeValue? attributes with
      | none => Except.ok none
      | some value => (resolveType scope localName value).map some) = .ok xsiType) :
    ofTag outer (tagBytes t) = .ok (⟨localName, space, attributes, xsiType⟩, scope) := by
  unfold ofTag
  dsimp only
  rw [scan_tag ht, nameOf_tagBytes ht, hscope]
  simp only [bind, Except.bind, pure, Except.pure, hresolve, hspace, text_ofString, hattributes]
  cases hvalue : typeValue? attributes with
  | none =>
    rw [hvalue] at hxsiType
    cases hxsiType
    rfl
  | some value =>
    rw [hvalue] at hxsiType
    dsimp only at hxsiType ⊢
    rw [hxsiType]

end Element

end SoapBinding.Xml
