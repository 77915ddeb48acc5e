import SoapBinding.Xml.Entity
import SoapBinding.Xml.Scope

/-!
# Elements

An `Element` is a start tag whose names have been resolved: its own name, its attributes in order
without the namespace declarations, and the type that an `xsi:type` attribute names. Making one from
a tag checks, in this order: the namespace declarations, the name of the element, each attribute
from left to right, and the `xsi:type`.
-/

namespace SoapBinding.Xml

/-- The namespace of `nil` and `type` attributes. -/
def xsiNamespace : String := "http://www.w3.org/2001/XMLSchema-instance"

/-- The namespace of elements that include an attachment. -/
def xopNamespace : String := "http://www.w3.org/2004/08/xop/include"

/-- An attribute with its name resolved and its entities replaced. -/
structure Attribute where
  /-- The namespace, if any. -/
  space : Option String
  /-- The local name. -/
  localName : String
  /-- The value. -/
  value : String
  deriving Repr, DecidableEq

/-- The type that an `xsi:type` attribute names. -/
structure TypeReference where
  /-- The type. -/
  type : TypeName
  /-- Whether the name carries a qualifier. -/
  isQualified : Bool
  deriving Repr, DecidableEq

/-- A start tag with its names resolved. -/
structure Element where
  /-- The local name. -/
  localName : String
  /-- The namespace, if any. -/
  space : Option String
  /-- The attributes, in order. -/
  attributes : List Attribute
  /-- What an `xsi:type` attribute names. -/
  xsiType : Option TypeReference
  deriving Repr, DecidableEq

namespace Element

/-- The value of the first attribute of a name. -/
def attribute? (e : Element) (space : Option String) (localName : String) : Option String :=
  (e.attributes.find? fun a => a.localName == localName && a.space == space).map (·.value)

/-- Whether an `xsi:nil` attribute says `true`, in any case, or `1`. -/
def isNil (e : Element) : Bool :=
  match e.attribute? (some xsiNamespace) "nil" with
  | none => false
  | some value => Text.sameUpToCase (Text.trim value) "true" || Text.trim value == "1"

/-! ### From a tag -/

/-- The text of bytes that have to be UTF-8. -/
def text (bs : Bytes) : Except Error String :=
  match Utf8.toString? bs with
  | none => .error .markup
  | some s => .ok s

/-- The namespace that a resolved name lies in; an undeclared qualifier is refused. -/
def spaceOf (name : Bytes) : Resolution → Except Error (Option String)
  | .bound uri => (text uri).map some
  | .unbound => .ok none
  | .undeclared qualifier =>
    .error (.content (.undeclaredQualifier (Utf8.toStringLossy qualifier) (Utf8.toStringLossy name)))

/-- Text with its entities replaced. -/
def unescaped (raw : Bytes) : Except Error String := do
  let s ← text raw
  match unescape? s.toList with
  | none => .error .markup
  | some cs => .ok (String.ofList cs)

/-- Resolves attributes from left to right. `met` holds the keys on the left; a key met before is
refused, and so is whatever is malformed behind the last attribute. -/
def resolveAttributes (scope : Scope) (isFaulty : Bool) (met : List Bytes) :
    List RawAttribute → Except Error (List Attribute)
  | [] => if isFaulty then .error .markup else .ok []
  | a :: rest => do
    if met.contains a.key then .error .markup
    else if Scope.isDeclaration a.key then resolveAttributes scope isFaulty (a.key :: met) rest
    else
      let (resolution, localPart) := scope.resolve false a.key
      let space ← spaceOf a.key resolution
      let localName ← text localPart
      let value ← unescaped a.value
      let others ← resolveAttributes scope isFaulty (a.key :: met) rest
      .ok (⟨space, localName, value⟩ :: others)

/-- The type that a name stands for at a place; `element` is the element that carries it. -/
def resolveType (scope : Scope) (element value : String) : Except Error TypeReference :=
  let name := Text.trim value
  let (resolution, localPart) := scope.resolve true (Utf8.ofString name)
  match spaceOf [] resolution with
  | .error _ => .error (.type (.undeclaredQualifier name element))
  | .ok space =>
    .ok ⟨⟨space.getD "", Utf8.toStringLossy localPart⟩, name.toList.contains ':'⟩

/-- The value of the first `xsi:type` among attributes. -/
def typeValue? (attributes : List Attribute) : Option String :=
  (attributes.find? fun a => a.localName == "type" && a.space == some xsiNamespace).map (·.value)

/-- The name in a start tag: everything in front of white space. -/
def nameOf (tag : Bytes) : Bytes := tag.takeWhile fun b => !isSpace b

/-- The element of a start tag, and the scope inside it. -/
def ofTag (outer : Scope) (tag : Bytes) : Except Error (Element × Scope) := do
  let name := nameOf tag
  let raw := RawAttributes.scan (tag.drop name.length)
  let scope ← outer.enter raw
  let (resolution, localPart) := scope.resolve true name
  let space ← spaceOf name resolution
  let localName ← text localPart
  let attributes ← resolveAttributes scope raw.isFaulty [] raw.items
  let xsiType ← match typeValue? attributes with
    | none => pure none
    | some value => (resolveType scope localName value).map some
  return (⟨localName, space, attributes, xsiType⟩, scope)

end Element
end SoapBinding.Xml
