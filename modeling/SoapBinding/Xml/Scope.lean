import SoapBinding.Xml.RawAttribute

/-!
# Namespaces in scope

A `Scope` is the list of namespace bindings at a place in a document, the nearest first. Start tags
add to it: `xmlns` binds the default namespace, `xmlns:q` the qualifier `q`. An empty URI takes a
binding back.

A qualified name is looked up by what stands in front of its first colon. The default namespace
applies to names without a colon, and only to elements and to type names; a name that begins with a
colon has an empty qualifier, which nothing binds.
-/

namespace SoapBinding.Xml

/-- The namespace of `xml:` names. -/
def xmlNamespace : Bytes := Token.ascii "http://www.w3.org/XML/1998/namespace"

/-- The namespace of `xmlns:` names. -/
def xmlnsNamespace : Bytes := Token.ascii "http://www.w3.org/2000/xmlns/"

/-- A qualifier, empty for the default, with the namespace it stands for. -/
structure Binding where
  /-- The qualifier. -/
  qualifier : Bytes
  /-- The namespace URI, empty for none. -/
  uri : Bytes
  deriving Repr, DecidableEq

/-- The bindings at a place, the nearest first. -/
abbrev Scope := List Binding

/-- What a name's qualifier stands for. -/
inductive Resolution where
  /-- A namespace. -/
  | bound (uri : Bytes)
  /-- No namespace. -/
  | unbound
  /-- The qualifier is not declared. -/
  | undeclared (qualifier : Bytes)
  deriving Repr, DecidableEq

namespace Scope

/-- The bindings that hold everywhere. -/
def initial : Scope :=
  [⟨Token.ascii "xml", xmlNamespace⟩, ⟨Token.ascii "xmlns", xmlnsNamespace⟩]

/-- The attribute that binds the default namespace. -/
def defaultKey : Bytes := Token.ascii "xmlns"

/-- What the keys of attributes that bind a qualifier begin with. -/
def qualifiedKey : Bytes := Token.ascii "xmlns:"

/-- Whether an attribute's key declares a namespace. -/
def isDeclaration (key : Bytes) : Bool := key == defaultKey || qualifiedKey.isPrefixOf key

/-- The scope behind an attribute. The reserved namespaces and qualifiers belong together: `xml`
cannot be bound to another namespace nor another qualifier to that of `xml`, and nothing can be said
of `xmlns`. -/
def declare (scope : Scope) (a : RawAttribute) : Except Error Scope :=
  if a.key = defaultKey then .ok (⟨[], a.value⟩ :: scope)
  else if qualifiedKey.isPrefixOf a.key then
    let qualifier := a.key.drop qualifiedKey.length
    if qualifier = Token.ascii "xml" then
      if a.value = xmlNamespace then .ok scope else .error .markup
    else if qualifier = Token.ascii "xmlns" || a.value = xmlNamespace || a.value = xmlnsNamespace then
      .error .markup
    else .ok (⟨qualifier, a.value⟩ :: scope)
  else .ok scope

/-- The scope inside an element with the given attributes. -/
def enter (scope : Scope) (as : RawAttributes) : Except Error Scope := as.items.foldlM declare scope

/-- The namespace that the nearest binding gives a qualifier. -/
def uri? (scope : Scope) (qualifier : Bytes) : Option Bytes :=
  (scope.find? fun b => b.qualifier == qualifier).map (·.uri)

/-- The qualifier of a name, if it has one, and its local part. -/
def split (name : Bytes) : Option Bytes × Bytes :=
  match name.dropWhile (· != 0x3A) with
  | [] => (none, name)
  | _ :: localPart => (some (name.takeWhile (· != 0x3A)), localPart)

/-- What a qualifier stands for. -/
def resolveQualifier (scope : Scope) (qualifier : Bytes) : Resolution :=
  if qualifier.isEmpty then .undeclared qualifier
  else match scope.uri? qualifier with
    | none => .undeclared qualifier
    | some uri => if uri.isEmpty then .undeclared qualifier else .bound uri

/-- The default namespace. -/
def resolveDefault (scope : Scope) : Resolution :=
  match scope.uri? [] with
  | none => .unbound
  | some uri => if uri.isEmpty then .unbound else .bound uri

/-- What a name's qualifier stands for, and its local part. Without a qualifier, the default
namespace applies if `useDefault`. -/
def resolve (scope : Scope) (useDefault : Bool) (name : Bytes) : Resolution × Bytes :=
  match split name with
  | (some qualifier, localPart) => (scope.resolveQualifier qualifier, localPart)
  | (none, localPart) => (if useDefault then scope.resolveDefault else .unbound, localPart)

end Scope
end SoapBinding.Xml
