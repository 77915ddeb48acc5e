import SoapBinding.Codec.Matching
import SoapBinding.Context
import SoapBinding.Percent
import SoapBinding.Primitive.Text
import SoapBinding.Xml.Cursor

/-!
# Values from elements

A value is read as its declared type describes it. The properties of a sequence are read in order,
each from the element of its name; a choice is read as the first variant that the next element
begins. What has no element of its own, a property that is content or an inline variant, is read
from the content around it.

* An element marked nil is no value, where the declaration admits that.
* An `xsi:type` may name a registered subtype, and the element is then read as that type.
* An optional property whose element does not come next is no value; a repeated one is the list of
  all values that follow each other.
* A payload is base64 text, or a reference that the exchange resolves.

Each rule is stated over `content`, which reads the content of the types inside; `readContent` ties
the knot. Between two elements of a document the reading goes from type to type, and meets none twice
unless the schema lets a type contain itself with no element in between. So nodes times types bound
the depth, and a reading that needs more is `Error.endless`.
-/

namespace SoapBinding

open Xml (Cursor Element Node Reading)

/-- What reading works on. -/
structure Decoder where
  /-- The types. -/
  registry : Registry
  /-- The document. -/
  cursor : Cursor
  /-- The supply of ids for payloads. -/
  nonces : Nonces

/-- Work that reads values. Whatever it did before a failure remains. -/
abbrev Decoding := EStateM Error Decoder

namespace Decoding

/-- Work on the document alone. -/
def onCursor {α : Type} (work : Reading α) : Decoding α := fun s =>
  match work s.cursor with
  | .ok a cursor => .ok a { s with cursor }
  | .error e cursor => .error e { s with cursor }

/-- Work on the types alone. -/
def onRegistry {α : Type} (work : Typed α) : Decoding α := fun s =>
  match work s.registry with
  | .ok a registry => .ok a { s with registry }
  | .error e registry => .error e { s with registry }

/-- The descriptor of a type. -/
def descriptor (type : TypeName) : Decoding Descriptor := onRegistry (Registry.descriptor type)

/-- A payload in memory under a fresh id. -/
def freshBinary (bytes : Bytes) : Decoding Binary := fun s =>
  let (id, nonces) := s.nonces.next
  .ok (.ofBytes id bytes) { s with nonces }

/-! ### Leaves -/

/-- The attachment that a reference names. The `cid:` in front of the id may be missing. -/
def resolve (context : Context) (reference : String) : Except Error Binary :=
  let trimmed := (Text.trim reference).toList
  let id := if "cid:".toList.isPrefixOf trimmed then trimmed.drop 4 else trimmed
  context.resolve (Percent.decode (String.ofList id))

/-- Reads the attachment that a reference names. -/
def readReference (context : Context) (reference : String) : Decoding Value :=
  match resolve context reference with
  | .ok b => return .binary b
  | .error e => throw e

/-- Reads base64 text up to the end of the element around. -/
def readBase64 : Decoding Value := do
  let push := fun (d : Base64.Decoder) (text : String) =>
    (d.push text.toList).mapError fun fault => .content (.base64 fault)
  let decoder ← onCursor (Cursor.foldText push .start)
  match decoder.finish with
  | .ok bytes => return .binary (← freshBinary bytes)
  | .error fault => throw (.content (.base64 fault))

/-- The reference of an element inside a payload. It has to include an attachment. -/
def includedReference (e : Element) : Except Error String :=
  if e.localName ≠ "Include" || e.space ≠ some Xml.xopNamespace then
    .error (.content (.elementInBinary e.localName))
  else match e.attribute? none "href" with
    | none => .error (.attachment .includeWithoutHref)
    | some reference => .ok reference

/-- Moves past blank text. -/
def skipBlankText : Reading Unit := fun c =>
  .ok () { c with ahead := c.ahead.dropWhile Cursor.isBlankText }

/-- Reads a payload: by the `href` of the element around, by an element inside that includes an
attachment, or from base64 text. -/
def readBinary (context : Context) : Decoding Value := do
  match (← get).cursor.current?.bind (·.attribute? none "href") with
  | some reference => readReference context reference
  | none =>
    onCursor skipBlankText
    match ← onCursor Cursor.peek with
    | some (.start e) =>
      match includedReference e with
      | .error fault => throw fault
      | .ok reference =>
        onCursor Cursor.skipElement
        readReference context reference
    | _ => readBase64

/-- Reads the text of the element around as a value of a text type. -/
def readTextType (type : TextType) : Decoding Value := do
  let element := (← get).cursor.around.getD ""
  let text ← onCursor Cursor.readText
  match type.parse text with
  | .ok value => return value
  | .error fault => throw (.content (.lexical type.name element fault))

/-- Reads the content of the element around as a value of a primitive type. -/
def readPrimitive (context : Context) : Primitive → Decoding Value
  | .base64Binary => readBinary context
  | .text type => readTextType type

/-! ### Elements -/

/-- Whether an `xsi:type` names a type. A name without a qualifier also names the type of no
namespace, whatever default namespace is in scope. -/
def names (reference : Xml.TypeReference) (type : TypeName) : Bool :=
  type == reference.type ||
    (!reference.isQualified && type.space.isEmpty && type.localName == reference.type.localName)

/-- The type that an element is read as: the declared one, or the subtype that its `xsi:type`
names. -/
def runtimeType (declared : Descriptor) (e : Element) : Decoding Descriptor :=
  match e.xsiType with
  | none => return declared
  | some reference =>
    if names reference declared.name then return declared
    else match declared.subtypes.find? (names reference) with
      | some subtype => descriptor subtype
      | none => throw (.type (.notSubtype reference.type e.localName declared.name))

/-- Reads the next element, whatever its name, as a value of a declared type. -/
def readWrapped (content : Descriptor → Decoding Value) (owner : TypeName) (nilable : Bool)
    (declared : Descriptor) : Decoding Value := do
  let e ← onCursor Cursor.expectStart
  if e.isNil then
    if nilable then
      onCursor Cursor.skipToEnd
      return .null
    else throw (.value (.notNilable e.localName owner))
  else
    let value ← content (← runtimeType declared e)
    onCursor Cursor.finishElement
    return value

/-! ### Properties -/

/-- Reads one value of a property. Where no value of a choice is marked nil, the mark stands on an
element of the property's name. -/
def readSingle (content : Descriptor → Decoding Value) (owner : TypeName) (p : Property)
    (nested : Descriptor) : Decoding Value := do
  if p.content && !nested.isChoice then content nested
  else
    match ← onCursor Cursor.peekStart with
    | none => throw (.content (.missingElement p.name (some owner)))
    | some e =>
      if nested.isChoice then
        if e.localName = p.name && e.isNil then readWrapped content owner p.nilable nested
        else content nested
      else if e.localName = p.name then readWrapped content owner p.nilable nested
      else throw (.content (.wrongElement e.localName p.name (some owner)))

/-- Whether the next element begins a value of a property. -/
def comesNext (p : Property) : Decoding Bool := do
  match ← onCursor Cursor.peekStart with
  | none => return false
  | some e => onRegistry (p.begins e.localName)

/-- Reads values of a property while they come next, at most `limit` of them. -/
def readItems (content : Descriptor → Decoding Value) (owner : TypeName) (p : Property)
    (nested : Descriptor) : Nat → Decoding (List Value)
  | 0 => throw .endless
  | limit + 1 => do
    if ← comesNext p then
      let item ← readSingle content owner p nested
      let rest ← readItems content owner p nested limit
      return item :: rest
    else return []

/-- Reads the field of a property. An item takes at least one node, which bounds their number. -/
def readProperty (content : Descriptor → Decoding Value) (owner : TypeName) (p : Property) :
    Decoding Value := do
  let nested ← descriptor p.type
  if p.repeated then
    let limit := (← get).cursor.ahead.length + 1
    return .list (← readItems content owner p nested limit)
  else if p.optional then
    if ← comesNext p then readSingle content owner p nested else return .null
  else readSingle content owner p nested

/-- Reads the fields of properties in order. -/
def readProperties (content : Descriptor → Decoding Value) (owner : TypeName) :
    List Property → Decoding Fields
  | [] => return []
  | p :: rest => do
    let value ← readProperty content owner p
    let fields ← readProperties content owner rest
    return (p.name, value) :: fields

/-! ### Variants -/

/-- Reads the first of some variants that the next element begins. -/
def readVariants (content : Descriptor → Decoding Value) (owner : TypeName) (element : String) :
    List Variant → Decoding Value
  | [] => throw (.content (.noVariant element owner))
  | v :: rest => do
    let nested ← descriptor v.type
    match v.dispatch with
    | .element name =>
      if name = element then return v.build (← readWrapped content owner true nested)
      else readVariants content owner element rest
    | .inline =>
      if ← onRegistry (nested.begins element) then return v.build (← content nested)
      else readVariants content owner element rest

/-- Reads a choice. -/
def readChoice (content : Descriptor → Decoding Value) (owner : TypeName)
    (variants : List Variant) : Decoding Value := do
  match ← onCursor Cursor.peekStart with
  | none => throw (.content (.choiceEnded owner))
  | some e => readVariants content owner e.localName variants

/-! ### Contents -/

/-- Reads the content of a type, in a bounded number of steps from type to type. -/
def readContent (context : Context) : Nat → Descriptor → Decoding Value
  | 0, _ => throw .endless
  | steps + 1, d =>
    match d.shape with
    | .simple primitive => readPrimitive context primitive
    | .sequence properties _ isAbstract => do
      if isAbstract then throw (.schema (.abstractType d.name))
      else return .object d.name (← readProperties (readContent context steps) d.name properties)
    | .choice variants => readChoice (readContent context steps) d.name variants

/-- The number of steps from type to type that is enough for what is ahead. -/
def depthBound (s : Decoder) : Nat :=
  (s.cursor.ahead.length + 1) * Descriptor.chainBound s.registry.schema

/-- Reads the content of the element around as a value of a named type. -/
def read (context : Context) (type : TypeName) : Decoding Value := do
  let d ← descriptor type
  readContent context (depthBound (← get)) d

/-- Reads the next element, which must have the name given, as a value of a named type. -/
def readElement (context : Context) (element : String) (type : TypeName) : Decoding Value := do
  let declared ← descriptor type
  match ← onCursor Cursor.peekStart with
  | none => throw (.content (.missingElement element none))
  | some e =>
    if e.localName = element then
      readWrapped (readContent context (depthBound (← get))) type true declared
    else throw (.content (.wrongElement e.localName element none))

end Decoding
end SoapBinding
