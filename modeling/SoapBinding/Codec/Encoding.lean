import SoapBinding.Base64.Chunks
import SoapBinding.Context
import SoapBinding.Percent
import SoapBinding.Primitive.Text
import SoapBinding.Registry
import SoapBinding.Xml.Sink

/-!
# Values into elements

A value is written as its declared type describes it. The content of a sequence is its properties in
order, each looked up by name among the object's fields; the content of a choice is the variant that
the tag selects. A value is wrapped in an element of its property's name, unless the property is
content or its type a choice, whose variants bring elements of their own.

* Where there is no value, a nilable property is an element marked nil, an optional one is left out,
  and any other is refused. A repeated property without a value is an empty list.
* An object whose type is a registered subtype of the declared one is marked with its type and
  written as that type. One of any other type is written as the declared type.
* A payload is base64 text, or a reference to an attachment that is registered on the way.

The recursion follows the value: what is written inside an object or a choice is a part of it.
-/

namespace SoapBinding

open Xml (Sink Writing)

/-- What writing works on. -/
structure Encoder where
  /-- The types. -/
  registry : Registry
  /-- The exchange. -/
  context : Context
  /-- The document. -/
  sink : Sink

/-- Work that writes values. Whatever it did before a failure remains. -/
abbrev Encoding := EStateM Error Encoder

namespace Encoding

/-- Work on the document alone. -/
def onSink {α : Type} (work : Writing α) : Encoding α := fun s =>
  match work s.sink with
  | .ok a sink => .ok a { s with sink }
  | .error e sink => .error e { s with sink }

/-- Work on the types alone. -/
def onRegistry {α : Type} (work : Typed α) : Encoding α := fun s =>
  match work s.registry with
  | .ok a registry => .ok a { s with registry }
  | .error e registry => .error e { s with registry }

/-- The descriptor of a type. -/
def descriptor (type : TypeName) : Encoding Descriptor := onRegistry (Registry.descriptor type)

/-- Registers an attachment. -/
def register (b : Binary) : Encoding Unit := fun s =>
  match s.context.add b with
  | .ok context => .ok () { s with context }
  | .error e => .error e s

/-! ### Leaves -/

/-- The reference to an attachment. -/
def referenceTo (b : Binary) : String := "cid:" ++ Percent.encode b.id

/-- Writes a reference to an attachment, in the way that the exchange wants. -/
def writeReference (reference : Reference) (b : Binary) : Writing Unit :=
  match reference with
  | .href => Sink.addAttribute "href" (referenceTo b)
  | .xopInclude => do
    Sink.startElement "xop:Include"
    Sink.declare "xop" Xml.xopNamespace
    Sink.addAttribute "href" (referenceTo b)
    Sink.endElement

/-- Writes texts one after the other, and closes the waiting tag even where there are none. -/
def writeTexts (texts : List String) : Writing Unit := do
  texts.forM Sink.text
  Sink.text ""

/-- Writes a payload, as a reference or as base64 text. -/
def writeBinary (files : Files) (value : Value) : Encoding Unit := do
  match value.binary? with
  | none => throw (.value (.notBinary value.kind))
  | some b =>
    let context := (← get).context
    if context.multipart then
      register b
      onSink (writeReference context.reference b)
    else
      match b.bytes? files with
      | none => throw .io
      | some bytes => onSink (writeTexts (Base64.encodeChunks context.chunkSize bytes))

/-- Writes a value of a primitive type. -/
def writePrimitive (files : Files) (primitive : Primitive) (value : Value) : Encoding Unit :=
  match primitive with
  | .base64Binary => writeBinary files value
  | .text type =>
    match type.render? value with
    | some s => onSink (Sink.text s)
    | none => throw (.value (.notPrimitive value.kind type.name))

/-! ### Structure -/

/-- The registered subtype of a declared type that a value is an instance of, if it is one. -/
def subtypeOf (declared : Descriptor) (value : Value) : Encoding (Option Descriptor) :=
  match value.object? with
  | none => return none
  | some (type, _) =>
    if type != declared.name && declared.subtypes.contains type then
      return some (← descriptor type)
    else return none

/-- Writes an element marked nil. -/
def writeNil (element : String) : Writing Unit := do
  Sink.startElement element
  Sink.markNil
  Sink.endElement

/-- Writes what a property that is not repeated shows where there is no value. -/
def writeNothing (owner : TypeName) (p : Property) : Encoding Unit :=
  if p.nilable then onSink (writeNil p.name)
  else if p.optional then return ()
  else throw (.value (.required p.name owner))

mutual

/-- Writes the content of a value of a type, without an element around it. -/
def writeContent (files : Files) (d : Descriptor) (value : Value) : Encoding Unit :=
  match d.shape with
  | .simple primitive => writePrimitive files primitive value
  | .sequence properties _ _ =>
    match value with
    | .object _ fields => writeProperties files d.name fields properties
    | other => throw (.value (.notObject d.name other.kind))
  | .choice variants =>
    match value with
    | .choice tag inner => do
      match variants.find? (·.tag == tag) with
      | none => throw (.value (.unknownTag d.name tag))
      | some variant =>
        let nested ← descriptor variant.type
        match variant.dispatch with
        | .element name => writeWrapped files name nested inner
        | .inline => writeContent files nested inner
    | other => throw (.value (.notChoice d.name other.kind))
termination_by (sizeOf value, 0, 0)

/-- Writes a value inside an element. -/
def writeWrapped (files : Files) (element : String) (declared : Descriptor) (value : Value) :
    Encoding Unit :=
  if value.isNull then onSink (writeNil element)
  else do
    onSink (Sink.startElement element)
    match ← subtypeOf declared value with
    | some subtype =>
      onSink (Sink.markType subtype.name)
      writeContent files subtype value
    | none => writeContent files declared value
    onSink Sink.endElement
termination_by (sizeOf value, 1, 0)

/-- Writes one value of a property. -/
def writeSingle (files : Files) (owner : TypeName) (p : Property) (value : Value) :
    Encoding Unit :=
  if value.isNull then writeNothing owner p
  else do
    let nested ← descriptor p.type
    if p.content || nested.isChoice then writeContent files nested value
    else writeWrapped files p.name nested value
termination_by (sizeOf value, 2, 0)

/-- Writes the values of a repeated property. -/
def writeItems (files : Files) (owner : TypeName) (p : Property) (items : List Value) :
    Encoding Unit :=
  match items with
  | [] => return ()
  | item :: rest => do
    writeSingle files owner p item
    writeItems files owner p rest
termination_by (sizeOf items, 3, 0)

/-- Writes the field of a property. -/
def writeProperty (files : Files) (owner : TypeName) (p : Property) (value : Value) :
    Encoding Unit :=
  if !p.repeated then writeSingle files owner p value
  else match value with
    | .null => return ()
    | .list items => writeItems files owner p items
    | other => throw (.value (.notList p.name owner other.kind))
termination_by (sizeOf value, 3, 0)

/-- Writes properties in order. A field that the object does not have counts as no value. -/
def writeProperties (files : Files) (owner : TypeName) (fields : Fields)
    (properties : List Property) : Encoding Unit :=
  match properties with
  | [] => return ()
  | p :: rest =>
    (match h : fields.get? p.name with
      | some value => writeProperty files owner p value
      | none => if p.repeated then return () else writeNothing owner p) >>= fun _ =>
    writeProperties files owner fields rest
termination_by (sizeOf fields, 4, properties.length)
decreasing_by
  · exact Prod.Lex.left _ _ (Fields.sizeOf_get? h)
  · exact Prod.Lex.right _ (Prod.Lex.right _ (Nat.lt_succ_self _))

end

/-- Writes the content of a value of a named type. -/
def write (files : Files) (type : TypeName) (value : Value) : Encoding Unit := do
  writeContent files (← descriptor type) value

/-- Writes a value of a named type inside an element. -/
def writeElement (files : Files) (element : String) (type : TypeName) (value : Value) :
    Encoding Unit := do
  writeWrapped files element (← descriptor type) value

end Encoding
end SoapBinding
