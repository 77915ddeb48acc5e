import SoapBinding.Xml.Element

/-!
# Sinks

A `Sink` writes a document piece by piece. The tag of an element that has just been started waits, so
that attributes can still be added to it; the first content closes it, and an element that ends while
its tag waits is written as an empty one. Names are written as they are given; attribute values and
text are escaped.

What can be written may be limited to a number of bytes. The piece that would go past the limit is
not written and the sink fails.
-/

namespace SoapBinding.Xml

/-- A start tag that is still open for attributes. -/
structure PendingTag where
  /-- The name of the element. -/
  name : String
  /-- The attributes so far, in order. -/
  attributes : List (String × String)
  deriving Repr, DecidableEq

/-- A document being written. -/
structure Sink where
  /-- What has been written. -/
  written : String
  /-- The tag that waits. -/
  pending : Option PendingTag
  /-- The names of the open elements, the innermost first. -/
  opened : List String
  /-- How many bytes may be written. -/
  limit : Option Nat
  deriving Repr, DecidableEq

/-- Work that writes to a sink. -/
abbrev Writing := EStateM Error Sink

namespace PendingTag

/-- An attribute, behind a space. -/
def renderAttribute (a : String × String) : String := " " ++ a.1 ++ "=\"" ++ escape a.2 ++ "\""

/-- What stands behind the name. -/
def renderAttributes (t : PendingTag) : String := String.join (t.attributes.map renderAttribute)

/-- What stands between the angle brackets. -/
def render (t : PendingTag) : String := t.name ++ t.renderAttributes

end PendingTag

namespace Sink

/-- A sink to which nothing has been written. -/
def empty (limit : Option Nat) : Sink := ⟨"", none, [], limit⟩

/-- Whether so much text may be written in all. -/
def admits (limit : Option Nat) (text : String) : Bool :=
  match limit with
  | none => true
  | some n => text.utf8ByteSize ≤ n

/-- Writes a piece. -/
def emit (piece : String) : Writing Unit := fun s =>
  let written := s.written ++ piece
  if admits s.limit written then .ok () { s with written } else .error .io s

/-- Closes the tag that waits, if one does, and writes it. -/
def closeTag : Writing Unit := fun s =>
  match s.pending with
  | none => .ok () s
  | some tag => emit ("<" ++ tag.render ++ ">") { s with pending := none }

/-- Starts an element; its tag waits. -/
def startElement (name : String) : Writing Unit := do
  closeTag
  modify fun s => { s with pending := some ⟨name, []⟩, opened := name :: s.opened }

/-- Adds an attribute to the tag that waits. -/
def addAttribute (name value : String) : Writing Unit := fun s =>
  match s.pending with
  | none => .error (.sink (.lateAttribute name)) s
  | some tag =>
    .ok () { s with pending := some { tag with attributes := tag.attributes ++ [(name, value)] } }

/-- Whether the tag that waits has an attribute of a name for those who read it. Names are written as
they are given, so one may hold an attribute of its own or hide those behind it. -/
def hasAttribute (s : Sink) (name : String) : Bool :=
  match s.pending with
  | none => false
  | some tag =>
    (RawAttributes.keys (Utf8.ofString tag.renderAttributes)).contains (Utf8.ofString name)

/-- Declares a qualifier on the tag that waits, unless the tag declares it already. -/
def declare (qualifier uri : String) : Writing Unit := do
  let key := "xmlns:" ++ qualifier
  if (← get).hasAttribute key then return () else addAttribute key uri

/-- Marks the element as having no value. -/
def markNil : Writing Unit := do
  declare "xsi" xsiNamespace
  addAttribute "xsi:nil" "true"

/-- The qualifier under which the namespace of an explicit type is declared. -/
def typeQualifier : String := "tns"

/-- Marks the element as being of a type. -/
def markType (type : TypeName) : Writing Unit := do
  declare "xsi" xsiNamespace
  if type.space.isEmpty then addAttribute "xsi:type" type.localName
  else
    declare typeQualifier type.space
    addAttribute "xsi:type" (typeQualifier ++ ":" ++ type.localName)

/-- Writes text. Even an empty text closes the tag that waits. -/
def text (t : String) : Writing Unit := do
  closeTag
  if t.isEmpty then return () else emit (escape t)

/-- Ends the innermost open element. -/
def endElement : Writing Unit := fun s =>
  match s.opened with
  | [] => .error (.sink .nothingOpen) s
  | name :: outer =>
    match s.pending with
    | some tag => emit ("<" ++ tag.render ++ "/>") { s with opened := outer, pending := none }
    | none => emit ("</" ++ name ++ ">") { s with opened := outer }

/-- The finished document; every element has to be closed. -/
def finish (s : Sink) : Except Error String :=
  match s.opened with
  | name :: _ => .error (.sink (.leftOpen name))
  | [] => .ok s.written

end Sink
end SoapBinding.Xml
