import SoapBinding.Base64.Incremental
import SoapBinding.Double.Text
import SoapBinding.Value

/-!
# Errors

Every failure is a cause: a constructor that carries what was found. The causes are grouped by what
they are about, and each group knows its wording. `Error.kind` sorts them into the seven kinds that
callers tell apart, and `Error.message` is the whole text, with the heading of the kind in front.

Malformed markup and failures of a stream have no wording of their own beyond their kind.
-/

namespace SoapBinding

/-- What kind of failure a caller sees. -/
inductive ErrorKind where
  /-- A value does not fit the schema. -/
  | validation
  /-- A document does not fit the schema. -/
  | parse
  /-- A type is named that cannot be used there. -/
  | typeResolution
  /-- An attachment or a multipart body is at fault. -/
  | attachment
  /-- A schema, a setting or an order of calls is at fault. -/
  | configuration
  /-- The markup is malformed. -/
  | xml
  /-- A stream or a file failed. -/
  | io
  deriving Repr, DecidableEq

/-- The stable code of a kind. -/
def ErrorKind.code : ErrorKind → String
  | .validation => "VALIDATION_ERROR"
  | .parse => "PARSE_ERROR"
  | .typeResolution => "TYPE_RESOLUTION_ERROR"
  | .attachment => "ATTACHMENT_ERROR"
  | .configuration => "CONFIGURATION_ERROR"
  | .xml => "XML_ERROR"
  | .io => "IO_ERROR"

/-- What stands in front of a message of a kind. -/
def ErrorKind.heading : ErrorKind → String
  | .validation => "Validation error: "
  | .parse => "Parse error: "
  | .typeResolution => "Type resolution error: "
  | .attachment => "Attachment error: "
  | .configuration => "Configuration error: "
  | .xml => "XML error: "
  | .io => "IO error: "

/-- A text between backquotes. -/
private def marked (s : String) : String := "\x60" ++ s ++ "\x60"

/-- An element's name as a tag between backquotes. -/
private def tag (name : String) : String := marked ("<" ++ name ++ ">")

/-- The element that content belongs to, where there is one. -/
private def within : Option String → String
  | none => ""
  | some name => " in " ++ tag name

/-! ### Causes -/

/-- Faults of a schema, found when a type is compiled or used. -/
inductive SchemaFault where
  | undescribed (type : TypeName)
  | unmappedPrimitive (type : TypeName)
  | unmappedBase (base type : TypeName)
  | simpleWithoutPrimitive (type : TypeName)
  | sequenceWithVariants (type : TypeName)
  | choiceWithProperties (type : TypeName)
  | cyclicBase (base : TypeName)
  | undescribedBase (base type : TypeName)
  | baseNotSequence (type base : TypeName)
  | unnamedProperty (type : TypeName)
  | repeatedTag (type : TypeName) (tag : UInt32)
  | unnamedVariant (type : TypeName) (tag : UInt32)
  | abstractType (type : TypeName)
  deriving DecidableEq

/-- The wording of a schema's fault. -/
def SchemaFault.message : SchemaFault → String
  | .undescribed type => "type " ++ marked type.display ++ " has no serialization metadata"
  | .unmappedPrimitive type => "unmapped primitive schema type " ++ marked type.display
  | .unmappedBase base type =>
    "unmapped primitive schema type " ++ marked base.display ++ " (base of " ++
      marked type.display ++ ")"
  | .simpleWithoutPrimitive type =>
    "simple type " ++ marked type.display ++ " must restrict a built-in schema type"
  | .sequenceWithVariants type =>
    "sequence type " ++ marked type.display ++ " declares choice variants"
  | .choiceWithProperties type =>
    "choice type " ++ marked type.display ++ " declares sequence properties"
  | .cyclicBase base => "cyclic base type chain through " ++ marked base.display
  | .undescribedBase base type =>
    "base type " ++ marked base.display ++ " of " ++ marked type.display ++
      " has no serialization metadata"
  | .baseNotSequence type base =>
    marked type.display ++ " extends " ++ marked base.display ++ ", which is not a sequence type"
  | .unnamedProperty type =>
    "type " ++ marked type.display ++ " has a property without an element name"
  | .repeatedTag type tag =>
    "choice type " ++ marked type.display ++ " declares discriminant " ++ toString tag.toNat ++
      " more than once"
  | .unnamedVariant type tag =>
    "variant " ++ toString tag.toNat ++ " of choice type " ++ marked type.display ++
      " has an empty element name"
  | .abstractType type =>
    "type " ++ marked type.display ++
      " is abstract and cannot be decoded without an xsi:type naming a concrete subtype"

/-- The kind of a schema's fault: a primitive without an encoding is a question of its name. -/
def SchemaFault.kind : SchemaFault → ErrorKind
  | .unmappedPrimitive _ | .unmappedBase .. => .typeResolution
  | _ => .configuration

/-- Values that do not fit the schema. -/
inductive ValueFault where
  | notObject (type : TypeName) (found : Value.Kind)
  | notList (property : String) (owner : TypeName) (found : Value.Kind)
  | required (property : String) (owner : TypeName)
  | notChoice (type : TypeName) (found : Value.Kind)
  | unknownTag (type : TypeName) (tag : UInt32)
  | notPrimitive (found : Value.Kind) (primitive : String)
  | notBinary (found : Value.Kind)
  | notNilable (element : String) (owner : TypeName)
  | refused (reason : String)
  deriving DecidableEq

/-- The wording of a value's fault. -/
def ValueFault.message : ValueFault → String
  | .notObject type found =>
    "expected an object of type " ++ marked type.display ++ ", found " ++ found.name
  | .notList property owner found =>
    "property " ++ marked property ++ " of " ++ marked owner.display ++
      " is repeated and expects a list, found " ++ found.name
  | .required property owner =>
    "property " ++ marked property ++ " of " ++ marked owner.display ++
      " is required but has no value"
  | .notChoice type found =>
    "expected a choice value of type " ++ marked type.display ++ ", found " ++ found.name
  | .unknownTag type tag =>
    "choice type " ++ marked type.display ++ " has no variant with discriminant " ++
      toString tag.toNat
  | .notPrimitive found primitive =>
    "cannot write " ++ found.name ++ " value as xs:" ++ primitive
  | .notBinary found => "expected binary content, found " ++ found.name
  | .notNilable element owner =>
    "element " ++ tag element ++ " in " ++ marked owner.display ++
      " is marked xsi:nil but is not nilable"
  | .refused reason => reason

/-- Texts that are no values of a primitive type. -/
inductive LexicalFault where
  | notBoolean (text : String)
  | integer (text : String) (fault : Text.IntegerFault)
  | double (text : String) (fault : Double.Fault)
  | notDecimal (text : String)
  | fractional (text : String)
  | notDateTime (text : String)
  deriving DecidableEq

/-- The wording of a text's fault. -/
def LexicalFault.message : LexicalFault → String
  | .notBoolean text => marked text ++ " is not a boolean"
  | .integer text fault => marked text ++ ": " ++ fault.message
  | .double text fault => marked text ++ ": " ++ fault.message
  | .notDecimal text => marked text ++ " is not a valid decimal"
  | .fractional text => marked text ++ " has a fractional part"
  | .notDateTime text => marked text

/-- The wording of a fault in base64 text. -/
def Base64.Fault.message : Base64.Fault → String
  | .nonAscii => "invalid base64 content: non-ASCII character"
  | .malformed => "invalid base64 content"

/-- Documents that do not fit the schema. The last field of the first five causes is the element
around the place, where there is one. -/
inductive ContentFault where
  | strayText (text : String) (around : Option String)
  | contentEnded (around : Option String)
  | documentEnded (around : Option String)
  | strayElement (element : String) (around : Option String)
  | elementInText (element : String) (around : Option String)
  | undeclaredQualifier (qualifier name : String)
  | missingElement (element : String) (owner : Option TypeName)
  | wrongElement (found expected : String) (owner : Option TypeName)
  | choiceEnded (type : TypeName)
  | noVariant (element : String) (type : TypeName)
  | lexical (primitive element : String) (fault : LexicalFault)
  | elementInBinary (element : String)
  | base64 (fault : Base64.Fault)
  deriving DecidableEq

/-- The type that content is read for, where there is one. -/
private def owned : Option TypeName → String
  | none => ""
  | some owner => " in " ++ marked owner.display

/-- The wording of a document's fault. -/
def ContentFault.message : ContentFault → String
  | .strayText text around =>
    "unexpected text " ++ marked text ++ " where an element was expected" ++ within around
  | .contentEnded around => "premature end of content" ++ within around
  | .documentEnded around => "premature end of document" ++ within around
  | .strayElement element around => "unexpected element " ++ tag element ++ within around
  | .elementInText element around =>
    "unexpected element " ++ tag element ++ " in simple content" ++ within around
  | .undeclaredQualifier qualifier name =>
    "undeclared namespace prefix " ++ marked qualifier ++ " in " ++ marked name
  | .missingElement element owner => "missing required element " ++ tag element ++ owned owner
  | .wrongElement found expected owner =>
    "unexpected element " ++ tag found ++ ", expected " ++ tag expected ++ owned owner
  | .choiceEnded type => "no matching choice variant for " ++ marked type.display ++ ": content ended"
  | .noVariant element type =>
    "no matching choice variant for element " ++ tag element ++ " in " ++ marked type.display
  | .lexical primitive element fault =>
    "invalid xs:" ++ primitive ++ " value in " ++ tag element ++ ": " ++ fault.message
  | .elementInBinary element => "unexpected element " ++ tag element ++ " in binary content"
  | .base64 fault => fault.message

/-- Uses of `xsi:type` that name no usable type. -/
inductive TypeFault where
  | undeclaredQualifier (name element : String)
  | notSubtype (type : TypeName) (element : String) (declared : TypeName)
  deriving DecidableEq

/-- The wording of a fault in `xsi:type`. -/
def TypeFault.message : TypeFault → String
  | .undeclaredQualifier name element =>
    "xsi:type " ++ marked name ++ " on " ++ tag element ++ " uses an undeclared prefix"
  | .notSubtype type element declared =>
    "xsi:type " ++ marked type.display ++ " on " ++ tag element ++
      " is not a registered subtype of " ++ marked declared.display

/-- Faults of attachments and of multipart bodies. -/
inductive AttachmentFault where
  | includeWithoutHref
  | duplicateId (id : String)
  | unknownId (id : String)
  | tooManyParts (limit : Nat)
  | noParts
  | partWithoutId
  | duplicatePartId (id : String)
  | unsupportedEncoding (name : String)
  | endedInHeaders
  | malformedHeader (line : String)
  | undecodableBase64
  | base64 (fault : Base64.Fault)
  | unterminated
  deriving DecidableEq

/-- The wording of an attachment's fault. -/
def AttachmentFault.message : AttachmentFault → String
  | .includeWithoutHref => "xop:Include without href"
  | .duplicateId id => "duplicate content-id " ++ marked id
  | .unknownId id => "unknown content part " ++ marked ("cid:" ++ id)
  | .tooManyParts limit => "multipart body exceeds " ++ toString limit ++ " parts"
  | .noParts => "empty multipart content"
  | .partWithoutId => "attachment part without a Content-ID header"
  | .duplicatePartId id => "duplicate content-id " ++ marked id ++ " in multipart body"
  | .unsupportedEncoding name => "unsupported content-transfer-encoding " ++ marked name
  | .endedInHeaders => "multipart body ended inside part headers"
  | .malformedHeader line => "malformed part header " ++ marked line
  | .undecodableBase64 => "non-ASCII data in base64 part"
  | .base64 fault => fault.message
  | .unterminated => "multipart body is missing its closing boundary"

/-- Calls that come at a wrong time while an element is written. -/
inductive SinkFault where
  | lateAttribute (name : String)
  | nothingOpen
  | leftOpen (element : String)
  deriving DecidableEq

/-- The wording of a fault in the order of calls. -/
def SinkFault.message : SinkFault → String
  | .lateAttribute name => "attribute " ++ marked name ++ " written after element content"
  | .nothingOpen => "end_element without open element"
  | .leftOpen element => "element " ++ tag element ++ " left open"

/-- Settings that cannot be used. -/
inductive SettingsFault where
  | unreadable
  | chunkSize (size : Nat)
  | lineBuffer
  | maxParts
  deriving DecidableEq

/-- The wording of a setting's fault. -/
def SettingsFault.message : SettingsFault → String
  | .unreadable => "invalid codec config"
  | .chunkSize size =>
    "binary.encode_chunk_size must be a positive multiple of 3, got " ++ toString size
  | .lineBuffer => "multipart.line_buffer_size must be positive"
  | .maxParts => "multipart.max_parts must be positive"

/-- Any failure of the library. -/
inductive Error where
  /-- The schema is at fault. -/
  | schema (fault : SchemaFault)
  /-- A value does not fit the schema. -/
  | value (fault : ValueFault)
  /-- A document does not fit the schema. -/
  | content (fault : ContentFault)
  /-- An `xsi:type` names no usable type. -/
  | type (fault : TypeFault)
  /-- An attachment or a multipart body is at fault. -/
  | attachment (fault : AttachmentFault)
  /-- A call came at a wrong time. -/
  | sink (fault : SinkFault)
  /-- A setting cannot be used. -/
  | settings (fault : SettingsFault)
  /-- The markup is malformed. -/
  | markup
  /-- A stream or a file failed. -/
  | io
  /-- The schema makes a type contain or match itself with no element in between, so the work would
  never end. -/
  | endless
  deriving DecidableEq

namespace Error

/-- The kind of an error. -/
def kind : Error → ErrorKind
  | .schema fault => fault.kind
  | .value _ => .validation
  | .content _ => .parse
  | .type _ => .typeResolution
  | .attachment _ => .attachment
  | .sink _ | .settings _ | .endless => .configuration
  | .markup => .xml
  | .io => .io

/-- What an error says behind the heading of its kind. -/
def detail : Error → String
  | .schema fault => fault.message
  | .value fault => fault.message
  | .content fault => fault.message
  | .type fault => fault.message
  | .attachment fault => fault.message
  | .sink fault => fault.message
  | .settings fault => fault.message
  | .markup => "malformed markup"
  | .io => "the stream failed"
  | .endless => "a type contains or matches itself with no element in between"

/-- The whole text of an error. -/
def message (e : Error) : String := e.kind.heading ++ e.detail

end Error
end SoapBinding
