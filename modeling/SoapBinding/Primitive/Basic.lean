/-!
# Primitive types

The built-in simple types, sorted by how their values are held. Eight of them are plain text
(`TextType`); the ninth, `base64Binary`, may also be a reference to an attachment.
-/

namespace SoapBinding

/-- The primitive types whose values are plain text. -/
inductive TextType where
  | boolean | int | long | double | decimal | integer | dateTime | string
  deriving Repr, DecidableEq

/-- The name of a text type. -/
def TextType.name : TextType → String
  | .boolean => "boolean"
  | .int => "int"
  | .long => "long"
  | .double => "double"
  | .decimal => "decimal"
  | .integer => "integer"
  | .dateTime => "dateTime"
  | .string => "string"

/-- The primitive types. -/
inductive Primitive where
  /-- A type of plain text. -/
  | text (type : TextType)
  /-- A payload. -/
  | base64Binary
  deriving Repr, DecidableEq

namespace Primitive

/-- The name of a primitive type. -/
def name : Primitive → String
  | .text type => type.name
  | .base64Binary => "base64Binary"

/-- The built-in types by local name, each with the primitive that holds its values. -/
def builtIns : List (String × Primitive) := [
  ("boolean", .text .boolean),
  ("int", .text .int), ("short", .text .int), ("byte", .text .int),
  ("unsignedShort", .text .int), ("unsignedByte", .text .int),
  ("long", .text .long), ("unsignedInt", .text .long),
  ("double", .text .double), ("float", .text .double),
  ("decimal", .text .decimal),
  ("integer", .text .integer), ("nonNegativeInteger", .text .integer),
  ("positiveInteger", .text .integer), ("nonPositiveInteger", .text .integer),
  ("negativeInteger", .text .integer), ("unsignedLong", .text .integer),
  ("dateTime", .text .dateTime),
  ("string", .text .string), ("normalizedString", .text .string), ("token", .text .string),
  ("anyURI", .text .string), ("QName", .text .string), ("language", .text .string),
  ("NCName", .text .string), ("ID", .text .string),
  ("base64Binary", .base64Binary)]

/-- The primitive that holds the values of a built-in type. -/
def ofXsdName? (localName : String) : Option Primitive := builtIns.lookup localName

end Primitive
end SoapBinding
