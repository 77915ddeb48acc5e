import SoapBinding.Settings.Basic
import SoapBinding.Yaml.Document

/-!
# Settings in text

Settings are written as a YAML mapping of mappings. What is missing has its usual value, and keys that
are not known are passed over; a known key may not occur twice.
-/

namespace SoapBinding

/-- How a way of reference is written. -/
def Reference.name : Reference → String
  | .href => "href"
  | .xopInclude => "xop_include"

/-- The way of reference that a text names. -/
def Reference.ofName? (name : String) : Option Reference :=
  [Reference.href, .xopInclude].find? (·.name == name)

/-- The value of a key, read by `read`; the usual one where the key is missing. -/
def Yaml.field {α : Type} (entries : List (String × Yaml.Node)) (key : String) (usual : α)
    (read : Yaml.Node → Option α) : Option α :=
  match entries.filter (·.1 == key) with
  | [] => some usual
  | [(_, node)] => read node
  | _ => none

/-- The payload settings that a node writes. -/
def PayloadSettings.ofNode? (node : Yaml.Node) : Option PayloadSettings := do
  let entries ← node.entries?
  let usual := Settings.usual.payload
  let chunkSize ← Yaml.field entries "encode_chunk_size" usual.chunkSize (·.number?)
  let reference ← Yaml.field entries "reference" usual.reference fun n =>
    n.text?.bind Reference.ofName?
  some ⟨chunkSize, reference⟩

/-- The limits that a node writes. -/
def Multipart.Limits.ofNode? (node : Yaml.Node) : Option Multipart.Limits := do
  let entries ← node.entries?
  let usual := Settings.usual.limits
  let lineBuffer ← Yaml.field entries "line_buffer_size" usual.lineBuffer (·.number?)
  let maxParts ← Yaml.field entries "max_parts" usual.maxParts (·.number?)
  some ⟨lineBuffer, maxParts⟩

namespace Settings

/-- The settings that a node writes. -/
def ofNode? (node : Yaml.Node) : Option Settings := do
  let entries ← node.entries?
  let version ← Yaml.field entries "version" usual.version (·.text?)
  let payload ← Yaml.field entries "binary" usual.payload PayloadSettings.ofNode?
  let limits ← Yaml.field entries "multipart" usual.limits Multipart.Limits.ofNode?
  some ⟨version, payload, limits⟩

/-- Reads settings and checks that they can be used. -/
def read (text : String) : Except Error Settings :=
  match (Yaml.read? text).bind ofNode? with
  | none => .error (.settings .unreadable)
  | some s => s.checked

/-- A text between single quotes; a quote inside is written twice. -/
def singleQuoted (text : String) : String :=
  let quote := '\x27'
  let inside := text.toList.flatMap fun c => if c = quote then [c, c] else [c]
  String.ofList ([quote] ++ inside ++ [quote])

/-- The text of settings. The version is quoted, so that it is not taken for a number. -/
def render (s : Settings) : String :=
  "version: " ++ singleQuoted s.version ++ "\nbinary:\n  encode_chunk_size: " ++
    toString s.payload.chunkSize ++ "\n  reference: " ++ s.payload.reference.name ++
    "\nmultipart:\n  line_buffer_size: " ++ toString s.limits.lineBuffer ++ "\n  max_parts: " ++
    toString s.limits.maxParts ++ "\n"

end Settings
end SoapBinding
