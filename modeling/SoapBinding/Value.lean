import SoapBinding.Binary
import SoapBinding.DateTime.Basic
import SoapBinding.Decimal
import SoapBinding.Double.Basic
import SoapBinding.TypeName

/-!
# Message values

A message is a `Value`: a leaf of one of the primitive kinds, a list, an object of a sequence type
with its fields in order, or a variant of a choice type with its tag.

`Value.same` compares values as their kinds do: doubles and dateTimes by what they stand for,
decimals by their text, contents by id and storage, and objects field by field in order.
-/

namespace SoapBinding

/-- A message value. -/
inductive Value where
  /-- No value. -/
  | null
  /-- A truth value. -/
  | boolean (b : Bool)
  /-- A 32-bit integer. -/
  | int (i : Int32)
  /-- A 64-bit integer. -/
  | long (i : Int64)
  /-- A binary64 number. -/
  | double (d : Double)
  /-- A decimal or an integer of any size, by its text. -/
  | decimal (d : Decimal)
  /-- An instant with an offset. -/
  | dateTime (t : DateTime)
  /-- A text. -/
  | string (s : String)
  /-- A payload. -/
  | binary (b : Binary)
  /-- The items of a repeated property. -/
  | list (items : List Value)
  /-- An instance of a sequence type: its type and its fields in order. -/
  | object (type : TypeName) (fields : List (String × Value))
  /-- An instance of a choice type: the tag of a variant and the variant's value. -/
  | choice (tag : UInt32) (value : Value)

/-- The fields of an object, in order. -/
abbrev Fields := List (String × Value)

namespace Fields

/-- The value of the first field of a name. -/
def get? (name : String) : Fields → Option Value
  | [] => none
  | (n, v) :: rest => if n = name then some v else get? name rest

/-- The fields with one set: in place of the first of its name, or at the end. -/
def set (name : String) (value : Value) : Fields → Fields
  | [] => [(name, value)]
  | (n, v) :: rest => if n = name then (n, value) :: rest else (n, v) :: set name value rest

/-- The names, in order. -/
def names (fields : Fields) : List String := fields.map (·.1)

/-- A field's value is smaller than the fields. -/
theorem sizeOf_get? {name : String} {fields : Fields} {v : Value} (h : fields.get? name = some v) :
    sizeOf v < sizeOf fields := by
  induction fields with
  | nil => simp [get?] at h
  | cons f rest ih =>
    obtain ⟨n, w⟩ := f
    simp only [get?] at h
    split at h
    · cases h
      simp only [List.cons.sizeOf_spec, Prod.mk.sizeOf_spec]
      omega
    · have := ih h
      simp only [List.cons.sizeOf_spec]
      omega

end Fields

namespace Value

/-- The kinds of values, as messages name them. -/
inductive Kind where
  | null | boolean | int | long | double | decimal | dateTime | string | binary | list | object
  | choice
  deriving Repr, DecidableEq

/-- The name of a kind. -/
def Kind.name : Kind → String
  | .null => "null"
  | .boolean => "boolean"
  | .int => "int"
  | .long => "long"
  | .double => "double"
  | .decimal => "decimal"
  | .dateTime => "dateTime"
  | .string => "string"
  | .binary => "binary"
  | .list => "list"
  | .object => "object"
  | .choice => "choice"

/-- The kind of a value. -/
def kind : Value → Kind
  | .null => .null
  | .boolean _ => .boolean
  | .int _ => .int
  | .long _ => .long
  | .double _ => .double
  | .decimal _ => .decimal
  | .dateTime _ => .dateTime
  | .string _ => .string
  | .binary _ => .binary
  | .list _ => .list
  | .object .. => .object
  | .choice .. => .choice

/-- Whether there is no value. -/
def isNull : Value → Bool
  | .null => true
  | _ => false

/-- The text of a string. -/
def string? : Value → Option String
  | .string s => some s
  | _ => none

/-- The content of a binary. -/
def binary? : Value → Option Binary
  | .binary b => some b
  | _ => none

/-- The type and the fields of an object. -/
def object? : Value → Option (TypeName × Fields)
  | .object type fields => some (type, fields)
  | _ => none

/-- The tag and the value of a choice. -/
def choice? : Value → Option (UInt32 × Value)
  | .choice tag value => some (tag, value)
  | _ => none

mutual

/-- Comparison of values. -/
def same : Value → Value → Bool
  | .null, .null => true
  | .boolean a, .boolean b => a == b
  | .int a, .int b => a == b
  | .long a, .long b => a == b
  | .double a, .double b => Double.same a b
  | .decimal a, .decimal b => a.text == b.text
  | .dateTime a, .dateTime b => DateTime.same a b
  | .string a, .string b => a == b
  | .binary a, .binary b => a == b
  | .list a, .list b => sameItems a b
  | .object t a, .object u b => t == u && sameFields a b
  | .choice t a, .choice u b => t == u && same a b
  | _, _ => false

/-- Comparison of lists, item by item. -/
def sameItems : List Value → List Value → Bool
  | [], [] => true
  | a :: as, b :: bs => same a b && sameItems as bs
  | _, _ => false

/-- Comparison of fields, one by one in order. -/
def sameFields : List (String × Value) → List (String × Value) → Bool
  | [], [] => true
  | (m, a) :: as, (n, b) :: bs => m == n && same a b && sameFields as bs
  | _, _ => false

end

end Value
end SoapBinding
