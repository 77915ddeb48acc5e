import SoapBinding.Value

/-!
# Schemas

A `Schema` describes types by name. What it says of a type is a `Definition`, which nobody has
checked yet: a sequence type may carry variants, a base may be missing or lead back to the type
itself. Compiling a definition (`Descriptor`) finds that out.
-/

namespace SoapBinding

/-- The layout of a type. -/
inductive Layout where
  /-- Text content that restricts a primitive type. -/
  | simple
  /-- Properties in order. -/
  | sequence
  /-- One of several variants. -/
  | choice
  deriving Repr, DecidableEq

/-- The name of a layout. -/
def Layout.name : Layout → String
  | .simple => "Simple"
  | .sequence => "Sequence"
  | .choice => "Choice"

/-- A property of a sequence type. -/
structure Property where
  /-- The name of the field, and of its element. -/
  name : String
  /-- The type of the value. -/
  type : TypeName
  /-- Whether an element may stand for no value. -/
  nilable : Bool
  /-- Whether the value is written without an element around it. -/
  content : Bool
  /-- Whether the element may be absent. -/
  optional : Bool
  /-- Whether there is a list of values. -/
  repeated : Bool
  deriving Repr, DecidableEq

/-- How a variant of a choice type is recognised. -/
inductive Dispatch where
  /-- It stands in an element of this name. -/
  | element (name : String)
  /-- It has no element of its own, and its type tells whether it begins with a given one. -/
  | inline
  deriving Repr, DecidableEq

/-- A variant of a choice type. -/
structure Variant where
  /-- The tag of the variant's values. -/
  tag : UInt32
  /-- How the variant is recognised. -/
  dispatch : Dispatch
  /-- The type of the variant's values. -/
  type : TypeName
  /-- What a decoded value becomes, in place of a choice with the tag. -/
  construct : Option (Value → Value)

/-- What a variant makes of a decoded value. -/
def Variant.build (v : Variant) (value : Value) : Value :=
  match v.construct with
  | some f => f value
  | none => .choice v.tag value

/-- What a schema says of a type. -/
structure Definition where
  /-- The layout. -/
  layout : Layout
  /-- The type that a sequence extends or a simple type restricts. -/
  base : Option TypeName
  /-- Whether only subtypes have instances. -/
  isAbstract : Bool
  /-- The type's own properties, in order. -/
  properties : List Property
  /-- The variants, in order. -/
  variants : List Variant
  /-- The types that derive from this one. -/
  subtypes : List TypeName

/-- Types described by name, in the order in which they were first added. -/
structure Schema where
  /-- The definitions. -/
  types : List (TypeName × Definition)

namespace Schema

/-- No type at all. -/
def empty : Schema := ⟨[]⟩

/-- A list of named definitions with one added, in place of one of the same name. -/
def insertInto (name : TypeName) (d : Definition) :
    List (TypeName × Definition) → List (TypeName × Definition)
  | [] => [(name, d)]
  | (n, e) :: rest => if n = name then (n, d) :: rest else (n, e) :: insertInto name d rest

/-- The schema with a definition added, in place of one of the same name. -/
def insert (s : Schema) (name : TypeName) (d : Definition) : Schema :=
  ⟨insertInto name d s.types⟩

/-- What the schema says of a type. -/
def describe? (s : Schema) (name : TypeName) : Option Definition := s.types.lookup name

/-- The number of types described. -/
def size (s : Schema) : Nat := s.types.length

end Schema
end SoapBinding
