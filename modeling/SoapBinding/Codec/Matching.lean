import SoapBinding.Registry

/-!
# What an element begins

An element is recognised by its local name alone. It begins a value of a sequence type if it begins
one of the first property, and a value of a choice type if it begins one of some variant. No element
begins a value of a simple type.

A property that is content, or of a choice type, has no element of its own: there the question goes
on to the property's type, as it does at an inline variant. Going on meets a new type each time,
unless the schema lets a type begin with itself; so one step more than there are types is enough, and
a chain that needs more is `Error.endless`.
-/

namespace SoapBinding

/-- Whether an element begins a value of a property; `begins` answers for the property's type. -/
def Property.beginsBy (begins : Descriptor → Typed Bool) (element : String) (p : Property) :
    Typed Bool :=
  if element = p.name then return true
  else do
    let nested ← Registry.descriptor p.type
    if nested.isChoice || p.content then begins nested else return false

/-- Whether an element begins a value of a variant; `begins` answers for the variant's type. -/
def Variant.beginsBy (begins : Descriptor → Typed Bool) (element : String) (v : Variant) :
    Typed Bool :=
  match v.dispatch with
  | .element name => return name == element
  | .inline => do begins (← Registry.descriptor v.type)

/-- Whether an element begins a value of one of some variants, asked in order. -/
def Variant.anyBeginsBy (begins : Descriptor → Typed Bool) (element : String) :
    List Variant → Typed Bool
  | [] => return false
  | v :: rest => do
    if ← v.beginsBy begins element then return true else anyBeginsBy begins element rest

namespace Descriptor

/-- Whether an element begins a value of a type, in a bounded number of steps from type to type. -/
def beginsWithin (element : String) : Nat → Descriptor → Typed Bool
  | 0, _ => throw .endless
  | steps + 1, d =>
    match d.shape with
    | .simple _ => return false
    | .sequence properties _ _ =>
      match properties with
      | [] => return false
      | p :: _ => p.beginsBy (beginsWithin element steps) element
    | .choice variants => Variant.anyBeginsBy (beginsWithin element steps) element variants

/-- The number of steps from type to type that is enough at one place of a document: the types of the
schema, one built-in type, and one to spare. -/
def chainBound (s : Schema) : Nat := s.size + 2

/-- Whether an element begins a value of a type. -/
def begins (element : String) (d : Descriptor) : Typed Bool := do
  beginsWithin element (chainBound (← get).schema) d

end Descriptor

/-- Whether an element begins a value of a property. -/
def Property.begins (element : String) (p : Property) : Typed Bool :=
  p.beginsBy (Descriptor.begins element) element

end SoapBinding
