import SoapBinding.Descriptor.Basic
import SoapBinding.Text.Record

/-!
# Descriptions of types

How definitions and descriptors are shown to a reader: every field in its place, texts between
quotes. Of a variant, a definition tells whether it has a constructor of its own; a descriptor leaves
that out.
-/

namespace SoapBinding

open Text (record openRecord listing optional quoted truth applied)

/-- The description of a type's name. -/
def TypeName.describe (n : TypeName) : String :=
  record "TypeName" [("namespace", quoted n.space), ("local", quoted n.localName)]

/-- The description of a property, under the name of the record it belongs to. -/
def Property.describe (recordName : String) (p : Property) : String :=
  record recordName [("name", quoted p.name), ("type_name", p.type.describe),
    ("nilable", truth p.nilable), ("content", truth p.content), ("optional", truth p.optional),
    ("repeated", truth p.repeated)]

/-- The description of a dispatch. -/
def Dispatch.describe : Dispatch → String
  | .element name => applied "Element" (quoted name)
  | .inline => "Inline"

/-- What a definition and a descriptor both tell of a variant. -/
def Variant.commonFields (v : Variant) : List (String × String) :=
  [("id", toString v.tag.toNat), ("dispatch", v.dispatch.describe), ("type_name", v.type.describe)]

/-- The description of a definition. -/
def Definition.describe (d : Definition) : String :=
  record "TypeMetadata" [("layout", d.layout.name), ("base", optional (d.base.map TypeName.describe)),
    ("is_abstract", truth d.isAbstract),
    ("properties", listing (d.properties.map (Property.describe "PropertyMetadata"))),
    ("variants", listing (d.variants.map fun v => record "VariantMetadata"
      (v.commonFields ++ [("custom_constructor", truth v.construct.isSome)]))),
    ("subtypes", listing (d.subtypes.map TypeName.describe))]

/-- The description of a descriptor. -/
def Descriptor.describe (d : Descriptor) : String :=
  openRecord "TypeDescriptor" [("name", d.name.describe), ("layout", d.layout.name),
    ("properties", listing (d.properties.map (Property.describe "PropertyDescriptor"))),
    ("variants", listing (d.variants.map fun v => openRecord "ChoiceVariant" v.commonFields)),
    ("subtypes", listing (d.subtypes.map TypeName.describe)),
    ("is_abstract", truth d.isAbstract)]

end SoapBinding
