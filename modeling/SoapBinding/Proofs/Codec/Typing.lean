import SoapBinding.Primitive.Basic
import SoapBinding.Schema.Basic
import SoapBinding.Descriptor.Basic

/-!
# The types of values

What it is for a value to be of a type of a schema. The rules follow the places where a value can
stand, since a type has different values there:

* `ContentOf s type v` — the content of a type, with no element around: a leaf of the primitive's own
  kind, an object of exactly this type with all its fields in order, or a choice under a declared tag.
  No value at all is not among them, and neither is an object of a subtype.
* `ElementOf s type v` — the content of an element declared of the type. The element can name a
  registered subtype, and then the object is one of that type.
* `VariantOf`, `SingleOf`, `FieldOf`, `FieldsOf` — the value under a tag, one value of a property, the
  field of a property, and all fields. Each says where no value (`null`) may stand.
-/

namespace SoapBinding

/-- Whether a value is of the kind that a text type reads. An integer of any size is a decimal without
a point. -/
def TextType.holds : TextType → Value → Bool
  | .boolean, .boolean _ => true
  | .int, .int _ => true
  | .long, .long _ => true
  | .double, .double _ => true
  | .decimal, .decimal _ => true
  | .integer, .decimal d => d.isInteger
  | .dateTime, .dateTime _ => true
  | .string, .string _ => true
  | _, _ => false

/-- Whether a value is of the kind that a primitive type reads. -/
def Primitive.holds : Primitive → Value → Bool
  | .text type, v => type.holds v
  | .base64Binary, .binary _ => true
  | .base64Binary, _ => false

/-- Whether the values of a property stand in elements of the property's name. -/
def Property.isWrapped (p : Property) (nested : Descriptor) : Bool := !p.content && !nested.isChoice

/-- Whether a property can be marked nil: it has an element of its own, or a choice in its place. -/
def Property.canBeNil (p : Property) (nested : Descriptor) : Bool := !p.content || nested.isChoice

namespace Typing

mutual

/-- Values that the content of a type stands for. -/
inductive ContentOf (s : Schema) : TypeName → Value → Prop where
  | leaf {type : TypeName} {primitive : Primitive} {v : Value} :
      Descriptor.compile s type = .ok ⟨type, .simple primitive⟩ →
      primitive.holds v = true → ContentOf s type v
  | object {type : TypeName} {properties : List Property} {subtypes : List TypeName}
      {fields : Fields} :
      Descriptor.compile s type = .ok ⟨type, .sequence properties subtypes false⟩ →
      FieldsOf s properties fields → ContentOf s type (.object type fields)
  | choice {type : TypeName} {variants : List Variant} {variant : Variant} {v : Value} :
      Descriptor.compile s type = .ok ⟨type, .choice variants⟩ → variant ∈ variants →
      VariantOf s variant v → ContentOf s type (.choice variant.tag v)

/-- Values that an element declared of a type stands for. -/
inductive ElementOf (s : Schema) : TypeName → Value → Prop where
  | declared {type : TypeName} {v : Value} : ContentOf s type v → ElementOf s type v
  | subtype {type subtype : TypeName} {d : Descriptor} {fields : Fields} :
      Descriptor.compile s type = .ok d → subtype ∈ d.subtypes →
      ContentOf s subtype (.object subtype fields) → ElementOf s type (.object subtype fields)

/-- Values that a variant stands for. -/
inductive VariantOf (s : Schema) : Variant → Value → Prop where
  | null {variant : Variant} {name : String} :
      variant.dispatch = .element name → VariantOf s variant .null
  | element {variant : Variant} {name : String} {v : Value} :
      variant.dispatch = .element name → ElementOf s variant.type v → VariantOf s variant v
  | inline {variant : Variant} {v : Value} :
      variant.dispatch = .inline → ContentOf s variant.type v → VariantOf s variant v

/-- Single values of a property. -/
inductive SingleOf (s : Schema) : Property → Value → Prop where
  | null {p : Property} {d : Descriptor} :
      Descriptor.compile s p.type = .ok d → p.canBeNil d = true → p.nilable = true →
      SingleOf s p .null
  | wrapped {p : Property} {d : Descriptor} {v : Value} :
      Descriptor.compile s p.type = .ok d → p.isWrapped d = true →
      ElementOf s p.type v → SingleOf s p v
  | bare {p : Property} {d : Descriptor} {v : Value} :
      Descriptor.compile s p.type = .ok d → p.isWrapped d = false →
      ContentOf s p.type v → SingleOf s p v

/-- Values of the field of a property. -/
inductive FieldOf (s : Schema) : Property → Value → Prop where
  | list {p : Property} {items : List Value} :
      p.repeated = true → (∀ item ∈ items, SingleOf s p item) → FieldOf s p (.list items)
  | absent {p : Property} : p.repeated = false → p.optional = true → FieldOf s p .null
  | single {p : Property} {v : Value} : p.repeated = false → SingleOf s p v → FieldOf s p v

/-- Fields that are those of some properties, in order. -/
inductive FieldsOf (s : Schema) : List Property → Fields → Prop where
  | nil : FieldsOf s [] []
  | cons {p : Property} {rest : List Property} {v : Value} {fields : Fields} :
      FieldOf s p v → FieldsOf s rest fields → FieldsOf s (p :: rest) ((p.name, v) :: fields)

end

/-! ### What the rules say of values -/

variable {s : Schema} {type : TypeName} {v : Value}

/-- The fields bear the names of the properties, one each and in order. -/
theorem FieldsOf.names_eq {properties : List Property} {fields : Fields}
    (h : FieldsOf s properties fields) : fields.names = properties.map (·.name) := by
  induction properties generalizing fields with
  | nil =>
    cases h
    rfl
  | cons p rest ih =>
    cases h with
    | cons hf hr =>
      have := ih hr
      simp only [Fields.names] at this
      simp only [Fields.names, List.map_cons, this]

/-- No value is no content. -/
theorem ContentOf.ne_null (h : ContentOf s type v) : v ≠ .null := by
  rintro rfl
  cases h with
  | @leaf _ primitive _ _ hp =>
    cases primitive with
    | text t => cases t <;> cases hp
    | base64Binary => cases hp

/-- No value is nothing that an element holds. -/
theorem ElementOf.ne_null (h : ElementOf s type v) : v ≠ .null := by
  cases h with
  | declared hc => exact hc.ne_null
  | subtype => simp

end Typing
end SoapBinding
