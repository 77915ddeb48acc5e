import SoapBinding.Proofs.Codec.Beginning
import SoapBinding.Proofs.Xml.Marks

/-!
# Types whose values can be told apart

Values that stand side by side with no element around them, the fields of an object and the variants of a
choice, are told apart by one element of lookahead. Two questions decide whether that is enough:

* which elements a value begins with (`Schema.TypeBegins`), and
* which elements behind a value the reader would take for a part of it (`Schema.TypeContinues`): those that
  begin a property which has been left out at the end of the value, or one more item of a repeated one.

A type is tellable if no element does both where one value follows another. A schema tells a type if every type
that it reaches compiles, is tellable, and does not hold values of itself with no element in between.
-/

namespace SoapBinding

/-- Whether nothing at all may be written for a property. A nilable one is at least an element marked nil. -/
def Property.isOmissible (p : Property) : Bool := p.repeated || (p.optional && !p.nilable)

/-- Whether a value of a type always begins with an element that begins the type: a choice does, and a sequence
whose first property is always written. -/
def Descriptor.leadsAlways (d : Descriptor) : Bool :=
  d.isChoice || d.properties.head?.any fun p => !p.isOmissible

/-- The values of simple types begin with no element. -/
theorem Descriptor.not_simple_of_leadsAlways {d : Descriptor} (h : d.leadsAlways = true) (primitive : Primitive) :
    d.shape ≠ .simple primitive := by
  obtain ⟨name, shape⟩ := d
  rintro rfl
  cases h

mutual

/-- An element of a name behind the field of a property is taken for a part of it. -/
inductive Schema.PropertyContinues (s : Schema) (name : String) : Property → Prop where
  | omitted {p : Property} : p.isOmissible = true → s.PropertyBegins name p → PropertyContinues s name p
  | nested {p : Property} {d : Descriptor} : Descriptor.compile s p.type = .ok d → d.isChoice = true →
      TypeContinues s name d → PropertyContinues s name p

/-- An element of a name behind a value of a type, which stands in no element of its own, is taken for a part of
it. -/
inductive Schema.TypeContinues (s : Schema) (name : String) : Descriptor → Prop where
  | last {type : TypeName} {front behind : List Property} {p : Property} {subtypes : List TypeName}
      {isAbstract : Bool} : PropertyContinues s name p → (∀ q ∈ behind, q.isOmissible = true) →
      TypeContinues s name ⟨type, .sequence (front ++ p :: behind) subtypes isAbstract⟩
  | variant {type : TypeName} {variants : List Variant} {v : Variant} {d : Descriptor} : v ∈ variants →
      v.dispatch = .inline → Descriptor.compile s v.type = .ok d → TypeContinues s name d →
      TypeContinues s name ⟨type, .choice variants⟩

end

/-- A variant whose values are read as a choice, and begin with an element. -/
structure Variant.IsTellable (s : Schema) (v : Variant) : Prop where
  construct : v.construct = none
  isName : ∀ name, v.dispatch = .element name → Xml.IsName name
  leads : ∀ d, v.dispatch = .inline → Descriptor.compile s v.type = .ok d → d.leadsAlways = true

/-- A type whose values can be told from the elements that they are written as. -/
structure Descriptor.IsTellable (s : Schema) (d : Descriptor) : Prop where
  not_content : ∀ p ∈ d.properties, p.content = false
  /-- Where elements are written under the name of a property, it is one for elements. -/
  isName : ∀ p ∈ d.properties, ∀ nested, Descriptor.compile s p.type = .ok nested →
    nested.isChoice = false ∨ p.nilable = true → Xml.IsName p.name
  names : (d.properties.map (·.name)).Nodup
  /-- No element that begins a property is taken for a part of one in front of it. -/
  apart : d.properties.Pairwise fun p q => ∀ name, s.PropertyBegins name q → ¬s.PropertyContinues name p
  /-- No element that begins an item is taken for a part of the one in front of it. -/
  items : ∀ p ∈ d.properties, p.repeated = true → ∀ nested, Descriptor.compile s p.type = .ok nested →
    nested.isChoice = true → ∀ name, s.PropertyBegins name p → ¬s.TypeContinues name nested
  variants : ∀ v ∈ d.variants, v.IsTellable s
  /-- No element begins two variants. -/
  distinct : d.variants.Pairwise fun v w => ∀ name, s.VariantBegins name w → ¬s.VariantBegins name v
  subtypes : ∀ u ∈ d.subtypes, Xml.IsMarkable u

/-- Every type that a type reaches compiles and is tellable, and holds no values of itself with no element in
between. -/
structure Schema.Tells (s : Schema) (root : TypeName) : Prop where
  tellable : ∀ type, s.Reaches root type → ∃ d, Descriptor.compile s type = .ok d ∧ d.IsTellable s
  grounded : s.IsGrounded root

variable {s : Schema} {root type : TypeName} {d nested : Descriptor} {p : Property} {v : Variant}

namespace Schema.Tells

theorem reach (h : s.Tells root) (hreach : s.Reaches root type) : s.Tells type :=
  ⟨fun t ht => h.tellable t (ht.trans hreach), h.grounded.part hreach⟩

theorem isTellable (h : s.Tells root) (hd : Descriptor.compile s root = .ok d) : d.IsTellable s := by
  obtain ⟨d', hd', htellable⟩ := h.tellable root .refl
  rw [hd] at hd'
  cases hd'
  exact htellable

theorem compile (h : s.Tells root) : ∃ d, Descriptor.compile s root = .ok d :=
  (h.tellable root .refl).imp fun _ hd => hd.1

theorem property (h : s.Tells root) (hd : Descriptor.compile s root = .ok d) (hp : p ∈ d.properties) :
    s.Tells p.type :=
  h.reach (.step .refl hd (Descriptor.mem_parts_of_property hp))

theorem variant (h : s.Tells root) (hd : Descriptor.compile s root = .ok d) (hv : v ∈ d.variants) :
    s.Tells v.type :=
  h.reach (.step .refl hd (Descriptor.mem_parts_of_variant hv))

theorem subtype (h : s.Tells root) (hd : Descriptor.compile s root = .ok d) (hu : type ∈ d.subtypes) :
    s.Tells type :=
  h.reach (.step .refl hd (Descriptor.mem_parts_of_subtype hu))

/-- Every type is compiled when it is asked for. -/
theorem excuses (h : s.Tells root) (fault : Error → Prop) : s.Excuses root fault := by
  intro type e hreach hcompile
  obtain ⟨d, hd, -⟩ := h.tellable type hreach
  rw [hcompile] at hd
  cases hd

end Schema.Tells

/-- A choice whose variants all stand in elements is told at its end. -/
theorem Schema.not_typeContinues_of_elements {name : String} (hchoice : d.isChoice = true)
    (h : ∀ v ∈ d.variants, v.dispatch ≠ .inline) : ¬s.TypeContinues name d := by
  intro hcontinues
  cases hcontinues with
  | last => cases hchoice
  | variant hv hinline => exact h _ hv hinline

end SoapBinding
