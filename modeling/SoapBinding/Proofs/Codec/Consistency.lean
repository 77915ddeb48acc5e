import SoapBinding.Proofs.Codec.Beginning
import SoapBinding.Proofs.Codec.Typing
import SoapBinding.Proofs.Xml.Marks

/-!
# Elements that are declared of one type

An element inside another is recognised by its name, and then read as the type that the name is declared of there:
that of a property, or of a variant of a choice (`Schema.Declares`). What is declared by a type that stands in the
content with no element around is declared by the content as well.

A schema is consistent at a type if, in the content of each type that it reaches, elements of one name are declared of
one type (`Schema.IsConsistent`). Then it does not matter which property or variant an element is taken for, as its type
is the same.
-/

namespace SoapBinding

open Xml (Element)

/-! ### Declarations -/

/-- The types that elements of a name are declared of at some place. -/
abbrev Declarations := String → TypeName → Prop

/-- An element of a name in the content of a type is declared of a type. -/
inductive Schema.Declares (s : Schema) : TypeName → Declarations where
  | property {owner : TypeName} {d nested : Descriptor} {p : Property} : Descriptor.compile s owner = .ok d →
      p ∈ d.properties → Descriptor.compile s p.type = .ok nested → p.isWrapped nested = true →
      Declares s owner p.name p.type
  | variant {owner : TypeName} {d : Descriptor} {v : Variant} {name : String} : Descriptor.compile s owner = .ok d →
      v ∈ d.variants → v.dispatch = .element name → Declares s owner name v.type
  | nested {owner inner : TypeName} {name : String} {type : TypeName} : s.Nests owner inner → Declares s inner name type →
      Declares s owner name type

/-- Elements of the content may hold a payload with no element around it. -/
def Schema.HoldsPayload (s : Schema) (owner : TypeName) : Prop :=
  ∃ inner d, Relation.ReflTransGen s.Nests owner inner ∧ Descriptor.compile s inner = .ok d ∧
    d.shape = .simple .base64Binary

/-- Types whose elements can be recognised, and are read as what they have been written as. -/
structure Schema.IsConsistent (s : Schema) (root : TypeName) : Prop where
  compiles : ∀ type, s.Reaches root type → ∃ d, Descriptor.compile s type = .ok d
  /-- In the content of a type, elements of one name are declared of one type. -/
  declared : ∀ owner, s.Reaches root owner → ∀ name type type', s.Declares owner name type →
    s.Declares owner name type' → type = type'
  /-- Where there is no element, there is no mark that could name a subtype. -/
  concrete : ∀ owner, s.Reaches root owner → ∀ type d, s.Nests owner type → Descriptor.compile s type = .ok d →
    d.isAbstract = false
  /-- An element that includes an attachment is marked with no type either. -/
  included : ∀ owner, s.Reaches root owner → s.HoldsPayload owner → ∀ type d, s.Declares owner "Include" type →
    Descriptor.compile s type = .ok d → d.isAbstract = false
  subtypes : ∀ type d, s.Reaches root type → Descriptor.compile s type = .ok d → ∀ u ∈ d.subtypes, Xml.IsMarkable u
  /-- The names of properties are those of elements where elements are written under them. -/
  properties : ∀ type d, s.Reaches root type → Descriptor.compile s type = .ok d → ∀ p ∈ d.properties, ∀ nested,
    Descriptor.compile s p.type = .ok nested → p.isWrapped nested = true ∨ p.nilable = true → Xml.IsName p.name
  variants : ∀ type d, s.Reaches root type → Descriptor.compile s type = .ok d → ∀ v ∈ d.variants, ∀ name,
    v.dispatch = .element name → Xml.IsName name

variable {s : Schema} {root owner inner type : TypeName} {name : String} {d : Descriptor}

/-- What an element is declared of is reached. -/
theorem Schema.Declares.reaches (h : s.Declares owner name type) (hreach : s.Reaches root owner) :
    s.Reaches root type := by
  induction h with
  | property hd hp => exact .step hreach hd (Descriptor.mem_parts_of_property hp)
  | variant hd hv => exact .step hreach hd (Descriptor.mem_parts_of_variant hv)
  | nested hn _ ih => exact ih (hn.reaches hreach)

namespace Schema.IsConsistent

theorem part (h : s.IsConsistent root) (hreach : s.Reaches root type) : s.IsConsistent type :=
  ⟨fun t ht => h.compiles t (ht.trans hreach), fun t ht => h.declared t (ht.trans hreach),
    fun t ht => h.concrete t (ht.trans hreach), fun t ht => h.included t (ht.trans hreach),
    fun t d ht => h.subtypes t d (ht.trans hreach), fun t d ht => h.properties t d (ht.trans hreach),
    fun t d ht => h.variants t d (ht.trans hreach)⟩

/-- Every type is compiled when it is asked for. -/
theorem excuses (h : s.IsConsistent root) (hreach : s.Reaches root type) (fault : Error → Prop) : s.Excuses type fault := by
  intro t e ht hcompile
  obtain ⟨d, hd⟩ := h.compiles t (ht.trans hreach)
  rw [hcompile] at hd
  cases hd

end Schema.IsConsistent

/-! ### Marks -/

/-- An element that is declared of a type is read as a type: as the declared one, or as the subtype that it is
marked with. -/
inductive Schema.IsMarkedAs (s : Schema) (e : Element) : TypeName → TypeName → Prop where
  | declared {type : TypeName} : e.xsiType = none → IsMarkedAs s e type type
  | subtype {type runtime : TypeName} {d : Descriptor} : e.xsiType = some ⟨runtime, !runtime.space.isEmpty⟩ →
      Descriptor.compile s type = .ok d → runtime ≠ type → runtime ∈ d.subtypes → IsMarkedAs s e type runtime

/-- An element suits a place where it is marked nil, or read as one type that has instances, whatever it is declared of. -/
def Schema.Suits (s : Schema) (declared : Declarations) (e : Element) (runtime : TypeName) : Prop :=
  e.isNil = true ∨ ∀ type, declared e.localName type →
    s.IsMarkedAs e type runtime ∧ ∀ d, Descriptor.compile s runtime = .ok d → d.isAbstract = false

section
variable {typeOf : String → TypeName} {p : Property} {v : Variant} {nested : Descriptor}

end

end SoapBinding
