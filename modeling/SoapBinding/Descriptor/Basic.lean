import SoapBinding.Error
import SoapBinding.Primitive.Basic
import SoapBinding.Schema.Basic

/-!
# Descriptors

A `Descriptor` is a checked definition: a primitive, a sequence with all its properties, the inherited
ones first, or a choice whose variants have distinct tags. `compile` makes it from a schema and a
name, or finds what is wrong.

The chain of bases is followed through names that have not been met yet. Each step meets another name
of the schema, so their number bounds the chain.
-/

namespace SoapBinding

/-- What a type's values are made of. -/
inductive Shape where
  /-- The text, or payload, of a primitive. -/
  | simple (primitive : Primitive)
  /-- Properties in order, the known subtypes, and whether only they have instances. -/
  | sequence (properties : List Property) (subtypes : List TypeName) (isAbstract : Bool)
  /-- Variants in order. -/
  | choice (variants : List Variant)

/-- A type that can be written and read. -/
structure Descriptor where
  /-- The name of the type. -/
  name : TypeName
  /-- What its values are made of. -/
  shape : Shape

namespace Descriptor

/-- The layout of the type. -/
def layout (d : Descriptor) : Layout :=
  match d.shape with
  | .simple _ => .simple
  | .sequence .. => .sequence
  | .choice _ => .choice

/-- Whether the type is a choice. -/
def isChoice (d : Descriptor) : Bool :=
  match d.shape with
  | .choice _ => true
  | _ => false

/-- Whether only subtypes have instances. -/
def isAbstract (d : Descriptor) : Bool :=
  match d.shape with
  | .sequence _ _ isAbstract => isAbstract
  | _ => false

/-- The properties, inherited ones first. -/
def properties (d : Descriptor) : List Property :=
  match d.shape with
  | .sequence properties _ _ => properties
  | _ => []

/-- The variants. -/
def variants (d : Descriptor) : List Variant :=
  match d.shape with
  | .choice variants => variants
  | _ => []

/-- The known subtypes. -/
def subtypes (d : Descriptor) : List TypeName :=
  match d.shape with
  | .sequence _ subtypes _ => subtypes
  | _ => []

/-! ### Following bases -/

/-- The names of a schema that are not among those met. -/
def unmet (s : Schema) (met : List TypeName) : List (TypeName × Definition) :=
  s.types.filter fun p => !met.contains p.1

theorem length_unmet_lt {s : Schema} {met : List TypeName} {name : TypeName} {d : Definition}
    (hd : s.describe? name = some d) (hn : met.contains name = false) :
    (unmet s (name :: met)).length < (unmet s met).length := by
  have hsub : unmet s (name :: met) = (unmet s met).filter (fun p => !(p.1 == name)) := by
    simp only [unmet, List.filter_filter, List.contains_cons, Bool.not_or]
  have hmem : ∃ p ∈ s.types, p.1 = name := by
    have h := hd
    rw [Schema.describe?] at h
    generalize s.types = l at h
    induction l with
    | nil => simp at h
    | cons a l ih =>
      obtain ⟨n, e⟩ := a
      rw [List.lookup_cons] at h
      split at h
      · next heq => exact ⟨(n, e), by simp, (by simpa using heq : name = n).symm⟩
      · obtain ⟨p, hp, hpn⟩ := ih h
        exact ⟨p, by simp [hp], hpn⟩
  obtain ⟨p, hp, rfl⟩ := hmem
  rw [hsub]
  apply Nat.lt_of_le_of_ne (List.length_filter_le _ _)
  intro heq
  have hall := List.length_filter_eq_length_iff.1 heq
  have := hall p (by simp only [unmet, List.mem_filter]; exact ⟨hp, by simpa using hn⟩)
  simp at this

/-- The properties of the bases of a sequence type, the most distant base first, in front of
`inherited`. `met` holds the names met on the way from the type. -/
def inheritedProperties (s : Schema) (type : TypeName) (met : List TypeName)
    (next : Option TypeName) (inherited : List Property) : Except SchemaFault (List Property) :=
  match next with
  | none => .ok inherited
  | some base =>
    if hmet : met.contains base then .error (.cyclicBase base)
    else match hd : s.describe? base with
      | none => .error (.undescribedBase base type)
      | some d =>
        if d.layout ≠ .sequence then .error (.baseNotSequence type base)
        else inheritedProperties s type (base :: met) d.base (d.properties ++ inherited)
termination_by (unmet s met).length
decreasing_by exact length_unmet_lt hd (by simpa using hmet)

/-- All properties of a sequence type: those of its bases, then its own. Each has an element name,
unless it is content. -/
def allProperties (s : Schema) (type : TypeName) (d : Definition) :
    Except SchemaFault (List Property) := do
  let properties ← inheritedProperties s type [type] d.base d.properties
  if properties.any fun p => p.name.isEmpty && !p.content then .error (.unnamedProperty type)
  else .ok properties

/-- Checks variants in order: each has a tag of its own and, unless inline, an element name. -/
def checkVariants (type : TypeName) (met : List UInt32) : List Variant → Except SchemaFault Unit
  | [] => .ok ()
  | v :: rest =>
    if met.contains v.tag then .error (.repeatedTag type v.tag)
    else if v.dispatch = .element "" then .error (.unnamedVariant type v.tag)
    else checkVariants type (v.tag :: met) rest

/-- The primitive that a simple type restricts. -/
def restricted (type : TypeName) (base : Option TypeName) : Except SchemaFault Primitive :=
  match base with
  | none => .error (.simpleWithoutPrimitive type)
  | some base =>
    if !base.isXsd then .error (.simpleWithoutPrimitive type)
    else match Primitive.ofXsdName? base.localName with
      | none => .error (.unmappedBase base type)
      | some primitive => .ok primitive

/-- The shape that a definition gives a type. -/
def shapeOf (s : Schema) (type : TypeName) (d : Definition) : Except SchemaFault Shape :=
  match d.layout with
  | .simple => (restricted type d.base).map .simple
  | .sequence =>
    if !d.variants.isEmpty then .error (.sequenceWithVariants type)
    else (allProperties s type d).map (.sequence · d.subtypes d.isAbstract)
  | .choice =>
    if !d.properties.isEmpty then .error (.choiceWithProperties type)
    else (checkVariants type [] d.variants).map fun _ => .choice d.variants

/-- The descriptor of a type: a primitive for a built-in name, and otherwise what the schema's
definition amounts to. -/
def compile (s : Schema) (type : TypeName) : Except SchemaFault Descriptor :=
  if type.isXsd then
    match Primitive.ofXsdName? type.localName with
    | none => .error (.unmappedPrimitive type)
    | some primitive => .ok ⟨type, .simple primitive⟩
  else match s.describe? type with
    | none => .error (.undescribed type)
    | some d => (shapeOf s type d).map (⟨type, ·⟩)

end Descriptor
end SoapBinding
