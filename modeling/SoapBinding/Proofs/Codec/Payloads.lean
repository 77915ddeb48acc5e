import SoapBinding.Proofs.Codec.Properties

/-!
# The payloads of a value

A value may hold payloads where its type has none, and an object may have fields that its type does not declare. What
counts for a message is what is written (`Schema.payloads`): the payloads at the places where the type that a value is
written as has one, in the order of their places. A value that is not of its type has the payloads that would be written up
to the fault, and perhaps others behind it.
-/

namespace SoapBinding

mutual

/-- The payloads in the content of a type. -/
def Schema.payloads (s : Schema) (d : Descriptor) (v : Value) : List Binary :=
  match d.shape with
  | .simple .base64Binary => v.binary?.toList
  | .simple (.text _) => []
  | .sequence properties _ _ =>
    match v with
    | .object _ fields => properties.flatMap fun p => s.payloadsOfField p (Fields.valueOf fields p)
    | _ => []
  | .choice variants =>
    match v with
    | .choice tag inner =>
      match variants.find? (·.tag == tag) with
      | none => []
      | some variant => s.payloadsIn (variant.dispatch == .inline) variant.type inner
    | _ => []
termination_by (sizeOf v, 0)
decreasing_by
  · refine Prod.Lex.left _ _ ?_
    have := Encoding.sizeOf_valueOf_le fields p
    simp only [Value.object.sizeOf_spec]
    omega
  · refine Prod.Lex.left _ _ ?_
    simp only [Value.choice.sizeOf_spec]
    omega

/-- The payloads in a value that stands for a type by itself, or in an element that may name a subtype. -/
def Schema.payloadsIn (s : Schema) (bare : Bool) (type : TypeName) (v : Value) : List Binary :=
  match Descriptor.compile s type with
  | .error _ => []
  | .ok declared => s.payloads (if bare then declared else s.writtenAs declared v) v
termination_by (sizeOf v, 1)

/-- The payloads in the field of a property. -/
def Schema.payloadsOfField (s : Schema) (p : Property) (v : Value) : List Binary :=
  if p.repeated then
    match v with
    | .list items => items.flatMap fun item => s.payloadsIn p.content p.type item
    | _ => []
  else s.payloadsIn p.content p.type v
termination_by (sizeOf v, 2)

end

end SoapBinding
