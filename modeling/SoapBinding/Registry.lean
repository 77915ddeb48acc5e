import SoapBinding.Descriptor.Description

/-!
# Registries

A `Registry` compiles the types of a schema as they are needed and keeps each descriptor for later.
The first descriptor compiled for a name stays; a name that does not compile is tried again the next
time. Operations that use a registry run in `Typed`, where the registry survives a failure together
with what was compiled before it.
-/

namespace SoapBinding

/-- A schema with the descriptors compiled from it so far. -/
structure Registry where
  /-- The types described. -/
  schema : Schema
  /-- The descriptors compiled, the newest first. -/
  compiled : List (TypeName × Descriptor)

/-- Work that uses a registry. -/
abbrev Typed := EStateM Error Registry

namespace Registry

/-- A registry over a schema, with nothing compiled. -/
def ofSchema (schema : Schema) : Registry := ⟨schema, []⟩

/-- The number of descriptors kept. -/
def size (r : Registry) : Nat := r.compiled.length

/-- Whether a descriptor of the name is kept. -/
def contains (r : Registry) (name : TypeName) : Bool := (r.compiled.lookup name).isSome

/-- The descriptor of a type: the one kept, or one compiled now and kept. -/
def descriptor (name : TypeName) : Typed Descriptor := fun r =>
  match r.compiled.lookup name with
  | some d => .ok d r
  | none =>
    match Descriptor.compile r.schema name with
    | .ok d => .ok d { r with compiled := (name, d) :: r.compiled }
    | .error fault => .error (.schema fault) r

/-- The description of a registry. -/
def describe (r : Registry) : String :=
  Text.openRecord "TypeRegistry" [("descriptors", toString r.size)]

end Registry
end SoapBinding
