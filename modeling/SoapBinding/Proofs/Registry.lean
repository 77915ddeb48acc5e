import SoapBinding.Registry
import SoapBinding.Proofs.Outcome

/-!
# Registries over a schema

A registry is *over* a schema when the schema is the one it compiles from and each descriptor that it
keeps is what compiling yields. A fresh registry is, and no work on types changes that. So a registry
answers for a type as the schema does, whatever has been asked of it before:

    descriptor_ok : Descriptor.compile s name = .ok d → ∃ r', descriptor name r = .ok d r' ∧ r'.Over s
-/

namespace SoapBinding
namespace Registry

open Outcome

variable {s : Schema} {r r' : Registry} {name : TypeName} {d : Descriptor}

/-- The registry compiles from the schema, and what it keeps has been compiled from there. -/
structure Over (s : Schema) (r : Registry) : Prop where
  /-- The schema is the registry's. -/
  schema_eq : r.schema = s
  /-- What is kept is what compiling yields. -/
  compile_of_lookup : ∀ name d, r.compiled.lookup name = some d → Descriptor.compile s name = .ok d

/-- Nothing is kept in a fresh registry. -/
theorem over_ofSchema (s : Schema) : Over s (ofSchema s) := by
  refine ⟨rfl, ?_⟩
  intro name d h
  cases h

/-- What has been compiled may be kept. -/
theorem Over.keep (hr : Over s r) (hd : Descriptor.compile s name = .ok d) :
    Over s { r with compiled := (name, d) :: r.compiled } := by
  refine ⟨hr.schema_eq, ?_⟩
  intro n e h
  rw [List.lookup_cons] at h
  split at h
  · next heq =>
    have hn : n = name := by simpa using heq
    cases h
    rw [hn]
    exact hd
  · exact hr.compile_of_lookup n e h

/-- A type that compiles is answered with what it compiles to. -/
theorem descriptor_ok (hr : Over s r) (hd : Descriptor.compile s name = .ok d) :
    ∃ r', descriptor name r = .ok d r' ∧ Over s r' := by
  unfold descriptor
  cases hl : r.compiled.lookup name with
  | some e =>
    have he := hr.compile_of_lookup name e hl
    rw [hd] at he
    cases he
    exact ⟨r, rfl, hr⟩
  | none =>
    have hs : r.schema = s := hr.schema_eq
    subst hs
    simp only [hd]
    exact ⟨_, rfl, hr.keep hd⟩

/-- Whatever is answered for a type is what it compiles to. -/
theorem ensures_descriptor (s : Schema) (name : TypeName) :
    Ensures (Over s) (descriptor name) fun d => Descriptor.compile s name = .ok d := by
  intro r d r' hr h
  cases hc : Descriptor.compile s name with
  | ok e =>
    obtain ⟨r'', he, hr''⟩ := descriptor_ok hr hc
    rw [he] at h
    cases h
    exact ⟨hr'', rfl⟩
  | error fault =>
    unfold descriptor at h
    cases hl : r.compiled.lookup name with
    | some e =>
      have he := hr.compile_of_lookup name e hl
      rw [hc] at he
      cases he
    | none =>
      rw [hr.schema_eq] at h
      simp only [hl, hc] at h
      cases h

/-- A type that does not compile leaves the registry as it is. -/
theorem descriptor_error {fault : Error} (h : descriptor name r = .error fault r') : r' = r := by
  unfold descriptor at h
  split at h
  · cases h
  · split at h
    · cases h
    · cases h
      rfl

end Registry
end SoapBinding
