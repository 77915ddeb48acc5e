import Mathlib.Data.List.Forall2
import SoapBinding.Descriptor.Basic

/-!
# What compiles

`compile_cases` is the inversion of `compile`: the descriptor of a type bears the type's name, and its
shape is a primitive, or what the schema's definition of the type gives. What is known of the shape
follows from there.
-/

namespace SoapBinding

/-- A description is among the types of the schema. -/
theorem Schema.mem_of_describe? {s : Schema} {name : TypeName} {d : Definition}
    (h : s.describe? name = some d) : (name, d) ∈ s.types := by
  obtain ⟨front, back, heq, -⟩ := List.lookup_eq_some_iff.1 h
  rw [heq]
  simp

namespace Descriptor

variable {s : Schema} {name : TypeName} {d : Descriptor}

/-- What a descriptor comes from. -/
theorem compile_cases (h : compile s name = .ok d) :
    (∃ primitive, d = ⟨name, .simple primitive⟩) ∨
    (∃ definition properties, s.describe? name = some definition ∧
      definition.variants = [] ∧ allProperties s name definition = .ok properties ∧
      d = ⟨name, .sequence properties definition.subtypes definition.isAbstract⟩) ∨
    (∃ definition, s.describe? name = some definition ∧
      checkVariants name [] definition.variants = .ok () ∧
      d = ⟨name, .choice definition.variants⟩) := by
  unfold compile at h
  split at h
  · split at h
    · cases h
    · next primitive _ =>
      cases h
      exact .inl ⟨primitive, rfl⟩
  · split at h
    · cases h
    · next definition hd =>
      unfold shapeOf at h
      cases hl : definition.layout with
      | simple =>
        rw [hl] at h
        cases hp : restricted name definition.base with
        | error fault =>
          rw [hp] at h
          cases h
        | ok primitive =>
          rw [hp] at h
          cases h
          exact .inl ⟨primitive, rfl⟩
      | sequence =>
        rw [hl] at h
        dsimp only at h
        split at h
        · cases h
        · next hv =>
          cases hp : allProperties s name definition with
          | error fault =>
            rw [hp] at h
            cases h
          | ok properties =>
            rw [hp] at h
            cases h
            exact .inr (.inl ⟨definition, properties, hd, by simpa using hv, hp, rfl⟩)
      | choice =>
        rw [hl] at h
        dsimp only at h
        split at h
        · cases h
        · cases hc : checkVariants name [] definition.variants with
          | error fault =>
            rw [hc] at h
            cases h
          | ok u =>
            rw [hc] at h
            cases h
            exact .inr (.inr ⟨definition, hd, hc, rfl⟩)

/-- Only a simple type need not be described. -/
theorem simple_or_described (h : compile s name = .ok d) :
    (∃ primitive, d.shape = .simple primitive) ∨ ∃ definition, s.describe? name = some definition := by
  rcases compile_cases h with ⟨primitive, rfl⟩ | ⟨definition, _, hdescribe, _⟩ | ⟨definition, hdescribe, _⟩
  · exact .inl ⟨primitive, rfl⟩
  · exact .inr ⟨definition, hdescribe⟩
  · exact .inr ⟨definition, hdescribe⟩

/-- A descriptor bears the name that was asked for. -/
theorem name_of_compile (h : compile s name = .ok d) : d.name = name := by
  rcases compile_cases h with ⟨_, rfl⟩ | ⟨_, _, _, _, _, rfl⟩ | ⟨_, _, _, rfl⟩ <;> rfl

/-- The variants of a choice are those of its definition, and their tags have been checked. -/
theorem variants_of_compile {variants : List Variant} (h : compile s name = .ok d)
    (hs : d.shape = .choice variants) :
    ∃ definition, s.describe? name = some definition ∧ definition.variants = variants ∧
      checkVariants name [] variants = .ok () := by
  rcases compile_cases h with ⟨_, rfl⟩ | ⟨_, _, _, _, _, rfl⟩ | ⟨definition, hd, hc, rfl⟩
  · cases hs
  · cases hs
  · cases hs
    exact ⟨definition, hd, rfl, hc⟩

/-- A checked variant is found by its tag, and its tag has not been met before. -/
theorem find?_of_checkVariants {met : List UInt32} {variants : List Variant}
    (h : checkVariants name met variants = .ok ()) {v : Variant} (hv : v ∈ variants) :
    variants.find? (·.tag == v.tag) = some v ∧ v.tag ∉ met := by
  induction variants generalizing met with
  | nil => cases hv
  | cons w rest ih =>
    rw [checkVariants] at h
    split at h
    · cases h
    · next hmet =>
      split at h
      · cases h
      · have hw : w.tag ∉ met := by simpa using hmet
        rcases List.mem_cons.1 hv with rfl | hmem
        · exact ⟨by rw [List.find?_cons_of_pos (by simp)], hw⟩
        · obtain ⟨hfind, hnew⟩ := ih h hmem
          rw [List.mem_cons, not_or] at hnew
          exact ⟨by rw [List.find?_cons_of_neg (by simpa using Ne.symm hnew.1), hfind], hnew.2⟩

/-- The variants of a choice are found by their tags. -/
theorem find?_tag {variants : List Variant} (h : compile s name = .ok d) (hs : d.shape = .choice variants)
    {v : Variant} (hv : v ∈ variants) : variants.find? (·.tag == v.tag) = some v := by
  obtain ⟨_, _, _, hcheck⟩ := variants_of_compile h hs
  exact (find?_of_checkVariants hcheck hv).1

/-- The subtypes of a sequence are those of its definition. -/
theorem subtypes_of_compile {subtype : TypeName} (h : compile s name = .ok d)
    (hu : subtype ∈ d.subtypes) :
    ∃ definition, s.describe? name = some definition ∧ subtype ∈ definition.subtypes := by
  rcases compile_cases h with ⟨_, rfl⟩ | ⟨definition, _, hd, _, _, rfl⟩ | ⟨_, _, _, rfl⟩
  · cases hu
  · exact ⟨definition, hd, hu⟩
  · cases hu

/-- A check of all descriptions that compile is one of every type that is not simple. -/
theorem check_of_all {check : Descriptor → Bool} (h : s.types.all (fun t => (compile s t.1).toOption.all check) = true)
    (hd : compile s name = .ok d) : (∃ primitive, d.shape = .simple primitive) ∨ check d = true := by
  have hmem {definition : Definition} (hdescribe : s.describe? name = some definition) : check d = true := by
    have hone := List.all_eq_true.1 h _ (Schema.mem_of_describe? hdescribe)
    dsimp only at hone
    rw [hd] at hone
    exact hone
  rcases compile_cases hd with ⟨primitive, rfl⟩ | ⟨_, _, hdescribe, _⟩ | ⟨_, hdescribe, _⟩
  · exact .inl ⟨primitive, rfl⟩
  · exact .inr (hmem hdescribe)
  · exact .inr (hmem hdescribe)

/-- It can be made of what the descriptions are known to compile to. -/
theorem all_of_compiles {check : Descriptor → Bool} {ds : List Descriptor}
    (hds : List.Forall₂ (fun t d => compile s t.1 = .ok d) s.types ds) (hall : ds.all check = true) :
    s.types.all (fun t => (compile s t.1).toOption.all check) = true := by
  generalize s.types = types at hds ⊢
  induction hds with
  | nil => rfl
  | cons hd _ ih =>
    rw [List.all_cons, Bool.and_eq_true] at hall ⊢
    refine ⟨?_, ih hall.2⟩
    rw [hd]
    exact hall.1

/-! ### Types of a given shape -/

/-- A sequence without a base has its own properties only. -/
theorem compile_of_describe? {properties : List Property} {subtypes : List TypeName} {isAbstract : Bool}
    (hxsd : name.isXsd = false)
    (hd : s.describe? name = some ⟨.sequence, none, isAbstract, properties, [], subtypes⟩)
    (hnamed : properties.any (fun p => p.name.isEmpty && !p.content) = false) :
    compile s name = .ok ⟨name, .sequence properties subtypes isAbstract⟩ := by
  have hown : allProperties s name ⟨.sequence, none, isAbstract, properties, [], subtypes⟩ = .ok properties := by
    rw [allProperties, inheritedProperties]
    simp only [bind, Except.bind, hnamed, Bool.false_eq_true, if_false]
  simp only [compile, hxsd, Bool.false_eq_true, if_false, hd, shapeOf, hown, List.isEmpty_nil, Bool.not_true, Except.map]

/-- Whether a type is compiled to the sequence of these properties. -/
def isSequence (s : Schema) (type : TypeName) (properties : List Property) (subtypes : List TypeName)
    (isAbstract : Bool) : Bool :=
  match compile s type with
  | .ok ⟨_, .sequence ps us a⟩ => ps = properties && us = subtypes && a == isAbstract
  | _ => false

theorem compile_of_isSequence {s : Schema} {type : TypeName} {properties : List Property}
    {subtypes : List TypeName} {isAbstract : Bool} (h : isSequence s type properties subtypes isAbstract = true) :
    compile s type = .ok ⟨type, .sequence properties subtypes isAbstract⟩ := by
  unfold isSequence at h
  split at h
  · next name _ _ _ hd =>
    obtain rfl : name = type := name_of_compile hd
    simp only [Bool.and_eq_true, decide_eq_true_eq, beq_iff_eq] at h
    obtain ⟨⟨rfl, rfl⟩, rfl⟩ := h
    exact hd
  · cases h

end Descriptor
end SoapBinding
