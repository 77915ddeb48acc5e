import Mathlib.Logic.Relation
import SoapBinding.Error
import SoapBinding.Proofs.Descriptor
import SoapBinding.Proofs.Outcome

/-!
# Inherited properties

A sequence type extends its base, which may extend another (`Schema.Extends`). Where following bases comes to an
end, the types met are the type's lineage (`Schema.Lineage`), and compiling the type puts their properties one behind
the other, the most distant base first. What is in the way of that is said without following bases step by step:

    compile_sequence : s.describe? name = some definition → definition.layout = .sequence → … →
      ((∃ d, compile s name = .ok d) ↔ s.IsInheritable name definition) ∧ …

A chain of bases that comes back to a type does not end. Which types are met on it is not known in advance, so what
failed is found on the way (`inheritedProperties_error`), and what succeeded at the end (`inheritedProperties_ok`).
-/

namespace SoapBinding

open Relation (ReflTransGen TransGen)

/-! ### Chains of bases -/

/-- A type is described to have a base. -/
def Schema.Extends (s : Schema) (type base : TypeName) : Prop :=
  ∃ d, s.describe? type = some d ∧ d.base = some base

/-- Following bases from a type meets some type twice. -/
def Schema.Revisits (s : Schema) (name : TypeName) : Prop :=
  ∃ type, ReflTransGen s.Extends name type ∧ TransGen s.Extends type type

/-- A type is described with the layout of a sequence. -/
def Schema.IsSequence (s : Schema) (type : TypeName) : Prop :=
  ∃ d, s.describe? type = some d ∧ d.layout = .sequence

/-- What following bases meets, where it comes to an end. -/
inductive Schema.Lineage (s : Schema) : Option TypeName → List (TypeName × Definition) → Prop where
  | nil : Lineage s none []
  | cons {type : TypeName} {d : Definition} {levels : List (TypeName × Definition)} :
      s.describe? type = some d → Lineage s d.base levels → Lineage s (some type) ((type, d) :: levels)

/-- What a sequence type needs in order to compile. -/
structure Schema.IsInheritable (s : Schema) (name : TypeName) (definition : Definition) : Prop where
  /-- It declares no variants. -/
  variants : definition.variants = []
  /-- Following bases meets no type twice. -/
  ends : ¬s.Revisits name
  /-- Every base is a sequence type. -/
  bases : ∀ base, TransGen s.Extends name base → s.IsSequence base
  /-- All properties have names, or are content. -/
  named : ∀ level d, ReflTransGen s.Extends name level → s.describe? level = some d →
    ∀ p ∈ d.properties, p.name = "" → p.content = true

/-- What a fault says of a sequence type is in the way of compiling it. -/
inductive Schema.Hinders (s : Schema) (name : TypeName) (definition : Definition) : SchemaFault → Prop where
  | variants : definition.variants ≠ [] → Hinders s name definition (.sequenceWithVariants name)
  | cyclic {base : TypeName} : TransGen s.Extends name base → TransGen s.Extends base base →
      Hinders s name definition (.cyclicBase base)
  | undescribed {base : TypeName} : TransGen s.Extends name base → s.describe? base = none →
      Hinders s name definition (.undescribedBase base name)
  | layout {base : TypeName} {d : Definition} : TransGen s.Extends name base → s.describe? base = some d →
      d.layout ≠ .sequence → Hinders s name definition (.baseNotSequence name base)
  | unnamed {level : TypeName} {d : Definition} {p : Property} : ¬s.Revisits name →
      ReflTransGen s.Extends name level → s.describe? level = some d → p ∈ d.properties → p.name = "" →
      p.content = false → Hinders s name definition (.unnamedProperty name)

/-- The properties of a lineage, the most distant base first. -/
def Schema.flattened (levels : List (TypeName × Definition)) : List Property :=
  levels.reverse.flatMap (·.2.properties)

variable {s : Schema} {name type base : TypeName} {definition d : Definition} {levels : List (TypeName × Definition)}

theorem Schema.IsSequence.describe?_ne_none (h : s.IsSequence type) : s.describe? type ≠ none := by
  obtain ⟨d, hd, -⟩ := h
  rw [hd]
  exact Option.some_ne_none d

theorem Schema.IsSequence.layout_eq (h : s.IsSequence type) (hd : s.describe? type = some d) :
    d.layout = .sequence := by
  obtain ⟨d', hd', hlayout⟩ := h
  rw [hd] at hd'
  cases hd'
  exact hlayout

/-- All bases are sequence types where all those that the schema names are. -/
theorem Schema.isSequence_of_all
    (h : s.types.all (fun t => t.2.base.all fun base => (s.describe? base).any (·.layout = .sequence)) = true)
    (hextends : s.Extends type base) : s.IsSequence base := by
  obtain ⟨d, hd, hbase⟩ := hextends
  have hone := List.all_eq_true.1 h _ (Schema.mem_of_describe? hd)
  rw [hbase] at hone
  obtain ⟨b, hb, hlayout⟩ := (Option.any_eq_true _ _).1 hone
  exact ⟨b, hb, of_decide_eq_true hlayout⟩

namespace Schema.Lineage

/-- What is met is described, and reached by following bases. -/
theorem reaches (h : s.Lineage (some name) levels) (hmem : (type, d) ∈ levels) :
    ReflTransGen s.Extends name type ∧ s.describe? type = some d := by
  generalize hnext : some name = next at h
  induction h generalizing name with
  | nil => cases hmem
  | @cons _ definition _ hdescribe hrest ih =>
    cases hnext
    obtain heq | hmem := List.mem_cons.1 hmem
    · cases heq
      exact ⟨.refl, hdescribe⟩
    · cases hbase : definition.base with
      | none =>
        rw [hbase] at hrest
        cases hrest
        cases hmem
      | some base =>
        obtain ⟨hreach, hd⟩ := ih hmem hbase.symm
        exact ⟨.head ⟨definition, hdescribe, hbase⟩ hreach, hd⟩

/-- A chain that comes to an end meets all that is reached, and nothing twice. -/
theorem covers (h : s.Lineage (some name) levels) (hreach : ReflTransGen s.Extends name type) :
    (∃ d, (type, d) ∈ levels) ∧ ¬TransGen s.Extends type type := by
  generalize hnext : some name = next at h
  induction h generalizing name type with
  | nil => cases hnext
  | @cons start definition levels hdescribe hrest ih =>
    cases hnext
    -- What is reached behind the first type is reached from its base.
    have hbehind {type : TypeName} (htype : TransGen s.Extends start type) :
        (∃ d, (type, d) ∈ levels) ∧ ¬TransGen s.Extends type type := by
      obtain ⟨base, ⟨d, hd, hbase⟩, hback⟩ := TransGen.head'_iff.1 htype
      rw [hdescribe] at hd
      cases hd
      exact ih hback hbase.symm
    obtain rfl | htype := Relation.reflTransGen_iff_eq_or_transGen.1 hreach
    · exact ⟨⟨definition, List.mem_cons_self⟩, fun hcycle => (hbehind hcycle).2 hcycle⟩
    · obtain ⟨⟨d, hmem⟩, hacyclic⟩ := hbehind htype
      exact ⟨⟨d, List.mem_cons_of_mem _ hmem⟩, hacyclic⟩

theorem not_revisits (h : s.Lineage (some name) levels) : ¬s.Revisits name :=
  fun ⟨_, hreach, hcycle⟩ => (h.covers hreach).2 hcycle

end Schema.Lineage

/-! ### Following bases -/

namespace Descriptor

/-- Where following bases succeeds, the properties of the lineage are put in front. -/
theorem inheritedProperties_ok {met : List TypeName} {next : Option TypeName} {inherited properties : List Property}
    (h : inheritedProperties s name met next inherited = .ok properties) :
    ∃ levels, s.Lineage next levels ∧ (∀ level ∈ levels, level.2.layout = .sequence) ∧
      properties = Schema.flattened levels ++ inherited := by
  induction met, next, inherited using inheritedProperties.induct_unfolding s name with
  | case1 met inherited =>
    cases h
    exact ⟨[], .nil, List.forall_mem_nil _, rfl⟩
  | case2 => cases h
  | case3 => cases h
  | case4 => cases h
  | case5 met inherited base _ d hd hlayout ih =>
    obtain ⟨levels, hlineage, hsequence, rfl⟩ := ih h
    refine ⟨(base, d) :: levels, .cons hd hlineage, List.forall_mem_cons.2 ⟨Decidable.not_not.1 hlayout, hsequence⟩, ?_⟩
    simp [Schema.flattened]

/-- What stops following bases is in the way: a base that is met again, or one that is not described as a sequence. -/
theorem inheritedProperties_error {met : List TypeName} {inherited : List Property} {fault : SchemaFault}
    (hmet : ∀ t ∈ met, ReflTransGen s.Extends t type) (hreach : ReflTransGen s.Extends name type)
    (hd : s.describe? type = some d) (h : inheritedProperties s name met d.base inherited = .error fault) :
    s.Hinders name definition fault := by
  generalize hnext : d.base = next at h
  induction met, next, inherited using inheritedProperties.induct_unfolding s name generalizing type d with
  | case1 => cases h
  | case2 met inherited base hagain =>
    cases h
    have hextends : s.Extends type base := ⟨d, hd, hnext⟩
    exact .cyclic (.tail' hreach hextends) (.tail' (hmet base (List.contains_iff_mem.1 hagain)) hextends)
  | case3 met inherited base _ hnone =>
    cases h
    exact .undescribed (.tail' hreach ⟨d, hd, hnext⟩) hnone
  | case4 met inherited base _ b hb hlayout =>
    cases h
    exact .layout (.tail' hreach ⟨d, hd, hnext⟩) hb hlayout
  | case5 met inherited base _ b hb _ ih =>
    have hextends : s.Extends type base := ⟨d, hd, hnext⟩
    exact ih (List.forall_mem_cons.2 ⟨.refl, fun t ht => (hmet t ht).tail hextends⟩) (hreach.tail hextends) hb rfl h

/-- Where following the bases of a type succeeds, the properties are those of its lineage. -/
theorem exists_lineage {properties : List Property} (hd : s.describe? name = some definition)
    (h : inheritedProperties s name [name] definition.base definition.properties = .ok properties) :
    ∃ bases, s.Lineage (some name) ((name, definition) :: bases) ∧ (∀ level ∈ bases, level.2.layout = .sequence) ∧
      properties = Schema.flattened ((name, definition) :: bases) := by
  obtain ⟨bases, hbases, hsequences, rfl⟩ := inheritedProperties_ok h
  exact ⟨bases, .cons hd hbases, hsequences, by simp [Schema.flattened]⟩

/-- What compiles is the lineage of the type, and all that it needs is there. -/
theorem allProperties_ok {properties : List Property} (hd : s.describe? name = some definition)
    (hlayout : definition.layout = .sequence) (hvariants : definition.variants = [])
    (h : allProperties s name definition = .ok properties) :
    s.IsInheritable name definition ∧
      ∃ levels, s.Lineage (some name) levels ∧ properties = Schema.flattened levels := by
  obtain ⟨found, hfound, h⟩ := Outcome.except_bind_eq_ok.1 h
  obtain ⟨bases, hlineage, hsequences, rfl⟩ := exists_lineage hd hfound
  split at h
  · cases h
  · next hnamed =>
    cases h
    refine ⟨⟨hvariants, hlineage.not_revisits, ?_, ?_⟩, _, hlineage, rfl⟩
    · intro base hbase
      obtain ⟨⟨d, hmem⟩, _⟩ := hlineage.covers hbase.to_reflTransGen
      refine ⟨d, (hlineage.reaches hmem).2, ?_⟩
      obtain heq | hmem := List.mem_cons.1 hmem
      · cases heq
        exact hlayout
      · exact hsequences _ hmem
    · intro level d hreach hdescribe p hp hname
      obtain ⟨⟨d', hmem⟩, _⟩ := hlineage.covers hreach
      obtain rfl : d' = d := Option.some.inj ((hlineage.reaches hmem).2.symm.trans hdescribe)
      have hflattened : p ∈ Schema.flattened ((name, definition) :: bases) :=
        List.mem_flatMap.2 ⟨_, List.mem_reverse.2 hmem, hp⟩
      cases hcontent : p.content with
      | true => rfl
      | false => exact absurd (List.any_eq_true.2 ⟨p, hflattened, by simp [hname, hcontent]⟩) hnamed

/-- What stops a type from compiling is in the way. -/
theorem allProperties_error {fault : SchemaFault} (hd : s.describe? name = some definition)
    (h : allProperties s name definition = .error fault) : s.Hinders name definition fault := by
  unfold allProperties at h
  cases hfound : inheritedProperties s name [name] definition.base definition.properties with
  | error e =>
    rw [hfound] at h
    cases h
    exact inheritedProperties_error (by simpa using .refl) .refl hd hfound
  | ok found =>
    obtain ⟨bases, hlineage, -, rfl⟩ := exists_lineage hd hfound
    rw [hfound] at h
    dsimp only [bind, Except.bind] at h
    split at h
    · next hunnamed =>
      cases h
      obtain ⟨p, hp, hname⟩ := List.any_eq_true.1 hunnamed
      obtain ⟨⟨level, d⟩, hlevel, hp⟩ := List.mem_flatMap.1 hp
      obtain ⟨hreach, hdescribe⟩ := hlineage.reaches (List.mem_reverse.1 hlevel)
      simp only [Bool.and_eq_true, String.isEmpty_iff, Bool.not_eq_true'] at hname
      exact .unnamed hlineage.not_revisits hreach hdescribe hp hname.1 hname.2
    · cases h

end Descriptor

namespace Schema.Hinders

variable {fault : SchemaFault}

/-- What is in the way is missing. -/
theorem not_isInheritable (h : s.Hinders name definition fault) : ¬s.IsInheritable name definition := by
  intro hneeds
  cases h with
  | variants hvariants => exact hvariants hneeds.variants
  | cyclic hbase hcycle => exact hneeds.ends ⟨_, hbase.to_reflTransGen, hcycle⟩
  | undescribed hbase hnone => exact (hneeds.bases _ hbase).describe?_ne_none hnone
  | layout hbase hd hlayout => exact hlayout ((hneeds.bases _ hbase).layout_eq hd)
  | unnamed _ hreach hd hp hname hcontent =>
    have := hneeds.named _ _ hreach hd _ hp hname
    rw [hcontent] at this
    cases this

/-- All of it is a fault of the schema's author. -/
theorem kind_eq (h : s.Hinders name definition fault) : fault.kind = .configuration := by
  cases h <;> rfl

end Schema.Hinders

namespace Descriptor

/-- A sequence type compiles to its properties, if it declares no variants. -/
theorem compile_eq (hxsd : name.isXsd = false) (hd : s.describe? name = some definition)
    (hlayout : definition.layout = .sequence) :
    compile s name = if definition.variants = [] then (allProperties s name definition).map fun properties =>
      ⟨name, .sequence properties definition.subtypes definition.isAbstract⟩
    else .error (.sequenceWithVariants name) := by
  unfold compile
  rw [hxsd, hd]
  show (shapeOf s name definition).map _ = _
  unfold shapeOf
  rw [hlayout]
  cases definition.variants with
  | nil => cases allProperties s name definition <;> simp [Except.map]
  | cons => simp [Except.map]

/-- A sequence type compiles to the properties of its lineage, or the fault is in the way. -/
theorem compile_sequence_cases (hxsd : name.isXsd = false) (hd : s.describe? name = some definition)
    (hlayout : definition.layout = .sequence) :
    (s.IsInheritable name definition ∧ ∃ levels, s.Lineage (some name) levels ∧ compile s name =
      .ok ⟨name, .sequence (Schema.flattened levels) definition.subtypes definition.isAbstract⟩) ∨
    ∃ fault, compile s name = .error fault ∧ s.Hinders name definition fault := by
  rw [compile_eq hxsd hd hlayout]
  by_cases hvariants : definition.variants = []
  · rw [if_pos hvariants]
    cases h : allProperties s name definition with
    | ok properties =>
      obtain ⟨hneeds, levels, hlineage, rfl⟩ := allProperties_ok hd hlayout hvariants h
      exact .inl ⟨hneeds, levels, hlineage, rfl⟩
    | error fault => exact .inr ⟨fault, rfl, allProperties_error hd h⟩
  · rw [if_neg hvariants]
    exact .inr ⟨_, rfl, .variants hvariants⟩

/-- **Compiling a sequence type flattens its chain of bases, if the chain ends.** -/
theorem compile_sequence (hxsd : name.isXsd = false) (hd : s.describe? name = some definition)
    (hlayout : definition.layout = .sequence) :
    ((∃ d, compile s name = .ok d) ↔ s.IsInheritable name definition) ∧
    (s.IsInheritable name definition → ∃ levels, s.Lineage (some name) levels ∧ compile s name =
      .ok ⟨name, .sequence (Schema.flattened levels) definition.subtypes definition.isAbstract⟩) ∧
    (∀ fault, compile s name = .error fault →
      s.Hinders name definition fault ∧ (Error.schema fault).kind = .configuration) ∧
    (s.Revisits name → ∃ fault, compile s name = .error fault ∧ (Error.schema fault).kind = .configuration ∧
      (definition.variants = [] → (∀ base, TransGen s.Extends name base → s.IsSequence base) →
        ∃ base, fault = .cyclicBase base ∧ TransGen s.Extends name base ∧ TransGen s.Extends base base)) := by
  have hcases := compile_sequence_cases hxsd hd hlayout
  have hok (hneeds : s.IsInheritable name definition) : ∃ levels, s.Lineage (some name) levels ∧ compile s name =
      .ok ⟨name, .sequence (Schema.flattened levels) definition.subtypes definition.isAbstract⟩ := by
    obtain ⟨-, hlevels⟩ | ⟨fault, -, hhinders⟩ := hcases
    · exact hlevels
    · exact absurd hneeds hhinders.not_isInheritable
  have herror {fault : SchemaFault} (h : compile s name = .error fault) : s.Hinders name definition fault := by
    obtain ⟨-, levels, -, hcompile⟩ | ⟨fault', hcompile, hhinders⟩ := hcases
    · rw [h] at hcompile
      cases hcompile
    · rw [h] at hcompile
      cases hcompile
      exact hhinders
  refine ⟨⟨fun ⟨d, hd⟩ => ?_, fun hneeds => ?_⟩, hok, fun fault h => ⟨herror h, (herror h).kind_eq⟩, fun hagain => ?_⟩
  · obtain ⟨hneeds, -⟩ | ⟨fault, hcompile, -⟩ := hcases
    · exact hneeds
    · rw [hd] at hcompile
      cases hcompile
  · obtain ⟨levels, -, hcompile⟩ := hok hneeds
    exact ⟨_, hcompile⟩
  · obtain ⟨hneeds, -⟩ | ⟨fault, hcompile, hhinders⟩ := hcases
    · exact absurd hagain hneeds.ends
    · refine ⟨fault, hcompile, hhinders.kind_eq, fun hvariants hbases => ?_⟩
      cases hhinders with
      | cyclic hbase hcycle => exact ⟨_, rfl, hbase, hcycle⟩
      | variants hnot => exact absurd hvariants hnot
      | undescribed hbase hnone => exact absurd hnone (hbases _ hbase).describe?_ne_none
      | layout hbase hd' hother => exact absurd ((hbases _ hbase).layout_eq hd') hother
      | unnamed hends => exact absurd hagain hends

/-- A circle over its base and the base of that, and a shape that extends a type on a cycle. -/
def shapesSchema : Schema := ⟨[
  (⟨"", "Entity"⟩, ⟨.sequence, none, true, [⟨"Id", .xsd "int", false, false, false, false⟩], [], [⟨"", "Shape"⟩]⟩),
  (⟨"", "Shape"⟩, ⟨.sequence, some ⟨"", "Entity"⟩, true, [⟨"Color", .xsd "string", false, false, true, false⟩], [],
    [⟨"", "Circle"⟩]⟩),
  (⟨"", "Circle"⟩, ⟨.sequence, some ⟨"", "Shape"⟩, false, [⟨"Radius", .xsd "double", false, false, false, false⟩],
    [], []⟩),
  (⟨"", "Spiral"⟩, ⟨.sequence, some ⟨"", "Inner"⟩, false, [], [], []⟩),
  (⟨"", "Inner"⟩, ⟨.sequence, some ⟨"", "Outer"⟩, false, [], [], []⟩),
  (⟨"", "Outer"⟩, ⟨.sequence, some ⟨"", "Inner"⟩, false, [], [], []⟩)]⟩

/-- The circle is not abstract, as its bases are; the cycle is found from the spiral outside. -/
theorem compile_sequence_shapes :
    (∃ levels, shapesSchema.Lineage (some ⟨"", "Circle"⟩) levels ∧
      compile shapesSchema ⟨"", "Circle"⟩ = .ok ⟨⟨"", "Circle"⟩, .sequence (Schema.flattened levels) [] false⟩ ∧
      (Schema.flattened levels).map (·.name) = ["Id", "Color", "Radius"]) ∧
    ∃ base, compile shapesSchema ⟨"", "Spiral"⟩ = .error (.cyclicBase base) ∧
      TransGen shapesSchema.Extends base base := by
  constructor
  · obtain ⟨hiff, hok, -⟩ := @compile_sequence shapesSchema ⟨"", "Circle"⟩ _ (by decide) rfl rfl
    have hcompile := @compile_of_isSequence shapesSchema ⟨"", "Circle"⟩
      [⟨"Id", .xsd "int", false, false, false, false⟩, ⟨"Color", .xsd "string", false, false, true, false⟩,
        ⟨"Radius", .xsd "double", false, false, false, false⟩] [] false (by decide +kernel)
    obtain ⟨levels, hlineage, hlevels⟩ := hok (hiff.1 ⟨_, hcompile⟩)
    refine ⟨levels, hlineage, hlevels, ?_⟩
    rw [hcompile] at hlevels
    simp only [Except.ok.injEq, Descriptor.mk.injEq, Shape.sequence.injEq] at hlevels
    rw [← hlevels.2.1]
    rfl
  · obtain ⟨-, -, -, hcycle⟩ := @compile_sequence shapesSchema ⟨"", "Spiral"⟩ _ (by decide) rfl rfl
    have hinner : shapesSchema.Extends ⟨"", "Spiral"⟩ ⟨"", "Inner"⟩ := ⟨_, rfl, rfl⟩
    have houter : shapesSchema.Extends ⟨"", "Inner"⟩ ⟨"", "Outer"⟩ := ⟨_, rfl, rfl⟩
    have hback : shapesSchema.Extends ⟨"", "Outer"⟩ ⟨"", "Inner"⟩ := ⟨_, rfl, rfl⟩
    obtain ⟨fault, hcompile, -, hfault⟩ := hcycle ⟨_, .single hinner, .tail (.single houter) hback⟩
    obtain ⟨base, rfl, -, hagain⟩ := hfault rfl fun base hbase =>
      Schema.isSequence_of_all (by decide) (TransGen.tail'_iff.1 hbase).choose_spec.2
    exact ⟨base, hcompile, hagain⟩

end Descriptor

end SoapBinding
