import Mathlib.Logic.Relation
import SoapBinding.Codec.Matching
import SoapBinding.Proofs.Descriptor
import SoapBinding.Proofs.Registry

/-!
# What begins a value

`Schema.TypeBegins s name d` — an element of the name begins a value of the type described. The rules say
so without counting steps from type to type, and what matching answers is what they say:

    triple_begins : … (d.begins element) (fun b r => r.Over s ∧ (b = true ↔ s.TypeBegins element d)) …

Going from a type to the types of values that stand in it with no element of their own (`Schema.Nests`) does
not lead back to a type where the schema is grounded there. The types met on the way are then different
types of the schema, so their number bounds the way, and matching never runs out of steps.
-/

namespace SoapBinding

open Outcome

/-! ### Elements that begin values -/

mutual

/-- An element of a name begins a value of a property. -/
inductive Schema.PropertyBegins (s : Schema) (name : String) : Property → Prop where
  | named {p : Property} : name = p.name → PropertyBegins s name p
  | nested {p : Property} {d : Descriptor} : Descriptor.compile s p.type = .ok d →
      (d.isChoice || p.content) = true → TypeBegins s name d → PropertyBegins s name p

/-- An element of a name begins a value of a variant. -/
inductive Schema.VariantBegins (s : Schema) (name : String) : Variant → Prop where
  | element {v : Variant} : v.dispatch = .element name → VariantBegins s name v
  | inline {v : Variant} {d : Descriptor} : v.dispatch = .inline →
      Descriptor.compile s v.type = .ok d → TypeBegins s name d → VariantBegins s name v

/-- An element of a name begins a value of a type: one of its first property, or one of a variant. -/
inductive Schema.TypeBegins (s : Schema) (name : String) : Descriptor → Prop where
  | first {type : TypeName} {p : Property} {rest : List Property} {subtypes : List TypeName}
      {isAbstract : Bool} : PropertyBegins s name p →
      TypeBegins s name ⟨type, .sequence (p :: rest) subtypes isAbstract⟩
  | variant {type : TypeName} {variants : List Variant} {v : Variant} : v ∈ variants →
      VariantBegins s name v → TypeBegins s name ⟨type, .choice variants⟩

end

/-! ### Values with no element of their own -/

/-- Values of a type hold values of another with no element in between. -/
inductive Schema.Nests (s : Schema) : TypeName → TypeName → Prop where
  | property {outer : TypeName} {d nested : Descriptor} {p : Property} :
      Descriptor.compile s outer = .ok d → p ∈ d.properties → Descriptor.compile s p.type = .ok nested →
      (nested.isChoice || p.content) = true → Nests s outer p.type
  | variant {outer : TypeName} {d : Descriptor} {v : Variant} :
      Descriptor.compile s outer = .ok d → v ∈ d.variants → v.dispatch = .inline → Nests s outer v.type

/-- Matching or reading a type looks another up: that of its first property, or of a variant. -/
inductive Schema.Inspects (s : Schema) : TypeName → TypeName → Prop where
  | first {outer : TypeName} {d : Descriptor} {p : Property} :
      Descriptor.compile s outer = .ok d → p ∈ d.properties.head? → Inspects s outer p.type
  | variant {outer : TypeName} {d : Descriptor} {v : Variant} :
      Descriptor.compile s outer = .ok d → v ∈ d.variants → Inspects s outer v.type

/-- Matching a type goes on to another: its first property, or a variant, has no element of its own. -/
inductive Schema.Consults (s : Schema) : TypeName → TypeName → Prop where
  | first {outer : TypeName} {d nested : Descriptor} {p : Property} :
      Descriptor.compile s outer = .ok d → p ∈ d.properties.head? → Descriptor.compile s p.type = .ok nested →
      (nested.isChoice || p.content) = true → Consults s outer p.type
  | variant {outer : TypeName} {d : Descriptor} {v : Variant} :
      Descriptor.compile s outer = .ok d → v ∈ d.variants → v.dispatch = .inline → Consults s outer v.type

/-- The types that a type is made of: those of its properties and variants, and its subtypes. -/
def Descriptor.parts (d : Descriptor) : List TypeName :=
  d.properties.map (·.type) ++ d.variants.map (·.type) ++ d.subtypes

/-- The types that values of a type can hold values of. -/
inductive Schema.Reaches (s : Schema) (root : TypeName) : TypeName → Prop where
  | refl : Reaches s root root
  | step {type part : TypeName} {d : Descriptor} : Reaches s root type →
      Descriptor.compile s type = .ok d → part ∈ d.parts → Reaches s root part

/-- No type that a type reaches holds values of itself with no element in between. -/
def Schema.IsGrounded (s : Schema) (root : TypeName) : Prop :=
  ∀ type, s.Reaches root type → ¬Relation.TransGen s.Nests type type

variable {s : Schema} {root type inner : TypeName} {d : Descriptor} {p : Property} {v : Variant}

theorem Descriptor.mem_parts_of_property (hp : p ∈ d.properties) : p.type ∈ d.parts :=
  List.mem_append_left _ (List.mem_append_left _ (List.mem_map_of_mem hp))

theorem Descriptor.mem_parts_of_variant (hv : v ∈ d.variants) : v.type ∈ d.parts :=
  List.mem_append_left _ (List.mem_append_right _ (List.mem_map_of_mem hv))

theorem Descriptor.mem_parts_of_subtype (hu : type ∈ d.subtypes) : type ∈ d.parts :=
  List.mem_append_right _ hu

theorem Schema.Nests.reaches (h : s.Nests type inner) (hreach : s.Reaches root type) :
    s.Reaches root inner := by
  cases h with
  | property hd hp => exact .step hreach hd (Descriptor.mem_parts_of_property hp)
  | variant hd hv => exact .step hreach hd (Descriptor.mem_parts_of_variant hv)

/-- Types that stand in a content with no element around are reached. -/
theorem Schema.Reaches.nests (h : s.Reaches root type) (hnests : Relation.ReflTransGen s.Nests type inner) :
    s.Reaches root inner := by
  induction hnests with
  | refl => exact h
  | tail _ hn ih => exact hn.reaches ih

theorem Schema.Inspects.reaches (h : s.Inspects type inner) (hreach : s.Reaches root type) :
    s.Reaches root inner := by
  cases h with
  | first hd hp => exact .step hreach hd (Descriptor.mem_parts_of_property (List.mem_of_mem_head? hp))
  | variant hd hv => exact .step hreach hd (Descriptor.mem_parts_of_variant hv)

theorem Schema.Consults.inspects (h : s.Consults type inner) : s.Inspects type inner := by
  cases h with
  | first hd hp => exact .first hd hp
  | variant hd hv => exact .variant hd hv

theorem Schema.Consults.nests (h : s.Consults type inner) : s.Nests type inner := by
  cases h with
  | first hd hp hnested hbare => exact .property hd (List.mem_of_mem_head? hp) hnested hbare
  | variant hd hv hinline => exact .variant hd hv hinline

/-- What is reached from a type that is reached is reached. -/
theorem Schema.Reaches.trans (h : s.Reaches type inner) (hreach : s.Reaches root type) :
    s.Reaches root inner := by
  induction h with
  | refl => exact hreach
  | step _ hd hpart ih => exact .step ih hd hpart

/-- What is checked of the types of a list, which holds the parts of each, is true of all that one of them reaches. -/
theorem Schema.exists_of_closed {types : List TypeName} {check : Descriptor → Bool} (hroot : root ∈ types)
    (h : (types.all fun type => (Descriptor.compile s type).toOption.any fun d =>
      check d && d.parts.all types.contains) = true) (hreach : s.Reaches root type) :
    ∃ d, Descriptor.compile s type = .ok d ∧ check d = true := by
  have hclosed (type : TypeName) (htype : type ∈ types) :
      ∃ d, Descriptor.compile s type = .ok d ∧ check d = true ∧ ∀ part ∈ d.parts, part ∈ types := by
    have hcheck := List.all_eq_true.1 h type htype
    cases hd : Descriptor.compile s type with
    | error => rw [hd] at hcheck; cases hcheck
    | ok d =>
      rw [hd] at hcheck
      simp only [Except.toOption, Option.any_some, Bool.and_eq_true, List.all_eq_true, List.contains_eq_mem,
        decide_eq_true_eq] at hcheck
      exact ⟨d, rfl, hcheck⟩
  have hmem : type ∈ types := by
    induction hreach with
    | refl => exact hroot
    | step _ hd hpart ih =>
      obtain ⟨d', hd', _, hparts⟩ := hclosed _ ih
      rw [hd] at hd'
      cases hd'
      exact hparts _ hpart
  obtain ⟨d, hd, hcheck, _⟩ := hclosed type hmem
  exact ⟨d, hd, hcheck⟩

theorem Schema.IsGrounded.part (h : s.IsGrounded root) (hreach : s.Reaches root type) :
    s.IsGrounded type :=
  fun t ht => h t (ht.trans hreach)

/-- A schema is grounded where a rank falls from each type to the types that it holds with no element in
between. -/
theorem Schema.isGrounded_of_rank (rank : TypeName → Nat)
    (h : ∀ outer inner, s.Reaches root outer → s.Nests outer inner → rank inner < rank outer) :
    s.IsGrounded root := by
  have hfalls (outer inner : TypeName) (hreach : s.Reaches root outer) (htrans : Relation.TransGen s.Nests outer inner) :
      s.Reaches root inner ∧ rank inner < rank outer := by
    induction htrans with
    | single hn => exact ⟨hn.reaches hreach, h _ _ hreach hn⟩
    | tail _ hn ih => exact ⟨hn.reaches ih.1, Nat.lt_trans (h _ _ ih.1 hn) ih.2⟩
  intro type hreach hcycle
  exact Nat.lt_irrefl _ (hfalls type type hreach hcycle).2

/-- Whether a rank falls from a type to the types that it holds with no element in between. -/
def Schema.ranks (s : Schema) (rank : TypeName → Nat) (d : Descriptor) : Bool :=
  (d.properties.all fun p => (Descriptor.compile s p.type).toOption.all fun nested =>
    !(nested.isChoice || p.content) || rank p.type < rank d.name) &&
  d.variants.all fun v => v.dispatch ≠ .inline || rank v.type < rank d.name

theorem Schema.Nests.rank_lt {rank : TypeName → Nat}
    (h : s.types.all (fun t => (Descriptor.compile s t.1).toOption.all (s.ranks rank)) = true)
    (hn : s.Nests type inner) : rank inner < rank type := by
  cases hn with
  | property hd hp hnested hbare =>
    obtain rfl := Descriptor.name_of_compile hd
    rcases Descriptor.check_of_all h hd with ⟨primitive, hshape⟩ | hranks
    · rw [Descriptor.properties, hshape] at hp
      cases hp
    · have hp' := List.all_eq_true.1 (Bool.and_eq_true _ _ ▸ hranks).1 _ hp
      rw [hnested] at hp'
      change (!(_ || _) || decide (rank _ < rank _)) = true at hp'
      rw [hbare] at hp'
      simpa using hp'
  | variant hd hv hinline =>
    obtain rfl := Descriptor.name_of_compile hd
    rcases Descriptor.check_of_all h hd with ⟨primitive, hshape⟩ | hranks
    · rw [Descriptor.variants, hshape] at hv
      cases hv
    · have hv' := List.all_eq_true.1 (Bool.and_eq_true _ _ ▸ hranks).2 _ hv
      simpa [hinline] using hv'

theorem Schema.isGrounded_of_ranks {rank : TypeName → Nat}
    (h : s.types.all (fun t => (Descriptor.compile s t.1).toOption.all (s.ranks rank)) = true) :
    s.IsGrounded root :=
  Schema.isGrounded_of_rank rank fun _ _ _ hn => hn.rank_lt h

/-- Only types that the schema describes hold values of others. -/
theorem Schema.Nests.describe? (h : s.Nests type inner) : ∃ definition, s.describe? type = some definition := by
  cases h with
  | property hd hp =>
    rcases Descriptor.compile_cases hd with ⟨_, rfl⟩ | ⟨definition, _, h, _⟩ | ⟨definition, h, _⟩
    · cases hp
    · exact ⟨definition, h⟩
    · exact ⟨definition, h⟩
  | variant hd hv =>
    rcases Descriptor.compile_cases hd with ⟨_, rfl⟩ | ⟨definition, _, h, _⟩ | ⟨definition, h, _⟩
    · cases hv
    · exact ⟨definition, h⟩
    · exact ⟨definition, h⟩

/-- A step from type to type, along a relation that does not lead back, leaves fewer types that have not been met. -/
theorem Descriptor.length_unmet_cons_lt {r : TypeName → TypeName → Prop} {met : List TypeName}
    (hr : ∀ {outer inner}, r outer inner → s.Nests outer inner) (hmet : ∀ t ∈ met, Relation.TransGen r t type)
    (hg : ¬Relation.TransGen r type type) (hn : r type inner) :
    (unmet s (type :: met)).length < (unmet s met).length := by
  obtain ⟨definition, hdescribe⟩ := (hr hn).describe?
  refine Descriptor.length_unmet_lt hdescribe ?_
  rw [List.contains_eq_mem, decide_eq_false_iff_not]
  exact fun hmem => hg (hmet type hmem)

/-- What leads to a type leads to the next. -/
theorem Schema.transGen_cons {r : TypeName → TypeName → Prop} {met : List TypeName}
    (hmet : ∀ t ∈ met, Relation.TransGen r t type) (hn : r type inner) :
    ∀ t ∈ type :: met, Relation.TransGen r t inner := by
  intro t ht
  rcases List.mem_cons.1 ht with rfl | hmem
  · exact .single hn
  · exact (hmet t hmem).tail hn

/-- Types that all lead to a type with no element in between. -/
def Schema.LeadTo (s : Schema) (met : List TypeName) (type : TypeName) : Prop :=
  ∀ t ∈ met, Relation.TransGen s.Nests t type

theorem Schema.leadTo_nil : s.LeadTo [] type := fun _ ht => by cases ht

theorem Schema.LeadTo.cons {met : List TypeName} (h : s.LeadTo met type) (hn : s.Nests type inner) :
    s.LeadTo (type :: met) inner :=
  Schema.transGen_cons h hn

/-- A step from type to type leaves fewer types that have not been met. -/
theorem Schema.LeadTo.length_unmet_lt {met : List TypeName} (h : s.LeadTo met type)
    (hg : ¬Relation.TransGen s.Nests type type) (hn : s.Nests type inner) :
    (Descriptor.unmet s (type :: met)).length < (Descriptor.unmet s met).length :=
  Descriptor.length_unmet_cons_lt id h hg hn

/-- The types of a schema are fewer than the steps that one place of a document may take. -/
theorem Descriptor.length_unmet_nil_lt (s : Schema) : (unmet s []).length < chainBound s := by
  have := List.length_filter_le (fun p => !([] : List TypeName).contains p.1) s.types
  unfold chainBound Schema.size
  unfold unmet
  omega

/-! ### Matching -/

variable {element : String} {fault : Error → Prop}

/-- Where a type that is reached does not compile, that is not the fault. -/
def Schema.Excuses (s : Schema) (root : TypeName) (fault : Error → Prop) : Prop :=
  ∀ type e, s.Reaches root type → Descriptor.compile s type = .error e → ¬fault (.schema e)

/-- A reading without end is not a type that does not compile. -/
theorem Schema.excuses_of_endless (h : ∀ e, fault e → e = .endless) : s.Excuses root fault :=
  fun _ _ _ _ he => nomatch h _ he

theorem Registry.triple_descriptor (hfault : ∀ e, Descriptor.compile s type = .error e → ¬fault (.schema e)) :
    Triple (Registry.Over s) (Registry.descriptor type)
      (fun d r => r.Over s ∧ Descriptor.compile s type = .ok d) fault := by
  intro r hr
  refine ⟨fun d r' h => Registry.ensures_descriptor s type r d r' hr h, ?_⟩
  intro e r' h he
  unfold Registry.descriptor at h
  split at h
  · cases h
  · split at h
    · cases h
    · next hcompile =>
      cases h
      rw [hr.schema_eq] at hcompile
      exact hfault _ hcompile he

/-- What is asked of the answers for the types of properties and variants. -/
def Answers (s : Schema) (element : String) (fault : Error → Prop) (begins : Descriptor → Typed Bool)
    (d : Descriptor) : Prop :=
  Triple (Registry.Over s) (begins d) (fun b r => r.Over s ∧ (b = true ↔ s.TypeBegins element d)) fault

theorem triple_beginsBy {begins : Descriptor → Typed Bool}
    (hfault : ∀ e, Descriptor.compile s p.type = .error e → ¬fault (.schema e))
    (h : ∀ nested, Descriptor.compile s p.type = .ok nested → (nested.isChoice || p.content) = true →
      Answers s element fault begins nested) :
    Triple (Registry.Over s) (p.beginsBy begins element)
      (fun b r => r.Over s ∧ (b = true ↔ s.PropertyBegins element p)) fault := by
  unfold Property.beginsBy
  apply Triple.ite
  · intro hname
    exact Triple.pure fun r hr => ⟨hr, by simpa using .named hname⟩
  · intro hname
    apply Triple.bind (Registry.triple_descriptor hfault)
    intro nested
    apply Triple.given
    intro hd
    have hnested : s.PropertyBegins element p ↔
        (nested.isChoice || p.content) = true ∧ s.TypeBegins element nested := by
      refine ⟨?_, fun ⟨hbare, hbegins⟩ => .nested hd hbare hbegins⟩
      rintro (heq | ⟨hd', hbare, hbegins⟩)
      · exact absurd heq hname
      · rw [hd] at hd'
        cases hd'
        exact ⟨hbare, hbegins⟩
    rw [hnested]
    apply Triple.ite
    · intro hbare
      exact (h nested hd hbare).mono (fun _ hr => hr) fun b r ⟨hr, hb⟩ => ⟨hr, by simp [hb, hbare]⟩
    · intro hbare
      exact Triple.pure fun r hr => ⟨hr, by simp [hbare]⟩

theorem Schema.variantBegins_element {name : String} (hdispatch : v.dispatch = .element name) :
    s.VariantBegins element v ↔ name = element := by
  constructor
  · rintro (hname | ⟨hinline, _, _⟩)
    · rw [hdispatch] at hname
      exact Dispatch.element.inj hname
    · rw [hdispatch] at hinline
      cases hinline
  · rintro rfl
    exact .element hdispatch

theorem Schema.variantBegins_inline {nested : Descriptor} (hdispatch : v.dispatch = .inline)
    (hd : Descriptor.compile s v.type = .ok nested) : s.VariantBegins element v ↔ s.TypeBegins element nested := by
  refine ⟨?_, .inline hdispatch hd⟩
  rintro (hname | ⟨_, hd', hbegins⟩)
  · rw [hdispatch] at hname
    cases hname
  · rw [hd] at hd'
    cases hd'
    exact hbegins

theorem triple_anyBeginsBy {begins : Descriptor → Typed Bool} {variants : List Variant}
    (hfault : ∀ v ∈ variants, ∀ e, Descriptor.compile s v.type = .error e → ¬fault (.schema e))
    (h : ∀ v ∈ variants, v.dispatch = .inline → ∀ nested, Descriptor.compile s v.type = .ok nested →
      Answers s element fault begins nested) :
    Triple (Registry.Over s) (Variant.anyBeginsBy begins element variants)
      (fun b r => r.Over s ∧ (b = true ↔ ∃ v ∈ variants, s.VariantBegins element v)) fault := by
  induction variants with
  | nil => exact Triple.pure fun r hr => ⟨hr, by simp⟩
  | cons v rest ih =>
    have hv : Triple (Registry.Over s) (v.beginsBy begins element)
        (fun b r => r.Over s ∧ (b = true ↔ s.VariantBegins element v)) fault := by
      unfold Variant.beginsBy
      cases hdispatch : v.dispatch with
      | element name =>
        exact Triple.pure fun r hr => ⟨hr, beq_iff_eq.trans (Schema.variantBegins_element hdispatch).symm⟩
      | inline =>
        apply Triple.bind (Registry.triple_descriptor (hfault v List.mem_cons_self))
        intro nested
        apply Triple.given
        intro hd
        refine (h v List.mem_cons_self hdispatch nested hd).mono (fun _ hr => hr) ?_
        rintro b r ⟨hr, hb⟩
        exact ⟨hr, hb.trans (Schema.variantBegins_inline hdispatch hd).symm⟩
    rw [Variant.anyBeginsBy]
    apply Triple.bind hv
    intro answer
    apply Triple.given
    intro hanswer
    have hrest := ih (fun w hw => hfault w (List.mem_cons_of_mem v hw)) fun w hw => h w (List.mem_cons_of_mem v hw)
    apply Triple.ite
    · intro htrue
      exact Triple.pure fun r hr => ⟨hr, by simpa using .inl (hanswer.1 htrue)⟩
    · intro hfalse
      have hnot : ¬s.VariantBegins element v := fun hbegins => hfalse (hanswer.2 hbegins)
      exact hrest.mono (fun _ hr => hr) fun b r ⟨hr, hb⟩ => ⟨hr, by simp [hb, hnot]⟩

/-- **Matching answers whether an element begins a value of a type**, in enough steps if the types met on
the way leave enough. All types met are of a `zone`, which matching does not leave. -/
theorem triple_beginsWithin {zone : TypeName → Prop}
    (hzone : ∀ {outer inner}, zone outer → s.Consults outer inner → zone inner)
    (hfault : ∀ {outer inner e}, zone outer → s.Inspects outer inner → Descriptor.compile s inner = .error e →
      ¬fault (.schema e))
    (hg : fault .endless → ∀ {type}, zone type → ¬Relation.TransGen s.Consults type type)
    {met : List TypeName} {steps : Nat} (hd : Descriptor.compile s d.name = .ok d) (hmem : zone d.name)
    (hmet : ∀ t ∈ met, Relation.TransGen s.Consults t d.name)
    (hsteps : fault .endless → (Descriptor.unmet s met).length < steps) :
    Answers s element fault (Descriptor.beginsWithin element steps) d := by
  induction steps generalizing d met with
  | zero => exact Triple.throw fun he => Nat.not_lt_zero _ (hsteps he)
  | succ steps ih =>
    have hstep {inner : TypeName} {nested : Descriptor} (hn : s.Consults d.name inner)
        (hnested : Descriptor.compile s inner = .ok nested) :
        Answers s element fault (Descriptor.beginsWithin element steps) nested := by
      obtain rfl := Descriptor.name_of_compile hnested
      refine ih hnested (hzone hmem hn) (Schema.transGen_cons hmet hn) fun he => ?_
      have hless := Descriptor.length_unmet_cons_lt Schema.Consults.nests hmet (hg he hmem) hn
      have := hsteps he
      omega
    obtain ⟨name, shape⟩ := d
    unfold Answers Descriptor.beginsWithin
    cases shape with
    | simple _ => exact Triple.pure fun r hr => ⟨hr, by simpa using fun h => nomatch h⟩
    | sequence properties subtypes isAbstract =>
      cases properties with
      | nil => exact Triple.pure fun r hr => ⟨hr, by simpa using fun h => nomatch h⟩
      | cons p rest =>
        have hp := triple_beginsBy (fun e => hfault hmem (.first hd rfl)) fun nested hnested hbare =>
          hstep (.first hd rfl hnested hbare) hnested
        refine hp.mono (fun _ hr => hr) ?_
        rintro b r ⟨hr, hb⟩
        exact ⟨hr, hb.trans ⟨.first, fun h => by cases h; assumption⟩⟩
    | choice variants =>
      have hv := triple_anyBeginsBy (fun v hv e => hfault hmem (.variant hd hv)) fun v hv hinline nested hnested =>
        hstep (.variant hd hv hinline) hnested
      refine hv.mono (fun _ hr => hr) ?_
      rintro b r ⟨hr, hb⟩
      refine ⟨hr, hb.trans ⟨fun ⟨v, hv, h⟩ => .variant hv h, ?_⟩⟩
      intro h
      cases h with
      | variant hv h => exact ⟨_, hv, h⟩

/-- The types of the schema bound the steps. -/
theorem triple_begins_zone {zone : TypeName → Prop}
    (hzone : ∀ {outer inner}, zone outer → s.Consults outer inner → zone inner)
    (hfault : ∀ {outer inner e}, zone outer → s.Inspects outer inner → Descriptor.compile s inner = .error e →
      ¬fault (.schema e))
    (hg : fault .endless → ∀ {type}, zone type → ¬Relation.TransGen s.Consults type type)
    (hd : Descriptor.compile s d.name = .ok d) (hmem : zone d.name) :
    Answers s element fault (Descriptor.begins element) d := by
  apply Triple.bind Triple.get
  intro r r' ⟨heq, hr⟩
  rw [heq, hr.schema_eq]
  exact triple_beginsWithin hzone hfault hg hd hmem (by simp) (fun _ => Descriptor.length_unmet_nil_lt s) r' hr

theorem triple_begins (hfault : s.Excuses d.name fault) (hg : fault .endless → s.IsGrounded d.name)
    (hd : Descriptor.compile s d.name = .ok d) : Answers s element fault (Descriptor.begins element) d :=
  triple_begins_zone (fun hreach hn => hn.inspects.reaches hreach) (fun hreach hn => hfault _ _ (hn.reaches hreach))
    (fun he _ hreach hcycle =>
      hg he _ hreach (Relation.TransGen.mono (fun _ _ => Schema.Consults.nests) _ _ hcycle)) hd .refl

/-- **Matching answers whether an element begins a value of a property.** -/
theorem triple_property_begins (hfault : s.Excuses p.type fault)
    (hg : fault .endless → s.IsGrounded p.type) :
    Triple (Registry.Over s) (p.begins element)
      (fun b r => r.Over s ∧ (b = true ↔ s.PropertyBegins element p)) fault := by
  refine triple_beginsBy (fun e => hfault _ _ .refl) fun nested hnested _ => ?_
  obtain hname := Descriptor.name_of_compile hnested
  refine triple_begins ?_ ?_ ?_ <;> rw [hname]
  · exact hfault
  · exact hg
  · exact hnested

theorem ensures_begins (element : String) (hd : Descriptor.compile s type = .ok d) :
    Ensures (Registry.Over s) (d.begins element) fun b => b = true ↔ s.TypeBegins element d := by
  obtain rfl := Descriptor.name_of_compile hd
  have hanswers : Answers s element (fun _ => False) (Descriptor.begins element) d :=
    triple_begins (fun _ _ _ _ => id) False.elim hd
  exact hanswers.ensures

theorem ensures_property_begins (element : String) (p : Property) :
    Ensures (Registry.Over s) (p.begins element) fun b => b = true ↔ s.PropertyBegins element p := by
  have hanswers : Triple (Registry.Over s) (p.begins element)
      (fun b r => r.Over s ∧ (b = true ↔ s.PropertyBegins element p)) (fun _ => False) :=
    triple_property_begins (fun _ _ _ _ => id) False.elim
  exact hanswers.ensures

end SoapBinding
