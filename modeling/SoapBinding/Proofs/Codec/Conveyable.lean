import SoapBinding.Proofs.Codec.Placement

/-!
# Types whose values can be conveyed

A simple way for a schema to be such that the values of a type survive being written and read. It asks of
every type that values of the type can hold values of (`Schema.Reaches`): each compiles, every variant of a choice stands
in an element, and the names of elements tell properties apart and variants (`Descriptor.IsPlain`).

The element that begins a value of a property is then one of the property's `startNames`, and nothing but those is taken
for a part of what stands in front. So the types can be told (`Schema.Conveys.tells`).
-/

namespace SoapBinding

/-! ### Names that begin values -/

/-- The name of the element that a variant stands in, if it stands in one. -/
def Variant.elementName? (v : Variant) : Option String :=
  match v.dispatch with
  | .element name => some name
  | .inline => none

/-- The names of the elements that variants stand in. -/
def Variant.names (variants : List Variant) : List String := variants.filterMap Variant.elementName?

theorem Variant.names_cons {v : Variant} {name : String} (h : v.dispatch = .element name)
    (rest : List Variant) : names (v :: rest) = name :: names rest := by
  have hname : v.elementName? = some name := by rw [elementName?, h]
  rw [names, List.filterMap_cons_some hname, names]

theorem Variant.mem_names {v : Variant} {name : String} {variants : List Variant} (hv : v ∈ variants)
    (h : v.dispatch = .element name) : name ∈ names variants :=
  List.mem_filterMap.2 ⟨v, hv, by rw [elementName?, h]⟩

/-- The names of the elements that the variants of a type stand in. A type that is no choice has none. -/
def Schema.variantNames (s : Schema) (type : TypeName) : List String :=
  match Descriptor.compile s type with
  | .ok d => Variant.names d.variants
  | .error _ => []

/-- The names of the elements that a value of a property can begin with. -/
def Property.startNames (s : Schema) (p : Property) : List String := p.name :: s.variantNames p.type

theorem Schema.variantNames_eq {s : Schema} {type : TypeName} {d : Descriptor}
    (hd : Descriptor.compile s type = .ok d) :
    s.variantNames type = Variant.names d.variants := by
  rw [variantNames, hd]

/-! ### Plain types -/

/-- A property whose values stand in elements of its own name, or in those of a choice. -/
structure Property.IsPlain (s : Schema) (p : Property) : Prop where
  /-- The values are written in elements. -/
  not_content : p.content = false
  /-- The name is one for an element. -/
  isName : Xml.IsName p.name
  /-- No variant of a choice bears the name, so that the two nil marks can be told apart. -/
  own_name : p.name ∉ s.variantNames p.type

/-- A type whose values can be told from the elements that they are written as. -/
structure Descriptor.IsPlain (s : Schema) (d : Descriptor) : Prop where
  /-- Every property is plain. -/
  properties : ∀ p ∈ d.properties, p.IsPlain s
  /-- No element can begin values of two properties. -/
  starts : d.properties.Pairwise fun p q => ∀ name ∈ p.startNames s, name ∉ q.startNames s
  /-- Every variant stands in an element, and is read as a choice. -/
  variants : ∀ v ∈ d.variants, v.construct = none ∧
    ∃ name, v.dispatch = .element name ∧ Xml.IsName name
  /-- No element can begin two variants. -/
  variants_nodup : (Variant.names d.variants).Nodup
  /-- An element can be marked with every subtype. -/
  subtypes : ∀ subtype ∈ d.subtypes, Xml.IsMarkable subtype

instance (s : Schema) (p : Property) : Decidable (p.IsPlain s) :=
  decidable_of_iff (p.content = false ∧ Xml.IsName p.name ∧ p.name ∉ s.variantNames p.type)
    ⟨fun ⟨hc, hn, ho⟩ => ⟨hc, hn, ho⟩, fun ⟨hc, hn, ho⟩ => ⟨hc, hn, ho⟩⟩

/-- Whether a variant stands in an element, and is read as a choice. -/
def Variant.isPlain (v : Variant) : Bool :=
  v.construct.isNone && v.elementName?.any fun name => decide (Xml.IsName name)

theorem Variant.isPlain_iff {v : Variant} :
    v.isPlain = true ↔ v.construct = none ∧ ∃ name, v.dispatch = .element name ∧ Xml.IsName name := by
  unfold isPlain elementName?
  cases v.dispatch <;> simp

instance (s : Schema) (d : Descriptor) : Decidable (d.IsPlain s) :=
  decidable_of_iff ((∀ p ∈ d.properties, p.IsPlain s) ∧
      (d.properties.Pairwise fun p q => ∀ name ∈ p.startNames s, name ∉ q.startNames s) ∧
      (∀ v ∈ d.variants, v.isPlain = true) ∧ (Variant.names d.variants).Nodup ∧
      ∀ subtype ∈ d.subtypes, Xml.IsMarkable subtype)
    ⟨fun ⟨hp, hs, hv, hn, hu⟩ => ⟨hp, hs, fun v h => Variant.isPlain_iff.1 (hv v h), hn, hu⟩,
      fun ⟨hp, hs, hv, hn, hu⟩ => ⟨hp, hs, fun v h => Variant.isPlain_iff.2 (hv v h), hn, hu⟩⟩

/-- Every type that a type reaches compiles and is plain. -/
def Schema.Conveys (s : Schema) (root : TypeName) : Prop :=
  ∀ type, s.Reaches root type → ∃ d, Descriptor.compile s type = .ok d ∧ d.IsPlain s

namespace Schema.Conveys

variable {s : Schema} {root : TypeName} {d : Descriptor}

/-- A set of plain types that holds the parts of each of them conveys what it holds. -/
theorem of_closed {types : List TypeName} (hroot : root ∈ types)
    (h : (types.all fun type => (Descriptor.compile s type).toOption.any fun d =>
      decide (d.IsPlain s) && d.parts.all types.contains) = true) : s.Conveys root := by
  intro type hreach
  obtain ⟨d, hd, hplain⟩ := Schema.exists_of_closed hroot h hreach
  exact ⟨d, hd, of_decide_eq_true hplain⟩

/-- What a type reaches is conveyed as well. -/
theorem part {part : TypeName} (h : s.Conveys root) (hd : Descriptor.compile s root = .ok d)
    (hpart : part ∈ d.parts) : s.Conveys part :=
  fun type hreach => h type (hreach.trans (.step .refl hd hpart))

theorem isPlain (h : s.Conveys root) (hd : Descriptor.compile s root = .ok d) : d.IsPlain s := by
  obtain ⟨d', hd', hplain⟩ := h root .refl
  rw [hd] at hd'
  cases hd'
  exact hplain

theorem property {p : Property} (h : s.Conveys root) (hd : Descriptor.compile s root = .ok d)
    (hp : p ∈ d.properties) : s.Conveys p.type :=
  h.part hd (Descriptor.mem_parts_of_property hp)

theorem variant {v : Variant} (h : s.Conveys root) (hd : Descriptor.compile s root = .ok d)
    (hv : v ∈ d.variants) : s.Conveys v.type :=
  h.part hd (Descriptor.mem_parts_of_variant hv)

theorem subtype {u : TypeName} (h : s.Conveys root) (hd : Descriptor.compile s root = .ok d)
    (hu : u ∈ d.subtypes) : s.Conveys u :=
  h.part hd (Descriptor.mem_parts_of_subtype hu)

end Schema.Conveys

/-! ### Plain types can be told -/

variable {s : Schema} {d nested : Descriptor} {p : Property} {name : String} {type root : TypeName}

/-- The variants of a plain type stand in elements. -/
theorem Descriptor.IsPlain.not_inline (h : d.IsPlain s) {v : Variant} (hv : v ∈ d.variants) :
    v.dispatch ≠ .inline := by
  obtain ⟨_, name, hname, _⟩ := h.variants v hv
  rw [hname]
  exact nofun

/-- Nothing behind a choice is taken for a part of it. -/
theorem Descriptor.IsPlain.not_continues (h : d.IsPlain s) (hchoice : d.isChoice = true) :
    ¬s.TypeContinues name d :=
  Schema.not_typeContinues_of_elements hchoice fun _ hv => h.not_inline hv

theorem Descriptor.IsPlain.nodup_names (h : d.IsPlain s) : (d.properties.map (·.name)).Nodup := by
  refine List.pairwise_map.2 (h.starts.imp ?_)
  intro p q hpq heq
  exact hpq p.name List.mem_cons_self (heq ▸ List.mem_cons_self)

/-- A variant of a plain type is begun by its element and no other. -/
theorem Descriptor.IsPlain.variantBegins (h : d.IsPlain s) {v : Variant} (hv : v ∈ d.variants)
    (hbegins : s.VariantBegins name v) : v.dispatch = .element name := by
  cases hbegins with
  | element hdispatch => exact hdispatch
  | inline hinline => exact absurd hinline (h.not_inline hv)

/-- The element that begins a value of a plain property bears one of its names. -/
theorem Property.IsPlain.begins (hp : p.IsPlain s) (hd : Descriptor.compile s p.type = .ok nested)
    (hplain : nested.IsPlain s) (h : s.PropertyBegins name p) : name ∈ p.startNames s := by
  rw [Property.startNames, Schema.variantNames_eq hd]
  cases h with
  | named heq => exact heq ▸ List.mem_cons_self
  | nested hd' hchoice hbegins =>
    rw [hd] at hd'
    cases hd'
    cases hbegins with
    | first =>
      rw [hp.not_content] at hchoice
      cases hchoice
    | variant hv hbegins => exact List.mem_cons_of_mem _ (Variant.mem_names hv (hplain.variantBegins hv hbegins))

/-- Only the elements that begin a plain property continue it. -/
theorem Property.IsPlain.continues (hp : p.IsPlain s) (hd : Descriptor.compile s p.type = .ok nested)
    (hplain : nested.IsPlain s) (h : s.PropertyContinues name p) : name ∈ p.startNames s := by
  cases h with
  | omitted _ hbegins => exact hp.begins hd hplain hbegins
  | nested hd' hchoice hcontinues =>
    rw [hd] at hd'
    cases hd'
    exact absurd hcontinues (hplain.not_continues hchoice)

/-- No element begins two variants of a plain type. -/
theorem Variant.distinct_of_nodup {variants : List Variant} (h : ∀ v ∈ variants, ∀ name, s.VariantBegins name v →
      v.dispatch = .element name) (hnodup : (Variant.names variants).Nodup) :
    variants.Pairwise fun v w => ∀ name, s.VariantBegins name w → ¬s.VariantBegins name v := by
  induction variants with
  | nil => exact .nil
  | cons v rest ih =>
    have hrest (w : Variant) (hw : w ∈ rest) := h w (List.mem_cons_of_mem v hw)
    refine .cons ?_ (ih hrest ?_)
    · intro w hw name hbegins hbegins'
      rw [Variant.names_cons (h v List.mem_cons_self name hbegins'), List.nodup_cons] at hnodup
      exact hnodup.1 (Variant.mem_names hw (hrest w hw name hbegins))
    · exact (hnodup.sublist ((List.sublist_cons_self v rest).filterMap _))

/-- Where all types are plain, values with no element of their own are choices in objects. -/
theorem Schema.Conveys.isGrounded (h : s.Conveys root) : s.IsGrounded root := by
  let rank (type : TypeName) : Nat :=
    if (Descriptor.compile s type).toOption.any Descriptor.isChoice then 0 else 1
  refine Schema.isGrounded_of_rank rank ?_
  intro outer inner hreach hnests
  obtain ⟨d, hd, hplain⟩ := h outer hreach
  cases hnests with
  | property hd' hp hnested hbare =>
    rw [hd] at hd'
    cases hd'
    rw [(hplain.properties _ hp).not_content, Bool.or_false] at hbare
    have houter : d.isChoice = false := by
      obtain ⟨name, shape⟩ := d
      cases shape with
      | sequence => rfl
      | simple | choice => cases hp
    simp [rank, hd, hnested, hbare, houter, Except.toOption]
  | variant hd' hv hinline =>
    rw [hd] at hd'
    cases hd'
    exact absurd hinline (hplain.not_inline hv)

/-- **Plain types can be told.** -/
theorem Schema.Conveys.tells (h : s.Conveys root) : s.Tells root := by
  refine ⟨fun type hreach => ?_, h.isGrounded⟩
  obtain ⟨d, hd, hplain⟩ := h type hreach
  have hconveys : s.Conveys type := fun t ht => h t (ht.trans hreach)
  refine ⟨d, hd, ⟨fun p hp => (hplain.properties p hp).not_content, fun p hp _ _ _ => (hplain.properties p hp).isName,
    hplain.nodup_names, ?_, ?_, ?_, ?_, hplain.subtypes⟩⟩
  · refine hplain.starts.imp_of_mem ?_
    intro p q hp hq hstarts name hbegins hcontinues
    obtain ⟨dp, hdp, hplain_p⟩ := hconveys.property hd hp _ .refl
    obtain ⟨dq, hdq, hplain_q⟩ := hconveys.property hd hq _ .refl
    exact hstarts name ((hplain.properties p hp).continues hdp hplain_p hcontinues)
      ((hplain.properties q hq).begins hdq hplain_q hbegins)
  · intro p hp _ nested hnested hchoice name _
    exact ((hconveys.property hd hp).isPlain hnested).not_continues hchoice
  · intro v hv
    obtain ⟨hconstruct, name, hname, hisName⟩ := hplain.variants v hv
    refine ⟨hconstruct, fun other hother => ?_, fun _ hinline => absurd hinline (hplain.not_inline hv)⟩
    rw [hname] at hother
    cases hother
    exact hisName
  · exact Variant.distinct_of_nodup (fun v hv name => hplain.variantBegins hv) hplain.variants_nodup

/-- In plain types no element of a choice is taken for a nil mark. -/
theorem Schema.Conveys.tellsNils (h : s.Conveys d.name) (hd : Descriptor.compile s d.name = .ok d) (v : Value) :
    s.TellsNils d v := by
  refine Schema.tellsNils_of_own_names hd (fun type d' p nested hreach hd' hp hnested hchoice hbegins => ?_) v
  have hconveys : s.Conveys type := fun t ht => h t (ht.trans hreach)
  have hplain := (hconveys.property hd' hp).isPlain hnested
  cases hbegins with
  | first => cases hchoice
  | variant hv hbegins =>
    refine ((hconveys.isPlain hd').properties p hp).own_name ?_
    rw [Schema.variantNames_eq hnested]
    exact Variant.mem_names hv (hplain.variantBegins hv hbegins)

end SoapBinding
