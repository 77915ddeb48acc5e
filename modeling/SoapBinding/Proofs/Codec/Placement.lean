import SoapBinding.Proofs.Codec.Tellable
import SoapBinding.Proofs.Codec.Typing

/-!
# What is written where

Writing a value writes the values inside it, each as the content of some type: the declared one, or the
registered subtype that an object is of (`Schema.writtenAs`). `Schema.Writes` tells which values come to be
written as which types.

Two things about them matter to a reader, whatever their types. It refuses an object that has been written as an
abstract type. And it takes an element marked nil that bears the name of a property of a choice type for the
property itself, also where it has been written for a variant (`Schema.TypeBeginsNil`). `Schema.Admits` says that
neither happens anywhere inside a value.
-/

namespace SoapBinding

open Typing

/-- The value that is written for a property: that of the first field of its name, or no value. -/
def Fields.valueOf (fields : Fields) (p : Property) : Value := (fields.get? p.name).getD .null

/-- The values that are written one by one for the field of a property. -/
inductive Property.IsSingle (p : Property) : Value → Value → Prop where
  | one {v : Value} : p.repeated = false → IsSingle p v v
  | item {v : Value} {items : List Value} : p.repeated = true → v ∈ items → IsSingle p (.list items) v

/-- The type that an element is written as: the declared one, or the registered subtype that an object is of. -/
def Schema.writtenAs (s : Schema) (declared : Descriptor) (v : Value) : Descriptor :=
  match v.object? with
  | none => declared
  | some (type, _) =>
    if type != declared.name && declared.subtypes.contains type then
      (Descriptor.compile s type).toOption.getD declared
    else declared

/-- Writing a value as the content of a type comes to write a value, inside it, as the content of a type. -/
inductive Schema.Writes (s : Schema) : Descriptor → Value → Descriptor → Value → Prop where
  | here {d : Descriptor} {v : Value} : Writes s d v d v
  | property {d nested d' : Descriptor} {p : Property} {type : TypeName} {fields : Fields} {v v' : Value} :
      p ∈ d.properties → p.IsSingle (fields.valueOf p) v → v ≠ .null →
      Descriptor.compile s p.type = .ok nested →
      Writes s (if p.content then nested else s.writtenAs nested v) v d' v' →
      Writes s d (.object type fields) d' v'
  | variant {d nested d' : Descriptor} {variant : Variant} {tag : UInt32} {v v' : Value} :
      d.variants.find? (·.tag == tag) = some variant → v ≠ .null →
      Descriptor.compile s variant.type = .ok nested →
      Writes s (if variant.dispatch = .inline then nested else s.writtenAs nested v) v d' v' →
      Writes s d (.choice tag v) d' v'

/-! ### Nil marks in front -/

mutual

/-- The first element that is written for the field of a property bears a name and is marked nil. -/
inductive Schema.PropertyBeginsNil (s : Schema) (name : String) : Property → Value → Prop where
  | null {p : Property} : name = p.name → PropertyBeginsNil s name p .null
  | nested {p : Property} {d : Descriptor} {v : Value} : Descriptor.compile s p.type = .ok d →
      d.isChoice = true → TypeBeginsNil s name d v → PropertyBeginsNil s name p v

/-- The first element that is written for the value of a variant bears a name and is marked nil. -/
inductive Schema.VariantBeginsNil (s : Schema) (name : String) : Variant → Value → Prop where
  | null {v : Variant} : v.dispatch = .element name → VariantBeginsNil s name v .null
  | inline {v : Variant} {d : Descriptor} {inner : Value} : v.dispatch = .inline →
      Descriptor.compile s v.type = .ok d → TypeBeginsNil s name d inner → VariantBeginsNil s name v inner

/-- The first element that is written for the content of a type bears a name and is marked nil. -/
inductive Schema.TypeBeginsNil (s : Schema) (name : String) : Descriptor → Value → Prop where
  | first {type t : TypeName} {p : Property} {rest : List Property} {subtypes : List TypeName}
      {isAbstract : Bool} {fields : Fields} : PropertyBeginsNil s name p (Fields.valueOf fields p) →
      TypeBeginsNil s name ⟨type, .sequence (p :: rest) subtypes isAbstract⟩ (.object t fields)
  | variant {type : TypeName} {variants : List Variant} {v : Variant} {tag : UInt32} {inner : Value} :
      variants.find? (·.tag == tag) = some v → VariantBeginsNil s name v inner →
      TypeBeginsNil s name ⟨type, .choice variants⟩ (.choice tag inner)

end

mutual

/-- An element that is marked nil begins a value as others do. -/
theorem Schema.PropertyBeginsNil.begins {s : Schema} {name : String} {p : Property} {v : Value} :
    s.PropertyBeginsNil name p v → s.PropertyBegins name p
  | .null heq => .named heq
  | .nested hd hchoice h => .nested hd (by rw [hchoice, Bool.true_or]) h.begins

theorem Schema.VariantBeginsNil.begins {s : Schema} {name : String} {variant : Variant} {v : Value} :
    s.VariantBeginsNil name variant v → s.VariantBegins name variant
  | .null hdispatch => .element hdispatch
  | .inline hinline hd h => .inline hinline hd h.begins

theorem Schema.TypeBeginsNil.begins {s : Schema} {name : String} {d : Descriptor} {v : Value} :
    s.TypeBeginsNil name d v → s.TypeBegins name d
  | .first h => .first h.begins
  | .variant hfind h => .variant (List.mem_of_find?_eq_some hfind) h.begins

end

/-! ### Values that can be read where they are written -/

/-- Nothing that is written inside a value for a property of a choice type begins with an element of the property's
own name that is marked nil. -/
def Schema.TellsNils (s : Schema) (d : Descriptor) (v : Value) : Prop :=
  ∀ d' type fields p x nested, s.Writes d v d' (.object type fields) → p ∈ d'.properties →
    p.IsSingle (Fields.valueOf fields p) x → Descriptor.compile s p.type = .ok nested → nested.isChoice = true →
    ¬s.TypeBeginsNil p.name nested x

/-- Nothing inside a value is written as an abstract type, and its nil marks can be told. -/
structure Schema.Admits (s : Schema) (d : Descriptor) (v : Value) : Prop where
  concrete : ∀ d' v', s.Writes d v d' v' → d'.isAbstract = false
  nils : s.TellsNils d v

section
variable {s : Schema} {d nested : Descriptor} {p : Property} {type : TypeName} {fields : Fields} {v : Value}

theorem Schema.Admits.property (h : s.Admits d (.object type fields)) (hp : p ∈ d.properties)
    (hcontent : p.content = false) (hv : p.IsSingle (fields.valueOf p) v) (hnull : v ≠ .null)
    (hnested : Descriptor.compile s p.type = .ok nested) : s.Admits (s.writtenAs nested v) v := by
  have hwrites {d' : Descriptor} {v' : Value} (h : s.Writes (s.writtenAs nested v) v d' v') :
      s.Writes d (.object type fields) d' v' :=
    .property hp hv hnull hnested (by rwa [hcontent, if_neg (by decide)])
  exact ⟨fun d' v' hw => h.concrete d' v' (hwrites hw), fun d' t fs q x n hw => h.nils d' t fs q x n (hwrites hw)⟩

theorem Schema.Admits.variant {variant : Variant} {tag : UInt32} (h : s.Admits d (.choice tag v))
    (hfind : d.variants.find? (·.tag == tag) = some variant) (hnull : v ≠ .null)
    (hnested : Descriptor.compile s variant.type = .ok nested) :
    s.Admits (if variant.dispatch = .inline then nested else s.writtenAs nested v) v :=
  ⟨fun d' v' hw => h.concrete d' v' (.variant hfind hnull hnested hw),
    fun d' t fs q x n hw => h.nils d' t fs q x n (.variant hfind hnull hnested hw)⟩

/-- A choice is written as itself. -/
theorem Schema.writtenAs_choice (hchoice : d.isChoice = true) (v : Value) : s.writtenAs d v = d := by
  have hsubtypes : d.subtypes = [] := by
    obtain ⟨name, shape⟩ := d
    cases shape <;> first | rfl | cases hchoice
  unfold writtenAs
  split
  · rfl
  · rw [hsubtypes, if_neg (by simp)]

/-- What an element is written as is reached from the type that it is declared of. -/
theorem Schema.writtenAs_reaches (hd : Descriptor.compile s type = .ok d) (v : Value) :
    s.Reaches type (s.writtenAs d v).name ∧
      Descriptor.compile s (s.writtenAs d v).name = .ok (s.writtenAs d v) := by
  obtain rfl := Descriptor.name_of_compile hd
  unfold Schema.writtenAs
  split
  · exact ⟨.refl, hd⟩
  · next u _ _ =>
    split
    · next hsubtype =>
      simp only [Bool.and_eq_true, List.contains_eq_mem, decide_eq_true_eq] at hsubtype
      cases hd' : Descriptor.compile s u with
      | ok d' =>
        obtain rfl := Descriptor.name_of_compile hd'
        exact ⟨.step .refl hd (Descriptor.mem_parts_of_subtype hsubtype.2), hd'⟩
      | error => exact ⟨.refl, hd⟩
    · exact ⟨.refl, hd⟩

/-- What is written inside a value is written as types that its own type reaches. -/
theorem Schema.Writes.reaches {d' : Descriptor} {v' : Value} (h : s.Writes d v d' v')
    (hd : Descriptor.compile s d.name = .ok d) :
    s.Reaches d.name d'.name ∧ Descriptor.compile s d'.name = .ok d' := by
  induction h with
  | here => exact ⟨.refl, hd⟩
  | @property d nested d' p _ _ v _ hp _ _ hnested _ ih =>
    have hpart : s.Reaches d.name p.type := .step .refl hd (Descriptor.mem_parts_of_property hp)
    cases hcontent : p.content with
    | true =>
      rw [hcontent, if_pos rfl, Descriptor.name_of_compile hnested] at ih
      obtain ⟨hreach, hd'⟩ := ih hnested
      exact ⟨hreach.trans hpart, hd'⟩
    | false =>
      rw [hcontent, if_neg (by decide)] at ih
      obtain ⟨hwritten, hcompile⟩ := writtenAs_reaches hnested v
      obtain ⟨hreach, hd'⟩ := ih hcompile
      exact ⟨hreach.trans (hwritten.trans hpart), hd'⟩
  | @variant d nested d' variant _ v _ hfind _ hnested _ ih =>
    have hpart : s.Reaches d.name variant.type :=
      .step .refl hd (Descriptor.mem_parts_of_variant (List.mem_of_find?_eq_some hfind))
    by_cases hinline : variant.dispatch = .inline
    · rw [if_pos hinline, Descriptor.name_of_compile hnested] at ih
      obtain ⟨hreach, hd'⟩ := ih hnested
      exact ⟨hreach.trans hpart, hd'⟩
    · rw [if_neg hinline] at ih
      obtain ⟨hwritten, hcompile⟩ := writtenAs_reaches hnested v
      obtain ⟨hreach, hd'⟩ := ih hcompile
      exact ⟨hreach.trans (hwritten.trans hpart), hd'⟩

/-- Nil marks can be told wherever no property of a choice type bears the name of an element that begins the choice. -/
theorem Schema.tellsNils_of_own_names (hd : Descriptor.compile s d.name = .ok d)
    (h : ∀ type d' p nested, s.Reaches d.name type → Descriptor.compile s type = .ok d' → p ∈ d'.properties →
      Descriptor.compile s p.type = .ok nested → nested.isChoice = true → ¬s.TypeBegins p.name nested) (v : Value) :
    s.TellsNils d v := by
  intro d' type fields p x nested hwrites hp _ hnested hchoice hnil
  obtain ⟨hreach, hd'⟩ := hwrites.reaches hd
  exact h d'.name d' p nested hreach hd' hp hnested hchoice hnil.begins

/-- What an element is written as is told as well as what it is declared of. -/
theorem Schema.Tells.writtenAs (h : s.Tells type) (hd : Descriptor.compile s type = .ok d) (v : Value) :
    s.Tells (s.writtenAs d v).name ∧
      Descriptor.compile s (s.writtenAs d v).name = .ok (s.writtenAs d v) :=
  (Schema.writtenAs_reaches hd v).imp_left h.reach

/-- An element declared of a type holds a value of the type that it is written as. -/
theorem Typing.ElementOf.writtenAs (hd : Descriptor.compile s type = .ok d) (h : ElementOf s type v) :
    ContentOf s (s.writtenAs d v).name v := by
  have hname := Descriptor.name_of_compile hd
  cases h with
  | declared hc =>
    have hwritten : s.writtenAs d v = d := by
      unfold Schema.writtenAs
      cases hc with
      | object => simp [Value.object?, hname]
      | choice => rfl
      | @leaf _ primitive _ _ hholds =>
        have hobject : v.object? = none := by
          cases primitive with
          | text t => cases t <;> cases v <;> first | rfl | cases hholds
          | base64Binary => cases v <;> first | rfl | cases hholds
        rw [hobject]
    rw [hwritten, hname]
    exact hc
  | @subtype _ u d' fields hd' hmem hc =>
    rw [hd] at hd'
    cases hd'
    unfold Schema.writtenAs
    dsimp only [Value.object?]
    split
    · have hcompile : ∃ d', Descriptor.compile s u = .ok d' := by
        cases hc with
        | leaf h _ => exact ⟨_, h⟩
        | object h => exact ⟨_, h⟩
      obtain ⟨d', hd'⟩ := hcompile
      obtain rfl := Descriptor.name_of_compile hd'
      rw [hd']
      exact hc
    · next hsame =>
      have heq : u = d.name := by simpa [hmem] using hsame
      exact heq ▸ hc

/-! ### Values of types -/

namespace Typing

/-- A value of a type is not written as an abstract type. -/
theorem ContentOf.not_abstract (hd : Descriptor.compile s d.name = .ok d) (h : ContentOf s d.name v) :
    d.isAbstract = false := by
  obtain ⟨name, shape⟩ := d
  cases h with
  | leaf hd' | object hd' | choice hd' =>
    rw [hd] at hd'
    cases hd'
    rfl

section
variable {primitive : Primitive} {properties : List Property} {subtypes : List TypeName} {isAbstract : Bool}
  {variants : List Variant}

/-- The values of a simple type are leaves of its primitive. -/
theorem ContentOf.holds (h : ContentOf s type v)
    (hd : Descriptor.compile s type = .ok ⟨type, .simple primitive⟩) : primitive.holds v = true := by
  cases h with
  | leaf hd' hholds =>
    rw [hd] at hd'
    cases hd'
    exact hholds
  | object hd' | choice hd' =>
    rw [hd] at hd'
    cases hd'

/-- The values of a sequence are objects with fields of its properties. -/
theorem ContentOf.exists_fields (h : ContentOf s type v)
    (hd : Descriptor.compile s type = .ok ⟨type, .sequence properties subtypes isAbstract⟩) :
    ∃ fields, v = .object type fields ∧ FieldsOf s properties fields := by
  cases h with
  | object hd' hfields =>
    rw [hd] at hd'
    cases hd'
    exact ⟨_, rfl, hfields⟩
  | leaf hd' | choice hd' =>
    rw [hd] at hd'
    cases hd'

/-- The values of a choice are those of its variants under their tags. -/
theorem ContentOf.exists_variant (h : ContentOf s type v)
    (hd : Descriptor.compile s type = .ok ⟨type, .choice variants⟩) :
    ∃ variant inner, v = .choice variant.tag inner ∧ variants.find? (·.tag == variant.tag) = some variant ∧
      VariantOf s variant inner := by
  cases h with
  | choice hd' hmem hv =>
    rw [hd] at hd'
    cases hd'
    exact ⟨_, _, rfl, Descriptor.find?_tag hd rfl hmem, hv⟩
  | leaf hd' | object hd' =>
    rw [hd] at hd'
    cases hd'

end

/-- An object of a type has fields of the type's properties. -/
theorem ContentOf.fieldsOf (hd : Descriptor.compile s d.name = .ok d) (h : ContentOf s d.name (.object type fields)) :
    type = d.name ∧ FieldsOf s d.properties fields := by
  obtain ⟨name, shape⟩ := d
  generalize hv : Value.object type fields = v at h
  cases h with
  | @leaf _ primitive _ _ hholds =>
    subst hv
    cases primitive with
    | text t => cases t <;> cases hholds
    | base64Binary => cases hholds
  | object hd' hfields =>
    rw [hd] at hd'
    cases hd'
    cases hv
    exact ⟨rfl, hfields⟩
  | choice => cases hv

/-- A choice of a type has a value of the variant that its tag selects. -/
theorem ContentOf.variantOf {tag : UInt32} (hd : Descriptor.compile s d.name = .ok d)
    (h : ContentOf s d.name (.choice tag v)) :
    ∃ variant, d.variants.find? (·.tag == tag) = some variant ∧ variant.tag = tag ∧ VariantOf s variant v := by
  obtain ⟨name, shape⟩ := d
  generalize hw : Value.choice tag v = w at h
  cases h with
  | @leaf _ primitive _ _ hholds =>
    subst hw
    cases primitive with
    | text t => cases t <;> cases hholds
    | base64Binary => cases hholds
  | object => cases hw
  | choice hd' hmem hv =>
    rw [hd] at hd'
    cases hd'
    cases hw
    exact ⟨_, Descriptor.find?_tag hd rfl hmem, rfl, hv⟩

/-- The value that is written for a property is the one of its field. -/
theorem FieldsOf.valueOf {properties : List Property} (h : FieldsOf s properties fields)
    (hnodup : (properties.map (·.name)).Nodup) (hp : p ∈ properties) : FieldOf s p (fields.valueOf p) := by
  induction properties generalizing fields with
  | nil => cases hp
  | cons q rest ih =>
    cases h with
    | @cons _ _ v fields hfield hfields =>
      rw [List.map_cons, List.nodup_cons] at hnodup
      unfold Fields.valueOf
      rw [Fields.get?]
      rcases List.mem_cons.1 hp with rfl | hrest
      · rwa [if_pos rfl]
      · have hne : q.name ≠ p.name := fun heq => hnodup.1 (heq ▸ List.mem_map_of_mem hrest)
        rw [if_neg hne]
        exact ih hfields hnodup.2 hrest

/-- A single value is one that the property may have. -/
theorem FieldOf.single_of {w : Value} (h : FieldOf s p w) (hv : p.IsSingle w v) (hnull : v ≠ .null) :
    SingleOf s p v := by
  cases h with
  | list hrepeated hitems =>
    cases hv with
    | one hsingle => rw [hrepeated] at hsingle; cases hsingle
    | item _ hmem => exact hitems v hmem
  | absent =>
    cases hv with
    | one => exact absurd rfl hnull
  | single hsingle hv' =>
    cases hv with
    | one => exact hv'
    | item hrepeated => rw [hsingle] at hrepeated; cases hrepeated

/-- A leaf is a single value of a property of its type that is written in an element. -/
theorem SingleOf.leaf {primitive : Primitive} (hd : Descriptor.compile s p.type = .ok ⟨p.type, .simple primitive⟩)
    (hcontent : p.content = false) (h : primitive.holds v = true) : SingleOf s p v :=
  .wrapped hd (by rw [Property.isWrapped, hcontent]; rfl) (.declared (.leaf hd h))

/-- A single value is one that an element declared of the property's type holds. -/
theorem SingleOf.elementOf (h : SingleOf s p v) (hnull : v ≠ .null) : ElementOf s p.type v := by
  cases h with
  | null => exact absurd rfl hnull
  | wrapped _ _ hv => exact hv
  | bare _ _ hv => exact .declared hv

/-- A single value is written as a type of its own. -/
theorem SingleOf.writtenAs (h : SingleOf s p v) (hnull : v ≠ .null)
    (hnested : Descriptor.compile s p.type = .ok nested) : ContentOf s (s.writtenAs nested v).name v :=
  (h.elementOf hnull).writtenAs hnested

/-- A single value of a choice is a value of that. -/
theorem SingleOf.contentOf (h : SingleOf s p v) (hnull : v ≠ .null)
    (hnested : Descriptor.compile s p.type = .ok nested) (hchoice : nested.isChoice = true) :
    ContentOf s p.type v := by
  have hwritten := h.writtenAs hnull hnested
  rwa [Schema.writtenAs_choice hchoice, Descriptor.name_of_compile hnested] at hwritten

/-- **What is written inside a value of a type is of the type that it is written as.** -/
theorem ContentOf.of_writes {d' : Descriptor} {v' : Value} (htells : s.Tells d.name)
    (hd : Descriptor.compile s d.name = .ok d) (h : ContentOf s d.name v) (hw : s.Writes d v d' v') :
    Descriptor.compile s d'.name = .ok d' ∧ ContentOf s d'.name v' := by
  induction hw with
  | here => exact ⟨hd, h⟩
  | property hp hv hnull hnested _ ih =>
    have htellable := htells.isTellable hd
    obtain ⟨htells', hd'⟩ := (htells.property hd hp).writtenAs hnested _
    rw [htellable.not_content _ hp, if_neg (by decide)] at ih
    have hfield := (h.fieldsOf hd).2.valueOf htellable.names hp
    exact ih htells' hd' ((hfield.single_of hv hnull).writtenAs hnull hnested)
  | @variant d nested d' variant tag v v' hfind hnull hnested _ ih =>
    have hpart := htells.variant hd (List.mem_of_find?_eq_some hfind)
    obtain ⟨_, hfind', _, hv⟩ := h.variantOf hd
    rw [hfind] at hfind'
    cases hfind'
    have hname := Descriptor.name_of_compile hnested
    by_cases hinline : variant.dispatch = .inline
    · rw [if_pos hinline, hname] at ih
      refine ih hpart hnested ?_
      cases hv with
      | null hdispatch | element hdispatch =>
        rw [hinline] at hdispatch
        cases hdispatch
      | inline _ hv => exact hv
    · rw [if_neg hinline] at ih
      obtain ⟨htells', hd'⟩ := hpart.writtenAs hnested v
      refine ih htells' hd' ?_
      cases hv with
      | null => exact absurd rfl hnull
      | element _ hv => exact hv.writtenAs hnested
      | inline hinline' => exact absurd hinline' hinline

/-- Nothing inside a value of a type is written as an abstract type. -/
theorem ContentOf.concrete {d' : Descriptor} {v' : Value} (h : ContentOf s d.name v) (htells : s.Tells d.name)
    (hd : Descriptor.compile s d.name = .ok d) (hw : s.Writes d v d' v') : d'.isAbstract = false := by
  obtain ⟨hd', hcontent⟩ := h.of_writes htells hd hw
  exact hcontent.not_abstract hd'

end Typing
end
end SoapBinding
