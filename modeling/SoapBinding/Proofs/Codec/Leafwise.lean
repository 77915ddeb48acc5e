import SoapBinding.Proofs.Codec.Conveyed
import SoapBinding.Proofs.Codec.Soundness

/-!
# What holds of the leaves that are read

Reading puts values together from leaves and from nothing else. What holds of every leaf that is read, and passes from
parts to the whole where a reader puts them together (`Schema.Assembles`), therefore holds of every value that is read
(`holds_read`, `holds_readElement`).
-/

namespace SoapBinding

/-- A property of values that passes from the parts of a value to the whole. -/
structure Value.IsClosed (G : Value → Prop) : Prop where
  null : G .null
  list : ∀ {items : List Value}, (∀ v ∈ items, G v) → G (.list items)
  object : ∀ {type : TypeName} {fields : Fields}, (∀ f ∈ fields, G f.2) → G (.object type fields)
  choice : ∀ {tag : UInt32} {v : Value}, G v → G (.choice tag v)

/-- A property of values that passes from the parts of a value to the whole where readers of the schema's types put them
together: the fields of an object are those of the properties of its type, and a variant builds what it is told to. -/
structure Schema.Assembles (s : Schema) (G : Value → Prop) : Prop where
  null : G .null
  list : ∀ {items : List Value}, (∀ v ∈ items, G v) → G (.list items)
  object : ∀ {type : TypeName} {properties : List Property} {subtypes : List TypeName} {fields : Fields},
    Descriptor.compile s type = .ok ⟨type, .sequence properties subtypes false⟩ →
    fields.names = properties.map (·.name) → (∀ f ∈ fields, G f.2) → G (.object type fields)
  build : ∀ t ∈ s.types, ∀ v ∈ t.2.variants, ∀ inner, G inner → G (v.build inner)

/-- Variants without constructors of their own build choices. -/
theorem Value.IsClosed.assembles {s : Schema} {G : Value → Prop} (hG : IsClosed G) (hplain : s.HasPlainVariants) :
    s.Assembles G where
  null := hG.null
  list := hG.list
  object _ _ := hG.object
  build t ht v hv inner h := by
    rw [Variant.build, hplain t ht v hv]
    exact hG.choice h

/-- What is asked of all leaves passes to the whole. -/
theorem Value.isClosed_leaves {Q : Value → Prop} (hnull : Q .null) : IsClosed fun v => ∀ leaf ∈ v.leaves, Q leaf := by
  refine ⟨?_, ?_, ?_, ?_⟩
  · intro leaf hleaf
    rwa [List.mem_singleton.1 hleaf]
  · intro items h leaf hleaf
    obtain ⟨v, hv, hleaf⟩ := mem_leaves_list.1 hleaf
    exact h v hv leaf hleaf
  · intro type fields h leaf hleaf
    obtain ⟨f, hf, hleaf⟩ := mem_leaves_object.1 hleaf
    exact h f hf leaf hleaf
  · intro tag v h leaf hleaf
    exact h leaf hleaf

namespace Decoding

open Outcome

variable {s : Schema} {G : Value → Prop} {content : Descriptor → Decoding Value} {type : TypeName} {d : Descriptor}

section
variable (hG : s.Assembles G)
  (hc : ∀ type d, Descriptor.compile s type = .ok d → Ensures (Over s) (content d) G)
include hG hc

theorem holds_readWrapped (hd : Descriptor.compile s type = .ok d) (owner : TypeName) (nilable : Bool) :
    Ensures (Over s) (readWrapped content owner nilable d) G := by
  unfold readWrapped
  apply Ensures.bind (ensures_onCursor _)
  intro e _
  apply Ensures.ite
  · intro _
    apply Ensures.ite
    · intro _
      exact Ensures.bind (ensures_onCursor _) fun _ _ => Ensures.pure hG.null
    · intro _
      exact Ensures.throw
  · intro _
    apply Ensures.bind (ensures_runtimeType hd e)
    -- A subtype is read as what its own name compiles to.
    rintro d' ⟨hd', _⟩
    apply Ensures.bind (hc d'.name d' hd')
    intro v hv
    exact Ensures.bind (ensures_onCursor _) fun _ _ => Ensures.pure hv

theorem holds_readSingle {p : Property} (hd : Descriptor.compile s p.type = .ok d) (owner : TypeName) :
    Ensures (Over s) (readSingle content owner p d) G := by
  have hwrapped := holds_readWrapped hG hc hd owner p.nilable
  have hcontent := hc p.type d hd
  unfold readSingle
  apply Ensures.ite
  · exact fun _ => hcontent
  · intro _
    apply Ensures.bind (ensures_onCursor _)
    intro next _
    cases next with
    | none => exact Ensures.throw
    | some e =>
      apply Ensures.ite
      · exact fun _ => Ensures.ite (fun _ => hwrapped) fun _ => hcontent
      · exact fun _ => Ensures.ite (fun _ => hwrapped) fun _ => Ensures.throw

theorem holds_readItems {p : Property} (hd : Descriptor.compile s p.type = .ok d) (owner : TypeName) (limit : Nat) :
    Ensures (Over s) (readItems content owner p d limit) fun items => ∀ v ∈ items, G v := by
  induction limit with
  | zero => exact Ensures.throw
  | succ limit ih =>
    unfold readItems
    apply Ensures.bind (ensures_comesNext p)
    intro next _
    apply Ensures.ite
    · intro _
      apply Ensures.bind (holds_readSingle hG hc hd owner)
      intro item hitem
      apply Ensures.bind ih
      intro rest hrest
      exact Ensures.pure (List.forall_mem_cons.2 ⟨hitem, hrest⟩)
    · exact fun _ => Ensures.pure fun _ h => absurd h List.not_mem_nil

theorem holds_readProperty (owner : TypeName) (p : Property) :
    Ensures (Over s) (readProperty content owner p) G := by
  unfold readProperty
  apply Ensures.bind (ensures_descriptor p.type)
  intro d hd
  have hsingle := holds_readSingle hG hc hd owner
  apply Ensures.ite
  · intro _
    apply Ensures.bind Ensures.get
    intro st _
    apply Ensures.bind (holds_readItems hG hc hd owner _)
    exact fun items hitems => Ensures.pure (hG.list hitems)
  · intro _
    apply Ensures.ite
    · intro _
      apply Ensures.bind (ensures_comesNext p)
      intro next _
      exact Ensures.ite (fun _ => hsingle) fun _ => Ensures.pure hG.null
    · exact fun _ => hsingle

theorem holds_readProperties (owner : TypeName) (properties : List Property) :
    Ensures (Over s) (readProperties content owner properties) fun fields =>
      fields.names = properties.map (·.name) ∧ ∀ f ∈ fields, G f.2 := by
  induction properties with
  | nil => exact Ensures.pure ⟨rfl, nofun⟩
  | cons p rest ih =>
    unfold readProperties
    apply Ensures.bind (holds_readProperty hG hc owner p)
    intro v hv
    apply Ensures.bind ih
    rintro fields ⟨hnames, hfields⟩
    exact Ensures.pure ⟨congrArg (p.name :: ·) hnames, List.forall_mem_cons.2 ⟨hv, hfields⟩⟩

theorem holds_readVariants (owner : TypeName) (element : String) {variants : List Variant}
    (hbuild : ∀ v ∈ variants, ∀ inner, G inner → G (v.build inner)) :
    Ensures (Over s) (readVariants content owner element variants) G := by
  induction variants with
  | nil => exact Ensures.throw
  | cons v rest ih =>
    rw [List.forall_mem_cons] at hbuild
    have hbuilt (inner : Value) (h : G inner) : Ensures (Over s) (pure (v.build inner) : Decoding Value) G :=
      Ensures.pure (hbuild.1 inner h)
    unfold readVariants
    apply Ensures.bind (ensures_descriptor v.type)
    intro d hd
    cases v.dispatch with
    | element name =>
      exact Ensures.ite (fun _ => Ensures.bind (holds_readWrapped hG hc hd owner true) hbuilt) fun _ => ih hbuild.2
    | inline =>
      apply Ensures.bind (ensures_onRegistry (ensures_begins element hd))
      intro begins _
      exact Ensures.ite (fun _ => Ensures.bind (hc v.type d hd) hbuilt) fun _ => ih hbuild.2

end

/-- **What holds of all leaves that are read holds of all contents.** -/
theorem holds_readContent (hG : s.Assembles G) (context : Context)
    (hleaf : ∀ primitive, Ensures (Over s) (readPrimitive context primitive) G) (steps : Nat)
    (hd : Descriptor.compile s type = .ok d) : Ensures (Over s) (readContent context steps d) G := by
  induction steps generalizing type d with
  | zero => exact Ensures.throw
  | succ steps ih =>
    have hc (type : TypeName) (d : Descriptor) (hd : Descriptor.compile s type = .ok d) := ih hd
    obtain ⟨name, shape⟩ := d
    obtain rfl : name = type := Descriptor.name_of_compile hd
    unfold readContent
    cases shape with
    | simple primitive => exact hleaf primitive
    | sequence properties subtypes isAbstract =>
      apply Ensures.ite
      · exact fun _ => Ensures.throw
      · intro hconcrete
        rw [Bool.not_eq_true] at hconcrete
        subst hconcrete
        apply Ensures.bind (holds_readProperties hG hc name properties)
        rintro fields ⟨hnames, hfields⟩
        exact Ensures.pure (hG.object hd hnames hfields)
    | choice variants =>
      obtain ⟨definition, hdef, rfl, -⟩ := Descriptor.variants_of_compile hd rfl
      have hbuild := hG.build _ (Schema.mem_of_describe? hdef)
      apply Ensures.bind (ensures_onCursor _)
      intro start _
      cases start with
      | none => exact Ensures.throw
      | some e => exact holds_readVariants hG hc name e.localName hbuild

/-- What holds of all leaves that are read holds of all that is read as a type. -/
theorem holds_read (hG : s.Assembles G) (context : Context)
    (hleaf : ∀ primitive, Ensures (Over s) (readPrimitive context primitive) G) (type : TypeName) :
    Ensures (Over s) (read context type) G := by
  apply Ensures.bind (ensures_descriptor type)
  intro d hd
  apply Ensures.bind Ensures.get
  intro st _
  exact holds_readContent hG context hleaf _ hd

/-- What holds of all leaves that are read holds of all elements. -/
theorem holds_readElement (hG : s.Assembles G) (context : Context)
    (hleaf : ∀ primitive, Ensures (Over s) (readPrimitive context primitive) G) (element : String)
    (type : TypeName) : Ensures (Over s) (readElement context element type) G := by
  apply Ensures.bind (ensures_descriptor type)
  intro d hd
  apply Ensures.bind (ensures_onCursor _)
  intro start _
  cases start with
  | none => exact Ensures.throw
  | some e =>
    apply Ensures.ite
    · intro _
      apply Ensures.bind Ensures.get
      intro st _
      exact holds_readWrapped hG (fun _ _ => holds_readContent hG context hleaf _) hd type true
    · exact fun _ => Ensures.throw

end Decoding
end SoapBinding
