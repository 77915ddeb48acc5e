import SoapBinding.Proofs.Codec.Emitted
import SoapBinding.Proofs.Codec.Leafwise
import SoapBinding.Proofs.Fields

/-!
# The names of fields

Setting a field replaces the one of its name, so an object that is built field by field has no name twice, and looking a name
up finds each of its fields. An object that has been read has the names of its type's properties, inherited ones included, and
compiling a type does not ask that these be different. So names are distinct as far as the types that are read from have
distinct names (`Schema.NamesFieldsOnce`):

    hasDistinctNames_of_obtained : Obtained among v → v.HasDistinctNames

Where a type extends another and declares a property of the same name once more, an object is read with two fields of that
name. The first hides the second, and is written in its place (`names_repeated`).
-/

namespace SoapBinding

open Outcome

namespace Value

/-! ### The objects in a value -/

mutual

/-- The objects in a value, itself included: the type and the fields of each. -/
def objects : Value → List (TypeName × Fields)
  | .list items => objectsOfItems items
  | .object type fields => (type, fields) :: objectsOfFields fields
  | .choice _ v => v.objects
  | _ => []

/-- The objects in items. -/
def objectsOfItems : List Value → List (TypeName × Fields)
  | [] => []
  | v :: items => v.objects ++ objectsOfItems items

/-- The objects in fields. -/
def objectsOfFields : List (String × Value) → List (TypeName × Fields)
  | [] => []
  | (_, v) :: fields => v.objects ++ objectsOfFields fields

end

/-- What holds of every object in a value. -/
def EachObject (Q : TypeName → Fields → Prop) (v : Value) : Prop := ∀ o ∈ v.objects, Q o.1 o.2

/-- No object in a value has two fields of one name. -/
def HasDistinctNames (v : Value) : Prop := v.EachObject fun _ fields => fields.names.Nodup

instance (v : Value) : Decidable v.HasDistinctNames :=
  inferInstanceAs (Decidable (∀ o ∈ v.objects, o.2.names.Nodup))

variable {Q : TypeName → Fields → Prop} {type : TypeName} {fields : Fields} {items : List Value} {tag : UInt32} {v : Value}

@[simp] theorem eachObject_list : (list items).EachObject Q ↔ ∀ v ∈ items, v.EachObject Q := by
  show (∀ o ∈ objectsOfItems items, Q o.1 o.2) ↔ _
  induction items with
  | nil => simp [objectsOfItems]
  | cons v items ih => rw [objectsOfItems, List.forall_mem_append, ih, List.forall_mem_cons]; rfl

@[simp] theorem eachObject_object :
    (object type fields).EachObject Q ↔ Q type fields ∧ ∀ f ∈ fields, f.2.EachObject Q := by
  have hfields : (∀ o ∈ objectsOfFields fields, Q o.1 o.2) ↔ ∀ f ∈ fields, f.2.EachObject Q := by
    induction fields with
    | nil => simp [objectsOfFields]
    | cons f fields ih => rw [objectsOfFields, List.forall_mem_append, ih, List.forall_mem_cons]; rfl
  rw [← hfields]
  exact List.forall_mem_cons

@[simp] theorem eachObject_choice : (choice tag v).EachObject Q ↔ v.EachObject Q := Iff.rfl

@[simp] theorem eachObject_null : null.EachObject Q := nofun

/-- There are no objects in a leaf. -/
theorem eachObject_of_holds {primitive : Primitive} (h : primitive.holds v = true) : v.EachObject Q := by
  cases v with
  | list | object | choice =>
    cases primitive with
    | text type => cases type <;> cases h
    | base64Binary => cases h
  | _ => exact nofun

end Value

/-! ### Reading -/

namespace Schema

variable {s : Schema} {Q : TypeName → Fields → Prop}

/-- What a variant builds from a value keeps to what holds of the objects in the value. -/
def Builds (s : Schema) (Q : TypeName → Fields → Prop) : Prop :=
  ∀ t ∈ s.types, ∀ v ∈ t.2.variants, ∀ inner : Value, inner.EachObject Q → (v.build inner).EachObject Q

/-- A choice has the objects of its value. -/
theorem HasPlainVariants.builds (h : s.HasPlainVariants) : s.Builds Q := by
  intro t ht v hv inner hinner
  rwa [Variant.build, h t ht v hv]

/-- The type has instances of its own, and the fields bear the names of its properties, in order. -/
def NamesFields (s : Schema) (type : TypeName) (fields : Fields) : Prop :=
  ∃ properties subtypes, Descriptor.compile s type = .ok ⟨type, .sequence properties subtypes false⟩ ∧
    fields.names = properties.map (·.name)

/-- No type has two properties of one name, among its own and those of its bases. -/
def NamesFieldsOnce (s : Schema) : Prop :=
  ∀ type d, Descriptor.compile s type = .ok d → (d.properties.map (·.name)).Nodup

/-- It is enough to look at the types that are described. -/
theorem namesFieldsOnce_of_all (h : s.types.all (fun t =>
    (Descriptor.compile s t.1).toOption.all fun d => decide (d.properties.map (·.name)).Nodup) = true) :
    s.NamesFieldsOnce := by
  intro type d hd
  rcases Descriptor.check_of_all h hd with ⟨primitive, hshape⟩ | hcheck
  · rw [Descriptor.properties, hshape]
    exact List.nodup_nil
  · exact of_decide_eq_true hcheck

theorem assembles_eachObject (hbuilds : s.Builds Q) (hQ : ∀ type fields, s.NamesFields type fields → Q type fields) :
    s.Assembles (Value.EachObject Q) where
  null := Value.eachObject_null
  list := Value.eachObject_list.2
  object hd hnames hfields := Value.eachObject_object.2 ⟨hQ _ _ ⟨_, _, hd, hnames⟩, hfields⟩
  build := hbuilds

end Schema

namespace Decoding

variable {s : Schema} {Q : TypeName → Fields → Prop}

section
variable (hbuilds : s.Builds Q) (hQ : ∀ type fields, s.NamesFields type fields → Q type fields)
include hbuilds hQ

/-- What holds of fields with the names of their type's properties holds of every object that is read. -/
theorem eachObject_read (context : Context) (type : TypeName) :
    Ensures (Over s) (read context type) (Value.EachObject Q) :=
  holds_read (s.assembles_eachObject hbuilds hQ) context
    (fun primitive => (ensures_readPrimitive context primitive).mono fun _ => Value.eachObject_of_holds) type

theorem eachObject_readElement (context : Context) (element : String) (type : TypeName) :
    Ensures (Over s) (readElement context element type) (Value.EachObject Q) :=
  holds_readElement (s.assembles_eachObject hbuilds hQ) context
    (fun primitive => (ensures_readPrimitive context primitive).mono fun _ => Value.eachObject_of_holds) element type

end

/-- **What is read as a sequence has the names of its properties**, so its names are distinct exactly when theirs are. -/
theorem names_of_read {context : Context} {type : TypeName} {properties : List Property} {subtypes : List TypeName}
    {st st' : Decoder} {v : Value} (hd : Descriptor.compile s type = .ok ⟨type, .sequence properties subtypes false⟩)
    (hover : st.registry.Over s) (hread : read context type st = .ok v st') :
    ∃ fields : Fields, v = .object type fields ∧ fields.names = properties.map (·.name) := by
  -- The names are those of the properties, whatever the values are.
  have hall : s.Assembles fun _ => True := ⟨trivial, fun _ => trivial, fun _ _ _ => trivial, fun _ _ _ _ _ => id⟩
  have hleaf (primitive : Primitive) : Ensures (Over s) (readPrimitive context primitive) fun _ => True :=
    (ensures_readPrimitive context primitive).mono fun _ _ => trivial
  have hshape (steps : Nat) : Ensures (Over s) (readContent context steps ⟨type, .sequence properties subtypes false⟩)
      fun v => ∃ fields : Fields, v = .object type fields ∧ fields.names = properties.map (·.name) := by
    cases steps with
    | zero => exact Ensures.throw
    | succ steps =>
      apply Ensures.bind (holds_readProperties hall (fun _ _ => holds_readContent hall context hleaf steps) type properties)
      rintro fields ⟨hnames, -⟩
      exact Ensures.pure ⟨fields, rfl, hnames⟩
  have hensures : Ensures (Over s) (read context type)
      fun v => ∃ fields : Fields, v = .object type fields ∧ fields.names = properties.map (·.name) := by
    apply Ensures.bind (ensures_descriptor type)
    intro d hd'
    obtain rfl := Except.ok.inj (hd.symm.trans hd')
    exact Ensures.bind Ensures.get fun st _ => hshape _
  exact (hensures st v st' hover hread).2

end Decoding

/-! ### Writing -/

namespace Encoding

variable {files : Files} {owner : TypeName} {fields : Fields}

/-- Where every field is seen under its name, each property is written with the field in its own place. -/
theorem writeProperties_eq_forM {properties : List Property} {row : Fields} (hnames : row.names = properties.map (·.name))
    (hseen : ∀ f ∈ row, fields.get? f.1 = some f.2) :
    writeProperties files owner fields properties =
      (properties.zip row).forM fun x => writeProperty files owner x.1 x.2.2 := by
  induction properties generalizing row with
  | nil => rw [writeProperties]; rfl
  | cons p rest ih =>
    cases row with
    | nil => cases hnames
    | cons f row =>
      obtain ⟨hname : f.1 = p.name, hrest⟩ := List.cons.inj hnames
      rw [List.forall_mem_cons] at hseen
      have hvalue : fields.valueOf p = f.2 := by rw [Fields.valueOf, ← hname, hseen.1, Option.getD_some]
      rw [writeProperties_cons, hvalue, ih hrest hseen.2]
      rfl

/-- The fields of an object belong to the properties of its type one by one, and writing it writes each property with its own
field. -/
def IsWrittenByField (s : Schema) (type : TypeName) (fields : Fields) : Prop :=
  ∃ properties subtypes, Descriptor.compile s type = .ok ⟨type, .sequence properties subtypes false⟩ ∧
    fields.names = properties.map (·.name) ∧
    ∀ files, writeContent files ⟨type, .sequence properties subtypes false⟩ (.object type fields) =
      (properties.zip fields).forM fun x => writeProperty files type x.1 x.2.2

theorem isWrittenByField {s : Schema} {type : TypeName} (hfields : s.NamesFields type fields)
    (hnodup : fields.names.Nodup) : IsWrittenByField s type fields := by
  obtain ⟨properties, subtypes, hd, hnames⟩ := hfields
  refine ⟨properties, subtypes, hd, hnames, fun files => ?_⟩
  rw [writeContent]
  exact writeProperties_eq_forM hnames fun f hf => Fields.get?_of_mem hnodup hf

end Encoding

/-! ### Whatever values there are -/

/-- The values that can be had where types of certain schemas are read: leaves, objects to which fields are set one by one,
lists and choices, what is read as some type, and the parts of all these. -/
inductive Obtained (among : Schema → Prop) : Value → Prop where
  | null : Obtained among .null
  | leaf {primitive : Primitive} {v : Value} : primitive.holds v = true → Obtained among v
  | list {items : List Value} : (∀ v ∈ items, Obtained among v) → Obtained among (.list items)
  | choice {tag : UInt32} {v : Value} : Obtained among v → Obtained among (.choice tag v)
  | new {type : TypeName} : Obtained among (.object type [])
  | set {type : TypeName} {fields : Fields} {name : String} {v : Value} : Obtained among (.object type fields) →
      Obtained among v → Obtained among (.object type (fields.set name v))
  | item {items : List Value} {v : Value} : Obtained among (.list items) → v ∈ items → Obtained among v
  | field {type : TypeName} {fields : Fields} {f : String × Value} : Obtained among (.object type fields) → f ∈ fields →
      Obtained among f.2
  | inner {tag : UInt32} {v : Value} : Obtained among (.choice tag v) → Obtained among v
  | read {s : Schema} {context : Context} {type : TypeName} {st st' : Decoder} {v : Value} : among s →
      st.registry.Over s → Decoding.read context type st = .ok v st' → Obtained among v
  | readElement {s : Schema} {context : Context} {element : String} {type : TypeName} {st st' : Decoder} {v : Value} :
      among s → st.registry.Over s → Decoding.readElement context element type st = .ok v st' → Obtained among v

section
variable {among : Schema → Prop}

/-- **Names are distinct in every value there is**, where they are in the types that are read. -/
theorem hasDistinctNames_of_obtained (honce : ∀ s, among s → s.NamesFieldsOnce)
    (hbuilds : ∀ s, among s → s.Builds fun _ fields => fields.names.Nodup) {v : Value} (h : Obtained among v) :
    v.HasDistinctNames := by
  have hnamed {s : Schema} (hs : among s) (type : TypeName) (fields : Fields) (hfields : s.NamesFields type fields) :
      fields.names.Nodup := by
    obtain ⟨properties, subtypes, hd, hnames⟩ := hfields
    exact hnames ▸ honce s hs type _ hd
  induction h with
  | null => exact Value.eachObject_null
  | leaf hholds => exact Value.eachObject_of_holds hholds
  | list _ ih => exact Value.eachObject_list.2 ih
  | choice _ ih => exact ih
  | new => exact Value.eachObject_object.2 ⟨List.nodup_nil, nofun⟩
  | set _ _ ihobject ihvalue =>
    -- The field takes the place of the one of its name.
    obtain ⟨hnodup, hfields⟩ := Value.eachObject_object.1 ihobject
    refine Value.eachObject_object.2 ⟨Fields.nodup_names_set hnodup _ _, fun f hf => ?_⟩
    rcases Fields.mem_set hf with rfl | hmem
    · exact ihvalue
    · exact hfields f hmem
  | item _ hmem ih => exact Value.eachObject_list.1 ih _ hmem
  | field _ hmem ih => exact (Value.eachObject_object.1 ih).2 _ hmem
  | inner _ ih => exact ih
  | read hs hover hread => exact (Decoding.eachObject_read (hbuilds _ hs) (hnamed hs) _ _ _ _ _ hover hread).2
  | readElement hs hover hread =>
    exact (Decoding.eachObject_readElement (hbuilds _ hs) (hnamed hs) _ _ _ _ _ _ hover hread).2

/-- **Every field is seen and written**, where the types that are read have distinct names. Names are distinct in every value
there is; looking up a name of an object there is finds each of its fields; and each object that has been read is written with
each field in its own place. -/
theorem field_names_distinct (honce : ∀ s, among s → s.NamesFieldsOnce)
    (hbuilds : ∀ s, among s → s.Builds fun _ fields => fields.names.Nodup) :
    (∀ v, Obtained among v → v.HasDistinctNames) ∧
    (∀ type fields, Obtained among (.object type fields) →
      ∀ name v, Fields.get? name fields = some v ↔ (name, v) ∈ fields) ∧
    ∀ (s : Schema) (context : Context) (type : TypeName) (st st' : Decoder) (v : Value), among s → s.Builds s.NamesFields →
      st.registry.Over s → (Decoding.read context type st = .ok v st' ∨
        ∃ element, Decoding.readElement context element type st = .ok v st') → v.EachObject (Encoding.IsWrittenByField s) := by
  have hdistinct {v : Value} := @hasDistinctNames_of_obtained among honce hbuilds v
  refine ⟨fun v => hdistinct, ?_, ?_⟩
  · intro type fields h name v
    exact Fields.get?_eq_some_iff (Value.eachObject_object.1 (hdistinct h)).1
  · intro s context type st st' v hs hnamed hover hread o ho
    -- Distinct names are known of all values, and those of the type's properties of what is read only.
    have hobtained : Obtained among v ∧ v.EachObject s.NamesFields := by
      rcases hread with hread | ⟨element, hread⟩
      · exact ⟨.read hs hover hread,
          (Decoding.eachObject_read hnamed (fun _ _ => id) context type st v st' hover hread).2⟩
      · exact ⟨.readElement hs hover hread,
          (Decoding.eachObject_readElement hnamed (fun _ _ => id) context element type st v st' hover hread).2⟩
    exact Encoding.isWrittenByField (hobtained.2 o ho) (hdistinct hobtained.1 o ho)

end

/-! ### A name declared twice -/

/-- A property of a number. -/
def numberProperty (name : String) : Property := ⟨name, .xsd "int", false, false, false, false⟩

/-- A type with one property of a number, and a type that extends it with another of a given name. -/
def extendedSchema (name : String) : Schema := ⟨[
  (⟨"", "Base"⟩, ⟨.sequence, none, false, [numberProperty "A"], [], []⟩),
  (⟨"", "Extended"⟩, ⟨.sequence, some ⟨"", "Base"⟩, false, [numberProperty name], [], []⟩)]⟩

/-- The decoder of a document over these types. -/
def extendedDecoder (name document : String) : Decoder :=
  ⟨.ofSchema (extendedSchema name), .ofSource (.ofBytes (Utf8.ofString document)), .fresh⟩

theorem extendedSchema_hasPlainVariants (name : String) : (extendedSchema name).HasPlainVariants := by
  simp [Schema.HasPlainVariants, extendedSchema]

/-- With a name of its own, the property is a field of its own. -/
theorem field_names_distinct_extended :
    ∃ (fields : Fields) (st' : Decoder),
      Decoding.readElement .inline "x" ⟨"", "Extended"⟩ (extendedDecoder "B" "<x><A>1</A><B>2</B></x>") =
        .ok (.object ⟨"", "Extended"⟩ fields) st' ∧ fields.names = ["A", "B"] ∧
      (∀ name v, fields.get? name = some v ↔ (name, v) ∈ fields) ∧
      Encoding.IsWrittenByField (extendedSchema "B") ⟨"", "Extended"⟩ fields := by
  have hread : okWith (fun v _ => v.object?.any fun o => o.1 == ⟨"", "Extended"⟩ && Fields.names o.2 == ["A", "B"])
      (Decoding.readElement .inline "x" ⟨"", "Extended"⟩ (extendedDecoder "B" "<x><A>1</A><B>2</B></x>")) = true := by
    decide +kernel
  obtain ⟨v, st', hok, hv⟩ := exists_of_okWith hread
  have hplain := extendedSchema_hasPlainVariants "B"
  have hover : (extendedDecoder "B" "<x><A>1</A><B>2</B></x>").registry.Over (extendedSchema "B") := Registry.over_ofSchema _
  obtain ⟨-, hseen, hwritten⟩ := @field_names_distinct (· = extendedSchema "B")
    (by rintro s rfl; exact Schema.namesFieldsOnce_of_all (by decide +kernel)) (by rintro s rfl; exact hplain.builds)
  cases v with
  | object type fields =>
    simp only [Value.object?, Option.any_some, Bool.and_eq_true, beq_iff_eq] at hv
    obtain ⟨rfl, hnames⟩ := hv
    exact ⟨fields, st', hok, hnames, hseen _ _ (.readElement rfl hover hok),
      (Value.eachObject_object.1 (hwritten _ _ _ _ _ _ rfl hplain.builds hover (.inr ⟨_, hok⟩))).1⟩
  | _ => cases hv

/-- A value that is the same as a number is that number. -/
theorem Value.eq_int_of_same {v : Value} {i : Int32} (h : v.same (.int i) = true) : v = .int i := by
  cases v with
  | int j => simpa [Value.same] using h
  | _ => simp [Value.same] at h

/-- An object with two fields of one name. -/
def repeatedValue : Value := .object ⟨"", "Extended"⟩ [("A", .int 1), ("A", .int 2)]

theorem eq_repeatedValue {v : Value} (h : v.same repeatedValue = true) : v = repeatedValue := by
  unfold repeatedValue at h ⊢
  cases v with
  | object type fields =>
    rcases fields with _ | ⟨⟨m, a⟩, _ | ⟨⟨n, b⟩, _ | ⟨f, rest⟩⟩⟩ <;> simp [Value.same, Value.sameFields] at h
    obtain ⟨rfl, ⟨rfl, ha⟩, rfl, hb⟩ := h
    rw [Value.eq_int_of_same ha, Value.eq_int_of_same hb]
  | _ => simp [Value.same] at h

/-- With the name of the inherited property, the object has two fields of that name, and the first is written twice. -/
theorem names_repeated :
    (∃ st', Decoding.readElement .inline "x" ⟨"", "Extended"⟩ (extendedDecoder "A" "<x><A>1</A><A>2</A></x>") =
        .ok repeatedValue st') ∧
      ¬repeatedValue.HasDistinctNames ∧
      ∃ e', Encoding.writeElement .none "x" ⟨"", "Extended"⟩ repeatedValue
          ⟨.ofSchema (extendedSchema "A"), .inline, .empty none⟩ = .ok () e' ∧
        e'.sink.finish = .ok "<x><A>1</A><A>1</A></x>" := by
  have hread : okWith (fun v _ => v.same repeatedValue)
      (Decoding.readElement .inline "x" ⟨"", "Extended"⟩ (extendedDecoder "A" "<x><A>1</A><A>2</A></x>")) = true := by
    decide +kernel
  have hextended := @Descriptor.compile_of_isSequence (extendedSchema "A") ⟨"", "Extended"⟩
    [numberProperty "A", numberProperty "A"] [] false (by decide +kernel)
  have hnumber : Encoding.Emits (extendedSchema "A")
      (Encoding.writeProperty .none ⟨"", "Extended"⟩ (numberProperty "A") (.int 1))
      (some (Xml.elementText ⟨"A", []⟩ (some (Xml.escape "1")))) :=
    .single rfl rfl rfl rfl (.wrapped rfl rfl (.leaf rfl rfl))
  -- Both properties are written with the value that stands first under their name.
  have hfields : Encoding.Emits (extendedSchema "A") (Encoding.writeProperties .none ⟨"", "Extended"⟩
      [("A", .int 1), ("A", .int 2)] [numberProperty "A", numberProperty "A"]) _ :=
    .properties_cons hnumber (.properties_cons hnumber .properties_nil)
  have hcontent : Encoding.Emits (extendedSchema "A") (Encoding.writeContent .none
      ⟨⟨"", "Extended"⟩, .sequence [numberProperty "A", numberProperty "A"] [] false⟩ repeatedValue) _ :=
    .object rfl hfields
  refine ⟨?_, by decide, ?_⟩
  · obtain ⟨v, st', hok, hv⟩ := exists_of_okWith hread
    exact ⟨st', eq_repeatedValue hv ▸ hok⟩
  · obtain ⟨e', hwrite, hfinish⟩ := Encoding.Emits.document hextended (.wrapped rfl rfl hcontent)
      (Encoder.isReady_inline (extendedSchema "A") none) rfl
    refine ⟨e', hwrite, hfinish.trans ?_⟩
    decide +kernel

end SoapBinding
