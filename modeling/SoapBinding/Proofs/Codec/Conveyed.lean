import SoapBinding.Proofs.DateTime.Text
import SoapBinding.Value

/-!
# Values that have been conveyed

What a reader makes of a value that has been written for it. It is the value itself, but for two things
that a document does not tell: which NaN a double is, and under which id and where an inline payload is
kept. Payloads that travel as attachments keep both.
-/

namespace SoapBinding.Value

mutual

/-- A value with what becomes of it on the way. -/
inductive ConveyedAs (files : Files) (attached : Bool) : Value → Value → Prop where
  | same {v : Value} : ConveyedAs files attached v v
  | nan {d d' : Double} : d.isNaN = true → d'.isNaN = true →
      ConveyedAs files attached (.double d) (.double d')
  | payload {b : Binary} {bytes : Bytes} {id : String} : attached = false →
      b.bytes? files = some bytes →
      ConveyedAs files attached (.binary b) (.binary (.ofBytes id bytes))
  | list {items items' : List Value} : ItemsConveyedAs files attached items items' →
      ConveyedAs files attached (.list items) (.list items')
  | object {type : TypeName} {fields fields' : Fields} :
      FieldsConveyedAs files attached fields fields' →
      ConveyedAs files attached (.object type fields) (.object type fields')
  | choice {tag : UInt32} {v v' : Value} : ConveyedAs files attached v v' →
      ConveyedAs files attached (.choice tag v) (.choice tag v')

/-- Items, one by one. -/
inductive ItemsConveyedAs (files : Files) (attached : Bool) : List Value → List Value → Prop where
  | nil : ItemsConveyedAs files attached [] []
  | cons {v v' : Value} {items items' : List Value} : ConveyedAs files attached v v' →
      ItemsConveyedAs files attached items items' →
      ItemsConveyedAs files attached (v :: items) (v' :: items')

/-- Fields, one by one and under the same names. -/
inductive FieldsConveyedAs (files : Files) (attached : Bool) : Fields → Fields → Prop where
  | nil : FieldsConveyedAs files attached [] []
  | cons {name : String} {v v' : Value} {fields fields' : Fields} :
      ConveyedAs files attached v v' → FieldsConveyedAs files attached fields fields' →
      FieldsConveyedAs files attached ((name, v) :: fields) ((name, v') :: fields')

end

section
variable {files : Files} {attached : Bool} {name : String} {v w : Value}

/-- A field arrives under its name. -/
theorem FieldsConveyedAs.get? {fields fields' : Fields} (h : FieldsConveyedAs files attached fields fields')
    (hget : fields.get? name = some v) :
    ∃ v', fields'.get? name = some v' ∧ v.ConveyedAs files attached v' := by
  induction fields generalizing fields' with
  | nil => cases hget
  | cons f fields ih =>
    cases h with
    | @cons key w w' _ fields' hfield hfields =>
      rw [Fields.get?] at hget
      rw [Fields.get?]
      by_cases heq : key = name
      · rw [if_pos heq] at hget ⊢
        cases hget
        exact ⟨w', rfl, hfield⟩
      · rw [if_neg heq] at hget ⊢
        exact ih hfields hget

theorem ItemsConveyedAs.refl (items : List Value) : ItemsConveyedAs files attached items items := by
  induction items with
  | nil => exact .nil
  | cons v items ih => exact .cons .same ih

/-- A list arrives as one, item by item. -/
theorem ConveyedAs.items {items : List Value} (h : (Value.list items).ConveyedAs files attached w) :
    ∃ items', w = .list items' ∧ ItemsConveyedAs files attached items items' := by
  cases h with
  | same => exact ⟨items, rfl, .refl items⟩
  | list hitems => exact ⟨_, rfl, hitems⟩

theorem ItemsConveyedAs.length_eq {items items' : List Value} (h : ItemsConveyedAs files attached items items') :
    items'.length = items.length := by
  induction items generalizing items' with
  | nil =>
    cases h
    rfl
  | cons v items ih =>
    cases h with
    | cons _ hitems => rw [List.length_cons, List.length_cons, ih hitems]

end

mutual

/-- The dateTimes in a value. -/
def instants : Value → List DateTime
  | .dateTime t => [t]
  | .list items => instantsOfItems items
  | .object _ fields => instantsOfFields fields
  | .choice _ v => v.instants
  | _ => []

/-- The dateTimes in items. -/
def instantsOfItems : List Value → List DateTime
  | [] => []
  | v :: items => v.instants ++ instantsOfItems items

/-- The dateTimes in fields. -/
def instantsOfFields : List (String × Value) → List DateTime
  | [] => []
  | (_, v) :: fields => v.instants ++ instantsOfFields fields

end

/-- Whether every dateTime in a value is one that its text stands for. -/
def HasWritableInstants (v : Value) : Prop := ∀ t ∈ v.instants, t.IsWritable

instance (v : Value) : Decidable v.HasWritableInstants :=
  inferInstanceAs (Decidable (∀ t ∈ v.instants, t.IsWritable))

theorem HasWritableInstants.item {items : List Value} {v : Value}
    (h : (Value.list items).HasWritableInstants) (hv : v ∈ items) : v.HasWritableInstants := by
  intro t ht
  refine h t ?_
  show t ∈ instantsOfItems items
  clear h
  induction items with
  | nil => cases hv
  | cons w items ih =>
    rw [instantsOfItems, List.mem_append]
    rcases List.mem_cons.1 hv with rfl | hmem
    · exact .inl ht
    · exact .inr (ih hmem)

theorem HasWritableInstants.field {type : TypeName} {fields : Fields} {f : String × Value}
    (h : (Value.object type fields).HasWritableInstants) (hf : f ∈ fields) :
    f.2.HasWritableInstants := by
  intro t ht
  refine h t ?_
  show t ∈ instantsOfFields fields
  clear h
  induction fields with
  | nil => cases hf
  | cons g fields ih =>
    obtain ⟨name, v⟩ := g
    rw [instantsOfFields, List.mem_append]
    rcases List.mem_cons.1 hf with rfl | hmem
    · exact .inl ht
    · exact .inr (ih hmem)

/-- The dateTimes in a choice are those of its value. -/
theorem HasWritableInstants.choice {tag : UInt32} {v : Value}
    (h : (Value.choice tag v).HasWritableInstants) : v.HasWritableInstants :=
  h

/-! ### Leaves -/

mutual

/-- The leaves of a value: what is neither a list nor an object nor a choice. -/
def leaves : Value → List Value
  | .list items => leavesOfItems items
  | .object _ fields => leavesOfFields fields
  | .choice _ v => v.leaves
  | v => [v]

/-- The leaves of items. -/
def leavesOfItems : List Value → List Value
  | [] => []
  | v :: items => v.leaves ++ leavesOfItems items

/-- The leaves of fields. -/
def leavesOfFields : List (String × Value) → List Value
  | [] => []
  | (_, v) :: fields => v.leaves ++ leavesOfFields fields

end

variable {leaf : Value}

theorem mem_leaves_list {items : List Value} : leaf ∈ (Value.list items).leaves ↔ ∃ v ∈ items, leaf ∈ v.leaves := by
  show leaf ∈ leavesOfItems items ↔ _
  induction items with
  | nil => simp [leavesOfItems]
  | cons v items ih => simp [leavesOfItems, ih]

theorem mem_leaves_object {type : TypeName} {fields : Fields} :
    leaf ∈ (Value.object type fields).leaves ↔ ∃ f ∈ fields, leaf ∈ f.2.leaves := by
  show leaf ∈ leavesOfFields fields ↔ _
  induction fields with
  | nil => simp [leavesOfFields]
  | cons f fields ih =>
    obtain ⟨name, v⟩ := f
    simp [leavesOfFields, ih]

mutual

/-- The dateTimes in a value are those among its leaves. -/
theorem mem_leaves_of_instants {t : DateTime} : ∀ v : Value, t ∈ v.instants → .dateTime t ∈ v.leaves
  | .dateTime u, h => by rw [List.mem_singleton.1 h]; exact List.mem_singleton_self _
  | .list items, h => mem_leaves_of_items items h
  | .object _ fields, h => mem_leaves_of_fields fields h
  | .choice _ v, h => mem_leaves_of_instants v h
  | .null, h | .boolean _, h | .int _, h | .long _, h | .double _, h | .decimal _, h | .string _, h | .binary _, h =>
    nomatch h

theorem mem_leaves_of_items {t : DateTime} : ∀ items, t ∈ instantsOfItems items → .dateTime t ∈ leavesOfItems items
  | [], h => nomatch h
  | v :: items, h =>
    List.mem_append.2 ((List.mem_append.1 h).imp (mem_leaves_of_instants v) (mem_leaves_of_items items))

theorem mem_leaves_of_fields {t : DateTime} :
    ∀ fields, t ∈ instantsOfFields fields → .dateTime t ∈ leavesOfFields fields
  | [], h => nomatch h
  | (_, v) :: fields, h =>
    List.mem_append.2 ((List.mem_append.1 h).imp (mem_leaves_of_instants v) (mem_leaves_of_fields fields))

end

/-- Whether the bytes of every payload in a value are at hand. -/
def HasReadablePayloads (files : Files) (v : Value) : Prop :=
  ∀ b, .binary b ∈ v.leaves → ∃ bytes, b.bytes? files = some bytes

end SoapBinding.Value
