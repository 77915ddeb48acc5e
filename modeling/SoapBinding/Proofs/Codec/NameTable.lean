import SoapBinding.Proofs.Codec.Conveyable

/-!
# Telling types by tables of names

Which elements begin a value, and which are taken for a part of it, are questions about all names. A table that sets
down some names for each type answers them if the names follow from each other (`NameTable.IsClosed`): what the types of
the first property or of a variant set down, a type sets down as well. Everything that can begin or continue a value
is then in the table, however it comes to do so, and comparing the names in the table tells whether types can be told:

    Schema.Tells.of_table : … (s.types.all fun t => (compile s t.1).toOption.all (table.tells s)) = true → s.Tells root
-/

namespace SoapBinding

/-- Names set down for types: of the elements that begin a value, and of those behind a value that are taken for
a part of it. -/
structure NameTable where
  begins : TypeName → List String
  continues : TypeName → List String

/-- Whether the values of a property are choices. -/
def Property.isChoice (s : Schema) (p : Property) : Bool := (Descriptor.compile s p.type).toOption.any (·.isChoice)

/-- Whether the values of a property stand in no element of the property's name. -/
def Property.isBare (s : Schema) (p : Property) : Bool := p.isChoice s || p.content

namespace NameTable

variable (table : NameTable) (s : Schema)

def beginsProperty (p : Property) : List String := p.name :: if p.isBare s then table.begins p.type else []

def beginsVariant (v : Variant) : List String :=
  match v.dispatch with
  | .element name => [name]
  | .inline => table.begins v.type

def beginsType (d : Descriptor) : List String :=
  match d.shape with
  | .simple _ | .sequence [] _ _ => []
  | .sequence (p :: _) _ _ => table.beginsProperty s p
  | .choice variants => variants.flatMap table.beginsVariant

def continuesProperty (p : Property) : List String :=
  (if p.isOmissible then table.beginsProperty s p else []) ++ if p.isChoice s then table.continues p.type else []

/-- What continues the last properties: one with nothing written behind it. -/
def continuesProperties : List Property → List String
  | [] => []
  | p :: behind =>
    (if behind.all (·.isOmissible) then table.continuesProperty s p else []) ++ continuesProperties behind

def continuesType (d : Descriptor) : List String :=
  match d.shape with
  | .simple _ => []
  | .sequence properties _ _ => table.continuesProperties s properties
  | .choice variants => variants.flatMap fun v => if v.dispatch = .inline then table.continues v.type else []

/-- What follows for a type from the names of others is set down for it. -/
structure IsClosed : Prop where
  begins : ∀ type d, Descriptor.compile s type = .ok d → table.beginsType s d ⊆ table.begins type
  continues : ∀ type d, Descriptor.compile s type = .ok d → table.continuesType s d ⊆ table.continues type

variable {table : NameTable} {s : Schema} {name : String}

theorem isChoice_eq {p : Property} {d : Descriptor} (hd : Descriptor.compile s p.type = .ok d) : p.isChoice s = d.isChoice := by
  rw [Property.isChoice, hd]
  rfl

/-! ### Closed tables hold all names -/

mutual

theorem mem_beginsProperty {p : Property} (h : table.IsClosed s) :
    s.PropertyBegins name p → name ∈ table.beginsProperty s p
  | .named heq => heq ▸ List.mem_cons_self
  | .nested hd hbare hbegins => by
    rw [beginsProperty, Property.isBare, isChoice_eq hd, if_pos hbare]
    exact List.mem_cons_of_mem _ (h.begins _ _ hd (mem_beginsType h hbegins))

theorem mem_beginsVariant {v : Variant} (h : table.IsClosed s) :
    s.VariantBegins name v → name ∈ table.beginsVariant v
  | .element hdispatch => by
    rw [beginsVariant, hdispatch]
    exact List.mem_singleton_self name
  | .inline hinline hd hbegins => by
    rw [beginsVariant, hinline]
    exact h.begins _ _ hd (mem_beginsType h hbegins)

theorem mem_beginsType {d : Descriptor} (h : table.IsClosed s) :
    s.TypeBegins name d → name ∈ table.beginsType s d
  | .first hbegins => mem_beginsProperty h hbegins
  | .variant hv hbegins => List.mem_flatMap.2 ⟨_, hv, mem_beginsVariant h hbegins⟩

end

theorem mem_continuesProperties {p : Property} {front behind : List Property} (hname : name ∈ table.continuesProperty s p)
    (homissible : ∀ q ∈ behind, q.isOmissible = true) :
    name ∈ table.continuesProperties s (front ++ p :: behind) := by
  induction front with
  | nil =>
    rw [List.nil_append, continuesProperties, if_pos (List.all_eq_true.2 homissible)]
    exact List.mem_append_left _ hname
  | cons q front ih =>
    rw [List.cons_append, continuesProperties]
    exact List.mem_append_right _ ih

mutual

theorem mem_continuesProperty {p : Property} (h : table.IsClosed s) :
    s.PropertyContinues name p → name ∈ table.continuesProperty s p
  | .omitted homissible hbegins => by
    rw [continuesProperty, if_pos homissible]
    exact List.mem_append_left _ (mem_beginsProperty h hbegins)
  | .nested hd hchoice hcontinues => by
    rw [continuesProperty, isChoice_eq hd, if_pos hchoice]
    exact List.mem_append_right _ (h.continues _ _ hd (mem_continuesType h hcontinues))

theorem mem_continuesType {d : Descriptor} (h : table.IsClosed s) :
    s.TypeContinues name d → name ∈ table.continuesType s d
  | .last hcontinues homissible => mem_continuesProperties (mem_continuesProperty h hcontinues) homissible
  | .variant hv hinline hd hcontinues => by
    refine List.mem_flatMap.2 ⟨_, hv, ?_⟩
    rw [if_pos hinline]
    exact h.continues _ _ hd (mem_continuesType h hcontinues)

end

end NameTable

/-! ### Types told by a table -/

/-- Whether a variant is tellable, which takes no table. -/
def Variant.isTellable (s : Schema) (v : Variant) : Bool :=
  v.construct.isNone &&
    match v.dispatch with
    | .element name => decide (Xml.IsName name)
    | .inline => (Descriptor.compile s v.type).toOption.all (·.leadsAlways)

/-- A type whose parts compile, whose names are in the table and are told apart there. -/
structure Descriptor.IsTold (s : Schema) (table : NameTable) (d : Descriptor) : Prop where
  begins : table.beginsType s d ⊆ table.begins d.name
  continues : table.continuesType s d ⊆ table.continues d.name
  parts : ∀ part ∈ d.parts, (Descriptor.compile s part).toOption.isSome = true
  properties : ∀ p ∈ d.properties, p.content = false ∧ Xml.IsName p.name
  names : (d.properties.map (·.name)).Nodup
  apart : d.properties.Pairwise fun p q => ∀ name ∈ table.beginsProperty s q, name ∉ table.continuesProperty s p
  items : ∀ p ∈ d.properties, p.repeated = true → p.isChoice s = true →
    ∀ name ∈ table.beginsProperty s p, name ∉ table.continues p.type
  variants : ∀ v ∈ d.variants, v.isTellable s = true
  distinct : d.variants.Pairwise fun v w => ∀ name ∈ table.beginsVariant w, name ∉ table.beginsVariant v
  subtypes : ∀ u ∈ d.subtypes, Xml.IsMarkable u

variable {s : Schema} {table : NameTable} {root type : TypeName} {d : Descriptor}

instance (s : Schema) (table : NameTable) (d : Descriptor) : Decidable (d.IsTold s table) :=
  decidable_of_iff (table.beginsType s d ⊆ table.begins d.name ∧ table.continuesType s d ⊆ table.continues d.name ∧
      (∀ part ∈ d.parts, (Descriptor.compile s part).toOption.isSome = true) ∧
      (∀ p ∈ d.properties, p.content = false ∧ Xml.IsName p.name) ∧ (d.properties.map (·.name)).Nodup ∧
      (d.properties.Pairwise fun p q => ∀ name ∈ table.beginsProperty s q, name ∉ table.continuesProperty s p) ∧
      (∀ p ∈ d.properties, p.repeated = true → p.isChoice s = true →
        ∀ name ∈ table.beginsProperty s p, name ∉ table.continues p.type) ∧
      (∀ v ∈ d.variants, v.isTellable s = true) ∧
      (d.variants.Pairwise fun v w => ∀ name ∈ table.beginsVariant w, name ∉ table.beginsVariant v) ∧
      ∀ u ∈ d.subtypes, Xml.IsMarkable u)
    ⟨fun ⟨hb, hc, hp, hq, hn, ha, hi, hv, hd, hu⟩ => ⟨hb, hc, hp, hq, hn, ha, hi, hv, hd, hu⟩,
      fun ⟨hb, hc, hp, hq, hn, ha, hi, hv, hd, hu⟩ => ⟨hb, hc, hp, hq, hn, ha, hi, hv, hd, hu⟩⟩

theorem Variant.isTellable_of {v : Variant} (h : v.isTellable s = true) : v.IsTellable s := by
  rw [isTellable, Bool.and_eq_true] at h
  refine ⟨Option.isNone_iff_eq_none.1 h.1, fun name hdispatch => ?_, fun d hinline hd => ?_⟩
  · simpa [hdispatch] using h.2
  · simpa [hinline, hd, Except.toOption] using h.2

/-- Simple types are told by every table. -/
theorem Descriptor.isTold_of_simple {primitive : Primitive} (h : d.shape = .simple primitive) : d.IsTold s table := by
  obtain ⟨name, shape⟩ := d
  obtain rfl : shape = .simple primitive := h
  exact ⟨List.nil_subset _, List.nil_subset _, nofun, nofun, .nil, .nil, nofun, nofun, .nil, nofun⟩

/-- Where the table holds all names, a type that is told by it is tellable. -/
theorem Descriptor.IsTold.isTellable (h : d.IsTold s table) (hclosed : table.IsClosed s) : d.IsTellable s where
  not_content p hp := (h.properties p hp).1
  isName p hp _ _ _ := (h.properties p hp).2
  names := h.names
  apart := h.apart.imp fun happart name hbegins hcontinues =>
    happart name (NameTable.mem_beginsProperty hclosed hbegins) (NameTable.mem_continuesProperty hclosed hcontinues)
  items p hp hrepeated nested hnested hchoice name hbegins hcontinues := by
    refine h.items p hp hrepeated ((NameTable.isChoice_eq hnested).trans hchoice) name
      (NameTable.mem_beginsProperty hclosed hbegins) ?_
    exact hclosed.continues _ _ hnested (NameTable.mem_continuesType hclosed hcontinues)
  variants v hv := Variant.isTellable_of (h.variants v hv)
  distinct := h.distinct.imp fun hdistinct name hbegins hbegins' =>
    hdistinct name (NameTable.mem_beginsVariant hclosed hbegins) (NameTable.mem_beginsVariant hclosed hbegins')
  subtypes := h.subtypes

/-- Whether a table tells every type that a schema describes. -/
def NameTable.tells (table : NameTable) (s : Schema) : Bool :=
  s.types.all fun t => (Descriptor.compile s t.1).toOption.all fun d => decide (d.IsTold s table)

theorem NameTable.isTold_of_tells (h : table.tells s = true) (hd : Descriptor.compile s type = .ok d) :
    d.IsTold s table :=
  (Descriptor.check_of_all h hd).elim (fun ⟨_, hshape⟩ => Descriptor.isTold_of_simple hshape) of_decide_eq_true

theorem NameTable.isClosed_of_tells (h : table.tells s = true) : table.IsClosed s :=
  ⟨fun _ _ hd => Descriptor.name_of_compile hd ▸ (isTold_of_tells h hd).begins,
    fun _ _ hd => Descriptor.name_of_compile hd ▸ (isTold_of_tells h hd).continues⟩

/-- Where the table holds no property's own name for its choice, all nil marks can be told. -/
theorem NameTable.tellsNils (htells : table.tells s = true)
    (hown : s.types.all (fun t => (Descriptor.compile s t.1).toOption.all fun d =>
      d.properties.all fun p => !p.isChoice s || decide (p.name ∉ table.begins p.type)) = true)
    (hd : Descriptor.compile s type = .ok d) (v : Value) : s.TellsNils d v := by
  obtain rfl := Descriptor.name_of_compile hd
  refine Schema.tellsNils_of_own_names hd (fun type d' p nested _ hd' hp hnested hchoice hbegins => ?_) v
  rcases Descriptor.check_of_all hown hd' with ⟨primitive, hshape⟩ | hcheck
  · rw [Descriptor.properties, hshape] at hp
    cases hp
  · have hp' := List.all_eq_true.1 hcheck p hp
    rw [isChoice_eq hnested, hchoice, Bool.not_true, Bool.false_or, decide_eq_true_eq] at hp'
    have hclosed := isClosed_of_tells htells
    exact hp' (hclosed.begins _ _ hnested (mem_beginsType hclosed hbegins))

end SoapBinding
