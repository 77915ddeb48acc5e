import SoapBinding.Proofs.Codec.Elements

/-!
# Fields read back

The fields of an object are written property by property, and read in the same order. Where a property
may be absent or repeated, the reader decides by the element that comes next, so what is written behind a
field matters to it: that must begin with an element that does not continue the field, or end the element around
(`GoesOnWithout`). The properties of a tellable type are far enough apart for that, whatever of them is left out.
-/

namespace SoapBinding.Encoding

open Outcome Typing
open Decoding (Delivers Starts GoesOnWithout)
open Xml (Element Node Ending IsName)

variable {P : Passage} {owner : TypeName} {p : Property} {v : Value} {nested : Descriptor} {e e' : Encoder}
  {body : Option String} {nodes : List Node}

/-! ### Single values -/

/-- A value that may stand as a single value of a property, if it stands there at all. -/
structure Fits (P : Passage) (p : Property) (nested : Descriptor) (v : Value) : Prop where
  returns : Returns P v
  typed : P.sound → v ≠ .null → SingleOf P.schema p v ∧ v.HasWritableInstants
  admits : v ≠ .null → P.schema.Admits (P.schema.writtenAs nested v) v
  /-- The reader does not take what begins the value for a nil mark of the property. -/
  unmarked : nested.isChoice = true → ¬P.schema.TypeBeginsNil p.name nested v

/-- The element that a property's value begins with. -/
def StartsSingle (P : Passage) (p : Property) (v : Value) : List Node → Prop :=
  Starts fun element => P.schema.PropertyBegins element.localName p ∧
    (element.isNil = true → P.schema.PropertyBeginsNil element.localName p v)

theorem StartsSingle.begins (h : StartsSingle P p v nodes) :
    Starts (fun element => P.schema.PropertyBegins element.localName p) nodes :=
  Starts.mono h fun _ hstart => hstart.1

/-- How a single value of a property has been written. -/
structure SingleWritten (P : Passage) (p : Property) (nested : Descriptor) (v : Value) (e e' : Encoder)
    (body : Option String) (nodes : List Node) : Prop where
  adds : Adds P.schema e e' body nodes
  starts : StartsSingle P p v nodes
  reads : ∀ (later : Context) (steps : Nat) (owner : TypeName) (ending : Ending) (opened : List Element)
    (tail : List Node), P.Knows later e'.context → sizeOf v ≤ steps →
    (nested.isChoice = true → GoesOnWithout (P.schema.TypeContinues · nested) tail) →
    P.Delivers (Decoding.readSingle (Decoding.readContent later steps) owner p nested)
      ⟨nodes ++ tail, ending, opened⟩ ⟨tail, ending, opened⟩ (P.Conveys v)

/-- An element of the property's name is a single value of it. -/
theorem ElementWritten.single {element : Element} {inside : List Node}
    (h : ElementWritten P p.name nested v e e' body element inside) (hcontent : p.content = false)
    (hkind : nested.isChoice = false ∨ v.isNull = true) (hnilable : v.isNull = true → p.nilable = true) :
    SingleWritten P p nested v e e' body (.start element :: inside ++ [.finish]) := by
  refine ⟨h.adds, ⟨element, inside ++ [.finish], rfl, .named h.localName, ?_⟩, ?_⟩
  · intro hnil
    rw [h.isNil] at hnil
    obtain rfl : v = .null := by cases v <;> first | rfl | cases hnil
    exact .null h.localName
  · intro later steps owner ending opened tail hlater hsteps _
    exact Decoding.delivers_readSingle_element hcontent h.localName (by rw [h.isNil]; exact hkind)
      (h.reads later steps owner p.nilable ending opened tail hlater hsteps hnilable)

/-- A choice is a single value of a property of its type. -/
theorem BareWritten.single (h : BareWritten P nested v e e' body nodes) (hcontent : p.content = false)
    (hd : Descriptor.compile P.schema p.type = .ok nested) (hchoice : nested.isChoice = true)
    (hunmarked : ¬P.schema.TypeBeginsNil p.name nested v) :
    SingleWritten P p nested v e e' body nodes := by
  have hleads : nested.leadsAlways = true := by rw [Descriptor.leadsAlways, hchoice, Bool.true_or]
  obtain ⟨element, rest, rfl, hbegins, hnil⟩ := h.leads hleads
  refine ⟨h.adds, ⟨element, rest, rfl, .nested hd (by rw [hchoice, Bool.true_or]) hbegins,
    fun h => .nested hd hchoice (hnil h)⟩, ?_⟩
  intro later steps owner ending opened tail hlater hsteps htail
  have hmark : element.isNil = true → element.localName ≠ p.name :=
    fun hmarked heq => hunmarked (heq ▸ hnil hmarked)
  exact Decoding.delivers_readSingle_choice hcontent hmark hchoice
    (h.reads later steps ending opened tail hlater hsteps (htail hchoice))

variable (htells : P.schema.Tells p.type) (hd : Descriptor.compile P.schema p.type = .ok nested)
  (hcontent : p.content = false)
include htells hd hcontent

/-- **A single value is read back**, unless there is none and that is written as nothing. -/
theorem written_single (hname : nested.isChoice = false ∨ p.nilable = true → IsName p.name) (hfits : Fits P p nested v)
    (hready : e.IsReady P.schema P.attached) (h : writeSingle P.files owner p v e = .ok () e') :
    (∃ body nodes, SingleWritten P p nested v e e' body nodes) ∨
      v = .null ∧ p.nilable = false ∧ p.optional = true ∧ e' = e := by
  rw [writeSingle] at h
  cases hnull : v.isNull with
  | true =>
    obtain rfl : v = .null := by cases v <;> first | rfl | cases hnull
    rw [if_pos hnull, writeNothing] at h
    cases hnilable : p.nilable with
    | true =>
      rw [if_pos hnilable] at h
      obtain ⟨body, element, hwritten⟩ := @written_nil P nested _ _ _ (hname (.inr hnilable)) hready h
      exact .inl ⟨body, _, hwritten.single hcontent (.inr hnull) fun _ => hnilable⟩
    | false =>
      rw [hnilable, if_neg (by decide)] at h
      cases hoptional : p.optional with
      | true =>
        rw [if_pos hoptional] at h
        cases h
        exact .inr ⟨rfl, rfl, rfl, rfl⟩
      | false =>
        rw [hoptional, if_neg (by decide)] at h
        cases h
  | false =>
    have hne : v ≠ .null := fun heq => by rw [heq] at hnull; cases hnull
    rw [hnull, if_neg (by decide)] at h
    obtain ⟨found, e₁, hdescriptor, h⟩ := bind_eq_ok.1 h
    obtain ⟨rfl, hready₁, hfollows₁, hsink₁⟩ := descriptor_ok hd hready hdescriptor
    refine .inl ?_
    cases hchoice : found.isChoice with
    | false =>
      rw [hcontent, hchoice, if_neg (by decide)] at h
      have hv (hs : P.sound) : v = .null ∨ ElementOf P.schema p.type v ∧ v.HasWritableInstants :=
        .inr ((hfits.typed hs hne).imp_left fun hsingle => hsingle.elementOf hne)
      obtain ⟨body, element, inside, hwritten⟩ :=
        written_wrapped (Returns.content hfits.returns) htells hd (hname (.inl hchoice)) hv hfits.admits hready₁ h
      have hsingle := hwritten.single hcontent (.inl hchoice) fun hnull' => by rw [hnull] at hnull'; cases hnull'
      exact ⟨body, _, hsingle.adds.behind hfollows₁ hsink₁, hsingle.starts, hsingle.reads⟩
    | true =>
      rw [hchoice, Bool.or_true, if_pos rfl] at h
      have hv (hs : P.sound) : ContentOf P.schema p.type v ∧ v.HasWritableInstants :=
        (hfits.typed hs hne).imp_left fun hsingle => hsingle.contentOf hne hd hchoice
      have hadmits := hfits.admits hne
      rw [Schema.writtenAs_choice hchoice] at hadmits
      have hbare (primitive : Primitive) : found.shape ≠ .simple primitive :=
        Descriptor.not_simple_of_leadsAlways (by rw [Descriptor.leadsAlways, hchoice, Bool.true_or]) primitive
      obtain ⟨body, nodes, hwritten⟩ := hfits.returns htells hd hbare hv hadmits hready₁ h
      have hsingle := hwritten.single hcontent hd hchoice (hfits.unmarked hchoice)
      exact ⟨body, _, hsingle.adds.behind hfollows₁ hsink₁, hsingle.starts, hsingle.reads⟩

/-! ### Items -/

omit htells hd hcontent in
/-- How the items of a repeated property have been written. Each that is written takes a node at least. -/
structure ItemsWritten (P : Passage) (p : Property) (nested : Descriptor) (items : List Value) (e e' : Encoder)
    (body : Option String) (nodes : List Node) : Prop where
  adds : Adds P.schema e e' body nodes
  begins : nodes = [] ∨ Starts (fun element => P.schema.PropertyBegins element.localName p) nodes
  reads : ∀ (later : Context) (steps limit : Nat) (owner : TypeName) (ending : Ending)
    (opened : List Element) (tail : List Node), P.Knows later e'.context → sizeOf items ≤ steps →
    nodes.length < limit → GoesOnWithout (P.schema.PropertyContinues · p) tail →
    P.Delivers (Decoding.readItems (Decoding.readContent later steps) owner p nested limit)
      ⟨nodes ++ tail, ending, opened⟩ ⟨tail, ending, opened⟩
      fun items' => P.sound → Value.ItemsConveyedAs P.files P.attached items items'

/-- **Items are read back**, one after the other until something else comes. -/
theorem written_items {items : List Value}
    (hname : nested.isChoice = false ∨ p.nilable = true → IsName p.name) (hrepeated : p.repeated = true)
    (hfits : ∀ item ∈ items, Fits P p nested item) (hitems : P.sound → ∀ item ∈ items, SingleOf P.schema p item)
    (hapart : nested.isChoice = true →
      ∀ name, P.schema.PropertyBegins name p → ¬P.schema.TypeContinues name nested)
    (hready : e.IsReady P.schema P.attached) (h : writeItems P.files owner p items e = .ok () e') :
    ∃ body nodes, ItemsWritten P p nested items e e' body nodes := by
  induction items generalizing e with
  | nil =>
    rw [writeItems] at h
    cases h
    refine ⟨none, [], .refl hready.registry, .inl rfl, ?_⟩
    intro later steps limit owner ending opened tail _ _ hlimit htail
    obtain ⟨limit, rfl⟩ : ∃ n, limit = n + 1 := ⟨limit - 1, (Nat.succ_pred_eq_of_pos hlimit).symm⟩
    have hbehind := htail.mono fun name hbegins =>
      Schema.PropertyContinues.omitted (by rw [Property.isOmissible, hrepeated, Bool.true_or]) hbegins
    rw [Decoding.readItems]
    apply Delivers.bind (Decoding.delivers_comesNext_not htells hbehind)
    rintro _ rfl
    exact Delivers.pure fun _ => .nil
  | cons item items ih =>
    rw [writeItems] at h
    obtain ⟨_, e₁, hitem, hrest⟩ := bind_eq_ok.1 h
    have hfollowed (h : e₁.IsReady P.schema P.attached) := ih (fun w hw => hfits w (List.mem_cons_of_mem item hw))
      (fun hs w hw => hitems hs w (List.mem_cons_of_mem item hw)) h hrest
    rcases written_single htells hd hcontent hname (hfits item List.mem_cons_self) hready hitem with
      ⟨body, nodes, hsingle⟩ | ⟨rfl, hnilable, _, rfl⟩
    · obtain ⟨body', nodes', hwritten⟩ := hfollowed (hready.follow hsingle.adds.follows)
      have hstarts := hsingle.starts.begins
      have hpos := hstarts.length_pos
      have hlength : (nodes ++ nodes').length = nodes.length + nodes'.length := List.length_append
      refine ⟨_, nodes ++ nodes', hsingle.adds.trans hwritten.adds, .inr (hstarts.append nodes'), ?_⟩
      intro later steps limit owner ending opened tail hlater hsteps hlimit htail
      rw [List.cons.sizeOf_spec] at hsteps
      obtain ⟨limit, rfl⟩ : ∃ n, limit = n + 1 := ⟨limit - 1, by omega⟩
      have hbehind (hchoice : nested.isChoice = true) :
          GoesOnWithout (P.schema.TypeContinues · nested) (nodes' ++ tail) := by
        rcases hwritten.begins with rfl | hbegins
        · exact htail.mono fun name hcontinues => .nested hd hchoice hcontinues
        · exact .inr ((hbegins.append tail).mono fun element hbegins => hapart hchoice _ hbegins)
      rw [List.append_assoc, Decoding.readItems]
      apply Delivers.bind (Decoding.delivers_comesNext htells (hstarts.append _))
      rintro _ rfl
      rw [if_pos rfl]
      have hearlier := hlater.before hwritten.adds.follows.context
      apply Delivers.bind
        (hsingle.reads later steps owner ending opened (nodes' ++ tail) hearlier (by omega) hbehind)
      intro item' hitem'
      apply Delivers.bind
        (hwritten.reads later steps limit owner ending opened tail hlater (by omega) (by omega) htail)
      intro items' hitems'
      exact Delivers.pure fun hs => .cons (hitem' hs) (hitems' hs)
    · -- No value has been left out, which is no item of a sound list.
      have hunsound (hs : P.sound) : False := by
        have hnull := hitems hs .null List.mem_cons_self
        cases hnull with
        | null _ _ hnilable' =>
          rw [hnilable] at hnilable'
          cases hnilable'
        | wrapped _ _ hv => exact hv.ne_null rfl
        | bare _ _ hv => exact hv.ne_null rfl
      obtain ⟨body, nodes, hwritten⟩ := hfollowed hready
      refine ⟨body, nodes, hwritten.adds, hwritten.begins, ?_⟩
      intro later steps limit owner ending opened tail hlater hsteps hlimit htail
      rw [List.cons.sizeOf_spec] at hsteps
      exact (hwritten.reads later steps limit owner ending opened tail hlater (by omega) hlimit htail).mono
        fun _ _ hs => (hunsound hs).elim

/-! ### Fields -/

omit htells hd hcontent in
/-- How the field of a property has been written, be it to nothing at all. -/
structure FieldWritten (P : Passage) (p : Property) (v : Value) (e e' : Encoder) (body : Option String)
    (nodes : List Node) : Prop where
  adds : Adds P.schema e e' body nodes
  begins : nodes = [] ∧ p.isOmissible = true ∨
    Starts (fun element => P.schema.PropertyBegins element.localName p) nodes
  leads : p.isOmissible = false → StartsSingle P p v nodes
  reads : ∀ (later : Context) (steps : Nat) (owner : TypeName) (ending : Ending)
    (opened : List Element) (tail : List Node), P.Knows later e'.context → sizeOf v ≤ steps →
    GoesOnWithout (P.schema.PropertyContinues · p) tail →
    P.Delivers (Decoding.readProperty (Decoding.readContent later steps) owner p)
      ⟨nodes ++ tail, ending, opened⟩ ⟨tail, ending, opened⟩ (P.Conveys v)

omit hcontent in
/-- A single value is the field of a property that is not repeated. -/
theorem SingleWritten.field (h : SingleWritten P p nested v e e' body nodes) (hrepeated : p.repeated = false) :
    FieldWritten P p v e e' body nodes := by
  refine ⟨h.adds, .inr h.starts.begins, fun _ => h.starts, ?_⟩
  intro later steps owner ending opened tail hlater hsteps htail
  have hread := h.reads later steps owner ending opened tail hlater hsteps
    fun hchoice => htail.mono fun name hcontinues => .nested hd hchoice hcontinues
  apply Delivers.bind (Delivers.descriptor hd)
  rintro _ rfl
  rw [hrepeated, if_neg (by decide)]
  cases p.optional with
  | false => exact hread
  | true =>
    apply Delivers.bind (Decoding.delivers_comesNext htells (h.starts.begins.append tail))
    rintro _ rfl
    exact hread

omit hcontent in
/-- Where an optional property has been left out, it is read as no value. -/
theorem fieldWritten_absent (hrepeated : p.repeated = false) (hoptional : p.optional = true)
    (hnilable : p.nilable = false) (hready : e.IsReady P.schema P.attached) :
    FieldWritten P p .null e e none [] := by
  have homissible : p.isOmissible = true := by rw [Property.isOmissible, hoptional, hnilable]; exact Bool.or_true _
  refine ⟨.refl hready.registry, .inl ⟨rfl, homissible⟩, fun h => absurd (homissible.symm.trans h) (by decide), ?_⟩
  intro later steps owner ending opened tail _ _ htail
  apply Delivers.bind (Delivers.descriptor hd)
  rintro _ rfl
  rw [hrepeated, if_neg (by decide), if_pos hoptional]
  apply Delivers.bind (Decoding.delivers_comesNext_not htells
    (htail.mono fun name hbegins => .omitted homissible hbegins))
  rintro _ rfl
  exact Delivers.pure fun _ => .same

omit htells hcontent in
/-- Items are the field of a repeated property. -/
theorem ItemsWritten.field {items : List Value} (h : ItemsWritten P p nested items e e' body nodes)
    (hrepeated : p.repeated = true) (hv : P.sound → v = .list items) (hsize : sizeOf items ≤ sizeOf v) :
    FieldWritten P p v e e' body nodes := by
  have homissible : p.isOmissible = true := by rw [Property.isOmissible, hrepeated, Bool.true_or]
  refine ⟨h.adds, h.begins.imp_left fun hempty => ⟨hempty, homissible⟩,
    fun h => absurd (homissible.symm.trans h) (by decide), ?_⟩
  intro later steps owner ending opened tail hlater hsteps htail
  apply Delivers.bind (Delivers.descriptor hd)
  rintro _ rfl
  rw [hrepeated, if_pos rfl]
  apply Delivers.bind Delivers.get
  intro st hst
  have hlimit : nodes.length < st.cursor.ahead.length + 1 := by
    rw [hst, List.length_append]
    omega
  apply Delivers.bind
    (h.reads later steps _ owner ending opened tail hlater (by omega) hlimit htail)
  intro items' hitems'
  exact Delivers.pure fun hs => by rw [hv hs]; exact .list (hitems' hs)

/-- **A field is read back.** Where nothing has been written, nothing of the property comes next. -/
theorem written_field (hname : nested.isChoice = false ∨ p.nilable = true → IsName p.name)
    (hfits : ∀ x, p.IsSingle v x → Fits P p nested x)
    (hv : P.sound → FieldOf P.schema p v)
    (hapart : p.repeated = true → nested.isChoice = true →
      ∀ name, P.schema.PropertyBegins name p → ¬P.schema.TypeContinues name nested)
    (hready : e.IsReady P.schema P.attached) (h : writeProperty P.files owner p v e = .ok () e') :
    ∃ body nodes, FieldWritten P p v e e' body nodes := by
  unfold writeProperty at h
  cases hrepeated : p.repeated with
  | false =>
    rw [hrepeated, if_pos (by decide)] at h
    rcases written_single htells hd hcontent hname (hfits v (.one hrepeated)) hready h with
      ⟨body, nodes, hsingle⟩ | ⟨rfl, hnilable, hoptional, rfl⟩
    · exact ⟨body, nodes, hsingle.field htells hd hrepeated⟩
    · exact ⟨none, [], fieldWritten_absent htells hd hrepeated hoptional hnilable hready⟩
  | true =>
    rw [hrepeated, if_neg (by decide)] at h
    have hlist (hs : P.sound) : ∃ items, v = .list items ∧ ∀ item ∈ items, SingleOf P.schema p item := by
      cases hv hs with
      | list _ hitems => exact ⟨_, rfl, hitems⟩
      | absent hsingle | single hsingle =>
        rw [hrepeated] at hsingle
        cases hsingle
    cases v with
    | null =>
      cases h
      -- No value is written as an empty list, and read as one.
      obtain ⟨body, nodes, hwritten⟩ := @written_items P owner p nested e e htells hd hcontent [] hname hrepeated
        nofun (fun _ => nofun) (hapart hrepeated) hready (by rw [writeItems]; rfl)
      refine ⟨body, nodes, hwritten.field hd hrepeated (fun hs => ?_) (by simp)⟩
      obtain ⟨items, heq, _⟩ := hlist hs
      cases heq
    | list items =>
      have hitems (hs : P.sound) : ∀ item ∈ items, SingleOf P.schema p item := by
        obtain ⟨items', heq, hitems⟩ := hlist hs
        cases heq
        exact hitems
      obtain ⟨body, nodes, hwritten⟩ := written_items htells hd hcontent hname hrepeated
        (fun item hmem => hfits item (.item hrepeated hmem)) hitems (hapart hrepeated) hready h
      exact ⟨body, nodes, hwritten.field hd hrepeated (fun _ => rfl) (by simp)⟩
    | _ => cases h

omit htells hd hcontent

/-! ### All fields -/

/-- How the fields of an object have been written that are those of some properties. -/
structure FieldsWritten (P : Passage) (properties : List Property) (fields : Fields) (e e' : Encoder)
    (body : Option String) (nodes : List Node) : Prop where
  adds : Adds P.schema e e' body nodes
  begins : nodes = [] ∧ (∀ p ∈ properties, p.isOmissible = true) ∨
    ∃ p ∈ properties, Starts (fun element => P.schema.PropertyBegins element.localName p) nodes
  leads : ∀ p rest, properties = p :: rest → p.isOmissible = false → StartsSingle P p (fields.valueOf p) nodes
  reads : ∀ (later : Context) (steps : Nat) (owner : TypeName) (ending : Ending)
    (opened : List Element) (tail : List Node), P.Knows later e'.context → sizeOf fields ≤ steps →
    GoesOnWithout (fun name => ∃ front p behind, properties = front ++ p :: behind ∧
      P.schema.PropertyContinues name p ∧ ∀ q ∈ behind, q.isOmissible = true) tail →
    P.Delivers (Decoding.readProperties (Decoding.readContent later steps) owner properties)
      ⟨nodes ++ tail, ending, opened⟩ ⟨tail, ending, opened⟩
      fun fields' => P.sound → Value.FieldsConveyedAs P.files P.attached
        (properties.map fun p => (p.name, fields.valueOf p)) fields'

/-- The field of the first property is written first. -/
theorem writeProperties_cons {files : Files} {fields : Fields} (rest : List Property) :
    writeProperties files owner fields (p :: rest) =
      (writeProperty files owner p (fields.valueOf p) >>= fun _ => writeProperties files owner fields rest) := by
  rw [writeProperties, Fields.valueOf]
  congr 1
  split
  · next w heq => rw [heq]; rfl
  · next heq =>
    rw [heq, Option.getD_none, writeProperty]
    cases p.repeated with
    | true => rfl
    | false =>
      rw [if_neg (by decide), if_pos (by decide), writeSingle]
      rfl

/-- The value that is written for a property is smaller than the object. -/
theorem sizeOf_valueOf_le (fields : Fields) (p : Property) : sizeOf (fields.valueOf p) ≤ sizeOf fields := by
  unfold Fields.valueOf
  cases hget : fields.get? p.name with
  | some v => exact Nat.le_of_lt (Fields.sizeOf_get? hget)
  | none =>
    rw [Option.getD_none, Value.null.sizeOf_spec]
    cases fields with
    | nil => exact Nat.le_refl 1
    | cons => rw [List.cons.sizeOf_spec]; omega

/-- **Fields are read back.** What comes behind a field is not taken for a part of it. -/
theorem written_fields {fields : Fields} {properties : List Property}
    (htells : ∀ p ∈ properties, P.schema.Tells p.type) (hcontent : ∀ p ∈ properties, p.content = false)
    (hname : ∀ p ∈ properties, ∀ nested, Descriptor.compile P.schema p.type = .ok nested →
      nested.isChoice = false ∨ p.nilable = true → IsName p.name)
    (happart : properties.Pairwise fun p q => ∀ name, P.schema.PropertyBegins name q →
      ¬P.schema.PropertyContinues name p)
    (hitems : ∀ p ∈ properties, p.repeated = true → ∀ nested, Descriptor.compile P.schema p.type = .ok nested →
      nested.isChoice = true → ∀ name, P.schema.PropertyBegins name p → ¬P.schema.TypeContinues name nested)
    (hfits : ∀ p ∈ properties, ∀ nested, Descriptor.compile P.schema p.type = .ok nested →
      ∀ x, p.IsSingle (fields.valueOf p) x → Fits P p nested x)
    (hv : P.sound → ∀ p ∈ properties, FieldOf P.schema p (fields.valueOf p))
    (hready : e.IsReady P.schema P.attached) (h : writeProperties P.files owner fields properties e = .ok () e') :
    ∃ body nodes, FieldsWritten P properties fields e e' body nodes := by
  induction properties generalizing e with
  | nil =>
    rw [writeProperties] at h
    cases h
    refine ⟨none, [], .refl hready.registry, .inl ⟨rfl, fun q hq => ?_⟩, ?_, ?_⟩
    · cases hq
    · rintro q rest ⟨⟩
    · intro later steps owner ending opened tail _ _ _
      exact Delivers.pure fun _ => .nil
  | cons p rest ih =>
    rw [writeProperties_cons] at h
    obtain ⟨_, e₁, hproperty, hrest⟩ := bind_eq_ok.1 h
    have hp := htells p List.mem_cons_self
    obtain ⟨nested, hd⟩ := hp.compile
    rw [List.pairwise_cons] at happart
    obtain ⟨body, nodes, hwritten⟩ := written_field hp hd (hcontent p List.mem_cons_self)
      (hname p List.mem_cons_self nested hd) (hfits p List.mem_cons_self nested hd) (fun hs => hv hs p List.mem_cons_self)
      (fun hrepeated => hitems p List.mem_cons_self hrepeated nested hd) hready hproperty
    obtain ⟨body', nodes', hwritten'⟩ := ih (fun q hq => htells q (List.mem_cons_of_mem p hq))
      (fun q hq => hcontent q (List.mem_cons_of_mem p hq)) (fun q hq => hname q (List.mem_cons_of_mem p hq))
      happart.2 (fun q hq => hitems q (List.mem_cons_of_mem p hq)) (fun q hq => hfits q (List.mem_cons_of_mem p hq))
      (fun hs q hq => hv hs q (List.mem_cons_of_mem p hq)) (hready.follow hwritten.adds.follows) hrest
    refine ⟨_, nodes ++ nodes', hwritten.adds.trans hwritten'.adds, ?_, ?_, ?_⟩
    · rcases hwritten.begins with ⟨rfl, homissible⟩ | hbegins
      · rcases hwritten'.begins with ⟨rfl, homissibles⟩ | ⟨q, hq, hbegins⟩
        · refine .inl ⟨rfl, fun q hq => ?_⟩
          rcases List.mem_cons.1 hq with rfl | hq
          · exact homissible
          · exact homissibles q hq
        · exact .inr ⟨q, List.mem_cons_of_mem p hq, hbegins⟩
      · exact .inr ⟨p, List.mem_cons_self, hbegins.append nodes'⟩
    · rintro q rest' heq hleads
      cases heq
      exact (hwritten.leads hleads).append nodes'
    · intro later steps owner ending opened tail hlater hsteps htail
      have hbehind : GoesOnWithout (P.schema.PropertyContinues · p) (nodes' ++ tail) := by
        rcases hwritten'.begins with ⟨rfl, homissibles⟩ | ⟨q, hq, hbegins⟩
        · exact htail.mono fun name hcontinues => ⟨[], p, rest, rfl, hcontinues, homissibles⟩
        · exact .inr ((hbegins.append tail).mono fun element hbegins => happart.1 q hq _ hbegins)
      have hbehind' : GoesOnWithout (fun name => ∃ front q behind, rest = front ++ q :: behind ∧
          P.schema.PropertyContinues name q ∧ ∀ r ∈ behind, r.isOmissible = true) tail := by
        apply htail.mono
        rintro name ⟨front, q, behind, rfl, hcontinues⟩
        exact ⟨p :: front, q, behind, rfl, hcontinues⟩
      have hearlier := hlater.before hwritten'.adds.follows.context
      have hsize := sizeOf_valueOf_le fields p
      rw [List.append_assoc, Decoding.readProperties]
      apply Delivers.bind
        (hwritten.reads later steps owner ending opened _ hearlier (by omega) hbehind)
      intro v' hv'
      apply Delivers.bind (hwritten'.reads later steps owner ending opened tail hlater hsteps hbehind')
      intro fields' hfields'
      exact Delivers.pure fun hs => .cons (hv' hs) (hfields' hs)

end SoapBinding.Encoding
