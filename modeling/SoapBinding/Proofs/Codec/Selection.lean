import SoapBinding.Proofs.Codec.Beginning
import SoapBinding.Proofs.Codec.Rereading
import SoapBinding.Proofs.Xml.Embedded

/-!
# The variant that is read

Whether an element begins a value of a choice is one scan of the variants, and which variant is read there is
another. Where the types looked up on the way compile, and matching does not lead back to a type (`CanMatch`), both
stop at the same variant: the first that the element begins, on its own or by its type.

    readContent_selects : s.CanMatch type → … → … ∧ (begins answers whether a variant is found) ∧
      (readContent goes on with the variant that is found) ∧ …

An inline variant whose type is a choice passes the scan on. So a choice is as good as the list of the variants at
the ends of all ways through inline choices (`Flattens`): the first one there that the element begins is the one
that is read, and the variants on the way to it are built around its value.
-/

namespace SoapBinding

open Outcome
open Xml (Cursor Element)

/-! ### Choices that can be matched -/

/-- The types that are looked up on the way from a type compile, and matching it is well founded. -/
structure Schema.CanMatch (s : Schema) (root : TypeName) : Prop where
  /-- All types reached through variants and first properties compile. -/
  compiles : ∀ type, Relation.ReflTransGen s.Inspects root type → ∃ d, Descriptor.compile s type = .ok d
  /-- Going on from type to type comes to an end. -/
  founded : Acc (fun inner outer => s.Consults outer inner) root

/-- What an element of a name is found to begin, of a type. -/
def Descriptor.beginsIn (s : Schema) (element : String) (d : Descriptor) : Bool :=
  match d.begins element (.ofSchema s) with
  | .ok answer _ => answer
  | .error .. => false

/-- What an element of a name is found to begin, of a variant: it bears the variant's name, or begins a value of the
type of an inline one. -/
def Variant.beginsIn (s : Schema) (element : String) (v : Variant) : Bool :=
  match v.dispatch with
  | .element name => name == element
  | .inline => (Descriptor.compile s v.type).toOption.any (·.beginsIn s element)

variable {s : Schema} {type inner : TypeName} {d nested : Descriptor} {v : Variant} {variants : List Variant}
  {element : String} {r : Registry}

theorem Schema.not_transGen_of_acc (h : Acc (fun inner outer => s.Consults outer inner) type) :
    ¬Relation.TransGen s.Consults type type := by
  induction h with
  | intro type _ ih =>
    intro hcycle
    obtain ⟨next, hnext, hback⟩ := Relation.TransGen.head'_iff.1 hcycle
    exact ih next hnext (.tail' hback hnext)

namespace Schema.CanMatch

theorem of_consults (h : s.CanMatch type) (hn : s.Consults type inner) : s.CanMatch inner :=
  ⟨fun t ht => h.compiles t (ht.head hn.inspects), h.founded.inv hn⟩

/-- The type of a variant compiles. -/
theorem compile_variant (h : s.CanMatch type) (hd : Descriptor.compile s type = .ok d) (hv : v ∈ d.variants) :
    ∃ nested, Descriptor.compile s v.type = .ok nested :=
  h.compiles v.type (.single (.variant hd hv))

theorem inline (h : s.CanMatch type) (hd : Descriptor.compile s type = .ok d) (hv : v ∈ d.variants)
    (hinline : v.dispatch = .inline) : s.CanMatch v.type :=
  h.of_consults (.variant hd hv hinline)

/-- Matching gives an answer, the same from all registries over the schema. -/
theorem begins_ok (h : s.CanMatch type) (hd : Descriptor.compile s type = .ok d) (element : String) :
    (d.beginsIn s element = true ↔ s.TypeBegins element d) ∧
      ∀ r : Registry, r.Over s → ∃ r', d.begins element r = .ok (d.beginsIn s element) r' ∧ r'.Over s := by
  obtain rfl := Descriptor.name_of_compile hd
  have hanswers : Answers s element (fun _ => True) (Descriptor.begins element) d := by
    refine triple_begins_zone (fun (hzone : s.CanMatch _) hn => hzone.of_consults hn) ?_
      (fun _ _ hzone => Schema.not_transGen_of_acc hzone.founded) hd h
    intro outer inner e hzone hn herror
    obtain ⟨nested, hnested⟩ := hzone.compiles inner (.single hn)
    rw [herror] at hnested
    cases hnested
  obtain ⟨answer, _, hfresh, _, hiff⟩ := Triple.exists_ok hanswers (Registry.over_ofSchema s)
  have hanswer : d.beginsIn s element = answer := by rw [Descriptor.beginsIn, hfresh]
  rw [hanswer]
  refine ⟨hiff, fun r hr => ?_⟩
  obtain ⟨answer', r', hr', hover, hiff'⟩ := Triple.exists_ok hanswers hr
  have hsame : answer' = answer := Bool.eq_iff_iff.2 (hiff'.trans hiff.symm)
  exact ⟨r', hsame ▸ hr', hover⟩

/-- What is found of a variant is what the rules say. -/
theorem beginsIn_variant (h : s.CanMatch type) (hd : Descriptor.compile s type = .ok d) (hv : v ∈ d.variants) :
    v.beginsIn s element = true ↔ s.VariantBegins element v := by
  unfold Variant.beginsIn
  cases hdispatch : v.dispatch with
  | element name => exact beq_iff_eq.trans (Schema.variantBegins_element hdispatch).symm
  | inline =>
    have hinner := h.inline hd hv hdispatch
    obtain ⟨nested, hnested⟩ := h.compile_variant hd hv
    rw [Schema.variantBegins_inline hdispatch hnested, hnested]
    exact (hinner.begins_ok hnested element).1

/-- An element begins a value of a choice if there is a variant that it begins. -/
theorem beginsIn_choice (h : s.CanMatch type) (hd : Descriptor.compile s type = .ok ⟨type, .choice variants⟩) :
    (⟨type, .choice variants⟩ : Descriptor).beginsIn s element = (variants.find? (·.beginsIn s element)).isSome := by
  rw [Bool.eq_iff_iff, (h.begins_ok hd element).1, List.find?_isSome]
  constructor
  · intro hbegins
    cases hbegins with
    | variant hv hbegins => exact ⟨_, hv, (h.beginsIn_variant hd hv).2 hbegins⟩
  · rintro ⟨v, hv, hbegins⟩
    exact .variant hv ((h.beginsIn_variant hd hv).1 hbegins)

/-- An element begins an inline choice if there is a variant of it that it begins. -/
theorem beginsIn_inline (h : s.CanMatch v.type) (hinline : v.dispatch = .inline)
    (hd : Descriptor.compile s v.type = .ok ⟨v.type, .choice variants⟩) :
    v.beginsIn s element = (variants.find? (·.beginsIn s element)).isSome := by
  rw [← h.beginsIn_choice hd, Variant.beginsIn, hinline, hd]
  rfl

end Schema.CanMatch

/-! ### One scan -/

namespace Decoding

/-- Reads a variant that has been selected, of a choice of a type. -/
def readVariant (content : Descriptor → Decoding Value) (owner : TypeName) (v : Variant) (nested : Descriptor) :
    Decoding Value :=
  match v.dispatch with
  | .element _ => do return v.build (← readWrapped content owner true nested)
  | .inline => do return v.build (← content nested)

/-- What comes of the variant that a scan stops at: the variant is read, and where there is none that is the fault. -/
def Selects (s : Schema) (content : Descriptor → Decoding Value) (owner : TypeName) (element : String) (st : Decoder)
    (result : EStateM.Result Error Decoder Value) : Option Variant → Prop
  | none => ∃ r : Registry, r.Over s ∧ result = .error (.content (.noVariant element owner)) { st with registry := r }
  | some v => ∃ (r : Registry) (nested : Descriptor), r.Over s ∧ Descriptor.compile s v.type = .ok nested ∧
      result = readVariant content owner v nested { st with registry := r }

variable {st : Decoder}

/-- A variant is read if the element begins it, and passed over if not. -/
theorem readVariants_cons (content : Descriptor → Decoding Value) (owner : TypeName) (element : String)
    (h : s.CanMatch type) (hd : Descriptor.compile s type = .ok d) (hv : v ∈ d.variants)
    (hnested : Descriptor.compile s v.type = .ok nested) (rest : List Variant) (hover : st.registry.Over s) :
    ∃ r, r.Over s ∧ readVariants content owner element (v :: rest) st =
      if v.beginsIn s element then readVariant content owner v nested { st with registry := r }
      else readVariants content owner element rest { st with registry := r } := by
  obtain ⟨r, hr, hdescriptor⟩ := descriptor_ok hover hnested
  rw [readVariants, bind_ok hdescriptor]
  unfold Variant.beginsIn readVariant
  cases hdispatch : v.dispatch with
  | element name =>
    refine ⟨r, hr, ?_⟩
    by_cases hname : name = element <;> simp [hname]
  | inline =>
    obtain ⟨r', hbegins, hr'⟩ := ((h.inline hd hv hdispatch).begins_ok hnested element).2 r hr
    refine ⟨r', hr', ?_⟩
    dsimp only
    rw [bind_ok (onRegistry_eq_ok.2 ⟨r', hbegins, rfl⟩), hnested]
    change _ = if nested.beginsIn s element = true then _ else _
    split <;> rfl

/-- **A scan stops at the first variant that the element begins.** -/
theorem selects_readVariants (content : Descriptor → Decoding Value) (owner : TypeName) (element : String)
    (h : s.CanMatch type) (hd : Descriptor.compile s type = .ok d) (hsub : ∀ v ∈ variants, v ∈ d.variants)
    (hover : st.registry.Over s) :
    Selects s content owner element st (readVariants content owner element variants st)
      (variants.find? (·.beginsIn s element)) := by
  induction variants generalizing st with
  | nil => exact ⟨st.registry, hover, rfl⟩
  | cons v rest ih =>
    have hv := hsub v List.mem_cons_self
    obtain ⟨nested, hnested⟩ := h.compile_variant hd hv
    obtain ⟨r, hr, hread⟩ := readVariants_cons content owner element h hd hv hnested rest hover
    rw [hread, List.find?_cons]
    cases v.beginsIn s element with
    | true => exact ⟨r, nested, hr, hnested, rfl⟩
    | false =>
      obtain hrest := @ih { st with registry := r } (fun w hw => hsub w (List.mem_cons_of_mem v hw)) hr
      exact hrest

/-- Reading a choice is a scan of its variants, behind blank text. -/
theorem readContent_choice {e : Element} {cursor : Cursor} (hpeek : Cursor.peekStart st.cursor = .ok (some e) cursor)
    (context : Context) (steps : Nat) :
    readContent context (steps + 1) ⟨type, .choice variants⟩ st =
      readVariants (readContent context steps) type e.localName variants { st with cursor } := by
  rw [readContent]
  exact bind_ok (onCursor_eq_ok.2 ⟨cursor, hpeek, rfl⟩)

end Decoding

/-! ### Ways through inline choices -/

/-- A variant at the end of a way through inline choices. -/
structure FlatVariant where
  /-- The inline variants on the way, the outermost first. -/
  around : List Variant
  /-- The choice that declares the last. -/
  owner : TypeName
  /-- The variant that ends the way. -/
  leaf : Variant

namespace FlatVariant

/-- The first variant on the way. -/
def outermost (f : FlatVariant) : Variant := f.around.head?.getD f.leaf

/-- The way with a variant in front. -/
def within (v : Variant) (f : FlatVariant) : FlatVariant := { f with around := v :: f.around }

/-- What the variants on the way make of the value of the last. -/
def build (f : FlatVariant) (value : Value) : Value := f.around.foldr Variant.build value

end FlatVariant

/-- The variants of a choice, with those of an inline choice in its place. -/
inductive Schema.Flattens (s : Schema) : TypeName → List Variant → List FlatVariant → Prop where
  | nil {owner : TypeName} : Flattens s owner [] []
  | leaf {owner : TypeName} {v : Variant} {rest : List Variant} {leaves : List FlatVariant} :
      (v.dispatch = .inline → ∀ d, Descriptor.compile s v.type = .ok d → d.isChoice = false) →
      Flattens s owner rest leaves → Flattens s owner (v :: rest) (⟨[], owner, v⟩ :: leaves)
  | choice {owner : TypeName} {v : Variant} {rest variants : List Variant} {front leaves : List FlatVariant} :
      v.dispatch = .inline → Descriptor.compile s v.type = .ok ⟨v.type, .choice variants⟩ →
      Flattens s v.type variants front → Flattens s owner rest leaves →
      Flattens s owner (v :: rest) (front.map (.within v) ++ leaves)

variable {leaves : List FlatVariant}

/-- An element begins an inline choice if there is a way through it that the element begins. -/
theorem Schema.CanMatch.beginsIn_ways (h : s.CanMatch v.type) (hinline : v.dispatch = .inline)
    (hd : Descriptor.compile s v.type = .ok ⟨v.type, .choice variants⟩)
    (hways : (leaves.find? (·.leaf.beginsIn s element)).map FlatVariant.outermost =
      variants.find? (·.beginsIn s element)) :
    v.beginsIn s element = (leaves.find? (·.leaf.beginsIn s element)).isSome := by
  rw [h.beginsIn_inline hinline hd, ← hways, Option.isSome_map]

/-- A choice that can be matched can be flattened. -/
theorem Schema.CanMatch.exists_flattens (h : s.CanMatch type) (hd : Descriptor.compile s type = .ok d)
    (hsub : ∀ v ∈ variants, v ∈ d.variants) : ∃ leaves, s.Flattens type variants leaves := by
  have hfounded := h.founded
  induction hfounded generalizing d variants with
  | intro type _ ih =>
    induction variants with
    | nil => exact ⟨[], .nil⟩
    | cons v rest ihrest =>
      have hv := hsub v List.mem_cons_self
      obtain ⟨leaves, hleaves⟩ := ihrest fun w hw => hsub w (List.mem_cons_of_mem v hw)
      by_cases hinline : v.dispatch = .inline
      · obtain ⟨⟨name, shape⟩, hnested⟩ := h.compile_variant hd hv
        obtain rfl : name = v.type := Descriptor.name_of_compile hnested
        cases shape with
        | choice variants =>
          obtain ⟨front, hfront⟩ := ih v.type (.variant hd hv hinline) (h.inline hd hv hinline) hnested
            (fun _ => id)
          exact ⟨_, .choice hinline hnested hfront hleaves⟩
        | simple | sequence =>
          refine ⟨_, .leaf (fun _ d hd' => ?_) hleaves⟩
          rw [hnested] at hd'
          cases hd'
          rfl
      · exact ⟨_, .leaf (fun h => absurd h hinline) hleaves⟩

/-- The first way that the element begins sets out with the first variant that the element begins. -/
theorem Schema.Flattens.map_outermost (hflat : s.Flattens type variants leaves) (h : s.CanMatch type)
    (hd : Descriptor.compile s type = .ok d) (hsub : ∀ v ∈ variants, v ∈ d.variants) (element : String) :
    (leaves.find? (·.leaf.beginsIn s element)).map FlatVariant.outermost = variants.find? (·.beginsIn s element) := by
  induction hflat generalizing d with
  | nil => rfl
  | @leaf owner v rest leaves _ _ ih =>
    have hrest := ih h hd fun w hw => hsub w (List.mem_cons_of_mem v hw)
    rw [List.find?_cons, List.find?_cons, ← hrest]
    cases v.beginsIn s element <;> simp [FlatVariant.outermost]
  | @choice owner v rest variants front leaves hinline hnested _ _ ihfront ih =>
    have hv := hsub v List.mem_cons_self
    have hinner := h.inline hd hv hinline
    have hrest := ih h hd fun w hw => hsub w (List.mem_cons_of_mem v hw)
    have hfront := ihfront hinner hnested fun _ => id
    rw [List.find?_append, List.find?_map, List.find?_cons, hinner.beginsIn_ways hinline hnested hfront, ← hrest]
    change Option.map _ (Option.or (Option.map _ (front.find? (·.leaf.beginsIn s element))) _) = _
    cases front.find? (·.leaf.beginsIn s element) with
    | none => rfl
    | some f => rfl

/-- A way meets no type twice, so it is shorter than the steps that one place of a document may take. -/
theorem Schema.Flattens.length_around_le (hflat : s.Flattens type variants leaves) (h : s.CanMatch type)
    (hd : Descriptor.compile s type = .ok d) (hsub : ∀ v ∈ variants, v ∈ d.variants) {met : List TypeName}
    (hmet : ∀ t ∈ met, Relation.TransGen s.Consults t type) :
    ∀ f ∈ leaves, f.around.length ≤ (Descriptor.unmet s met).length := by
  induction hflat generalizing d met with
  | nil => exact fun _ hf => nomatch hf
  | leaf _ _ ih =>
    intro f hf
    obtain rfl | hf := List.mem_cons.1 hf
    · exact Nat.zero_le _
    · exact ih h hd (fun w hw => hsub w (List.mem_cons_of_mem _ hw)) hmet f hf
  | @choice owner v _ _ _ _ hinline hnested _ _ ihfront ih =>
    intro f hf
    have hn : s.Consults owner v.type := .variant hd (hsub v List.mem_cons_self) hinline
    obtain hf | hf := List.mem_append.1 hf
    · obtain ⟨g, hg, rfl⟩ := List.mem_map.1 hf
      have hinner := ihfront (h.of_consults hn) hnested (fun _ => id) (Schema.transGen_cons hmet hn) g hg
      have hless := Descriptor.length_unmet_cons_lt Schema.Consults.nests hmet
        (Schema.not_transGen_of_acc h.founded) hn
      exact Nat.lt_of_le_of_lt hinner hless
    · exact ih h hd (fun w hw => hsub w (List.mem_cons_of_mem v hw)) hmet f hf

/-- **The first way that the element begins is the one that is read**, and its variants are built around the value. -/
theorem Schema.Flattens.readVariants {context : Context} {steps : Nat} {st : Decoder} {e : Element} {f : FlatVariant}
    (hflat : s.Flattens type variants leaves) (h : s.CanMatch type) (hd : Descriptor.compile s type = .ok d)
    (hsub : ∀ v ∈ variants, v ∈ d.variants) (hpeek : Cursor.peekStart st.cursor = .ok (some e) st.cursor)
    (hover : st.registry.Over s) (hfind : leaves.find? (·.leaf.beginsIn s e.localName) = some f) :
    ∃ (r : Registry) (nested : Descriptor), r.Over s ∧ Descriptor.compile s f.leaf.type = .ok nested ∧
      Decoding.readVariants (Decoding.readContent context (steps + f.around.length)) type e.localName variants st =
        (f.build <$> Decoding.readVariant (Decoding.readContent context steps) f.owner f.leaf nested)
          { st with registry := r } := by
  induction hflat generalizing d f st steps with
  | nil => cases hfind
  | @leaf owner v rest leaves _ _ ih =>
    have hv := hsub v List.mem_cons_self
    obtain ⟨nested, hnested⟩ := h.compile_variant hd hv
    obtain ⟨r, hr, hread⟩ := Decoding.readVariants_cons
      (Decoding.readContent context (steps + f.around.length)) owner e.localName h hd hv hnested rest hover
    rw [List.find?_cons] at hfind
    rw [hread]
    cases hbegins : v.beginsIn s e.localName with
    | true =>
      simp only [hbegins, Option.some.injEq] at hfind
      subst hfind
      exact ⟨r, nested, hr, hnested, by rw [if_pos rfl]; exact congrFun (id_map _).symm _⟩
    | false =>
      simp only [hbegins] at hfind
      exact @ih d steps { st with registry := r } f h hd (fun w hw => hsub w (List.mem_cons_of_mem v hw)) hpeek hr hfind
  | @choice owner v rest variants front leaves hinline hnested hflat _ ihfront ih =>
    have hv := hsub v List.mem_cons_self
    have hinner := h.inline hd hv hinline
    obtain ⟨r, hr, hread⟩ := Decoding.readVariants_cons
      (Decoding.readContent context (steps + f.around.length)) owner e.localName h hd hv hnested rest hover
    have hbegins := hinner.beginsIn_ways hinline hnested (hflat.map_outermost hinner hnested (fun _ => id) e.localName)
    rw [List.find?_append, List.find?_map] at hfind
    change Option.or (Option.map _ (front.find? (·.leaf.beginsIn s e.localName))) _ = _ at hfind
    rw [hread, hbegins]
    cases hfront : front.find? (·.leaf.beginsIn s e.localName) with
    | none =>
      rw [hfront] at hfind
      exact @ih d steps { st with registry := r } f h hd (fun w hw => hsub w (List.mem_cons_of_mem v hw)) hpeek hr hfind
    | some g =>
      rw [hfront] at hfind
      cases hfind
      obtain ⟨r', nested, hr', hnested', hfrontRead⟩ := @ihfront _ steps { st with registry := r } g hinner hnested
        (fun _ => id) hpeek hr hfront
      refine ⟨r', nested, hr', hnested', ?_⟩
      have hcontent : Decoding.readContent context (steps + (g.within v).around.length) ⟨v.type, .choice variants⟩
          { st with registry := r } =
            (g.build <$> Decoding.readVariant (Decoding.readContent context steps) g.owner g.leaf nested)
              { st with registry := r' } :=
        (@Decoding.readContent_choice v.type variants { st with registry := r } e st.cursor hpeek context _).trans
          hfrontRead
      rw [if_pos (show (some g).isSome = true from rfl), Decoding.readVariant, hinline]
      refine (congrFun (bind_pure_comp v.build _) _).trans ((map_eq_of_eq v.build hcontent).trans ?_)
      exact congrFun (comp_map g.build v.build _).symm _

/-! ### The two scans -/

/-- **Matching a choice and reading it agree.** An element is found to begin a value of a choice exactly if reading the
choice there goes on with a variant, and the variant is the first that the element begins: one that bears its name, or
an inline one whose type matches. Through inline choices it is the first of all variants at the ends of the ways, as a
list: what is read is that variant, and the variants on the way are built around what comes of it. -/
theorem readContent_selects (h : s.CanMatch type) (hd : Descriptor.compile s type = .ok ⟨type, .choice variants⟩)
    (e : Element) :
    (∀ v ∈ variants, v.dispatch = .inline → ∃ nested, Descriptor.compile s v.type = .ok nested ∧
      ∀ r : Registry, r.Over s →
        ∃ r', nested.begins e.localName r = .ok (v.beginsIn s e.localName) r' ∧ r'.Over s) ∧
    (∀ r : Registry, r.Over s → ∃ r', Descriptor.begins e.localName ⟨type, .choice variants⟩ r =
      .ok (variants.find? (·.beginsIn s e.localName)).isSome r' ∧ r'.Over s) ∧
    (∀ (context : Context) (steps : Nat) (st : Decoder) (cursor : Cursor), st.registry.Over s →
      Cursor.peekStart st.cursor = .ok (some e) cursor →
      Decoding.Selects s (Decoding.readContent context steps) type e.localName { st with cursor }
        (Decoding.readContent context (steps + 1) ⟨type, .choice variants⟩ st)
        (variants.find? (·.beginsIn s e.localName))) ∧
    (∃ leaves, s.Flattens type variants leaves) ∧
    ∀ leaves, s.Flattens type variants leaves →
      (leaves.find? (·.leaf.beginsIn s e.localName)).map FlatVariant.outermost =
        variants.find? (·.beginsIn s e.localName) ∧
      ∀ f, leaves.find? (·.leaf.beginsIn s e.localName) = some f →
        f.around.length < Descriptor.chainBound s ∧
        ∀ (context : Context) (steps : Nat) (st : Decoder) (cursor : Cursor), st.registry.Over s →
          Cursor.peekStart st.cursor = .ok (some e) cursor →
          ∃ (r : Registry) (nested : Descriptor), r.Over s ∧ Descriptor.compile s f.leaf.type = .ok nested ∧
            Decoding.readContent context (steps + f.around.length + 1) ⟨type, .choice variants⟩ st =
              (f.build <$> Decoding.readVariant (Decoding.readContent context steps) f.owner f.leaf nested)
                ⟨r, cursor, st.nonces⟩ := by
  refine ⟨fun v hv hinline => ?_, fun r hr => ?_, fun context steps st cursor hover hpeek => ?_,
    h.exists_flattens hd (fun _ => id), fun leaves hflat => ⟨hflat.map_outermost h hd (fun _ => id) e.localName, ?_⟩⟩
  · obtain ⟨nested, hnested⟩ := h.compile_variant hd hv
    refine ⟨nested, hnested, ?_⟩
    rw [Variant.beginsIn, hinline, hnested]
    exact ((h.inline hd hv hinline).begins_ok hnested e.localName).2
  · rw [← h.beginsIn_choice hd]
    exact (h.begins_ok hd e.localName).2 r hr
  · rw [Decoding.readContent_choice hpeek]
    exact Decoding.selects_readVariants _ type e.localName h hd (fun _ => id) hover
  · intro f hfind
    have hmem := List.mem_of_find?_eq_some hfind
    have hlength := hflat.length_around_le h hd (fun _ => id) (List.forall_mem_nil _) f hmem
    have hbound := Nat.lt_of_le_of_lt hlength (Descriptor.length_unmet_nil_lt s)
    refine ⟨hbound, fun context steps st cursor hover hpeek => ?_⟩
    rw [Decoding.readContent_choice hpeek]
    exact @Schema.Flattens.readVariants s type _ variants leaves context steps { st with cursor } e f hflat h hd
      (fun _ => id) (Cursor.peekStart_again hpeek) hover hfind

/-- A schema can be matched where it is closed, and a rank falls from each type to those that matching goes on to. -/
theorem Schema.canMatch_of_rank {types : List TypeName} {rank : TypeName → Nat} {root : TypeName} (hroot : root ∈ types)
    (hclosed : (types.all fun type => (Descriptor.compile s type).toOption.any fun d =>
      d.parts.all types.contains) = true)
    (hranks : s.types.all (fun t => (Descriptor.compile s t.1).toOption.all (s.ranks rank)) = true) :
    s.CanMatch root := by
  refine ⟨fun type htype => ?_, ?_⟩
  · have hreach : s.Reaches root type := by
      induction htype with
      | refl => exact .refl
      | tail _ hn ih => exact hn.reaches ih
    obtain ⟨d, hd, _⟩ := @Schema.exists_of_closed s root type types (fun _ => true) hroot hclosed hreach
    exact ⟨d, hd⟩
  · have hfalls : Subrelation (fun inner outer => s.Consults outer inner) (InvImage (· < ·) rank) :=
      fun hn => hn.nests.rank_lt hranks
    exact hfalls.accessible ((InvImage.wf rank Nat.lt_wfRel.wf).apply root)

/-- A choice whose first variant is a choice in turn, of a number and of a pair with no element around. -/
def layeredSchema : Schema := ⟨[
  (⟨"", "Outer"⟩, ⟨.choice, none, false, [],
    [⟨1, .inline, ⟨"", "Inner"⟩, none⟩, ⟨2, .element "B", .xsd "int", none⟩], []⟩),
  (⟨"", "Inner"⟩, ⟨.choice, none, false, [],
    [⟨1, .element "A", .xsd "int", none⟩, ⟨2, .inline, ⟨"", "Pair"⟩, none⟩], []⟩),
  (⟨"", "Pair"⟩, ⟨.sequence, none, false,
    [⟨"B", .xsd "int", false, false, false, false⟩, ⟨"C", .xsd "int", false, false, false, false⟩], [], []⟩)]⟩

def layeredRank (type : TypeName) : Nat :=
  if type.localName = "Outer" then 2 else if type.localName = "Inner" then 1 else 0

/-- The pair comes first: its first number is found through both choices, in front of the variant of that name. -/
theorem readContent_selects_layered :
    layeredSchema.CanMatch ⟨"", "Outer"⟩ ∧
    ∃ d, Descriptor.compile layeredSchema ⟨"", "Outer"⟩ = .ok d ∧
      (∃ r', d.begins "B" (.ofSchema layeredSchema) = .ok true r') ∧
      ∀ (e : Element) (context : Context) (steps : Nat) (st : Decoder) (cursor : Cursor), e.localName = "B" →
        st.registry.Over layeredSchema → Cursor.peekStart st.cursor = .ok (some e) cursor →
        ∃ (r : Registry) (nested : Descriptor), Descriptor.compile layeredSchema ⟨"", "Pair"⟩ = .ok nested ∧
          Decoding.readContent context (steps + 2) d st =
            (Value.choice 1 <$> Decoding.readVariant (Decoding.readContent context steps) ⟨"", "Inner"⟩
              ⟨2, .inline, ⟨"", "Pair"⟩, none⟩ nested) ⟨r, cursor, st.nonces⟩ := by
  have hmatch : layeredSchema.CanMatch ⟨"", "Outer"⟩ :=
    @Schema.canMatch_of_rank _ [⟨"", "Outer"⟩, ⟨"", "Inner"⟩, ⟨"", "Pair"⟩, .xsd "int"] layeredRank _ (by decide)
      (by decide +kernel) (by decide +kernel)
  have hd : Descriptor.compile layeredSchema ⟨"", "Outer"⟩ = .ok ⟨⟨"", "Outer"⟩,
      .choice [⟨1, .inline, ⟨"", "Inner"⟩, none⟩, ⟨2, .element "B", .xsd "int", none⟩]⟩ := rfl
  have hinner : Descriptor.compile layeredSchema ⟨"", "Inner"⟩ = .ok ⟨⟨"", "Inner"⟩,
      .choice [⟨1, .element "A", .xsd "int", none⟩, ⟨2, .inline, ⟨"", "Pair"⟩, none⟩]⟩ := rfl
  have hpair := @Descriptor.compile_of_isSequence layeredSchema ⟨"", "Pair"⟩
    [⟨"B", .xsd "int", false, false, false, false⟩, ⟨"C", .xsd "int", false, false, false, false⟩] [] false
    (by decide +kernel)
  have hflat : layeredSchema.Flattens ⟨"", "Outer"⟩ _
      [⟨[⟨1, .inline, ⟨"", "Inner"⟩, none⟩], ⟨"", "Inner"⟩, ⟨1, .element "A", .xsd "int", none⟩⟩,
        ⟨[⟨1, .inline, ⟨"", "Inner"⟩, none⟩], ⟨"", "Inner"⟩, ⟨2, .inline, ⟨"", "Pair"⟩, none⟩⟩,
        ⟨[], ⟨"", "Outer"⟩, ⟨2, .element "B", .xsd "int", none⟩⟩] :=
    .choice (v := ⟨1, .inline, ⟨"", "Inner"⟩, none⟩) rfl hinner
      (.leaf (fun h => nomatch h) (.leaf (fun _ d hd' => by rw [hpair] at hd'; cases hd'; rfl) .nil))
      (.leaf (v := ⟨2, .element "B", .xsd "int", none⟩) (fun h => nomatch h) .nil)
  have hfirst : Variant.beginsIn layeredSchema "B" ⟨1, .inline, ⟨"", "Inner"⟩, none⟩ = true := by decide +kernel
  have hleaf : Variant.beginsIn layeredSchema "B" ⟨2, .inline, ⟨"", "Pair"⟩, none⟩ = true := by decide +kernel
  refine ⟨hmatch, _, hd, ?_, fun e context steps st cursor hname hover hpeek => ?_⟩
  · obtain ⟨-, hbegins, -⟩ := readContent_selects hmatch hd ⟨"B", none, [], none⟩
    obtain ⟨r', hr', -⟩ := hbegins _ (Registry.over_ofSchema layeredSchema)
    rw [List.find?_cons, hfirst] at hr'
    exact ⟨r', hr'⟩
  · obtain ⟨-, -, -, -, hleaves⟩ := readContent_selects hmatch hd e
    rw [hname] at hleaves
    obtain ⟨-, hread⟩ := (hleaves _ hflat).2 ⟨[⟨1, .inline, ⟨"", "Inner"⟩, none⟩], ⟨"", "Inner"⟩,
      ⟨2, .inline, ⟨"", "Pair"⟩, none⟩⟩ (by
        rw [List.find?_cons_of_neg (by decide)]
        exact List.find?_cons_of_pos hleaf)
    obtain ⟨r, nested, -, hnested, hread⟩ := hread context steps st cursor hover hpeek
    exact ⟨r, nested, hnested, hread⟩

end SoapBinding
