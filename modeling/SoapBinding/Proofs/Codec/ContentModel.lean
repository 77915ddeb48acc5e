import SoapBinding.Proofs.Descriptor
import SoapBinding.Proofs.Xml.Passing

/-!
# Content models

The properties of a sequence are a content model: children in consecutive groups, one group for each property in order
(`Splits`). A plain property asks for one child of its name, an optional one for at most one, a repeated one for any number.

A reader that goes from property to property takes as many children as the property allows (`Property.Takes`). Where names
are distinct, this is the only way to split the children (`Takes.splits_iff`), and children that do not fit have a first
place where they do not (`exists_misfits`): a plain property whose element does not come next, or a child behind the last
property.
-/

namespace SoapBinding

open Xml (Element Node)

/-- The properties of a sequence type in order: its own behind those that it inherits. -/
inductive Schema.HasProperties (s : Schema) : TypeName → List Property → Prop
  | root {type : TypeName} {d : Definition} (hd : s.describe? type = some d) (hbase : d.base = none) :
      HasProperties s type d.properties
  | derived {type base : TypeName} {d : Definition} {inherited : List Property} (hd : s.describe? type = some d)
      (hbase : d.base = some base) (hinherited : HasProperties s base inherited) :
      HasProperties s type (inherited ++ d.properties)

/-- What is found on the way from a base comes in front. -/
theorem Descriptor.exists_of_inheritedProperties {s : Schema} {type : TypeName} {met : List TypeName} {next : Option TypeName}
    {own properties : List Property} (h : inheritedProperties s type met next own = .ok properties) :
    ∃ inherited, properties = inherited ++ own ∧
      (next = none ∧ inherited = [] ∨ ∃ base, next = some base ∧ s.HasProperties base inherited) := by
  fun_induction inheritedProperties s type met next own with
  | case1 met own =>
    cases h
    exact ⟨[], rfl, .inl ⟨rfl, rfl⟩⟩
  | case2 => cases h
  | case3 => cases h
  | case4 => cases h
  | case5 met own base hmet d hd hlayout ih =>
    obtain ⟨inherited, rfl, hinherited⟩ := ih h
    refine ⟨inherited ++ d.properties, (List.append_assoc ..).symm, .inr ⟨base, rfl, ?_⟩⟩
    obtain ⟨hbase, rfl⟩ | ⟨further, hbase, hfurther⟩ := hinherited
    · exact .root hd hbase
    · exact .derived hd hbase hfurther

/-- A sequence type has the properties of its bases, and then its own. -/
theorem Descriptor.hasProperties_of_compile {s : Schema} {type : TypeName} {d : Descriptor} {properties : List Property}
    {subtypes : List TypeName} {isAbstract : Bool} (h : compile s type = .ok d)
    (hshape : d.shape = .sequence properties subtypes isAbstract) : s.HasProperties type properties := by
  obtain ⟨_, rfl⟩ | ⟨definition, all, hdescribe, -, hall, rfl⟩ | ⟨_, -, -, rfl⟩ := compile_cases h
  · cases hshape
  · cases hshape
    rw [allProperties] at hall
    cases hinherited : inheritedProperties s type [type] definition.base definition.properties with
    | error fault =>
      rw [hinherited] at hall
      cases hall
    | ok found =>
      rw [hinherited] at hall
      obtain rfl : found = properties := by
        change (if _ then _ else _ : Except SchemaFault (List Property)) = _ at hall
        split at hall
        · cases hall
        · exact Except.ok.inj hall
      obtain ⟨inherited, rfl, ⟨hbase, rfl⟩ | ⟨base, hbase, hbaseProperties⟩⟩ := exists_of_inheritedProperties hinherited
      · exact .root hdescribe hbase
      · exact .derived hdescribe hbase hbaseProperties
  · cases hshape

/-- A child element, with the blank text in front of it. -/
structure Child where
  /-- The start tag. -/
  element : Element
  /-- All nodes, from the blank text up to the end tag. -/
  nodes : List Node
  isElement : Node.AreElement element nodes

namespace Property

/-- A plain property asks for its element: it is neither optional nor repeated. -/
def IsRequired (p : Property) : Prop := p.repeated = false ∧ p.optional = false

/-- A number of elements is what a property asks for. -/
def Allows (p : Property) (n : Nat) : Prop :=
  if p.repeated then True else if p.optional then n ≤ 1 else n = 1

variable {p : Property} {m n : Nat}

theorem Allows.succ_of_lt (hn : p.Allows n) (hm : p.Allows m) (h : n < m) : p.Allows (n + 1) := by
  unfold Allows at *
  split at hn
  · next hrepeated =>
    rw [if_pos hrepeated]
    trivial
  · next hrepeated =>
    rw [if_neg hrepeated] at hm ⊢
    split at hn
    · next hoptional =>
      rw [if_pos hoptional] at hm ⊢
      omega
    · next hoptional =>
      rw [if_neg hoptional] at hm
      omega

theorem IsRequired.allows_iff (h : p.IsRequired) : p.Allows n ↔ n = 1 := by
  rw [Allows, h.1, h.2]
  rfl

/-- A property takes as many children as it can. -/
structure Takes (p : Property) (cs group rest : List Child) : Prop where
  eq : cs = group ++ rest
  allows : p.Allows group.length
  named : ∀ c ∈ group, c.element.localName = p.name
  maximal : p.Allows (group.length + 1) → ∀ c ∈ rest.head?, c.element.localName ≠ p.name

end Property

/-- Children stand in consecutive groups, one for each property in order. Each group is of the size that the property asks
for, and each child in it bears the name of the property and is acceptable. -/
def Splits (accepts : Property → Child → Prop) : List Property → List Child → Prop
  | [], cs => cs = []
  | p :: ps, cs => ∃ group rest, cs = group ++ rest ∧ p.Allows group.length ∧
      (∀ c ∈ group, c.element.localName = p.name ∧ accepts p c) ∧ Splits accepts ps rest

/-- The names of children fit properties. -/
def Fits (ps : List Property) (cs : List Child) : Prop := Splits (fun _ _ => True) ps cs

variable {accepts : Property → Child → Prop} {p : Property} {ps : List Property} {cs group rest group' rest' : List Child}

theorem Splits.fits (h : Splits accepts ps cs) : Fits ps cs := by
  induction ps generalizing cs with
  | nil => exact h
  | cons p ps ih =>
    obtain ⟨group, rest, rfl, hallows, hgroup, hrest⟩ := h
    exact ⟨group, rest, rfl, hallows, fun c hc => ⟨(hgroup c hc).1, trivial⟩, ih hrest⟩

/-- Each child bears the name of one of the properties. -/
theorem Splits.name_mem (h : Splits accepts ps cs) : ∀ c ∈ cs, c.element.localName ∈ ps.map (·.name) := by
  induction ps generalizing cs with
  | nil =>
    rw [show cs = [] from h]
    exact List.forall_mem_nil _
  | cons p ps ih =>
    obtain ⟨group, rest, rfl, -, hgroup, hrest⟩ := h
    intro c hc
    rw [List.map_cons]
    rcases List.mem_append.1 hc with hc | hc
    · exact List.mem_cons.2 (.inl (hgroup c hc).1)
    · exact List.mem_cons_of_mem _ (ih hrest c hc)

namespace Property

/-- There is one way only to take as many children as possible. -/
theorem Takes.unique (h : p.Takes cs group rest) (h' : p.Takes cs group' rest') : group = group' ∧ rest = rest' := by
  -- A group with more children is one that the other could have gone on with.
  have hshort {group rest more rest' : List Child} (h : p.Takes cs group rest) (h' : p.Takes cs (group ++ more) rest')
      (hrest : rest = more ++ rest') : more = [] := by
    cases more with
    | nil => rfl
    | cons c more =>
      have hallows := h.allows.succ_of_lt h'.allows (by simp)
      exact absurd (h'.named c (by simp)) (h.maximal hallows c (by simp [hrest]))
  rcases List.append_eq_append_iff.1 (h.eq.symm.trans h'.eq) with ⟨more, rfl, hrest⟩ | ⟨more, rfl, hrest⟩
  · obtain rfl := hshort h h' hrest
    exact ⟨(List.append_nil _).symm, hrest⟩
  · obtain rfl := hshort h' h hrest
    exact ⟨List.append_nil _, hrest.symm⟩

/-- A group in front of children of other names is taken. -/
theorem takes_of_splits (hallows : p.Allows group.length) (hnamed : ∀ c ∈ group, c.element.localName = p.name)
    (hrest : ∀ c ∈ rest.head?, c.element.localName ≠ p.name) : p.Takes (group ++ rest) group rest :=
  ⟨rfl, hallows, hnamed, fun _ => hrest⟩

/-- What a property takes is its group. -/
theorem Takes.splits_iff (h : p.Takes cs group rest) (hname : p.name ∉ ps.map (·.name)) :
    Splits accepts (p :: ps) cs ↔ (∀ c ∈ group, accepts p c) ∧ Splits accepts ps rest := by
  constructor
  · rintro ⟨group', rest', rfl, hallows, hgroup, hrest⟩
    have hother : ∀ c ∈ rest'.head?, c.element.localName ≠ p.name := fun c hc heq =>
      hname (heq ▸ hrest.name_mem c (List.mem_of_mem_head? hc))
    have h' := takes_of_splits hallows (fun c hc => (hgroup c hc).1) hother
    obtain ⟨rfl, rfl⟩ := h.unique h'
    exact ⟨fun c hc => (hgroup c hc).2, hrest⟩
  · rintro ⟨hgroup, hrest⟩
    exact ⟨group, rest, h.eq, h.allows, fun c hc => ⟨h.named c hc, hgroup c hc⟩, hrest⟩

/-- A plain property may lack its element. Every other one takes what there is. -/
theorem takes_or_lacks (p : Property) (cs : List Child) :
    (∃ group rest, p.Takes cs group rest) ∨ p.IsRequired ∧ ∀ c ∈ cs.head?, c.element.localName ≠ p.name := by
  by_cases hrepeated : p.repeated = true
  · have hany (n : Nat) : p.Allows n := by
      rw [Allows, if_pos hrepeated]
      trivial
    refine .inl ⟨cs.takeWhile (·.element.localName = p.name), cs.dropWhile (·.element.localName = p.name),
      List.takeWhile_append_dropWhile.symm, hany _, fun c hc => ?_, fun _ c hc => ?_⟩
    · simpa using List.all_eq_true.1 List.all_takeWhile c hc
    · have := List.head?_dropWhile_not (fun c : Child => decide (c.element.localName = p.name)) cs
      rw [hc] at this
      simpa using this
  · have hone : p.Allows 1 := by
      rw [Allows, if_neg hrepeated]
      split <;> simp
    have htwo : ¬p.Allows 2 := by
      rw [Allows, if_neg hrepeated]
      split <;> simp
    by_cases hnext : ∃ c rest, cs = c :: rest ∧ c.element.localName = p.name
    · obtain ⟨c, rest, rfl, hc⟩ := hnext
      exact .inl ⟨[c], rest, rfl, hone, by simpa using hc, fun h => absurd h htwo⟩
    · have hother : ∀ c ∈ cs.head?, c.element.localName ≠ p.name := by
        rintro c hc heq
        obtain ⟨rest, rfl⟩ := List.head?_eq_some_iff.1 hc
        exact hnext ⟨c, rest, rfl, heq⟩
      by_cases hoptional : p.optional = true
      · refine .inl ⟨[], cs, rfl, ?_, List.forall_mem_nil _, fun _ => hother⟩
        rw [Allows, if_neg hrepeated, if_pos hoptional]
        exact Nat.zero_le 1
      · exact .inr ⟨⟨Bool.eq_false_iff.2 hrepeated, Bool.eq_false_iff.2 hoptional⟩, hother⟩

/-- Without the element of a plain property, children do not fit. -/
theorem IsRequired.not_splits (hp : p.IsRequired) (hlacks : ∀ c ∈ cs.head?, c.element.localName ≠ p.name) :
    ¬Splits accepts (p :: ps) cs := by
  rintro ⟨group, rest, rfl, hallows, hgroup, -⟩
  obtain ⟨c, rfl⟩ := List.length_eq_one_iff.1 (hp.allows_iff.1 hallows)
  exact hlacks c rfl (hgroup c List.mem_cons_self).1

/-- A plain property that takes something takes the next child. -/
theorem IsRequired.not_lacks (hp : p.IsRequired) (h : p.Takes cs group rest) :
    ∃ c ∈ cs.head?, c.element.localName = p.name := by
  obtain ⟨c, rfl⟩ := List.length_eq_one_iff.1 (hp.allows_iff.1 h.allows)
  obtain rfl := h.eq
  exact ⟨c, rfl, h.named c List.mem_cons_self⟩

end Property

/-! ### Misfits -/

/-- What is wrong with children that do not fit. -/
inductive Misfit where
  /-- The element of a plain property is missing behind the last child. -/
  | missing (p : Property)
  /-- Another child stands where the element of a plain property has to be. -/
  | unexpected (x : Child) (p : Property)
  /-- A child is left over behind the last property. -/
  | leftOver (x : Child)

/-- The fault that a misfit is, in an element read as a value of a type. -/
def Misfit.fault (type : TypeName) (element : String) : Misfit → ContentFault
  | .missing p => .missingElement p.name (some type)
  | .unexpected x p => .wrongElement x.element.localName p.name (some type)
  | .leftOver x => .strayElement x.element.localName (some element)

/-- Properties take the children in front of the one given, or all children if there is none, and cannot go on with it. -/
def Halts (accepts : Property → Child → Prop) (done : List Property) (cs : List Child) (next : Option Child) : Prop :=
  ∃ before after, cs = before ++ after ∧ after.head? = next ∧ Splits accepts done before ∧
    ∀ x ∈ next, ¬Fits done (before ++ [x])

/-- The first place where children do not fit. Those in front of it are acceptable. -/
def Misfits (accepts : Property → Child → Prop) (ps : List Property) (cs : List Child) : Misfit → Prop
  | .missing p => ∃ done later, ps = done ++ p :: later ∧ p.IsRequired ∧ Halts accepts done cs none
  | .unexpected x p => ∃ done later, ps = done ++ p :: later ∧ p.IsRequired ∧ Halts accepts done cs (some x) ∧
      x.element.localName ≠ p.name
  | .leftOver x => Halts accepts ps cs (some x)

variable {next : Option Child} {misfit : Misfit}

/-- No property goes on with nothing. -/
theorem halts_nil : Halts accepts [] cs next ↔ cs.head? = next := by
  constructor
  · rintro ⟨before, after, rfl, hnext, hbefore, -⟩
    obtain rfl : before = [] := hbefore
    exact hnext
  · intro h
    refine ⟨[], cs, rfl, h, rfl, fun x _ hfits => ?_⟩
    cases (show [] ++ [x] = [] from hfits)

namespace Property

/-- Behind the children that a property takes, it is for the other properties to go on. -/
theorem Takes.halts_iff (h : p.Takes cs group rest) (hname : p.name ∉ ps.map (·.name)) :
    Halts accepts (p :: ps) cs next ↔ (∀ c ∈ group, accepts p c) ∧ Halts accepts ps rest next := by
  constructor
  · rintro ⟨before, after, hcs, hnext, ⟨group', rest', rfl, hallows, hgroup, hrest⟩, hstop⟩
    have hfits : ∀ x, Fits ps (rest' ++ [x]) → Fits (p :: ps) (group' ++ rest' ++ [x]) := fun x hx =>
      ⟨group', rest' ++ [x], List.append_assoc .., hallows, fun c hc => ⟨(hgroup c hc).1, trivial⟩, hx⟩
    have htakes : p.Takes cs group' (rest' ++ after) := by
      refine ⟨hcs.trans (List.append_assoc ..), hallows, fun c hc => (hgroup c hc).1, fun hmore c hc heq => ?_⟩
      cases rest' with
      | cons d rest' =>
        obtain rfl : d = c := Option.some.inj hc
        exact hname (heq ▸ hrest.name_mem d List.mem_cons_self)
      | nil =>
        -- The next child would have been taken as well.
        refine hstop c (hnext ▸ hc) ⟨group' ++ [c], [], by simp, by simpa using hmore, ?_, hrest.fits⟩
        intro d hd
        rcases List.mem_append.1 hd with hd | hd
        · exact ⟨(hgroup d hd).1, trivial⟩
        · exact ⟨List.mem_singleton.1 hd ▸ heq, trivial⟩
    obtain ⟨rfl, rfl⟩ := h.unique htakes
    exact ⟨fun c hc => (hgroup c hc).2, rest', after, rfl, hnext, hrest, fun x hx hx' => hstop x hx (hfits x hx')⟩
  · rintro ⟨hgroup, before, after, rfl, rfl, hbefore, hstop⟩
    refine ⟨group ++ before, after, h.eq.trans (List.append_assoc ..).symm, rfl,
      ⟨group, before, rfl, h.allows, fun c hc => ⟨h.named c hc, hgroup c hc⟩, hbefore⟩, fun x hx hfits => ?_⟩
    -- With the next child and none behind it, the same group is taken.
    have htakes : p.Takes (group ++ before ++ [x]) group (before ++ [x]) := by
      refine ⟨List.append_assoc .., h.allows, h.named, fun hmore c hc => h.maximal hmore c ?_⟩
      cases before with
      | nil => exact hx.trans hc
      | cons d before => exact hc
    exact hstop x hx ((htakes.splits_iff hname).1 hfits).2

/-- Where a property takes children, what does not fit is further on. -/
theorem Takes.misfits_iff (h : p.Takes cs group rest) (hname : p.name ∉ ps.map (·.name)) :
    Misfits accepts (p :: ps) cs misfit ↔ (∀ c ∈ group, accepts p c) ∧ Misfits accepts ps rest misfit := by
  have hdone {done later : List Property} {q : Property} (hps : ps = done ++ q :: later) :
      p.name ∉ done.map (·.name) := fun hmem => hname (by simp [hps, hmem])
  -- It is not this property that lacks its element.
  have hlacks {q : Property} {later : List Property} {next : Option Child} (heq : p :: ps = [] ++ q :: later)
      (hq : q.IsRequired) (hhalts : Halts accepts [] cs next) (hnext : ∀ x ∈ next, x.element.localName ≠ q.name) : False := by
    obtain ⟨rfl, -⟩ := List.cons.inj heq
    obtain ⟨c, hc, hcname⟩ := hq.not_lacks h
    exact hnext c (halts_nil.1 hhalts ▸ hc) hcname
  cases misfit with
  | missing q =>
    constructor
    · rintro ⟨_ | ⟨p', done⟩, later, heq, hq, hhalts⟩
      · exact (hlacks heq hq hhalts nofun).elim
      · obtain ⟨rfl, hps⟩ := List.cons.inj heq
        obtain ⟨hgroup, hrest⟩ := (h.halts_iff (hdone hps)).1 hhalts
        exact ⟨hgroup, done, later, hps, hq, hrest⟩
    · rintro ⟨hgroup, done, later, hps, hq, hrest⟩
      exact ⟨p :: done, later, by rw [hps, List.cons_append], hq, (h.halts_iff (hdone hps)).2 ⟨hgroup, hrest⟩⟩
  | unexpected x q =>
    constructor
    · rintro ⟨_ | ⟨p', done⟩, later, heq, hq, hhalts, hx⟩
      · exact (hlacks heq hq hhalts (by rintro _ ⟨⟩; exact hx)).elim
      · obtain ⟨rfl, hps⟩ := List.cons.inj heq
        obtain ⟨hgroup, hrest⟩ := (h.halts_iff (hdone hps)).1 hhalts
        exact ⟨hgroup, done, later, hps, hq, hrest, hx⟩
    · rintro ⟨hgroup, done, later, hps, hq, hrest, hx⟩
      exact ⟨p :: done, later, by rw [hps, List.cons_append], hq, (h.halts_iff (hdone hps)).2 ⟨hgroup, hrest⟩, hx⟩
  | leftOver x => exact h.halts_iff hname

/-- Nothing goes on behind a plain property that lacks its element. -/
theorem IsRequired.not_halts (hp : p.IsRequired) (hlacks : ∀ c ∈ cs.head?, c.element.localName ≠ p.name) :
    ¬Halts accepts (p :: ps) cs next := by
  rintro ⟨before, after, rfl, -, hbefore, -⟩
  refine hp.not_splits (fun c hc => hlacks c ?_) hbefore
  rw [List.head?_append, Option.mem_def.1 hc]
  rfl

/-- A plain property that lacks its element is where children do not fit. -/
theorem IsRequired.misfits_iff (hp : p.IsRequired) (hlacks : ∀ c ∈ cs.head?, c.element.localName ≠ p.name) :
    Misfits accepts (p :: ps) cs misfit ↔
      cs.head? = none ∧ misfit = .missing p ∨ ∃ x, cs.head? = some x ∧ misfit = .unexpected x p := by
  cases misfit with
  | missing q =>
    constructor
    · rintro ⟨_ | ⟨p', done⟩, later, heq, -, hhalts⟩
      · obtain ⟨rfl, -⟩ := List.cons.inj heq
        exact .inl ⟨halts_nil.1 hhalts, rfl⟩
      · obtain ⟨rfl, -⟩ := List.cons.inj heq
        exact (hp.not_halts hlacks hhalts).elim
    · rintro (⟨hnone, ⟨⟩⟩ | ⟨_, -, ⟨⟩⟩)
      exact ⟨[], ps, rfl, hp, halts_nil.2 hnone⟩
  | unexpected x q =>
    constructor
    · rintro ⟨_ | ⟨p', done⟩, later, heq, -, hhalts, -⟩
      · obtain ⟨rfl, -⟩ := List.cons.inj heq
        exact .inr ⟨x, halts_nil.1 hhalts, rfl⟩
      · obtain ⟨rfl, -⟩ := List.cons.inj heq
        exact (hp.not_halts hlacks hhalts).elim
    · rintro (⟨-, ⟨⟩⟩ | ⟨_, hx, ⟨⟩⟩)
      exact ⟨[], ps, rfl, hp, halts_nil.2 hx, hlacks x hx⟩
  | leftOver x =>
    constructor
    · exact fun hhalts => (hp.not_halts hlacks hhalts).elim
    · rintro (⟨-, ⟨⟩⟩ | ⟨_, -, ⟨⟩⟩)

end Property

/-- **Children that do not fit have a first place where they do not.** -/
theorem exists_misfits (hnames : (ps.map (·.name)).Nodup) (h : ¬Fits ps cs) :
    ∃ misfit, Misfits (fun _ _ => True) ps cs misfit := by
  induction ps generalizing cs with
  | nil =>
    cases cs with
    | nil => exact absurd rfl h
    | cons x cs => exact ⟨.leftOver x, halts_nil.2 rfl⟩
  | cons p ps ih =>
    rw [List.map_cons, List.nodup_cons] at hnames
    obtain ⟨group, rest, htakes⟩ | ⟨hp, hlacks⟩ := p.takes_or_lacks cs
    · obtain ⟨misfit, hmisfit⟩ := ih hnames.2 fun hrest =>
        h ((htakes.splits_iff hnames.1).2 ⟨fun _ _ => trivial, hrest⟩)
      exact ⟨misfit, (htakes.misfits_iff hnames.1).2 ⟨fun _ _ => trivial, hmisfit⟩⟩
    · cases hnext : cs.head? with
      | none => exact ⟨.missing p, (hp.misfits_iff hlacks).2 (.inl ⟨hnext, rfl⟩)⟩
      | some x => exact ⟨.unexpected x p, (hp.misfits_iff hlacks).2 (.inr ⟨x, hnext, rfl⟩)⟩

end SoapBinding
