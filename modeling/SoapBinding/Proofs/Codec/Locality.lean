import SoapBinding.Proofs.Codec.Beginning
import SoapBinding.Proofs.Codec.Embedded
import SoapBinding.Proofs.Codec.Steps
import SoapBinding.Proofs.Xml.Passing

/-!
# Reading is local

An element is read from its own nodes (`takes_readElement`): blank text in front, and all from its start tag up to the end tag
that belongs to it. Behind it the reader stands where it has stood before, but for these nodes. The content of an element is
read from whole elements and texts, and the end tag of the element around is left (`takes_read`). What stands behind the end
tag makes no difference, and neither do the elements around.

Two pairs of places carry the proof, and each goes through all rules of the reader (`Places`):

* A cursor beside itself, with the nodes that it has passed (`Places.moving`). It tells how far the reader comes, and that at
  one place it comes as far each time. So a repeated property takes a node with each item, or it would be read without end
  (`length_readItems_le`).
* Two cursors that have the nodes up to an end tag in common (`Places.alongside`). Of these there may be fewer nodes ahead of
  the second, so that its bounds are lower. They are enough all the same: a type that leads back to itself with nothing taken
  in between is not read in any number of steps (`follows_readContent_exactly`).
-/

namespace SoapBinding

open Outcome
open Xml (Cursor Element Node Reading Span)

/-! ### Places -/

/-- A cursor that is in the same place in two runs, as it moves on inside an element. -/
def Places.moving (start : Cursor) : Places where
  one := Eq
  within n := Cursor.same (start.IsInside n)
  isCaptured h := h ▸ .refl _
  href h := by rw [h.1]
  peekStart n := Cursor.follows_same (fun r => by cases r <;> constructor; rfl) fun c r c₁ hc hok => by
    rw [Cursor.peekStart_eq hok]
    exact hc.dropBlanks
  peek n := Cursor.follows_same (fun r => by cases r <;> constructor; exact .refl _) fun c r c₁ hc hok => by
    rwa [Cursor.peek_eq hok]
  skipBlankText n := Cursor.follows_same (fun _ => trivial) fun c r c₁ hc hok => by
    cases hok
    exact hc.dropBlanks
  foldText n _ f a := Cursor.follows_same (fun _ => rfl) fun c r c₁ hc hok => hc.foldText hok
  crosses n := by
    refine ⟨Cursor.follows_same (fun _ => rfl) fun c e c₁ hc hok => hc.expectStart hok,
      Cursor.follows_same (fun _ => trivial) fun c _ c₁ hc hok => ?_,
      Cursor.follows_same (fun _ => trivial) fun c _ c₁ hc hok => ?_⟩
    · obtain ⟨inside, rest, hahead, hinside, rfl⟩ :=
        Cursor.exists_finish_of_skipToEnd (hc.opened_ne_nil (.inl (Nat.succ_pos n))) hok
      exact hc.leave hahead hinside
    · obtain ⟨inside, rest, hahead, hinside, rfl⟩ := Cursor.exists_finish_of_finishElement hok
      exact hc.leave hahead hinside

/-- Two cursors that have the nodes up to an end tag in common. -/
def Places.alongside (S : Span) (bound : Nat) : Places where
  one := Eq
  within := S.alongside bound
  isCaptured h := h ▸ .refl _
  href := by
    rintro n _ _ ⟨left, inner, -, -, -, rfl, rfl⟩
    cases inner with
    | nil => exact congrArg (Option.bind · _) S.around
    | cons e inner => rfl
  peekStart := S.follows_peekStart bound
  peek := S.follows_peek bound
  skipBlankText n := Span.follows_of_leaves fun left inner _ c₁ hleaves hbound hn hok => by
    cases hok
    refine ⟨(), _, rfl, trivial, _, inner, hleaves.dropWhile, Nat.le_trans (Span.length_dropWhile_le left) hbound, hn, ?_, ?_⟩
    · simp only [Span.first, Span.dropWhile_first]
    · simp only [Span.second, Span.dropWhile_first]
  foldText n _ f a := S.follows_foldText bound n f a
  crosses n := ⟨S.follows_expectStart bound n, S.follows_skipToEnd bound n, S.follows_finishElement bound n⟩

/-! ### The same place -/

/-- Reading twice, whatever the ids and the values. -/
def Rereading.anyhow (s : Schema) : Rereading s where
  supplies _ _ := True
  values _ _ := True
  same _ := trivial
  payload _ _ := ⟨trivial, trivial⟩
  list _ := trivial
  object _ _ := trivial
  build _ _ _ := trivial

namespace Decoding

variable {s : Schema} {context : Context} {α : Type} {type owner : TypeName} {d nested : Descriptor} {p : Property}
  {content : Descriptor → Decoding Value} {steps steps' limit : Nat} {st st₁ st₂ t : Decoder} {v : Value}
  {items : List Value} {P Q : Cursor → Prop} {R : α → α → Prop} {work : Decoding α} {a : α}

/-- Work that succeeds at a place does so there again, whatever has been compiled before and whichever ids are given, and
comes as far. -/
theorem again (h : Follows ((Rereading.anyhow s).decoders (Cursor.same P)) work work R
      ((Rereading.anyhow s).decoders (Cursor.same Q)))
    (hover : st.registry.Over s) (hP : P st.cursor) (hok : work st = .ok a t) :
    Q t.cursor ∧ t.registry.Over s ∧ ∀ registry nonces, registry.Over s →
      ∃ b t', work ⟨registry, st.cursor, nonces⟩ = .ok b t' ∧ R a b ∧ t'.cursor = t.cursor ∧ t'.registry.Over s := by
  have hagain (registry : Registry) (nonces : Nonces) (hregistry : registry.Over s) :
      Q t.cursor ∧ t.registry.Over s ∧
        ∃ b t', work ⟨registry, st.cursor, nonces⟩ = .ok b t' ∧ R a b ∧ t'.cursor = t.cursor ∧ t'.registry.Over s := by
    obtain ⟨⟨-, hlost⟩, -⟩ | ⟨b, t', hok', hR, ht, ht', -, hcursor, hQ⟩ :=
      h.follows st ⟨registry, st.cursor, nonces⟩ a t ⟨hover, hregistry, trivial, rfl, hP⟩ hok
    · exact hlost.elim
    · exact ⟨hQ, ht, b, t', hok', hR, hcursor, ht'⟩
  obtain ⟨hQ, ht, -⟩ := hagain st.registry st.nonces hover
  exact ⟨hQ, ht, fun registry nonces hregistry => (hagain registry nonces hregistry).2.2⟩

/-- Contents that are read at a place are read there again. -/
def Repeats (s : Schema) (content : Descriptor → Decoding Value) : Prop :=
  ∀ (start : Cursor) (n : Nat), (Rereading.anyhow s).ReadsAlike (Cursor.same (start.IsInside n)) content content

theorem counts_moving (start : Cursor) (content : Descriptor → Decoding Value) :
    (Rereading.anyhow s).Counts (.moving start) content := by
  rintro n owner type p nested _ st st' t items - ⟨-, -, -, hcursor, -⟩ rfl hread
  rw [hcursor]
  exact Nat.le_of_lt_succ (length_readItems_lt hread)

theorem repeats_readContent (context : Context) (steps : Nat) : Repeats s (readContent context steps) :=
  fun start n => Rereading.readsAlike_readContent (W := .moving start) (Rereading.readsTypes_eq _)
    (fun _ => counts_moving start _) (Nat.le_refl steps) n

section
variable (hcontent : Repeats s content) (hd : Descriptor.compile s type = .ok nested)
include hcontent hd

/-- An item that has been read at a place where nothing is taken would be read there without end. -/
theorem readItems_ne_ok (hover : st.registry.Over s) (hnext : comesNext p st = .ok true st₁)
    (hitem : readSingle content owner p nested st₁ = .ok v st₂) (hstay : st₂.cursor = st.cursor) (limit : Nat)
    {st' : Decoder} (hover' : st'.registry.Over s) (hplace : st'.cursor = st.cursor) :
    readItems content owner p nested limit st' ≠ .ok items t := by
  have htypes : (Rereading.anyhow s).ReadsTypes Eq := Rereading.readsTypes_eq _
  obtain ⟨-, hover₁, hnext'⟩ := again (Rereading.follows_comesNext (W := .moving st.cursor) p 0) hover .self hnext
  obtain ⟨-, -, hitem'⟩ := again (Rereading.follows_readSingle (W := .moving st₁.cursor) (hcontent _) htypes hd 0) hover₁
    .self hitem
  -- Each item leads back to the same place, with one step less to go.
  induction limit generalizing st' items t with
  | zero => nofun
  | succ limit ih =>
    intro hread
    obtain ⟨registry', cursor', nonces'⟩ := st'
    obtain rfl : cursor' = st.cursor := hplace
    obtain ⟨_, st₁', hok₁, rfl, hcursor₁, hregistry₁⟩ := hnext' registry' nonces' hover'
    obtain ⟨v', st₂', hok₂, -, hcursor₂, hregistry₂⟩ := hitem' st₁'.registry st₁'.nonces hregistry₁
    rw [readItems, bind_ok hok₁, if_pos rfl] at hread
    rw [← hcursor₁] at hok₂
    rw [bind_ok hok₂] at hread
    obtain ⟨rest, t', hrest, -⟩ := bind_eq_ok.1 hread
    exact ih hregistry₂ (hcursor₂.trans hstay) hrest

/-- **Each item takes a node at least.** -/
theorem length_readItems_le (hover : st.registry.Over s) (hread : readItems content owner p nested limit st = .ok items t) :
    items.length + t.cursor.ahead.length ≤ st.cursor.ahead.length := by
  have htypes : (Rereading.anyhow s).ReadsTypes Eq := Rereading.readsTypes_eq _
  induction limit generalizing st items t with
  | zero => cases hread
  | succ limit ih =>
    obtain ⟨next, st₁, hnext, hread⟩ := bind_eq_ok.1 hread
    obtain ⟨⟨passed₁, _, hmoved₁, -⟩, hover₁, -⟩ :=
      again (Rereading.follows_comesNext (W := .moving st.cursor) p 0) hover .self hnext
    have hlength₁ := congrArg List.length hmoved₁.ahead
    rw [List.length_append] at hlength₁
    split at hread
    · next htrue =>
      obtain ⟨item, st₂, hitem, hread⟩ := bind_eq_ok.1 hread
      obtain ⟨rest, st₃, hrest, hread⟩ := bind_eq_ok.1 hread
      cases hread
      obtain ⟨⟨passed₂, _, hmoved₂, -⟩, hover₂, -⟩ := again
        (Rereading.follows_readSingle (W := .moving st₁.cursor) (hcontent _) htypes hd 0) hover₁ .self hitem
      have hlength₂ := congrArg List.length hmoved₂.ahead
      rw [List.length_append] at hlength₂
      have hless : st₂.cursor.ahead.length < st.cursor.ahead.length := by
        -- With nothing taken, the items behind this one are read at the same place.
        by_contra hstay
        have hstay₁ := hmoved₁.eq_of_length (by omega)
        have hstay₂ := (hmoved₂.eq_of_length (by omega)).trans hstay₁
        rw [htrue] at hnext
        exact readItems_ne_ok hcontent hd hover hnext hitem hstay₂ limit hover₂ hstay₂ hrest
      have hrestLength := ih hover₂ hrest
      rw [List.length_cons]
      omega
    · cases hread
      rw [List.length_nil]
      omega

end

/-! ### Fewer nodes and fewer steps -/

/-- The content of a type can be read at a place in a number of steps, whatever has been compiled before and whichever ids
are given. -/
def Succeeds (s : Schema) (context : Context) (steps : Nat) (type : TypeName) (c : Cursor) : Prop :=
  ∃ (d : Descriptor) (st t : Decoder) (v : Value), Descriptor.compile s type = .ok d ∧ st.registry.Over s ∧ st.cursor = c ∧
    readContent context steps d st = .ok v t

/-- More steps do as well. -/
theorem readContent_of_le (h : readContent context steps d st = .ok v t) (hle : steps ≤ steps') :
    readContent context steps' d st = .ok v t := by
  have hends (st' : Decoder) : readContent context steps d st ≠ .error .endless st' := by
    rw [h]
    exact nofun
  rw [← (refines_readContent context hle d).eq_of_ends hends, h]

theorem Succeeds.of_le {c : Cursor} (h : Succeeds s context steps type c) (hle : steps ≤ steps') :
    Succeeds s context steps' type c := by
  obtain ⟨d, st, t, v, hd, hover, hcursor, hread⟩ := h
  exact ⟨d, st, t, v, hd, hover, hcursor, readContent_of_le hread hle⟩

/-- Where fewer steps do, more of them give nothing else. -/
theorem Succeeds.readContent_eq (h : Succeeds s context steps type st.cursor) (hd : Descriptor.compile s type = .ok d)
    (hover : st.registry.Over s) (hle : steps ≤ steps') (hread : readContent context steps' d st = .ok v t) :
    readContent context steps d st = .ok v t := by
  obtain ⟨d', st', t', v', hd', hover', hcursor, hread'⟩ := h
  rw [hd] at hd'
  cases hd'
  obtain ⟨-, -, hagain⟩ := again (repeats_readContent context steps st'.cursor 0 hd) hover' .self hread'
  rw [hcursor] at hagain
  obtain ⟨w, u, hless, -⟩ := hagain st.registry st.nonces hover
  exact hless.trans ((readContent_of_le hless hle).symm.trans hread)

section
variable {L : Rereading s} {S : Span} {left : List Node} {inner : List Element} {bound n : Nat}

/-- Two places that have nodes in common are taken one by one. -/
theorem follows_alongside {work work' : Decoding Value}
    (h : ∀ left inner, S.Leaves left inner → left.length ≤ bound → inner.length = n →
      Follows (L.decoders (Cursor.exactly (S.first left inner) (S.second left inner))) work work' L.values
        (L.decoders (S.alongside left.length n))) :
    Follows (L.decoders (S.alongside bound n)) work work' L.values (L.decoders (S.alongside bound n)) := by
  constructor
  · rintro _ _ _ ⟨-, hlost⟩
    exact hlost.elim
  · rintro st st' v t ⟨hover, hover', hsupplies, left, inner, hleaves, hbound, hn, hcursor, hcursor'⟩ hok
    have hhere := (h left inner hleaves hbound hn).adapt (.refl _) (L.decoders_implies (S.alongside_implies hbound))
    exact hhere.follows st st' v t ⟨hover, hover', hsupplies, hcursor, hcursor'⟩ hok

/-- As many items as are read in the first place, there are nodes in the second: they are read from the nodes in common. -/
theorem counts_alongside (hcontent : Repeats s content) (S : Span) (bound : Nat) :
    L.Counts (.alongside S bound) content := by
  rintro n owner type p nested _ st st' t items hd ⟨hover, -, -, left, inner, hleaves, -, -, hcursor, hcursor'⟩ rfl hread
  have hlength := length_readItems_le hcontent hd hover hread
  have htypes : (Rereading.anyhow s).ReadsTypes Eq := Rereading.readsTypes_eq _
  -- The items are whole elements and texts, so they end in front of the end tag.
  obtain ⟨⟨passed, _, hmoved, hinner⟩, -⟩ := again (Rereading.follows_readItems (W := .moving st.cursor) (hcontent _) htypes hd
    0 (Nat.le_refl _)) hover .self hread
  obtain rfl := List.eq_nil_of_length_eq_zero hinner
  have hwhole : Node.AreWhole passed := hmoved.leaves
  have hahead := hmoved.ahead
  rw [hcursor] at hahead
  obtain ⟨between, -, hbetween, -⟩ := hleaves.split _ hahead (hwhole.leaves? inner)
  rw [hbetween, hcursor] at hlength
  rw [hcursor']
  simp only [Span.first, Span.second, List.length_append, List.length_cons] at hlength ⊢
  omega

/-- **Content is read from what the places have in common**, in as many steps as the nodes ask for that are left, and the types
of the schema that have not been met on the way from the last of them. A type that has been met leads to itself with nothing
taken in between, and is not read at all. -/
theorem follows_readContent_exactly (htypes : L.ReadsTypes Eq) (met : List TypeName) (hleaves : S.Leaves left inner)
    (hd : Descriptor.compile s type = .ok d) (hmet : ∀ u ∈ met, ¬Succeeds s context steps u (S.first left inner))
    (hsteps : left.length * Descriptor.chainBound s + (Descriptor.unmet s met).length < steps') :
    Follows (L.decoders (Cursor.exactly (S.first left inner) (S.second left inner))) (readContent context steps d)
      (readContent context steps' d) L.values (L.decoders (S.alongside left.length inner.length)) := by
  induction steps generalizing steps' met type d left inner with
  | zero => exact .throw
  | succ steps ih =>
    have himplies : (Cursor.exactly (S.first left inner) (S.second left inner)).Implies
        (S.alongside left.length inner.length) :=
      ⟨fun c c' h => ⟨left, inner, hleaves, Nat.le_refl _, rfl, h.1, h.2⟩, fun _ => id⟩
    by_cases hless : Succeeds s context steps type (S.first left inner)
    · -- Fewer steps do, so that the last one does not count.
      have hfewer := ih met hleaves hd (fun u hu h => hmet u hu (h.of_le (Nat.le_succ steps))) hsteps
      refine ⟨fun _ _ _ hlost => hlost.2.elim, fun st st' v t hlinked hok => hfewer.follows st st' v t hlinked ?_⟩
      obtain ⟨hover, -, -, hcursor, -⟩ := hlinked
      rw [← hcursor] at hless
      exact hless.readContent_eq hd hover (Nat.le_succ steps) hok
    obtain ⟨k, rfl⟩ : ∃ k, steps' = k + 1 := ⟨steps' - 1, by omega⟩
    obtain ⟨primitive, hshape⟩ | ⟨definition, hdescribe⟩ := Descriptor.simple_or_described hd
    · refine .adapt ?_ (L.decoders_implies himplies) (.refl _)
      rw [readContent, readContent, hshape]
      exact L.follows_readPrimitive (.alongside S left.length) context primitive inner.length
    by_cases hmem : type ∈ met
    · -- The type has been met here.
      refine ⟨fun _ _ _ hlost => hlost.2.elim, fun st st' v t hlinked hok => (hmet type hmem ?_).elim⟩
      exact ⟨d, st, t, v, hd, hlinked.1, hlinked.2.2.2.1, hok⟩
    have hunmet : (Descriptor.unmet s (type :: met)).length < (Descriptor.unmet s met).length :=
      Descriptor.length_unmet_lt hdescribe (by simpa using hmem)
    have hbelow (n : Nat) : L.ReadsAlike (S.alongside left.length n) (readContent context steps) (readContent context k) := by
      intro type' d' hd'
      refine follows_alongside fun left' inner' hleaves' hbound hn => ?_
      obtain hlt | heq := Nat.lt_or_eq_of_le hbound
      · -- A node less: all types may be met again.
        subst hn
        refine ih [] hleaves' hd' (List.forall_mem_nil _) ?_
        have hnone := Descriptor.length_unmet_nil_lt s
        have hproduct := Nat.mul_le_mul_right (Descriptor.chainBound s) hlt
        rw [Nat.succ_mul] at hproduct
        omega
      · -- The same place: this is the type that has been met last.
        obtain ⟨rfl, rfl⟩ := hleaves'.unique hleaves heq
        subst hn
        refine ih (type :: met) hleaves' hd' (List.forall_mem_cons.2 ⟨hless, fun u hu h => ?_⟩) (by omega)
        exact hmet u hu (h.of_le (Nat.le_succ steps))
    exact (Rereading.readsAlike_succ (W := .alongside S left.length) htypes
      (counts_alongside (repeats_readContent context steps) S _) hbelow inner.length hd).adapt
      (L.decoders_implies himplies) (.refl _)

/-- As many steps as there are for the nodes in common are enough. -/
theorem follows_readContent_of_steps (htypes : L.ReadsTypes Eq) (hleaves : S.Leaves left inner)
    (hd : Descriptor.compile s type = .ok d) (hsteps : (left.length + 1) * Descriptor.chainBound s ≤ steps') :
    Follows (L.decoders (Cursor.exactly (S.first left inner) (S.second left inner))) (readContent context steps d)
      (readContent context steps' d) L.values (L.decoders (S.alongside left.length inner.length)) := by
  refine follows_readContent_exactly htypes [] hleaves hd (List.forall_mem_nil _) ?_
  have hnone := Descriptor.length_unmet_nil_lt s
  rw [Nat.succ_mul] at hsteps
  omega

/-- Content is read in both places in as many steps as there are for the nodes in common. -/
theorem readsAlike_alongside (S : Span) (context : Context) (steps : Nat)
    (hsteps : (S.nodes.length + 1) * Descriptor.chainBound s ≤ steps') (n : Nat) :
    L.ReadsAlike (S.alongside S.nodes.length n) (readContent context steps) (readContent context steps') := by
  intro type d hd
  refine follows_alongside fun left inner hleaves hbound hn => ?_
  subst hn
  refine follows_readContent_of_steps L.readsTypes_eq hleaves hd ?_
  exact (Nat.mul_le_mul_right _ (Nat.succ_le_succ hbound)).trans hsteps

end

/-! ### Elements and contents -/

/-- What has been read in one place is read in another as well, in front of what is left there: the same value if the ids for
payloads come from the same supply, and otherwise one that differs in those ids. -/
def ReadsAgain (s : Schema) (work : Decoding Value) (st : Decoder) (v : Value) (t st' : Decoder) (rest' : List Node) : Prop :=
  ∃ v' t', work st' = .ok v' t' ∧ t'.registry.Over s ∧ t'.cursor = ⟨rest', st'.cursor.ending, st'.cursor.opened⟩ ∧
    s.SameUpToIds (st'.nonces = st.nonces) v v' ∧ (st'.nonces = st.nonces → t'.nonces = t.nonces)

/-- A reader has taken the nodes of one element and nothing else, and would have read it from them anywhere. -/
structure TakesElement (s : Schema) (context : Context) (element : String) (type : TypeName) (st : Decoder) (v : Value)
    (t : Decoder) (ns : List Node) : Prop where
  areElement : ∃ e : Element, e.localName = element ∧ Node.AreElement e ns
  ahead : st.cursor.ahead = ns ++ t.cursor.ahead
  depth : t.cursor.depth = st.cursor.depth
  cursor : t.cursor = ⟨t.cursor.ahead, st.cursor.ending, st.cursor.opened⟩
  registry : t.registry.Over s
  again : ∀ (st' : Decoder) (rest' : List Node), st'.registry.Over s → st'.cursor.ahead = ns ++ rest' →
    ReadsAgain s (readElement context element type) st v t st' rest'

/-- A reader has taken whole elements and texts, and has not come to the end tag of the element around. It would have read the
same inside that element anywhere. -/
structure TakesContent (s : Schema) (context : Context) (type : TypeName) (st : Decoder) (v : Value) (t : Decoder)
    (ns : List Node) : Prop where
  areWhole : Node.AreWhole ns
  ahead : st.cursor.ahead = ns ++ t.cursor.ahead
  depth : t.cursor.depth = st.cursor.depth
  cursor : t.cursor = ⟨t.cursor.ahead, st.cursor.ending, st.cursor.opened⟩
  again : ∀ left rest, t.cursor.ahead = left ++ .finish :: rest → Node.AreWhole left →
    ∀ (st' : Decoder) (rest' : List Node), st'.registry.Over s → st'.cursor.opened.head? = st.cursor.opened.head? →
      st'.cursor.ahead = ns ++ (left ++ .finish :: rest') →
        ReadsAgain s (read context type) st v t st' (left ++ .finish :: rest')

variable {element : String} {e : Element} {ns rest' : List Node} {st' : Decoder}

/-- A start tag of the name is next where an element is read. -/
theorem exists_start_of_readElement (h : readElement context element type st = .ok v t) :
    ∃ e rest, st.cursor.ahead.dropWhile Cursor.isBlankText = .start e :: rest ∧ e.localName = element := by
  obtain ⟨declared, _, hdescriptor, h⟩ := bind_eq_ok.1 h
  obtain ⟨registry, -, rfl⟩ := onRegistry_eq_ok.1 hdescriptor
  obtain ⟨next, _, hnext, h⟩ := bind_eq_ok.1 h
  obtain ⟨c, hpeek, rfl⟩ := onCursor_eq_ok.1 hnext
  obtain ⟨rfl, -⟩ | ⟨rest, rfl, -⟩ | ⟨e, rest, rfl, hdrop, -⟩ := Cursor.peekStart_ok hpeek
  · cases h
  · cases h
  · dsimp only at h
    split at h
    · next hname => exact ⟨e, rest, hdrop, hname⟩
    · cases h

/-- One cursor and one schema give one bound. -/
theorem depthBound_eq_of_cursor (hover : st.registry.Over s) (hover' : st'.registry.Over s) (h : st'.cursor = st.cursor) :
    depthBound st' = depthBound st := by
  rw [depthBound, depthBound, h, hover.schema_eq, hover'.schema_eq]

/-- There are steps enough for nodes that are ahead. -/
theorem le_depthBound {bound : Nat} (hover : st.registry.Over s) (h : bound ≤ st.cursor.ahead.length) :
    (bound + 1) * Descriptor.chainBound s ≤ depthBound st := by
  rw [depthBound, hover.schema_eq]
  exact Nat.mul_le_mul_right _ (Nat.succ_le_succ h)

/-- An element is crossed by a cursor in the same place twice. -/
theorem crosses_same {opened : List Element} {ending : Xml.Ending} {rest : List Node} :
    Crosses Eq (Cursor.exactly ⟨.start e :: rest, ending, opened⟩ ⟨.start e :: rest, ending, opened⟩)
      (Cursor.same (Cursor.IsInside ⟨rest, ending, e :: opened⟩ 0))
      (Cursor.same (Cursor.HasLeft ⟨rest, ending, e :: opened⟩)) where
  expectStart := Cursor.follows_expectStart_exactly ⟨rfl, .self⟩
  skipToEnd := Cursor.follows_same (fun _ => trivial) fun c _ c₁ hc hok => by
    obtain ⟨inside, behind, hahead, hinside, rfl⟩ :=
      Cursor.exists_finish_of_skipToEnd (hc.opened_ne_nil (.inr (List.cons_ne_nil _ _))) hok
    exact hc.hasLeft hahead hinside
  finishElement := Cursor.follows_same (fun _ => trivial) fun c _ c₁ hc hok => by
    obtain ⟨inside, behind, hahead, hinside, rfl⟩ := Cursor.exists_finish_of_finishElement hok
    exact hc.hasLeft hahead hinside

/-- An element is crossed by two cursors that have its nodes in common. -/
theorem crosses_alongside (S : Span) {opened opened' : List Element} (h : S.opened = e :: opened)
    (h' : S.opened' = e :: opened') :
    Crosses Eq (Cursor.exactly ⟨.start e :: (S.nodes ++ .finish :: S.rest), S.ending, opened⟩
        ⟨.start e :: (S.nodes ++ .finish :: S.rest'), S.ending', opened'⟩)
      (S.alongside S.nodes.length 0) S.behind where
  expectStart := Cursor.follows_expectStart_exactly
    ⟨S.nodes, [], S.leaves_nodes, Nat.le_refl _, rfl, by rw [← h]; rfl, by rw [← h']; rfl⟩
  skipToEnd := S.follows_skipToEnd_around _ (by rw [h]; exact List.cons_ne_nil _ _)
  finishElement := S.follows_finishElement_around _

/-- **An element is taken with all it holds**, and nothing else. -/
theorem takes_readElement (hover : st.registry.Over s) (h : readElement context element type st = .ok v t) :
    ∃ ns, TakesElement s context element type st v t ns := by
  obtain ⟨e, rest, hdrop, hname⟩ := exists_start_of_readElement h
  -- Reading it twice at the same place tells how far the reader comes.
  have htwice := (Rereading.anyhow s).follows_readElement (Cursor.follows_peekStart_exactly hdrop hdrop) crosses_same
    (fun h => h ▸ .refl _) (Rereading.readsTypes_eq _) context (fun _ hlost => hlost.2.elim)
    (fun st₁ st₂ hlinked => by
      obtain ⟨hover₁, hover₂, -, hcursor, hcursor'⟩ := hlinked
      rw [depthBound_eq_of_cursor hover₁ hover₂ (hcursor'.trans hcursor.symm)]
      exact repeats_readContent context _ _ 0) element type
  obtain ⟨⟨-, hlost⟩, -⟩ | ⟨_, _, -, -, ht, -, -, -, ⟨inner, hrest, hinner⟩, hending, hopened⟩ :=
    htwice.follows st st v t ⟨hover, hover, trivial, rfl, rfl⟩ h
  · exact hlost.elim
  dsimp only at hrest hending hopened
  rw [List.drop_one, List.tail_cons] at hopened
  have hblank : ∀ n ∈ st.cursor.ahead.takeWhile Cursor.isBlankText, Cursor.isBlankText n = true :=
    List.all_eq_true.1 List.all_takeWhile
  refine ⟨_, ⟨e, hname, _, inner, hblank, hinner, rfl⟩, ?_, ?_, ?_, ht, ?_⟩
  · rw [hrest] at hdrop
    simpa using Cursor.ahead_eq_of_dropWhile hdrop
  · rw [Cursor.depth, hopened, Cursor.depth]
  · rw [← hending, ← hopened]
  · -- What the element holds is in common with any place that has the same nodes ahead.
    intro st' rest' hover' hahead'
    let S : Span := ⟨inner, t.cursor.ahead, rest', st.cursor.ending, st'.cursor.ending, e :: st.cursor.opened,
      e :: st'.cursor.opened, hinner, rfl⟩
    let L := Rereading.upToIds s (st'.nonces = st.nonces)
    have hdrop' : st'.cursor.ahead.dropWhile Cursor.isBlankText = .start e :: (inner ++ .finish :: rest') := by
      rw [hahead']
      simpa using Cursor.dropWhile_blanks hblank e (inner ++ .finish :: rest')
    rw [hrest] at hdrop
    have halso := L.follows_readElement (Cursor.follows_peekStart_exactly hdrop hdrop') (crosses_alongside S rfl rfl)
      (fun h => h ▸ .refl _) (Rereading.readsTypes_eq _) context (fun _ hlost => hlost.2.elim)
      (fun st₁ st₂ hlinked => by
        obtain ⟨-, hover₂, -, -, hcursor'⟩ := hlinked
        refine readsAlike_alongside S context _ (le_depthBound hover₂ ?_) 0
        rw [hcursor']
        show inner.length ≤ (_ :: (inner ++ _)).length
        rw [List.length_cons, List.length_append]
        omega) element type
    obtain ⟨⟨-, hlost⟩, -⟩ | ⟨v', t', hok', hvalues, -, ht', hsupplies, -, hcursor'⟩ :=
      halso.follows st st' v t ⟨hover, hover', id, rfl, rfl⟩ h
    · exact hlost.elim
    · exact ⟨v', t', hok', ht', hcursor', hvalues, hsupplies⟩

/-- Content is read alike in both places, if it is from there on in as many steps as there are nodes. -/
theorem follows_read {L : Rereading s} {P Q : Pairing Cursor Cursor} (context : Context) (hlost : ∀ c, ¬P.lost c)
    (hcontent : ∀ st st', (L.decoders P).linked st st' → ∀ {type : TypeName} {d : Descriptor},
      Descriptor.compile s type = .ok d →
        Follows (L.decoders P) (readContent context (depthBound st) d) (readContent context (depthBound st') d) L.values
          (L.decoders Q)) (type : TypeName) :
    Follows (L.decoders P) (read context type) (read context type) L.values (L.decoders Q) := by
  refine .bind (L.follows_descriptor type) ?_
  rintro _ d ⟨rfl, hd⟩
  refine .bind (.get (R := fun st st' => Follows (L.decoders P) (readContent context (depthBound st) d)
    (readContent context (depthBound st') d) L.values (L.decoders Q)) (fun st hst => (hlost _ hst.2).elim)
    fun st st' hlinked => hcontent st st' hlinked hd) fun st st' hbelow => hbelow

/-- **Content is taken up to the end tag of the element around at most.** -/
theorem takes_read (hover : st.registry.Over s) (h : read context type st = .ok v t) :
    ∃ ns, TakesContent s context type st v t ns := by
  -- Reading it twice at the same place tells how far the reader comes.
  have htwice := follows_read (L := Rereading.anyhow s) (P := Cursor.same (st.cursor.IsInside 0)) context
    (fun _ => id) (fun st₁ st₂ hlinked => by
      obtain ⟨hover₁, hover₂, -, hcursor, -⟩ := hlinked
      rw [depthBound_eq_of_cursor hover₁ hover₂ hcursor]
      exact repeats_readContent context _ st.cursor 0) type
  obtain ⟨⟨ns, _, hmoved, hinner⟩, -⟩ := again htwice hover .self h
  obtain rfl := List.eq_nil_of_length_eq_zero hinner
  have hopened : t.cursor.opened = st.cursor.opened := hmoved.opened
  have hwhole : Node.AreWhole ns := hmoved.leaves
  refine ⟨ns, hwhole, hmoved.ahead, ?_, ?_, ?_⟩
  · rw [Cursor.depth, hopened, Cursor.depth]
  · rw [← hmoved.ending, ← hopened]
  · -- In common are the nodes that have been taken, and those in front of the end tag.
    intro left rest hleft hwholeLeft st' rest' hover' haround hahead'
    let S : Span := ⟨ns ++ left, rest, rest', st.cursor.ending, st'.cursor.ending, st.cursor.opened, st'.cursor.opened,
      (Node.leaves?_trans hwhole).trans hwholeLeft, haround⟩
    let L := Rereading.upToIds s (st'.nonces = st.nonces)
    have halso := follows_read (L := L) (P := Cursor.exactly (S.first S.nodes []) (S.second S.nodes [])) context
      (fun _ => id)
      (fun st₁ st₂ hlinked {type d} hd => by
        obtain ⟨-, hover₂, -, -, hcursor'⟩ := hlinked
        refine follows_readContent_of_steps L.readsTypes_eq S.leaves_nodes hd (le_depthBound hover₂ ?_)
        rw [hcursor']
        exact (List.prefix_append S.nodes _).length_le) type
    have hfirst : st.cursor = S.first S.nodes [] := by
      show st.cursor = ⟨ns ++ left ++ .finish :: rest, st.cursor.ending, st.cursor.opened⟩
      rw [List.append_assoc, ← hleft, ← hmoved.ahead]
    have hsecond : st'.cursor = S.second S.nodes [] := by
      show st'.cursor = ⟨ns ++ left ++ .finish :: rest', st'.cursor.ending, st'.cursor.opened⟩
      rw [List.append_assoc, ← hahead']
    obtain ⟨⟨-, hlost⟩, -⟩ | ⟨v', t', hok', hvalues, -, ht', hsupplies, left', inner, -, -, hnone, hcursor, hcursor'⟩ :=
      halso.follows st st' v t ⟨hover, hover', id, hfirst, hsecond⟩ h
    · exact hlost.elim
    · obtain rfl := List.eq_nil_of_length_eq_zero hnone
      -- The same nodes are left in front of the end tag.
      rw [hcursor] at hleft
      obtain rfl : left' = left := List.append_cancel_right hleft
      exact ⟨v', t', hok', ht', hcursor', hvalues, hsupplies⟩

/-! ### One behind the other -/

/-- Reads two elements, one behind the other. -/
def readTwo (context : Context) (element₁ element₂ : String) (type₁ type₂ : TypeName) : Decoding (Value × Value) := do
  let v₁ ← readElement context element₁ type₁
  let v₂ ← readElement context element₂ type₂
  return (v₁, v₂)

variable {element₁ element₂ : String} {type₁ type₂ : TypeName} {v₁ v₂ : Value} {t₁ t₂ : Decoder} {ns₁ ns₂ rest : List Node}

/-- Of two elements that are read one behind the other, each is taken by itself. -/
theorem takes_readTwo (hover : st.registry.Over s)
    (h : readTwo context element₁ element₂ type₁ type₂ st = .ok (v₁, v₂) t) :
    ∃ middle ns₁ ns₂, TakesElement s context element₁ type₁ st v₁ middle ns₁ ∧
      TakesElement s context element₂ type₂ middle v₂ t ns₂ := by
  obtain ⟨w₁, middle, hread₁, h⟩ := bind_eq_ok.1 h
  obtain ⟨w₂, last, hread₂, h⟩ := bind_eq_ok.1 h
  cases h
  obtain ⟨ns₁, htakes₁⟩ := takes_readElement hover hread₁
  obtain ⟨ns₂, htakes₂⟩ := takes_readElement htakes₁.registry hread₂
  exact ⟨middle, ns₁, ns₂, htakes₁, htakes₂⟩

/-- Two elements that are read each by itself can be read one behind the other. -/
theorem readTwo_of_takes (h₁ : TakesElement s context element₁ type₁ st₁ v₁ t₁ ns₁)
    (h₂ : TakesElement s context element₂ type₂ st₂ v₂ t₂ ns₂) (hover : st.registry.Over s)
    (hahead : st.cursor.ahead = ns₁ ++ (ns₂ ++ rest)) :
    ∃ w₁ w₂ t, readTwo context element₁ element₂ type₁ type₂ st = .ok (w₁, w₂) t ∧
      t.cursor = ⟨rest, st.cursor.ending, st.cursor.opened⟩ ∧ s.SameUpToIds (st.nonces = st₁.nonces) v₁ w₁ ∧
      s.SameUpToIds (st.nonces = st₁.nonces ∧ t₁.nonces = st₂.nonces) v₂ w₂ := by
  obtain ⟨w₁, middle, hread₁, hmiddle, hcursor, hsame₁, hnonces⟩ := h₁.again st _ hover hahead
  obtain ⟨w₂, t, hread₂, -, hcursor', hsame₂, -⟩ := h₂.again middle rest hmiddle (by rw [hcursor])
  refine ⟨w₁, w₂, t, bind_eq_ok.2 ⟨w₁, middle, hread₁, bind_eq_ok.2 ⟨w₂, t, hread₂, rfl⟩⟩, ?_, hsame₁, ?_⟩
  · rw [hcursor', hcursor]
  · exact ⟨fun h => hsame₂.1 ((hnonces h.1).trans h.2), hsame₂.2⟩

/-- **Reading is local.** An element that has been read is taken with all it holds and blank text in front of it, and nothing
else; a content that has been read is taken up to the end tag of the element around at most. As many elements are open behind
as in front. The same is read from the same nodes anywhere, whatever stands behind the element, or behind the end tag of the
element around, be it a fault. A start tag has its names resolved, so the same nodes are in the same namespaces. Two elements
one behind the other are read as each by itself. -/
theorem reading_is_local (s : Schema) (context : Context) :
    (∀ element type st v t, st.registry.Over s → readElement context element type st = .ok v t →
      ∃ ns, TakesElement s context element type st v t ns) ∧
    (∀ type st v t, st.registry.Over s → read context type st = .ok v t → ∃ ns, TakesContent s context type st v t ns) ∧
    (∀ element₁ element₂ type₁ type₂ st v₁ v₂ t, st.registry.Over s →
      readTwo context element₁ element₂ type₁ type₂ st = .ok (v₁, v₂) t →
        ∃ middle ns₁ ns₂, TakesElement s context element₁ type₁ st v₁ middle ns₁ ∧
          TakesElement s context element₂ type₂ middle v₂ t ns₂) ∧
    ∀ element₁ element₂ type₁ type₂ st₁ st₂ v₁ v₂ t₁ t₂ ns₁ ns₂,
      TakesElement s context element₁ type₁ st₁ v₁ t₁ ns₁ → TakesElement s context element₂ type₂ st₂ v₂ t₂ ns₂ →
        ∀ (st : Decoder) (rest : List Node), st.registry.Over s → st.cursor.ahead = ns₁ ++ (ns₂ ++ rest) →
          ∃ w₁ w₂ t, readTwo context element₁ element₂ type₁ type₂ st = .ok (w₁, w₂) t ∧
            t.cursor = ⟨rest, st.cursor.ending, st.cursor.opened⟩ ∧ s.SameUpToIds (st.nonces = st₁.nonces) v₁ w₁ ∧
            s.SameUpToIds (st.nonces = st₁.nonces ∧ t₁.nonces = st₂.nonces) v₂ w₂ := by
  refine ⟨?_, ?_, ?_, ?_⟩
  · intro element type st v t hover h
    exact takes_readElement hover h
  · intro type st v t hover h
    exact takes_read hover h
  · intro element₁ element₂ type₁ type₂ st v₁ v₂ t hover h
    exact takes_readTwo hover h
  · intro element₁ element₂ type₁ type₂ st₁ st₂ v₁ v₂ t₁ t₂ ns₁ ns₂ h₁ h₂ st rest hover hahead
    exact readTwo_of_takes h₁ h₂ hover hahead

/-- Two lines are read one behind the other, and the first is left alone by what is behind it. -/
theorem reading_is_local_lines :
    ∃ v₁ v₂ t, readTwo .inline "a" "b" ⟨"", "Line"⟩ ⟨"", "Line"⟩
        (noteDecoder textLine "<a><line>1</line></a> <b><line>2</line></b></c>") = .ok (v₁, v₂) t ∧
      ∃ middle ns₁ ns₂, TakesElement (noteSchema textLine) .inline "a" ⟨"", "Line"⟩
          (noteDecoder textLine "<a><line>1</line></a> <b><line>2</line></b></c>") v₁ middle ns₁ ∧
        TakesElement (noteSchema textLine) .inline "b" ⟨"", "Line"⟩ middle v₂ t ns₂ := by
  have hread : okWith (fun _ _ => true) (readTwo .inline "a" "b" ⟨"", "Line"⟩ ⟨"", "Line"⟩
      (noteDecoder textLine "<a><line>1</line></a> <b><line>2</line></b></c>")) = true := by
    decide +kernel
  obtain ⟨⟨v₁, v₂⟩, t, hread, -⟩ := exists_of_okWith hread
  exact ⟨v₁, v₂, t, hread, (reading_is_local _ .inline).2.2.1 _ _ _ _ _ v₁ v₂ t (Registry.over_ofSchema _) hread⟩

end Decoding
end SoapBinding
