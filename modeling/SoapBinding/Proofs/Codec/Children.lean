import Mathlib.Data.List.DropRight
import SoapBinding.Proofs.Codec.ContentModel
import SoapBinding.Proofs.Codec.Locality

/-!
# Sequences and their content models

A sequence type without content properties and choices is read child by child. A child is acceptable for a property
(`Decoding.Accepts`) if it can be read on its own, as a document that holds nothing else, and is marked nil only where the
property admits that. Inside the element it is then read as well, and the same way, whatever stands around it.

So the reader accepts exactly the children that split into groups of acceptable ones (`accepts_content_model`), and where
the names of children do not fit, it tells the first place where they do not.
-/

namespace SoapBinding

open Outcome
open Xml (Cursor Element Node Span)

/-- A child as a document of its own. -/
def Child.alone (c : Child) (registry : Registry) (nonces : Nonces) : Decoder :=
  ⟨registry, ⟨c.nodes, .complete, []⟩, nonces⟩

namespace Decoding

variable {s : Schema} {context : Context} {type owner owner' : TypeName} {nested : Descriptor} {e : Element}
  {content : Descriptor → Decoding Value} {steps steps' : Nat} {st st' t : Decoder} {v : Value} {nilable : Bool}
  {inner rest rest' : List Node}

/-- A child is acceptable for a property: it can be read on its own as a value of the property's type, and if it is marked
nil, the property admits that. -/
def Accepts (s : Schema) (context : Context) (p : Property) (c : Child) : Prop :=
  (c.element.isNil = true → p.nilable = true) ∧
    ∃ v t, readElement context p.name p.type (c.alone (.ofSchema s) .fresh) = .ok v t

/-! ### Elements here and there -/

/-- The start tag that comes next is taken, with the blank text in front of it. -/
theorem onCursor_expectStart (hahead : st.cursor.ahead.dropWhile Cursor.isBlankText = .start e :: rest) :
    onCursor Cursor.expectStart st =
      .ok e ⟨st.registry, ⟨rest, st.cursor.ending, e :: st.cursor.opened⟩, st.nonces⟩ :=
  onCursor_eq_ok.2 ⟨_, Cursor.expectStart_iff.2 ⟨rest, hahead, rfl⟩, rfl⟩

/-- An element that is marked nil is read only where that is admitted. It makes no other difference, nor does the owner. -/
theorem readWrapped_iff_nilable (hahead : st.cursor.ahead.dropWhile Cursor.isBlankText = .start e :: rest) :
    readWrapped content owner nilable nested st = .ok v t ↔
      (e.isNil = true → nilable = true) ∧ readWrapped content owner' true nested st = .ok v t := by
  unfold readWrapped
  rw [bind_ok (onCursor_expectStart hahead), bind_ok (onCursor_expectStart hahead)]
  cases e.isNil with
  | false => exact ⟨fun h => ⟨nofun, h⟩, And.right⟩
  | true =>
    cases nilable with
    | false => exact ⟨nofun, fun h => absurd (h.1 rfl) Bool.false_ne_true⟩
    | true => exact ⟨fun h => ⟨fun _ => rfl, h⟩, And.right⟩

section
variable (hd : Descriptor.compile s type = .ok nested) (hover : st.registry.Over s) (hover' : st'.registry.Over s)
  (hinner : Node.AreWhole inner) (hahead : st.cursor.ahead = .start e :: (inner ++ .finish :: rest))
  (hahead' : st'.cursor.ahead = .start e :: (inner ++ .finish :: rest'))
include hd hover hover' hinner hahead hahead'

/-- An element that is read in one place is read in another, if contents are read alike in both. -/
theorem readWrapped_alongside
    (halike : ∀ S : Span, S.nodes = inner → (Rereading.upToIds s (st'.nonces = st.nonces)).ReadsAlike
      (S.alongside S.nodes.length 0) (readContent context steps) (readContent context steps'))
    (h : readWrapped (readContent context steps) owner nilable nested st = .ok v t) :
    t.cursor = ⟨rest, st.cursor.ending, st.cursor.opened⟩ ∧ t.registry.Over s ∧
      ReadsAgain s (readWrapped (readContent context steps') owner nilable nested) st v t st' rest' := by
  let S : Span := ⟨inner, rest, rest', st.cursor.ending, st'.cursor.ending, e :: st.cursor.opened, e :: st'.cursor.opened,
    hinner, rfl⟩
  let L := Rereading.upToIds s (st'.nonces = st.nonces)
  have halso : Follows (L.decoders (Cursor.exactly
        ⟨.start e :: (inner ++ .finish :: rest), st.cursor.ending, st.cursor.opened⟩
        ⟨.start e :: (inner ++ .finish :: rest'), st'.cursor.ending, st'.cursor.opened⟩))
      (readWrapped (readContent context steps) owner nilable nested)
      (readWrapped (readContent context steps') owner nilable nested) L.values (L.decoders S.behind) :=
    Rereading.follows_readWrapped (crosses_alongside S rfl rfl) (fun h => h ▸ .refl _) (halike S rfl) L.readsTypes_eq
      nilable hd
  obtain ⟨⟨-, hlost⟩, -⟩ | ⟨v', t', hok', hvalues, ht, ht', hsupplies, hbehind, hbehind'⟩ :=
    halso.follows st st' v t ⟨hover, hover', id, by rw [← hahead], by rw [← hahead']⟩ h
  · exact hlost.elim
  · exact ⟨hbehind, ht, v', t', hok', ht', hbehind', hvalues, hsupplies⟩

/-- That is so if there are steps enough for what it holds. -/
theorem readWrapped_again (hsteps : (inner.length + 1) * Descriptor.chainBound s ≤ steps')
    (h : readWrapped (readContent context steps) owner nilable nested st = .ok v t) :
    t.cursor = ⟨rest, st.cursor.ending, st.cursor.opened⟩ ∧ t.registry.Over s ∧
      ReadsAgain s (readWrapped (readContent context steps') owner nilable nested) st v t st' rest' :=
  readWrapped_alongside hd hover hover' hinner hahead hahead'
    (fun S hS => readsAlike_alongside S context steps (by rwa [hS]) 0) h

/-- And if there are no fewer steps. -/
theorem readWrapped_of_le (hsteps : steps ≤ steps')
    (h : readWrapped (readContent context steps) owner nilable nested st = .ok v t) :
    t.cursor = ⟨rest, st.cursor.ending, st.cursor.opened⟩ ∧ t.registry.Over s ∧
      ReadsAgain s (readWrapped (readContent context steps') owner nilable nested) st v t st' rest' :=
  readWrapped_alongside hd hover hover' hinner hahead hahead'
    (fun S _ => Rereading.readsAlike_readContent (W := .alongside S S.nodes.length) (Rereading.readsTypes_eq _)
      (fun steps => counts_alongside (repeats_readContent context steps) S _) hsteps 0) h

end

/-- Where a start tag of the name is next, what is read is the declared type. -/
theorem readElement_of_start {element : String} (hd : Descriptor.compile s type = .ok nested) (hover : st.registry.Over s)
    (hdrop : st.cursor.ahead.dropWhile Cursor.isBlankText = .start e :: rest) (hname : e.localName = element) :
    ∃ registry : Registry, registry.Over s ∧ readElement context element type st =
      readWrapped (readContent context ((rest.length + 2) * Descriptor.chainBound s)) type true nested
        ⟨registry, ⟨.start e :: rest, st.cursor.ending, st.cursor.opened⟩, st.nonces⟩ := by
  obtain ⟨registry, hover', hdescriptor⟩ := descriptor_ok hover hd
  have hpeek : onCursor Cursor.peekStart ⟨registry, st.cursor, st.nonces⟩ =
      .ok (some e) ⟨registry, ⟨.start e :: rest, st.cursor.ending, st.cursor.opened⟩, st.nonces⟩ :=
    onCursor_eq_ok.2 ⟨_, Cursor.peekStart_of_start hdrop, rfl⟩
  refine ⟨registry, hover', ?_⟩
  rw [readElement, bind_ok hdescriptor, bind_ok hpeek]
  dsimp only
  rw [if_pos hname, bind_ok (get_apply _), depthBound, hover'.schema_eq]
  rfl

section
variable {p : Property} {c : Child} {blanks : List Node}

/-- What an acceptable child holds can be read from it whatever has been compiled before and whichever ids are given. -/
theorem Accepts.alone (h : Accepts s context p c) {registry : Registry} (hover : registry.Over s) (nonces : Nonces) :
    ∃ v t, readElement context p.name p.type (c.alone registry nonces) = .ok v t := by
  obtain ⟨-, v, t, hread⟩ := h
  obtain ⟨ns, htakes⟩ := takes_readElement (Registry.over_ofSchema s) hread
  obtain ⟨v', t', hread', -⟩ := htakes.again (c.alone registry nonces) t.cursor.ahead hover htakes.ahead
  exact ⟨v', t', hread'⟩

variable (hd : Descriptor.compile s p.type = .ok nested) (hover : st.registry.Over s) (hname : c.element.localName = p.name)
  (hblanks : ∀ n ∈ blanks, Cursor.isBlankText n = true) (hinner : Node.AreWhole inner)
  (hnodes : c.nodes = blanks ++ .start c.element :: (inner ++ [.finish]))
  (hahead : st.cursor.ahead = .start c.element :: (inner ++ .finish :: rest))
include hd hover hname hblanks hinner hnodes hahead

/-- A child that is read on its own is read inside the element around as well, with the same ids as the same value. -/
theorem readWrapped_of_alone (hnil : c.element.isNil = true → p.nilable = true)
    (hsteps : (c.nodes.length + 1) * Descriptor.chainBound s ≤ steps)
    (h : readElement context p.name p.type (c.alone st.registry st.nonces) = .ok v t) :
    ∃ t', readWrapped (readContent context steps) owner p.nilable nested st = .ok v t' ∧ t'.registry.Over s ∧
      t'.cursor = ⟨rest, st.cursor.ending, st.cursor.opened⟩ := by
  have hdrop : (c.alone st.registry st.nonces).cursor.ahead.dropWhile Cursor.isBlankText =
      .start c.element :: (inner ++ [.finish]) := by
    show c.nodes.dropWhile _ = _
    rw [hnodes, Cursor.dropWhile_blanks hblanks]
  have hsame : (c.alone st.registry st.nonces).registry.Over s := hover
  obtain ⟨registry, hover', heq⟩ := readElement_of_start hd hsame hdrop hname
  rw [heq] at h
  have hless : (inner.length + 1) * Descriptor.chainBound s ≤ steps := by
    refine (Nat.mul_le_mul_right _ (Nat.succ_le_succ ?_)).trans hsteps
    rw [hnodes]
    simp only [List.length_append, List.length_cons]
    omega
  obtain ⟨-, -, v', t', hread, ht', hcursor', hsame, -⟩ := readWrapped_again hd hover' hover hinner rfl hahead hless h
  obtain rfl := hsame.1 rfl
  have hnext : st.cursor.ahead.dropWhile Cursor.isBlankText = .start c.element :: (inner ++ .finish :: rest) := by
    rw [hahead]
    exact Cursor.dropWhile_blanks (List.forall_mem_nil _) _ _
  exact ⟨t', (readWrapped_iff_nilable hnext).2 ⟨hnil, hread⟩, ht', hcursor'⟩

/-- A child that is read inside the element around is acceptable. -/
theorem accepts_of_readWrapped (h : readWrapped (readContent context steps) owner p.nilable nested st = .ok v t) :
    Accepts s context p c ∧ t.registry.Over s ∧ t.cursor = ⟨rest, st.cursor.ending, st.cursor.opened⟩ := by
  have hnext : st.cursor.ahead.dropWhile Cursor.isBlankText = .start c.element :: (inner ++ .finish :: rest) := by
    rw [hahead]
    exact Cursor.dropWhile_blanks (List.forall_mem_nil _) _ _
  obtain ⟨hnil, hread⟩ := (@readWrapped_iff_nilable owner p.type _ _ _ _ _ _ _ _ hnext).1 h
  have hdrop : (c.alone (.ofSchema s) .fresh).cursor.ahead.dropWhile Cursor.isBlankText =
      .start c.element :: (inner ++ [.finish]) := by
    show c.nodes.dropWhile _ = _
    rw [hnodes, Cursor.dropWhile_blanks hblanks]
  have hfresh : (c.alone (.ofSchema s) .fresh).registry.Over s := Registry.over_ofSchema s
  obtain ⟨registry, hover', heq⟩ := @readElement_of_start s context _ _ _ _ _ _ hd hfresh hdrop hname
  have hless : (inner.length + 1) * Descriptor.chainBound s ≤
      ((inner ++ [Node.finish]).length + 2) * Descriptor.chainBound s := by
    refine Nat.mul_le_mul_right _ ?_
    rw [List.length_append]
    omega
  let st' : Decoder := ⟨registry, ⟨.start c.element :: (inner ++ [.finish]), .complete, []⟩, .fresh⟩
  have hahead' : st'.cursor.ahead = .start c.element :: (inner ++ [.finish]) := rfl
  obtain ⟨hbehind, ht, v', t', hread', -⟩ := readWrapped_again hd hover hover' hinner hahead hahead' hless hread
  exact ⟨⟨hnil, v', t', heq.trans hread'⟩, ht, hbehind⟩

end

/-! ### In front of children -/

/-- What stands behind the children of an element, and around it. -/
structure Behind where
  /-- Blank text in front of the end tag. -/
  blanks : List Node
  areBlank : ∀ n ∈ blanks, Cursor.isBlankText n = true
  /-- What stands behind the end tag. -/
  rest : List Node
  /-- What the document ends in. -/
  ending : Xml.Ending
  /-- The element of the children, and those around it. -/
  opened : List Element

/-- The nodes of children, and all behind them. -/
def Behind.nodes (b : Behind) (cs : List Child) : List Node := cs.flatMap Child.nodes ++ (b.blanks ++ .finish :: b.rest)

/-- Behind the children of an element that is a document, there is its end tag. -/
def Behind.alone (around : List Element) : Behind := ⟨[], List.forall_mem_nil _, [], .complete, around⟩

/-- The reader is in front of some children. Blank text may have been passed. -/
structure StandsAt (s : Schema) (b : Behind) (st : Decoder) (cs : List Child) : Prop where
  registry : st.registry.Over s
  ahead : st.cursor.ahead.dropWhile Cursor.isBlankText = (b.nodes cs).dropWhile Cursor.isBlankText
  ending : st.cursor.ending = b.ending
  opened : st.cursor.opened = b.opened

variable {b : Behind} {p : Property} {c : Child} {cs : List Child}

/-- Behind the last child there is the end tag. -/
theorem StandsAt.dropWhile_nil (h : StandsAt s b st []) :
    st.cursor.ahead.dropWhile Cursor.isBlankText = .finish :: b.rest := by
  rw [h.ahead, Behind.nodes, List.flatMap_nil, List.nil_append, List.dropWhile_append_of_pos b.areBlank]
  exact List.dropWhile_cons_of_neg (by simp [Cursor.isBlankText])

/-- In front of a child there is its start tag, behind blank text. -/
theorem StandsAt.dropWhile_of_nodes {blanks : List Node} (h : StandsAt s b st (c :: cs))
    (hblanks : ∀ n ∈ blanks, Cursor.isBlankText n = true)
    (hnodes : c.nodes = blanks ++ .start c.element :: (inner ++ [.finish])) :
    st.cursor.ahead.dropWhile Cursor.isBlankText = .start c.element :: (inner ++ .finish :: b.nodes cs) := by
  have happend : b.nodes (c :: cs) = blanks ++ .start c.element :: (inner ++ .finish :: b.nodes cs) := by
    rw [Behind.nodes, List.flatMap_cons, hnodes, Behind.nodes]
    simp
  rw [h.ahead, happend, Cursor.dropWhile_blanks hblanks]

theorem StandsAt.dropWhile_cons (h : StandsAt s b st (c :: cs)) :
    ∃ blanks inner, (∀ n ∈ blanks, Cursor.isBlankText n = true) ∧ Node.AreWhole inner ∧
      c.nodes = blanks ++ .start c.element :: (inner ++ [.finish]) ∧
      st.cursor.ahead.dropWhile Cursor.isBlankText = .start c.element :: (inner ++ .finish :: b.nodes cs) := by
  obtain ⟨blanks, inner, hblanks, hinner, hnodes⟩ := c.isElement
  exact ⟨blanks, inner, hblanks, hinner, hnodes, h.dropWhile_of_nodes hblanks hnodes⟩

/-- Past the blank text that is next. -/
def pastBlanks (st : Decoder) : Decoder :=
  ⟨st.registry, ⟨st.cursor.ahead.dropWhile Cursor.isBlankText, st.cursor.ending, st.cursor.opened⟩, st.nonces⟩

theorem StandsAt.pastBlanks (h : StandsAt s b st cs) : StandsAt s b (pastBlanks st) cs :=
  ⟨h.registry, (List.dropWhile_idempotent ..).trans h.ahead, h.ending, h.opened⟩

/-- Looking for a start tag finds that of the next child. -/
theorem StandsAt.peekStart (h : StandsAt s b st cs) :
    onCursor Cursor.peekStart st = .ok (cs.head?.map (·.element)) (Decoding.pastBlanks st) := by
  refine onCursor_eq_ok.2 ⟨_, ?_, rfl⟩
  cases cs with
  | nil =>
    rw [Cursor.peekStart_of_finish h.dropWhile_nil, h.dropWhile_nil]
    rfl
  | cons c cs =>
    obtain ⟨-, inner, -, -, -, hdrop⟩ := h.dropWhile_cons
    rw [Cursor.peekStart_of_start hdrop, hdrop]
    rfl

/-- Behind the last child the element is closed, and what is around it is read on. -/
theorem StandsAt.finishElement (h : StandsAt s b st []) : onCursor Cursor.finishElement st =
    .ok () ⟨st.registry, ⟨b.rest, st.cursor.ending, st.cursor.opened.drop 1⟩, st.nonces⟩ :=
  onCursor_eq_ok.2 ⟨_, Cursor.finishElement_iff.2 ⟨b.rest, h.dropWhile_nil, rfl⟩, rfl⟩

/-- It is not closed in front of one. -/
theorem StandsAt.eq_nil_of_finishElement (h : StandsAt s b st cs)
    (hok : onCursor Cursor.finishElement st = .ok () t) : cs = [] := by
  obtain ⟨c, hcursor, -⟩ := onCursor_eq_ok.1 hok
  obtain ⟨_, hdrop, -⟩ := Cursor.finishElement_iff.1 hcursor
  cases cs with
  | nil => rfl
  | cons x left =>
    obtain ⟨-, inner, -, -, -, hnext⟩ := h.dropWhile_cons
    rw [hdrop] at hnext
    cases hnext

/-- The next child is told as left over. -/
theorem StandsAt.finishElement_cons (h : StandsAt s b st (c :: cs)) (hopened : b.opened.head? = some e) :
    onCursor Cursor.finishElement st =
      .error (.content (.strayElement c.element.localName (some e.localName))) (Decoding.pastBlanks st) := by
  obtain ⟨-, inner, -, -, -, hdrop⟩ := h.dropWhile_cons
  have hstray : Cursor.finishElement st.cursor =
      .error (.content (.strayElement c.element.localName (some e.localName))) (Decoding.pastBlanks st).cursor := by
    rw [Cursor.finishElement, bind_ok (Cursor.peekStart_of_start hdrop), Decoding.pastBlanks, hdrop]
    show Xml.Cursor.failWithin _ _ = _
    rw [Cursor.failWithin, Cursor.around, Cursor.current?, h.opened, hopened]
    rfl
  rw [onCursor, hstray]
  rfl

/-- There are no more children than nodes. -/
theorem StandsAt.length_le (h : StandsAt s b st cs) : cs.length ≤ st.cursor.ahead.length := by
  have hnodes (cs : List Child) : cs.length ≤ (b.nodes cs).length := by
    induction cs with
    | nil => exact Nat.zero_le _
    | cons c cs ih =>
      obtain ⟨blanks, inner, -, -, hc⟩ := c.isElement
      rw [Behind.nodes] at ih ⊢
      rw [List.flatMap_cons, hc]
      simp only [List.length_append, List.length_cons] at ih ⊢
      omega
  have hdrop := (List.dropWhile_suffix Cursor.isBlankText (l := st.cursor.ahead)).length_le
  cases cs with
  | nil => exact Nat.zero_le _
  | cons c cs =>
    obtain ⟨-, inner, -, -, -, hahead⟩ := h.dropWhile_cons
    have := hnodes cs
    rw [hahead] at hdrop
    simp only [List.length_cons, List.length_append] at hdrop ⊢
    omega

/-- A property whose values stand in elements of its own name. -/
structure IsWrapped (s : Schema) (p : Property) (nested : Descriptor) : Prop where
  compile : Descriptor.compile s p.type = .ok nested
  not_content : p.content = false
  not_choice : nested.isChoice = false

/-- A value of such a property comes next where the next child bears its name. -/
theorem comesNext_ok (hp : IsWrapped s p nested) (h : StandsAt s b st cs) :
    ∃ t, comesNext p st = .ok (cs.head?.any (·.element.localName = p.name)) t ∧ StandsAt s b t cs := by
  have hstands := h.pastBlanks
  rw [comesNext, bind_ok h.peekStart]
  cases cs with
  | nil => exact ⟨_, rfl, hstands⟩
  | cons c cs =>
    show ∃ t, onRegistry (p.begins c.element.localName) _ = .ok (decide (c.element.localName = p.name)) t ∧ _
    unfold Property.begins Property.beginsBy
    by_cases hname : c.element.localName = p.name
    · rw [if_pos hname, decide_eq_true hname]
      exact ⟨_, rfl, hstands⟩
    · obtain ⟨registry, hok, hover⟩ := Registry.descriptor_ok hstands.registry hp.compile
      rw [if_neg hname, decide_eq_false hname]
      refine ⟨_, onRegistry_eq_ok.2 ⟨registry, ?_, rfl⟩, ⟨hover, hstands.ahead, hstands.ending, hstands.opened⟩⟩
      rw [bind_ok hok, hp.not_choice, hp.not_content]
      rfl

/-! ### Children of a property -/

/-- A child is read on its own as a value of the property's type, whatever has been compiled before and whichever ids are
given, and the value is as it should be. -/
def ReadsAs (s : Schema) (context : Context) (p : Property) (R : Value → Prop) (c : Child) : Prop :=
  (c.element.isNil = true → p.nilable = true) ∧ ∀ (registry : Registry) (nonces : Nonces), registry.Over s →
    ∃ v t, readElement context p.name p.type (c.alone registry nonces) = .ok v t ∧ R v

theorem Accepts.readsAs (h : Accepts s context p c) : ReadsAs s context p (fun _ => True) c :=
  ⟨h.1, fun _ nonces hover => (h.alone hover nonces).imp fun _ => Exists.imp fun _ hread => ⟨hread, trivial⟩⟩

/-- There are steps enough for each child on its own. -/
def IsEnough (s : Schema) (steps : Nat) (cs : List Child) : Prop :=
  ∀ c ∈ cs, (c.nodes.length + 1) * Descriptor.chainBound s ≤ steps

section
variable (hp : IsWrapped s p nested) (h : StandsAt s b st (c :: cs)) (hname : c.element.localName = p.name)
include hp h hname

/-- The child of a property is read as an element of the property's type. -/
theorem readSingle_of_named : readSingle content owner p nested st =
    readWrapped content owner p.nilable nested (pastBlanks st) := by
  rw [readSingle, hp.not_content, Bool.false_and, if_neg Bool.false_ne_true, bind_ok h.peekStart]
  show (if nested.isChoice = true then _ else _ : Decoding Value) _ = _
  rw [hp.not_choice, if_neg Bool.false_ne_true, if_pos hname]

theorem readSingle_ok {R : Value → Prop} (hsteps : (c.nodes.length + 1) * Descriptor.chainBound s ≤ steps)
    (hc : ReadsAs s context p R c) :
    ∃ v t, readSingle (readContent context steps) owner p nested st = .ok v t ∧ StandsAt s b t cs ∧ R v := by
  obtain ⟨blanks, inner, hblanks, hinner, hnodes, hdrop⟩ := h.dropWhile_cons
  obtain ⟨v, t, hread, hv⟩ := hc.2 st.registry st.nonces h.registry
  obtain ⟨t', hread', hover, hcursor'⟩ := @readWrapped_of_alone _ _ owner _ _ _ _ _ _ _ _ _ _ hp.compile
    h.pastBlanks.registry hname hblanks hinner hnodes hdrop hc.1 hsteps hread
  rw [readSingle_of_named hp h hname]
  exact ⟨v, t', hread', ⟨hover, by rw [hcursor'], by rw [hcursor']; exact h.ending, by rw [hcursor']; exact h.opened⟩, hv⟩

theorem accepts_of_readSingle (hread : readSingle (readContent context steps) owner p nested st = .ok v t) :
    Accepts s context p c ∧ StandsAt s b t cs := by
  obtain ⟨blanks, inner, hblanks, hinner, hnodes, hdrop⟩ := h.dropWhile_cons
  rw [readSingle_of_named hp h hname] at hread
  obtain ⟨haccepts, hover, hcursor'⟩ := accepts_of_readWrapped hp.compile h.pastBlanks.registry hname hblanks hinner hnodes
    hdrop hread
  exact ⟨haccepts, hover, by rw [hcursor'], by rw [hcursor']; exact h.ending, by rw [hcursor']; exact h.opened⟩

end

section
variable {group rest : List Child} {limit : Nat} {values : List Value}

theorem head?_any_eq_false (h : ∀ c ∈ cs.head?, c.element.localName ≠ p.name) :
    cs.head?.any (·.element.localName = p.name) = false := by
  cases cs with
  | nil => rfl
  | cons c cs => exact decide_eq_false (h c rfl)

/-- Children of a repeated property are read one by one, up to the first of another name. -/
theorem readItems_ok {α : Type} {R : α → Value → Prop} {xs : List α} (hp : IsWrapped s p nested)
    (h : StandsAt s b st (group ++ rest)) (hnamed : ∀ c ∈ group, c.element.localName = p.name)
    (hrest : ∀ c ∈ rest.head?, c.element.localName ≠ p.name) (hsteps : IsEnough s steps (group ++ rest))
    (hgroup : List.Forall₂ (fun x => ReadsAs s context p (R x)) xs group) (hlimit : group.length < limit) :
    ∃ values t, readItems (readContent context steps) owner p nested limit st = .ok values t ∧ StandsAt s b t rest ∧
      List.Forall₂ R xs values := by
  induction hgroup generalizing st limit with
  | nil =>
    obtain ⟨limit, rfl⟩ := Nat.exists_eq_add_one_of_ne_zero (Nat.ne_of_gt hlimit)
    obtain ⟨t, hnext, ht⟩ := comesNext_ok hp h
    rw [List.nil_append, head?_any_eq_false hrest] at hnext
    rw [readItems, bind_ok hnext]
    exact ⟨[], t, rfl, ht, .nil⟩
  | @cons x c xs group hc _ ih =>
    obtain ⟨limit, rfl⟩ := Nat.exists_eq_add_one_of_ne_zero (Nat.ne_of_gt (Nat.lt_of_le_of_lt (Nat.zero_le _) hlimit))
    have hname := hnamed c List.mem_cons_self
    obtain ⟨t, hnext, ht⟩ := comesNext_ok hp h
    rw [List.cons_append, List.head?_cons, Option.any_some, decide_eq_true hname] at hnext
    obtain ⟨v, t', hread, ht', hv⟩ :=
      @readSingle_ok s context owner _ _ _ _ _ _ _ hp ht hname _ (hsteps c List.mem_cons_self) hc
    obtain ⟨values, t'', hitems, ht'', hvalues⟩ := ih ht' (fun d hd => hnamed d (List.mem_cons_of_mem c hd))
      (fun d hd => hsteps d (List.mem_cons_of_mem c hd)) (Nat.lt_of_succ_lt_succ hlimit)
    rw [readItems, bind_ok hnext, if_pos rfl, bind_ok hread, bind_ok hitems]
    exact ⟨v :: values, t'', rfl, ht'', .cons hv hvalues⟩

theorem accepts_of_readItems (hp : IsWrapped s p nested) (h : StandsAt s b st (group ++ rest))
    (hnamed : ∀ c ∈ group, c.element.localName = p.name) (hrest : ∀ c ∈ rest.head?, c.element.localName ≠ p.name)
    (hread : readItems (readContent context steps) owner p nested limit st = .ok values t) :
    (∀ c ∈ group, Accepts s context p c) ∧ StandsAt s b t rest := by
  induction group generalizing st limit values with
  | nil =>
    cases limit with
    | zero => cases hread
    | succ limit =>
      obtain ⟨t', hnext, ht'⟩ := comesNext_ok hp h
      rw [List.nil_append, head?_any_eq_false hrest] at hnext
      rw [readItems, bind_ok hnext] at hread
      cases hread
      exact ⟨List.forall_mem_nil _, ht'⟩
  | cons c group ih =>
    cases limit with
    | zero => cases hread
    | succ limit =>
      have hname := hnamed c List.mem_cons_self
      obtain ⟨t₁, hnext, ht₁⟩ := comesNext_ok hp h
      rw [List.cons_append, List.head?_cons, Option.any_some, decide_eq_true hname] at hnext
      rw [readItems, bind_ok hnext, if_pos rfl] at hread
      obtain ⟨v, t₂, hsingle, hread⟩ := bind_eq_ok.1 hread
      obtain ⟨values, t₃, hitems, hread⟩ := bind_eq_ok.1 hread
      cases hread
      obtain ⟨haccepts, ht₂⟩ := accepts_of_readSingle hp ht₁ hname hsingle
      obtain ⟨hgroup, ht⟩ := ih ht₂ (fun d hd => hnamed d (List.mem_cons_of_mem c hd)) hitems
      exact ⟨List.forall_mem_cons.2 ⟨haccepts, hgroup⟩, ht⟩

/-! ### Properties -/

/-- The type of a property is looked up without a step in the document. -/
theorem StandsAt.descriptor (h : StandsAt s b st cs) (hd : Descriptor.compile s type = .ok nested) :
    ∃ t, Decoding.descriptor type st = .ok nested t ∧ StandsAt s b t cs := by
  obtain ⟨registry, hover, hok⟩ := descriptor_ok h.registry hd
  exact ⟨_, hok, hover, h.ahead, h.ending, h.opened⟩

/-- What the values of a property make up: the list of them if it is repeated, and otherwise the only one or none. -/
def Gathers {α : Type} (p : Property) (R : α → Value → Prop) (xs : List α) (v : Value) : Prop :=
  if p.repeated then ∃ values, v = .list values ∧ List.Forall₂ R xs values
  else xs = [] ∧ v = .null ∨ ∃ x, xs = [x] ∧ R x v

section
variable (hp : IsWrapped s p nested) (h : StandsAt s b st cs)
include hp h

/-- The values of a repeated property are its items. -/
theorem readProperty_repeated (hrepeated : p.repeated = true) : ∃ st', StandsAt s b st' cs ∧
    readProperty content owner p st =
      (do return Value.list (← readItems content owner p nested (st'.cursor.ahead.length + 1))) st' := by
  obtain ⟨st', hdescriptor, hst'⟩ := h.descriptor hp.compile
  refine ⟨st', hst', ?_⟩
  rw [readProperty, bind_ok hdescriptor, if_pos hrepeated, bind_ok (get_apply st')]

/-- Where the child of a property that is not repeated comes next, it is read. -/
theorem readProperty_single (hrepeated : p.repeated = false) (hnext : ∃ c ∈ cs.head?, c.element.localName = p.name) :
    ∃ st', StandsAt s b st' cs ∧ readProperty content owner p st = readSingle content owner p nested st' := by
  obtain ⟨st', hdescriptor, hst'⟩ := h.descriptor hp.compile
  rw [readProperty, bind_ok hdescriptor, hrepeated, if_neg Bool.false_ne_true]
  cases p.optional with
  | false => exact ⟨st', hst', rfl⟩
  | true =>
    obtain ⟨c, hc, hname⟩ := hnext
    obtain ⟨st'', hcomes, hst''⟩ := comesNext_ok hp hst'
    rw [Option.mem_def.1 hc, Option.any_some, decide_eq_true hname] at hcomes
    rw [if_pos rfl, bind_ok hcomes]
    exact ⟨st'', hst'', rfl⟩

/-- Where it does not, an optional property has no value. -/
theorem readProperty_absent (hrepeated : p.repeated = false) (hoptional : p.optional = true)
    (hlacks : ∀ c ∈ cs.head?, c.element.localName ≠ p.name) :
    ∃ t, readProperty content owner p st = .ok .null t ∧ StandsAt s b t cs := by
  obtain ⟨st', hdescriptor, hst'⟩ := h.descriptor hp.compile
  obtain ⟨st'', hcomes, hst''⟩ := comesNext_ok hp hst'
  rw [head?_any_eq_false hlacks] at hcomes
  rw [readProperty, bind_ok hdescriptor, hrepeated, if_neg Bool.false_ne_true, hoptional, if_pos rfl, bind_ok hcomes]
  exact ⟨st'', rfl, hst''⟩

/-- The element of a plain property is missed where it does not come next. -/
theorem readProperty_lacks (hrequired : p.IsRequired) (hlacks : ∀ c ∈ cs.head?, c.element.localName ≠ p.name) :
    ∃ t, readProperty content owner p st = .error (.content (match cs.head? with
      | none => .missingElement p.name (some owner)
      | some x => .wrongElement x.element.localName p.name (some owner))) t := by
  obtain ⟨st', hdescriptor, hst'⟩ := h.descriptor hp.compile
  refine ⟨pastBlanks st', ?_⟩
  rw [readProperty, bind_ok hdescriptor, hrequired.1, if_neg Bool.false_ne_true, hrequired.2, if_neg Bool.false_ne_true,
    readSingle, hp.not_content, Bool.false_and, if_neg Bool.false_ne_true, bind_ok hst'.peekStart]
  cases cs with
  | nil => rfl
  | cons x cs =>
    show (if nested.isChoice = true then _ else _ : Decoding Value) _ = _
    rw [hp.not_choice, if_neg Bool.false_ne_true, if_neg (hlacks x rfl)]
    rfl

end

/-- A property that is not repeated takes the next child, or none if it is optional. -/
theorem takes_single (htakes : p.Takes cs group rest) (hrepeated : p.repeated = false) :
    (∃ c, group = [c] ∧ cs = c :: rest ∧ c.element.localName = p.name) ∨
      group = [] ∧ cs = rest ∧ p.optional = true ∧ ∀ c ∈ cs.head?, c.element.localName ≠ p.name := by
  obtain ⟨rfl, hallows, hnamed, hmaximal⟩ := htakes
  match group with
  | [] =>
    have hoptional : p.optional = true := by
      unfold Property.Allows at hallows
      simpa [hrepeated] using hallows
    refine .inr ⟨rfl, rfl, hoptional, hmaximal ?_⟩
    simp [Property.Allows, hoptional]
  | [c] => exact .inl ⟨c, rfl, rfl, hnamed c List.mem_cons_self⟩
  | c :: d :: group =>
    unfold Property.Allows at hallows
    rw [hrepeated, if_neg Bool.false_ne_true] at hallows
    split at hallows <;> simp at hallows

theorem takes_repeated (htakes : p.Takes cs group rest) (hrepeated : p.repeated = true) :
    ∀ c ∈ rest.head?, c.element.localName ≠ p.name := by
  refine htakes.maximal ?_
  rw [Property.Allows, if_pos hrepeated]
  trivial

/-- Children that a property takes make up its field. -/
theorem readProperty_ok {α : Type} {R : α → Value → Prop} {xs : List α} (hp : IsWrapped s p nested)
    (h : StandsAt s b st cs) (htakes : p.Takes cs group rest) (hsteps : IsEnough s steps cs)
    (hgroup : List.Forall₂ (fun x => ReadsAs s context p (R x)) xs group) :
    ∃ v t, readProperty (readContent context steps) owner p st = .ok v t ∧ StandsAt s b t rest ∧ Gathers p R xs v := by
  cases hrepeated : p.repeated with
  | true =>
    obtain ⟨st', hst', heq⟩ := @readProperty_repeated _ owner _ (readContent context steps) _ _ _ _ hp h hrepeated
    have hlimit : group.length < st'.cursor.ahead.length + 1 := by
      have := hst'.length_le
      rw [htakes.eq, List.length_append] at this
      omega
    rw [htakes.eq] at hst' hsteps
    obtain ⟨values, t, hitems, ht, hvalues⟩ := @readItems_ok s context owner _ _ _ _ _ _ _ _ _ R _ hp hst' htakes.named
      (takes_repeated htakes hrepeated) hsteps hgroup hlimit
    rw [heq, bind_ok hitems]
    exact ⟨_, t, rfl, ht, by rw [Gathers, if_pos hrepeated]; exact ⟨values, rfl, hvalues⟩⟩
  | false =>
    obtain ⟨c, rfl, rfl, hname⟩ | ⟨rfl, rfl, hoptional, hlacks⟩ := takes_single htakes hrepeated
    · obtain ⟨st', hst', heq⟩ :=
        @readProperty_single _ owner _ (readContent context steps) _ _ _ _ hp h hrepeated ⟨c, rfl, hname⟩
      cases hgroup with
      | @cons x _ xs _ hc hnone =>
        cases hnone
        obtain ⟨v, t, hread, ht, hv⟩ :=
          @readSingle_ok s context owner _ _ _ _ _ _ _ hp hst' hname _ (hsteps c List.mem_cons_self) hc
        refine ⟨v, t, heq.trans hread, ht, ?_⟩
        rw [Gathers, hrepeated]
        exact .inr ⟨x, rfl, hv⟩
    · cases hgroup
      obtain ⟨t, hread, ht⟩ :=
        @readProperty_absent _ owner _ (readContent context steps) _ _ _ _ hp h hrepeated hoptional hlacks
      refine ⟨.null, t, hread, ht, ?_⟩
      rw [Gathers, hrepeated]
      exact .inl ⟨rfl, rfl⟩

theorem accepts_of_readProperty (hp : IsWrapped s p nested) (h : StandsAt s b st cs) (htakes : p.Takes cs group rest)
    (hread : readProperty (readContent context steps) owner p st = .ok v t) :
    (∀ c ∈ group, Accepts s context p c) ∧ StandsAt s b t rest := by
  cases hrepeated : p.repeated with
  | true =>
    obtain ⟨st', hst', heq⟩ := @readProperty_repeated _ owner _ (readContent context steps) _ _ _ _ hp h hrepeated
    rw [htakes.eq] at hst'
    rw [heq] at hread
    obtain ⟨values, t', hitems, hread⟩ := bind_eq_ok.1 hread
    cases hread
    exact accepts_of_readItems hp hst' htakes.named (takes_repeated htakes hrepeated) hitems
  | false =>
    obtain ⟨c, rfl, rfl, hname⟩ | ⟨rfl, rfl, hoptional, hlacks⟩ := takes_single htakes hrepeated
    · obtain ⟨st', hst', heq⟩ :=
        @readProperty_single _ owner _ (readContent context steps) _ _ _ _ hp h hrepeated ⟨c, rfl, hname⟩
      obtain ⟨haccepts, ht⟩ := accepts_of_readSingle hp hst' hname (heq ▸ hread)
      exact ⟨by simpa using haccepts, ht⟩
    · obtain ⟨t', hread', ht'⟩ :=
        @readProperty_absent _ owner _ (readContent context steps) _ _ _ _ hp h hrepeated hoptional hlacks
      rw [hread'] at hread
      cases hread
      exact ⟨List.forall_mem_nil _, ht'⟩

end

/-! ### All properties -/

section
variable {ps : List Property} {fields : Fields}

/-- Every property has its values in elements of its own name. -/
def AreWrapped (s : Schema) (ps : List Property) : Prop := ∀ p ∈ ps, ∃ nested, IsWrapped s p nested

theorem IsEnough.of_append {front back : List Child} (h : IsEnough s steps (front ++ back)) : IsEnough s steps back :=
  fun c hc => h c (List.mem_append_right front hc)

variable (hps : AreWrapped s ps) (hnames : (ps.map (·.name)).Nodup) (h : StandsAt s b st cs)
include hps hnames h

/-- Acceptable children that split into groups are read. -/
theorem readProperties_ok (hsteps : IsEnough s steps cs) (hsplits : Splits (Accepts s context) ps cs) :
    ∃ fields t, readProperties (readContent context steps) owner ps st = .ok fields t ∧ StandsAt s b t [] := by
  induction ps generalizing st cs with
  | nil =>
    obtain rfl : cs = [] := hsplits
    exact ⟨[], st, rfl, h⟩
  | cons p ps ih =>
    obtain ⟨⟨nested, hp⟩, hrest⟩ := List.forall_mem_cons.1 hps
    rw [List.map_cons, List.nodup_cons] at hnames
    obtain ⟨group, rest, htakes⟩ | ⟨hrequired, hlacks⟩ := p.takes_or_lacks cs
    · obtain ⟨hgroup, hsplits⟩ := (htakes.splits_iff hnames.1).1 hsplits
      have hreads : List.Forall₂ (fun c => ReadsAs s context p (fun _ => True)) group group :=
        List.forall₂_same.2 fun c hc => (hgroup c hc).readsAs
      obtain ⟨v, t, hread, ht, -⟩ := @readProperty_ok s context owner _ _ _ _ _ _ _ _ _ _ _ hp h htakes hsteps hreads
      rw [htakes.eq] at hsteps
      obtain ⟨fields, t', hfields, ht'⟩ := ih hrest hnames.2 ht hsteps.of_append hsplits
      rw [readProperties, bind_ok hread, bind_ok hfields]
      exact ⟨_, t', rfl, ht'⟩
    · exact absurd hsplits (hrequired.not_splits hlacks)

/-- Where properties are read, they have taken acceptable children in groups, and stand in front of the others. -/
theorem splits_of_readProperties
    (hread : readProperties (readContent context steps) owner ps st = .ok fields t) :
    ∃ rest, StandsAt s b t rest ∧ (rest = [] → Splits (Accepts s context) ps cs) := by
  induction ps generalizing st cs fields with
  | nil =>
    cases hread
    exact ⟨cs, h, id⟩
  | cons p ps ih =>
    obtain ⟨⟨nested, hp⟩, hrest⟩ := List.forall_mem_cons.1 hps
    rw [List.map_cons, List.nodup_cons] at hnames
    obtain ⟨v, t₁, hproperty, hread⟩ := bind_eq_ok.1 hread
    obtain ⟨fields, t₂, hfields, hread⟩ := bind_eq_ok.1 hread
    cases hread
    obtain ⟨group, rest, htakes⟩ | ⟨hrequired, hlacks⟩ := p.takes_or_lacks cs
    · obtain ⟨hgroup, ht₁⟩ := accepts_of_readProperty hp h htakes hproperty
      obtain ⟨left, ht, hsplits⟩ := ih hrest hnames.2 ht₁ hfields
      exact ⟨left, ht, fun hnone => (htakes.splits_iff hnames.1).2 ⟨hgroup, hsplits hnone⟩⟩
    · obtain ⟨t', herror⟩ :=
        @readProperty_lacks _ owner _ (readContent context steps) _ _ _ _ hp h hrequired hlacks
      rw [herror] at hproperty
      cases hproperty

/-- Where children do not fit, the fault is told when those in front of it have been read. -/
theorem readProperties_misfits {misfit : Misfit} {e : Element} (hopened : b.opened.head? = some e)
    (hsteps : IsEnough s steps cs) (hmisfits : Misfits (Accepts s context) ps cs misfit) :
    ∃ t, (readProperties (readContent context steps) owner ps >>= fun _ => onCursor Cursor.finishElement) st =
      .error (.content (misfit.fault owner e.localName)) t := by
  induction ps generalizing st cs with
  | nil =>
    cases misfit with
    | missing q =>
      obtain ⟨done, later, heq, -⟩ := hmisfits
      cases done <;> cases heq
    | unexpected x q =>
      obtain ⟨done, later, heq, -⟩ := hmisfits
      cases done <;> cases heq
    | leftOver x =>
      obtain ⟨cs, rfl⟩ := List.head?_eq_some_iff.1 (halts_nil.1 hmisfits)
      exact ⟨pastBlanks st, h.finishElement_cons hopened⟩
  | cons p ps ih =>
    obtain ⟨⟨nested, hp⟩, hrest⟩ := List.forall_mem_cons.1 hps
    rw [List.map_cons, List.nodup_cons] at hnames
    obtain ⟨group, rest, htakes⟩ | ⟨hrequired, hlacks⟩ := p.takes_or_lacks cs
    · obtain ⟨hgroup, hmisfits⟩ := (htakes.misfits_iff hnames.1).1 hmisfits
      have hreads : List.Forall₂ (fun c => ReadsAs s context p (fun _ => True)) group group :=
        List.forall₂_same.2 fun c hc => (hgroup c hc).readsAs
      obtain ⟨v, t, hread, ht, -⟩ := @readProperty_ok s context owner _ _ _ _ _ _ _ _ _ _ _ hp h htakes hsteps hreads
      rw [htakes.eq] at hsteps
      obtain ⟨t', hfault⟩ := ih hrest hnames.2 ht hsteps.of_append hmisfits
      refine ⟨t', ?_⟩
      simp only [readProperties, bind_assoc, pure_bind] at hfault ⊢
      rw [bind_ok hread]
      exact hfault
    · obtain ⟨t, herror⟩ :=
        @readProperty_lacks _ owner _ (readContent context steps) _ _ _ _ hp h hrequired hlacks
      refine ⟨t, ?_⟩
      simp only [readProperties, bind_assoc]
      rw [bind_error herror]
      obtain ⟨hnone, rfl⟩ | ⟨x, hx, rfl⟩ := (hrequired.misfits_iff hlacks).1 hmisfits
      · rw [hnone]
        rfl
      · rw [hx]
        rfl

end

/-! ### Elements -/

/-- An element that is read as the declared type: not marked nil, and with no other type named. -/
structure IsReadAs (e : Element) (type : TypeName) : Prop where
  not_nil : e.isNil = false
  names : ∀ reference ∈ e.xsiType, Decoding.names reference type = true

theorem runtimeType_of_isReadAs (hd : Descriptor.compile s type = .ok nested) (he : IsReadAs e type) :
    runtimeType nested e st = .ok nested st := by
  unfold runtimeType
  cases hreference : e.xsiType with
  | none => rfl
  | some reference =>
    dsimp only
    rw [Descriptor.name_of_compile hd, if_pos (he.names reference hreference)]
    rfl

/-- There are steps enough inside an element for each of its children. -/
theorem isEnough_of_nodes (b : Behind) (hsteps : steps + 1 = ((b.nodes cs).length + 2) * Descriptor.chainBound s) :
    IsEnough s steps cs := by
  intro c hc
  have hlength : c.nodes.length + 1 ≤ (b.nodes cs).length := by
    have := (List.sublist_flatten_of_mem (List.mem_map_of_mem hc) : List.Sublist c.nodes (cs.map Child.nodes).flatten).length_le
    rw [Behind.nodes, List.flatMap_def]
    simp only [List.length_append, List.length_cons]
    omega
  have hbound := Nat.mul_le_mul_right (Descriptor.chainBound s) hlength
  rw [Nat.add_mul] at hsteps
  have : 1 ≤ 2 * Descriptor.chainBound s := by
    unfold Descriptor.chainBound
    omega
  omega

section
variable {d : Descriptor} {properties : List Property} {subtypes : List TypeName} {element : String} {blanks : List Node}

/-- An element of a sequence type is read as its properties are, up to its end tag. -/
theorem readElement_of_children (hd : Descriptor.compile s type = .ok d)
    (hshape : d.shape = .sequence properties subtypes false) (hover : st.registry.Over s) (he : IsReadAs e type)
    (hname : e.localName = element) (hopened : b.opened = e :: st.cursor.opened) (hending : b.ending = st.cursor.ending)
    (hblanks : ∀ n ∈ blanks, Cursor.isBlankText n = true) (hahead : st.cursor.ahead = blanks ++ .start e :: b.nodes cs) :
    ∃ steps st', steps + 1 = ((b.nodes cs).length + 2) * Descriptor.chainBound s ∧ StandsAt s b st' cs ∧
      readElement context element type st =
      (do
        let fields ← readProperties (readContent context steps) type properties
        onCursor Cursor.finishElement
        return Value.object type fields) st' := by
  have hdrop : st.cursor.ahead.dropWhile Cursor.isBlankText = .start e :: b.nodes cs := by
    rw [hahead, Cursor.dropWhile_blanks hblanks]
  obtain ⟨registry, hover', heq⟩ := @readElement_of_start s context _ _ _ _ _ _ hd hover hdrop hname
  obtain ⟨steps, hsteps⟩ : ∃ steps, ((b.nodes cs).length + 2) * Descriptor.chainBound s = steps + 1 :=
    Nat.exists_eq_add_one_of_ne_zero (Nat.mul_ne_zero (by omega) (by unfold Descriptor.chainBound; omega))
  refine ⟨steps, ⟨registry, ⟨b.nodes cs, st.cursor.ending, e :: st.cursor.opened⟩, st.nonces⟩,
    hsteps.symm, ⟨hover', rfl, hending.symm, hopened.symm⟩, ?_⟩
  have hstart := Cursor.dropWhile_blanks (List.forall_mem_nil _) e (b.nodes cs)
  rw [heq, hsteps, readWrapped, bind_ok (onCursor_expectStart hstart), he.not_nil, if_neg Bool.false_ne_true,
    bind_ok (runtimeType_of_isReadAs hd he), readContent, hshape, Descriptor.name_of_compile hd]
  dsimp only
  rw [if_neg Bool.false_ne_true]
  simp only [bind_assoc, pure_bind]

/-- **A sequence is read from the children that fit its content model, and from no others.** The children of an element are
accepted if they split into groups, one for each property in order, inherited ones first, of the sizes that the properties
ask for, and each child can be read on its own. Where the names of the children do not fit, there is a first place where they
do not, and it is told if the children in front of it are acceptable. -/
theorem accepts_content_model (hd : Descriptor.compile s type = .ok d)
    (hshape : d.shape = .sequence properties subtypes false) (hnames : (properties.map (·.name)).Nodup)
    (hproperties : ∀ p ∈ properties, p.content = false ∧
      ∃ nested, Descriptor.compile s p.type = .ok nested ∧ nested.isChoice = false)
    (hover : st.registry.Over s) (he : IsReadAs e type) (hname : e.localName = element)
    (hblanks : ∀ n ∈ blanks, Cursor.isBlankText n = true) {last : List Node}
    (hlast : ∀ n ∈ last, Cursor.isBlankText n = true)
    (hahead : st.cursor.ahead = blanks ++ .start e :: (cs.flatMap Child.nodes ++ (last ++ .finish :: rest))) :
    s.HasProperties type properties ∧
    ((∃ v t, readElement context element type st = .ok v t) ↔ Splits (Accepts s context) properties cs) ∧
    (¬Fits properties cs → ∃ misfit, Misfits (fun _ _ => True) properties cs misfit) ∧
    ∀ misfit, Misfits (Accepts s context) properties cs misfit →
      ∃ t, readElement context element type st = .error (.content (misfit.fault type element)) t := by
  let b : Behind := ⟨last, hlast, rest, st.cursor.ending, e :: st.cursor.opened⟩
  have hwrapped : AreWrapped s properties := fun p hp => by
    obtain ⟨hcontent, nested, hcompile, hchoice⟩ := hproperties p hp
    exact ⟨nested, hcompile, hcontent, hchoice⟩
  obtain ⟨steps, st', hnodes, hstands, heq⟩ := @readElement_of_children s context type e st b cs d properties subtypes
    element blanks hd hshape hover he hname rfl rfl hblanks hahead
  have hsteps := isEnough_of_nodes b hnodes
  refine ⟨Descriptor.hasProperties_of_compile hd hshape, ⟨?_, ?_⟩, exists_misfits hnames, ?_⟩
  · rintro ⟨v, t, hread⟩
    rw [heq] at hread
    obtain ⟨fields, t₁, hfields, hread⟩ := bind_eq_ok.1 hread
    obtain ⟨_, t₂, hfinish, -⟩ := bind_eq_ok.1 hread
    obtain ⟨left, ht₁, hsplits⟩ := splits_of_readProperties hwrapped hnames hstands hfields
    exact hsplits (ht₁.eq_nil_of_finishElement hfinish)
  · intro hsplits
    obtain ⟨fields, t, hfields, ht⟩ := @readProperties_ok s context type _ _ _ _ _ hwrapped hnames hstands hsteps hsplits
    rw [heq, bind_ok hfields, bind_ok ht.finishElement]
    exact ⟨_, _, rfl⟩
  · intro misfit hmisfits
    subst hname
    have hopened : b.opened.head? = some e := rfl
    obtain ⟨t, hfault⟩ := @readProperties_misfits s context type _ _ _ _ _ hwrapped hnames hstands misfit e hopened hsteps
      hmisfits
    refine ⟨t, ?_⟩
    rw [heq]
    cases hfields : readProperties (readContent context steps) type properties st' with
    | error fault t' =>
      rw [bind_error hfields] at hfault ⊢
      cases hfault
      rfl
    | ok fields t' =>
      rw [bind_ok hfields] at hfault ⊢
      exact bind_error hfault

end

/-! ### A receipt -/

/-- Receipts have the id of a voucher and some lines. -/
def receiptSchema : Schema := ⟨[
  (⟨"", "Voucher"⟩, ⟨.sequence, none, false, [⟨"id", .xsd "string", false, false, true, false⟩], [], []⟩),
  (⟨"", "Receipt"⟩,
    ⟨.sequence, some ⟨"", "Voucher"⟩, false, [⟨"line", .xsd "int", false, false, false, true⟩], [], []⟩)]⟩

/-- The properties of a receipt. -/
def receiptProperties : List Property :=
  [⟨"id", .xsd "string", false, false, true, false⟩, ⟨"line", .xsd "int", false, false, false, true⟩]

/-- The decoder of a document that is to be read as a receipt. -/
def receiptDecoder (text : String) : Decoder :=
  ⟨.ofSchema receiptSchema, .ofSource (.ofBytes (Utf8.ofString text)), .fresh⟩

/-- A child that holds a text. -/
def textChild (name text : String) : Child where
  element := ⟨name, none, [], none⟩
  nodes := [.text " ", .start ⟨name, none, [], none⟩, .text text, .finish]
  isElement := ⟨[.text " "], [.text text], by simp [Cursor.isBlankText, Text.allBlank, Text.isBlank], rfl, rfl⟩

/-- A receipt with a comment and two lines is accepted. With another id behind a line, that is told as left over. -/
theorem accepts_content_model_receipt :
    (∃ v t, readElement .inline "receipt" ⟨"", "Receipt"⟩
      (receiptDecoder "<receipt> <id>a</id><!-- two --> <line>1</line> <line>2</line></receipt>") = .ok v t) ∧
    ∃ t, readElement .inline "receipt" ⟨"", "Receipt"⟩
        (receiptDecoder "<receipt> <id>a</id><!-- two --> <line>1</line> <id>b</id></receipt>") =
      .error (.content (.strayElement "id" (some "receipt"))) t := by
  have hd : Descriptor.compile receiptSchema ⟨"", "Receipt"⟩ =
      .ok ⟨⟨"", "Receipt"⟩, .sequence receiptProperties [] false⟩ :=
    Descriptor.compile_of_isSequence (by decide +kernel)
  have hproperties : ∀ p ∈ receiptProperties, p.content = false ∧
      ∃ nested, Descriptor.compile receiptSchema p.type = .ok nested ∧ nested.isChoice = false := by
    intro p hp
    simp only [receiptProperties, List.mem_cons, List.not_mem_nil, or_false] at hp
    rcases hp with rfl | rfl <;> exact ⟨rfl, _, rfl, rfl⟩
  have hmodel {text : String} {cs : List Child} (hahead : (receiptDecoder text).cursor.ahead =
      [] ++ .start ⟨"receipt", none, [], none⟩ :: (cs.flatMap Child.nodes ++ ([] ++ [.finish]))) :=
    @accepts_content_model _ .inline _ _ (receiptDecoder text) [] cs _ _ _ "receipt" [] hd rfl (by decide) hproperties
      (Registry.over_ofSchema _) ⟨rfl, fun _ h => absurd h (Option.not_mem_none _)⟩ rfl (List.forall_mem_nil _) []
      (List.forall_mem_nil _) hahead
  have haccepts {p : Property} {c : Child} (hnil : c.element.isNil = false) (h : okWith (fun _ _ => true)
      (readElement .inline p.name p.type (c.alone (.ofSchema receiptSchema) .fresh)) = true) :
      Accepts receiptSchema .inline p c := by
    obtain ⟨v, t, hread, -⟩ := exists_of_okWith h
    exact ⟨fun hmark => absurd (hnil.symm.trans hmark) Bool.false_ne_true, v, t, hread⟩
  have hid : Accepts receiptSchema .inline ⟨"id", .xsd "string", false, false, true, false⟩ (textChild "id" "a") :=
    haccepts (by decide) (by decide +kernel)
  have hline (text : String) (h : text = "1" ∨ text = "2") :
      Accepts receiptSchema .inline ⟨"line", .xsd "int", false, false, false, true⟩ (textChild "line" text) := by
    rcases h with rfl | rfl <;> exact haccepts (by decide) (by decide +kernel)
  constructor
  · obtain ⟨-, hiff, -⟩ := @hmodel "<receipt> <id>a</id><!-- two --> <line>1</line> <line>2</line></receipt>"
      [textChild "id" "a", textChild "line" "1", textChild "line" "2"] (by decide +kernel)
    refine hiff.2 ⟨[textChild "id" "a"], _, rfl, Nat.le_refl 1, ?_, [_, _], [], rfl, trivial, ?_, rfl⟩
    · simpa using ⟨rfl, hid⟩
    · simpa using ⟨⟨rfl, hline "1" (.inl rfl)⟩, rfl, hline "2" (.inr rfl)⟩
  · obtain ⟨-, -, -, hmisfit⟩ := @hmodel "<receipt> <id>a</id><!-- two --> <line>1</line> <id>b</id></receipt>"
      [textChild "id" "a", textChild "line" "1", textChild "id" "b"] (by decide +kernel)
    refine hmisfit (.leftOver (textChild "id" "b")) ⟨[_, _], [_], rfl, rfl,
      ⟨[textChild "id" "a"], _, rfl, Nat.le_refl 1, ?_, [_], [], rfl, trivial, ?_, rfl⟩, ?_⟩
    · simpa using ⟨rfl, hid⟩
    · simpa using ⟨rfl, hline "1" (.inl rfl)⟩
    · -- Behind a line no property asks for an id.
      rintro _ ⟨⟩ hfits
      have hids : Property.Takes ⟨"id", .xsd "string", false, false, true, false⟩
          ([textChild "id" "a"] ++ [textChild "line" "1", textChild "id" "b"]) [textChild "id" "a"] _ :=
        Property.takes_of_splits (Nat.le_refl 1) (by simp [textChild]) (by simp [textChild])
      have hlines : Property.Takes ⟨"line", .xsd "int", false, false, false, true⟩
          ([textChild "line" "1"] ++ [textChild "id" "b"]) [textChild "line" "1"] _ :=
        Property.takes_of_splits trivial (by simp [textChild]) (by simp [textChild])
      obtain ⟨-, hrest⟩ := (hids.splits_iff (by decide)).1 hfits
      obtain ⟨-, hnone⟩ := (hlines.splits_iff (by decide)).1 hrest
      cases (show [_] = [] from hnone)

end Decoding
end SoapBinding
