import SoapBinding.Proofs.Xml.Embedded

/-!
# What a cursor passes

The nodes that a cursor passes leave some elements open, of those that were open in front and those that start among them
(`Node.leaves?`). Nodes that leave nothing open, and close nothing that they have not opened, hold whole elements
(`Node.AreWhole`). Each step of a cursor is told by what it passes: blank text, one tag, texts, or whole elements up to an end
tag (`expectStart_iff`, `finishElement_iff`, `foldText_iff`, `skipToEnd_iff`).

So a cursor that stands inside an element and has passed some nodes is where it started, but for these nodes and for the
elements that they have left open (`Cursor.Moved`). And it makes no difference to it what stands behind the end tag of the
element around, or what that element stands in (`Span`): of two cursors that have the nodes up to this end tag in common, the
second does what the first does.
-/

namespace SoapBinding.Xml

open Outcome

namespace Node

/-- The elements that nodes leave open, the innermost first, where some are open in front of them. There are none if an end tag
is that of an element further out. -/
def leaves? : List Element → List Node → Option (List Element)
  | opened, [] => some opened
  | opened, .start e :: rest => leaves? (e :: opened) rest
  | _ :: opened, .finish :: rest => leaves? opened rest
  | [], .finish :: _ => none
  | opened, .text _ :: rest => leaves? opened rest

/-- The elements that start among the nodes end there, and no others do. -/
def AreWhole (ns : List Node) : Prop := leaves? [] ns = some []

/-- Nodes of one element: blank text, its start tag, and all up to the end tag that belongs to it. -/
def AreElement (e : Element) (ns : List Node) : Prop :=
  ∃ blanks inner, (∀ n ∈ blanks, Cursor.isBlankText n = true) ∧ AreWhole inner ∧
    ns = blanks ++ .start e :: (inner ++ [.finish])

instance (ns : List Node) : Decidable (AreWhole ns) := inferInstanceAs (Decidable (leaves? [] ns = some []))

variable {opened left outer : List Element} {ns before behind rest rest' : List Node}

theorem leaves?_append (opened : List Element) (before behind : List Node) :
    leaves? opened (before ++ behind) = (leaves? opened before).bind (leaves? · behind) := by
  induction before generalizing opened with
  | nil => rfl
  | cons n before ih =>
    cases n with
    | start e => exact ih (e :: opened)
    | text t => simpa only [List.cons_append, leaves?] using ih opened
    | finish =>
      cases opened with
      | nil => rfl
      | cons e opened => exact ih opened

theorem leaves?_trans (h : leaves? opened before = some left) : leaves? opened (before ++ behind) = leaves? left behind := by
  rw [leaves?_append, h, Option.bind_some]

/-- What is open further out does not matter to nodes that do not close it. -/
theorem leaves?_inside (h : leaves? opened ns = some left) : leaves? (opened ++ outer) ns = some (left ++ outer) := by
  induction ns generalizing opened with
  | nil =>
    cases h
    rfl
  | cons n rest ih =>
    cases n with
    | start e => exact @ih (e :: opened) h
    | text t =>
      rw [leaves?] at h ⊢
      exact ih h
    | finish =>
      cases opened with
      | nil => cases h
      | cons e opened => exact ih h

theorem AreWhole.leaves? (h : AreWhole ns) (opened : List Element) : Node.leaves? opened ns = some opened :=
  leaves?_inside h

/-- Texts open nothing. -/
theorem leaves?_texts (opened : List Element) (texts : List String) : leaves? opened (texts.map .text) = some opened := by
  induction texts with
  | nil => rfl
  | cons t texts ih => exact ih

theorem leaves?_blanks (opened : List Element) (ns : List Node) :
    leaves? opened (ns.takeWhile Cursor.isBlankText) = some opened := by
  induction ns with
  | nil => rfl
  | cons n rest ih =>
    rw [List.takeWhile_cons]
    split
    · next hblank =>
      cases n with
      | text t => exact ih
      | start | finish => cases hblank
    · rfl

/-- An end tag is not passed where nothing is open. -/
theorem leaves?_close (h : leaves? opened before = some []) : leaves? opened (before ++ .finish :: behind) = none := by
  rw [leaves?_trans h]
  rfl

/-- Nodes that are passed in front of the end tag of the element around are in front of it. -/
theorem split_of_leaves? (h : leaves? opened before = some []) {passed : List Node}
    (hahead : before ++ .finish :: rest = passed ++ behind) (hpassed : leaves? opened passed = some left) :
    ∃ between, before = passed ++ between ∧ behind = between ++ .finish :: rest := by
  obtain ⟨between, rfl, hbetween⟩ | ⟨between, rfl, hbehind⟩ := List.append_eq_append_iff.1 hahead
  · cases between with
    | nil => exact ⟨[], by simp, by simpa using hbetween.symm⟩
    | cons n more =>
      -- What is passed would hold the end tag.
      obtain ⟨rfl, -⟩ := List.cons.inj hbetween
      rw [leaves?_close h] at hpassed
      cases hpassed
  · exact ⟨between, rfl, hbehind⟩

/-- Whole elements in front of an end tag are the same if the nodes are. -/
theorem AreWhole.finish_inj (h : AreWhole before) (h' : AreWhole ns)
    (hahead : before ++ .finish :: rest = ns ++ .finish :: rest') : before = ns ∧ rest = rest' := by
  obtain ⟨between, rfl, hbehind⟩ := split_of_leaves? h hahead h'
  cases between with
  | nil =>
    rw [List.nil_append] at hbehind
    exact ⟨by rw [List.append_nil], (List.cons.inj hbehind).2.symm⟩
  | cons n more =>
    -- The first end tag would be passed by nodes that have opened nothing for it.
    obtain ⟨rfl, -⟩ := List.cons.inj hbehind
    have hnone : Node.leaves? [] (ns ++ .finish :: more) = none := leaves?_close h'
    rw [show Node.leaves? [] (ns ++ .finish :: more) = some [] from h] at hnone
    cases hnone

end Node

namespace Cursor

open Node (leaves? AreWhole)

variable {c c₁ : Cursor} {e : Element} {r : Option Element}

/-! ### What each step passes -/

/-- Only blank text is passed in search of a start tag. -/
theorem peekStart_eq (h : peekStart c = .ok r c₁) : c₁ = ⟨c.ahead.dropWhile isBlankText, c.ending, c.opened⟩ := by
  unfold peekStart at h
  dsimp only at h
  split at h
  · cases h
    rfl
  · cases h
    rfl
  · cases h
  · unfold atEnd at h
    split at h <;> cases h
    rfl

theorem peek_eq {node : Option Node} (h : peek c = .ok node c₁) : c₁ = c := by
  unfold peek at h
  split at h
  · cases h
    rfl
  · unfold atEnd at h
    split at h <;> cases h
    rfl

/-- An end tag that is reached is the next node, or stands behind it. -/
theorem exists_finish_cons {inner : List Element} {n : Node} {ns : List Node} {P : List Node → Prop} :
    (∃ passed rest, n :: ns = passed ++ .finish :: rest ∧ leaves? inner passed = some [] ∧ P rest) ↔
      (n = .finish ∧ inner = [] ∧ P ns) ∨
        ∃ passed rest, ns = passed ++ .finish :: rest ∧ leaves? inner (n :: passed) = some [] ∧ P rest := by
  constructor
  · rintro ⟨passed, rest, heq, hpassed, hrest⟩
    cases passed with
    | nil =>
      obtain ⟨rfl, rfl⟩ := List.cons.inj heq
      cases hpassed
      exact .inl ⟨rfl, rfl, hrest⟩
    | cons n' passed =>
      obtain ⟨rfl, rfl⟩ := List.cons.inj heq
      exact .inr ⟨passed, rest, rfl, hpassed, hrest⟩
  · rintro (⟨rfl, rfl, hrest⟩ | ⟨passed, rest, rfl, hpassed, hrest⟩)
    · exact ⟨[], ns, rfl, rfl, hrest⟩
    · exact ⟨n :: passed, rest, rfl, hpassed, hrest⟩

/-- All that an element holds is skipped up to its end tag, together with that tag. -/
theorem skipBelow_iff {ending : Ending} {inner o : List Element} {ns : List Node} :
    skipBelow (o.length + 1) ending (inner ++ e :: o) ns = .ok () c₁ ↔
      ∃ passed rest, ns = passed ++ .finish :: rest ∧ leaves? inner passed = some [] ∧ c₁ = ⟨rest, ending, o⟩ := by
  have hdeep (inner : List Element) : ¬(inner ++ e :: o).length < o.length + 1 := by
    rw [List.length_append, List.length_cons]
    omega
  induction ns generalizing inner with
  | nil =>
    rw [skipBelow, if_neg (hdeep inner)]
    cases ending <;> simp [atEnd]
  | cons n ns ih =>
    rw [skipBelow, if_neg (hdeep inner), exists_finish_cons]
    cases n with
    | start f => simpa [leaves?, openedAfter] using @ih (f :: inner)
    | text t => simpa [leaves?, openedAfter] using @ih inner
    | finish =>
      cases inner with
      | nil =>
        -- This is the end tag that is looked for.
        simp [leaves?, openedAfter, skipBelow_done, eq_comm]
      | cons f inner => simpa [leaves?, openedAfter] using @ih inner

theorem skipToEnd_iff {o : List Element} (hopened : c.opened = e :: o) : skipToEnd c = .ok () c₁ ↔
    ∃ inner rest, c.ahead = inner ++ .finish :: rest ∧ AreWhole inner ∧ c₁ = ⟨rest, c.ending, o⟩ := by
  rw [skipToEnd, depth, hopened, if_neg (by simp)]
  exact @skipBelow_iff _ _ _ [] _ _

/-- Texts that are passed up to an end tag are none, or the next node and those behind it. -/
theorem exists_texts_cons {n : Node} {ns : List Node} {P : List String → List Node → Prop} :
    (∃ (texts : List String) (rest : List Node), n :: ns = texts.map .text ++ .finish :: rest ∧ P texts rest) ↔
      (n = .finish ∧ P [] ns) ∨
        ∃ t, n = .text t ∧ ∃ (texts : List String) (rest : List Node),
          ns = texts.map .text ++ .finish :: rest ∧ P (t :: texts) rest := by
  constructor
  · rintro ⟨texts, rest, heq, hrest⟩
    cases texts with
    | nil =>
      obtain ⟨rfl, rfl⟩ := List.cons.inj heq
      exact .inl ⟨rfl, hrest⟩
    | cons t texts =>
      obtain ⟨rfl, rfl⟩ := List.cons.inj heq
      exact .inr ⟨t, rfl, texts, rest, rfl, hrest⟩
  · rintro (⟨rfl, hrest⟩ | ⟨t, rfl, texts, rest, rfl, hrest⟩)
    · exact ⟨[], ns, rfl, hrest⟩
    · exact ⟨t :: texts, rest, rfl, hrest⟩

/-- Texts are passed up to the end tag of the element around, which is left. -/
theorem foldText_iff {σ : Type} {f : σ → String → Except Error σ} {a b : σ} : foldText f a c = .ok b c₁ ↔
    ∃ (texts : List String) (rest : List Node), c.ahead = texts.map .text ++ .finish :: rest ∧
      texts.foldlM f a = .ok b ∧ c₁ = ⟨.finish :: rest, c.ending, c.opened⟩ := by
  obtain ⟨ahead, ending, opened⟩ := c
  show foldNodes f ending opened a ahead = _ ↔ _
  induction ahead generalizing a with
  | nil => cases ending <;> simp [foldNodes, atEnd, failWithin]
  | cons n ahead ih =>
    rw [exists_texts_cons]
    cases n with
    | start e => simp [foldNodes, failWithin]
    | finish => simp [foldNodes, pure, Except.pure, eq_comm]
    | text t =>
      cases hf : f a t with
      | error fault => simp [foldNodes, hf, bind, Except.bind]
      | ok a' => simpa [foldNodes, hf, bind, Except.bind] using ih

/-! ### Moving on inside an element -/

/-- A cursor has passed some nodes and is inside the elements that they have left open. -/
structure Moved (start : Cursor) (passed : List Node) (inner : List Element) (c : Cursor) : Prop where
  ahead : start.ahead = passed ++ c.ahead
  leaves : leaves? [] passed = some inner
  ending : c.ending = start.ending
  opened : c.opened = inner ++ start.opened

variable {start : Cursor} {passed : List Node} {inner inner₁ : List Element}

theorem Moved.refl (c : Cursor) : Moved c [] [] c := ⟨rfl, rfl, rfl, rfl⟩

theorem Moved.trans (h : Moved start passed inner c) (more : List Node) (hmore : c.ahead = more ++ c₁.ahead)
    (hleaves : leaves? inner more = some inner₁) (hending : c₁.ending = c.ending)
    (hopened : c₁.opened = inner₁ ++ start.opened) : Moved start (passed ++ more) inner₁ c₁ :=
  ⟨by rw [h.ahead, hmore, List.append_assoc], by rw [Node.leaves?_trans h.leaves, hleaves], hending.trans h.ending, hopened⟩

/-- A cursor that has passed nothing has not moved. -/
theorem Moved.eq_of_length (h : Moved start passed inner c) (hlength : start.ahead.length ≤ c.ahead.length) : c = start := by
  obtain ⟨hahead, hleaves, hending, hopened⟩ := h
  obtain rfl : passed = [] := by
    rw [hahead, List.length_append] at hlength
    exact List.eq_nil_of_length_eq_zero (by omega)
  cases hleaves
  obtain ⟨ahead, ending, opened⟩ := c
  obtain ⟨ahead', ending', opened'⟩ := start
  rw [Cursor.mk.injEq]
  exact ⟨hahead.symm, hending, hopened⟩

/-- A cursor is inside a number of elements, beside those around where it started. -/
def IsInside (start : Cursor) (n : Nat) (c : Cursor) : Prop := ∃ passed inner, Moved start passed inner c ∧ inner.length = n

theorem IsInside.self {c : Cursor} : IsInside c 0 c := ⟨[], [], .refl c, rfl⟩

/-- A cursor is behind the end tag of the element around where it started. -/
structure HasLeft (start c : Cursor) : Prop where
  ahead : ∃ inner, start.ahead = inner ++ .finish :: c.ahead ∧ AreWhole inner
  ending : c.ending = start.ending
  opened : c.opened = start.opened.drop 1

variable {n : Nat}

/-- What is ahead of a cursor are blank texts, and what is behind them. -/
theorem ahead_eq_of_dropWhile {rest : List Node} (h : c.ahead.dropWhile isBlankText = rest) :
    c.ahead = c.ahead.takeWhile isBlankText ++ rest := by
  rw [← h, List.takeWhile_append_dropWhile]

theorem IsInside.dropBlanks (h : IsInside start n c) :
    IsInside start n ⟨c.ahead.dropWhile isBlankText, c.ending, c.opened⟩ := by
  obtain ⟨passed, inner, hmoved, hn⟩ := h
  exact ⟨_, inner, hmoved.trans _ (ahead_eq_of_dropWhile rfl) (Node.leaves?_blanks ..) rfl hmoved.opened, hn⟩

theorem IsInside.foldText {σ : Type} {f : σ → String → Except Error σ} {a b : σ} (h : IsInside start n c)
    (hok : Cursor.foldText f a c = .ok b c₁) : IsInside start n c₁ := by
  obtain ⟨passed, inner, hmoved, hn⟩ := h
  obtain ⟨texts, rest, hahead, -, rfl⟩ := foldText_iff.1 hok
  exact ⟨_, inner, hmoved.trans _ hahead (Node.leaves?_texts ..) rfl hmoved.opened, hn⟩

theorem IsInside.expectStart (h : IsInside start n c) (hok : Cursor.expectStart c = .ok e c₁) :
    IsInside start (n + 1) c₁ := by
  obtain ⟨passed, inner, hmoved, hn⟩ := h
  obtain ⟨rest, hdrop, rfl⟩ := expectStart_iff.1 hok
  refine ⟨_, e :: inner, hmoved.trans (c.ahead.takeWhile isBlankText ++ [.start e]) ?_ ?_ rfl ?_, by simp [hn]⟩
  · simpa using ahead_eq_of_dropWhile hdrop
  · rw [Node.leaves?_trans (Node.leaves?_blanks ..)]
    rfl
  · rw [hmoved.opened, List.cons_append]

/-- An element is open further in, or around where the cursor started. -/
theorem IsInside.opened_ne_nil (h : IsInside start n c) (hopen : 0 < n ∨ start.opened ≠ []) : c.opened ≠ [] := by
  obtain ⟨passed, inner, hmoved, rfl⟩ := h
  rw [hmoved.opened, Ne, List.append_eq_nil_iff, not_and]
  rintro rfl
  exact hopen.resolve_left (Nat.lt_irrefl 0)

/-- Behind an end tag, of all that is open there is less by one. -/
theorem IsInside.leave {inside rest : List Node} (h : IsInside start (n + 1) c) (hahead : c.ahead = inside ++ .finish :: rest)
    (hinside : AreWhole inside) : IsInside start n ⟨rest, c.ending, c.opened.drop 1⟩ := by
  obtain ⟨passed, inner, hmoved, hn⟩ := h
  cases inner with
  | nil => cases hn
  | cons e inner =>
    refine ⟨_, inner, hmoved.trans (inside ++ [.finish]) (by simpa using hahead) ?_ rfl ?_, Nat.succ.inj hn⟩
    · rw [Node.leaves?_trans (hinside.leaves? _)]
      rfl
    · rw [hmoved.opened]
      rfl

/-- Behind the end tag of the element around, the cursor has left it. -/
theorem IsInside.hasLeft {inside rest : List Node} (h : IsInside start 0 c) (hahead : c.ahead = inside ++ .finish :: rest)
    (hinside : AreWhole inside) : HasLeft start ⟨rest, c.ending, c.opened.drop 1⟩ := by
  obtain ⟨passed, inner, hmoved, hn⟩ := h
  obtain rfl := List.eq_nil_of_length_eq_zero hn
  refine ⟨⟨passed ++ inside, ?_, (Node.leaves?_trans hmoved.leaves).trans hinside⟩, hmoved.ending, ?_⟩
  · rw [hmoved.ahead, hahead, List.append_assoc]
  · rw [hmoved.opened, List.nil_append]

theorem areWhole_blanks (ns : List Node) : AreWhole (ns.takeWhile isBlankText) := Node.leaves?_blanks [] ns

/-- What is passed in front of an end tag, and the tag. -/
theorem exists_finish_of_finishElement (h : finishElement c = .ok () c₁) :
    ∃ inside rest, c.ahead = inside ++ .finish :: rest ∧ AreWhole inside ∧ c₁ = ⟨rest, c.ending, c.opened.drop 1⟩ := by
  obtain ⟨rest, hdrop, rfl⟩ := finishElement_iff.1 h
  exact ⟨_, rest, ahead_eq_of_dropWhile hdrop, areWhole_blanks _, rfl⟩

theorem exists_finish_of_skipToEnd (hopened : c.opened ≠ []) (h : skipToEnd c = .ok () c₁) :
    ∃ inside rest, c.ahead = inside ++ .finish :: rest ∧ AreWhole inside ∧ c₁ = ⟨rest, c.ending, c.opened.drop 1⟩ := by
  obtain ⟨e, o, heq⟩ := List.exists_cons_of_ne_nil hopened
  obtain ⟨inside, rest, hahead, hinside, rfl⟩ := (skipToEnd_iff heq).1 h
  exact ⟨inside, rest, hahead, hinside, by rw [heq]; rfl⟩

/-! ### The same step twice -/

/-- Two cursors that are given. -/
def exactly (c c' : Cursor) : Pairing Cursor Cursor := ⟨fun a a' => a = c ∧ a' = c', fun _ => False⟩

/-- A cursor that is in the same place in two runs. -/
def same (P : Cursor → Prop) : Pairing Cursor Cursor := ⟨fun c c' => c' = c ∧ P c, fun _ => False⟩

/-- A step from the same place leads to the same place, and with the same result. -/
theorem follows_same {α : Type} {P Q : Cursor → Prop} {work : Reading α} {R : α → α → Prop} (hrefl : ∀ a, R a a)
    (h : ∀ c a c₁, P c → work c = .ok a c₁ → Q c₁) : Follows (same P) work work R (same Q) := by
  constructor
  · intro _ _ _ hlost
    exact hlost.elim
  · rintro _ c a c₁ ⟨rfl, hc⟩ hok
    exact .inr ⟨a, c₁, hok, hrefl a, rfl, h c a c₁ hc hok⟩

end Cursor

/-! ### Two cursors that are given -/

namespace Cursor

variable {c c' c₁ c₁' : Cursor} {e : Element} {rest rest' : List Node} {Q : Pairing Cursor Cursor}

theorem follows_exactly {α β : Type} {work : Reading α} {work' : Reading β} {R : α → β → Prop} {a : α} {b : β}
    (h : work c = .ok a c₁) (h' : work' c' = .ok b c₁') (hR : R a b) (hQ : Q.linked c₁ c₁') :
    Follows (exactly c c') work work' R Q := by
  constructor
  · intro _ _ _ hlost
    exact hlost.elim
  · rintro _ _ _ _ ⟨rfl, rfl⟩ hok
    rw [h] at hok
    cases hok
    exact .inr ⟨b, c₁', h', hR, hQ⟩

/-- In front of a start tag both are moved past the blank text. -/
theorem follows_peekStart_exactly (h : c.ahead.dropWhile isBlankText = .start e :: rest)
    (h' : c'.ahead.dropWhile isBlankText = .start e :: rest') :
    Follows (exactly c c') peekStart peekStart (Option.Rel Eq)
      (exactly ⟨.start e :: rest, c.ending, c.opened⟩ ⟨.start e :: rest', c'.ending, c'.opened⟩) :=
  follows_exactly (peekStart_of_start h) (peekStart_of_start h') (.some rfl) ⟨rfl, rfl⟩

theorem follows_expectStart_exactly {ending ending' : Ending} {opened opened' : List Element}
    (h : Q.linked ⟨rest, ending, e :: opened⟩ ⟨rest', ending', e :: opened'⟩) :
    Follows (exactly ⟨.start e :: rest, ending, opened⟩ ⟨.start e :: rest', ending', opened'⟩) expectStart expectStart Eq Q :=
  follows_exactly (expectStart_iff.2 ⟨rest, rfl, rfl⟩) (expectStart_iff.2 ⟨rest', rfl, rfl⟩) rfl h

/-- Blank text in front of a start tag is all that is passed. -/
theorem dropWhile_blanks {blanks : List Node} (h : ∀ n ∈ blanks, isBlankText n = true) (e : Element) (rest : List Node) :
    (blanks ++ .start e :: rest).dropWhile isBlankText = .start e :: rest := by
  rw [List.dropWhile_append_of_pos h]
  exact List.dropWhile_cons_of_neg (by simp [isBlankText])

end Cursor

/-! ### The same nodes up to an end tag -/

/-- Two places that have the nodes in common up to the end tag of the element around. -/
structure Span where
  /-- The nodes in common. -/
  nodes : List Node
  /-- What is behind the end tag in the first place. -/
  rest : List Node
  /-- What is behind the end tag in the second place. -/
  rest' : List Node
  /-- What the first document ends in. -/
  ending : Ending
  /-- What the second document ends in. -/
  ending' : Ending
  /-- The elements around the first place, and the one that ends. -/
  opened : List Element
  /-- The elements around the second place, and the one that ends. -/
  opened' : List Element
  areWhole : Node.AreWhole nodes
  around : opened'.head? = opened.head?

namespace Span

open Cursor Node

/-- The first cursor, in front of some of the nodes, inside some elements. -/
def first (S : Span) (left : List Node) (inner : List Element) : Cursor :=
  ⟨left ++ .finish :: S.rest, S.ending, inner ++ S.opened⟩

/-- The second cursor, in front of some of the nodes, inside some elements. -/
def second (S : Span) (left : List Node) (inner : List Element) : Cursor :=
  ⟨left ++ .finish :: S.rest', S.ending', inner ++ S.opened'⟩

/-- Some nodes are left of those in common, where those in front of them leave some elements open. -/
def Leaves (S : Span) (left : List Node) (inner : List Element) : Prop :=
  ∃ passed, S.nodes = passed ++ left ∧ leaves? [] passed = some inner

variable {S : Span} {left left₁ passed : List Node} {inner inner₁ : List Element} {c₁ : Cursor} {e : Element} {bound n : Nat}

theorem leaves_nodes (S : Span) : S.Leaves S.nodes [] := ⟨[], rfl, rfl⟩

/-- What is left closes what is open. -/
theorem Leaves.closes (h : S.Leaves left inner) : leaves? inner left = some [] := by
  obtain ⟨passed, hnodes, hpassed⟩ := h
  rw [← leaves?_trans hpassed, ← hnodes]
  exact S.areWhole

theorem Leaves.step (passed : List Node) (h : S.Leaves (passed ++ left) inner) (hpassed : leaves? inner passed = some inner₁) :
    S.Leaves left inner₁ := by
  obtain ⟨before, hnodes, hbefore⟩ := h
  exact ⟨before ++ passed, by rw [hnodes, List.append_assoc], by rw [leaves?_trans hbefore, hpassed]⟩

/-- Where as many nodes are left, it is the same place. -/
theorem Leaves.unique (h : S.Leaves left inner) (h₁ : S.Leaves left₁ inner₁) (hlength : left.length = left₁.length) :
    left = left₁ ∧ inner = inner₁ := by
  obtain ⟨passed, hnodes, hpassed⟩ := h
  obtain ⟨passed₁, hnodes₁, hpassed₁⟩ := h₁
  obtain ⟨rfl, rfl⟩ := List.append_inj' (hnodes.symm.trans hnodes₁) hlength
  rw [hpassed] at hpassed₁
  exact ⟨rfl, Option.some.inj hpassed₁⟩

/-- What the first cursor passes up to some node is passed by the second. -/
theorem Leaves.split {ahead : List Node} (passed : List Node) (h : S.Leaves left inner)
    (hahead : (S.first left inner).ahead = passed ++ ahead) (hpassed : leaves? inner passed = some inner₁) :
    ∃ between, left = passed ++ between ∧ ahead = between ++ .finish :: S.rest ∧ S.Leaves between inner₁ := by
  obtain ⟨between, rfl, hbetween⟩ := split_of_leaves? h.closes hahead hpassed
  exact ⟨between, rfl, hbetween, h.step passed hpassed⟩

/-- Two cursors that have nodes in common up to an end tag, inside a number of elements. No more nodes are left than a bound
tells. -/
def alongside (S : Span) (bound n : Nat) : Pairing Cursor Cursor where
  linked c c' := ∃ left inner, S.Leaves left inner ∧ left.length ≤ bound ∧ inner.length = n ∧ c = S.first left inner ∧
    c' = S.second left inner
  lost _ := False

/-- More nodes may be left. -/
theorem alongside_implies (S : Span) {bound' : Nat} (h : bound ≤ bound') :
    (S.alongside bound n).Implies (S.alongside bound' n) := by
  refine ⟨?_, fun _ => id⟩
  rintro _ _ ⟨left, inner, hleaves, hbound, hn, rfl, rfl⟩
  exact ⟨left, inner, hleaves, Nat.le_trans hbound h, hn, rfl, rfl⟩

/-- Two cursors behind the end tag that both have come to. -/
def behind (S : Span) : Pairing Cursor Cursor :=
  exactly ⟨S.rest, S.ending, S.opened.drop 1⟩ ⟨S.rest', S.ending', S.opened'.drop 1⟩

theorem follows_of_leaves {α β : Type} {work : Reading α} {work' : Reading β} {R : α → β → Prop}
    {Q : Pairing Cursor Cursor}
    (h : ∀ left inner a c₁, S.Leaves left inner → left.length ≤ bound → inner.length = n →
      work (S.first left inner) = .ok a c₁ →
        ∃ b c₁', work' (S.second left inner) = .ok b c₁' ∧ R a b ∧ Q.linked c₁ c₁') :
    Follows (S.alongside bound n) work work' R Q := by
  constructor
  · intro _ _ _ hlost
    exact hlost.elim
  · rintro _ _ a c₁ ⟨left, inner, hleaves, hbound, hn, rfl, rfl⟩ hok
    exact .inr (h left inner a c₁ hleaves hbound hn hok)

/-- Blank text in front of what is left is the same in both places. -/
theorem dropWhile_first (left tail : List Node) :
    (left ++ .finish :: tail).dropWhile isBlankText = left.dropWhile isBlankText ++ .finish :: tail := by
  rw [List.dropWhile_append]
  split
  · next h =>
    rw [List.isEmpty_iff.1 h]
    rfl
  · rfl

/-- The next node is the same in both places, if only the end tag. -/
theorem exists_next {between tail more : List Node} {node : Node} (tail' : List Node)
    (h : between ++ .finish :: tail = node :: more) : ∃ more', between ++ .finish :: tail' = node :: more' := by
  cases between with
  | nil =>
    obtain ⟨rfl, -⟩ := List.cons.inj h
    exact ⟨tail', rfl⟩
  | cons first between =>
    obtain ⟨rfl, -⟩ := List.cons.inj h
    exact ⟨_, rfl⟩

theorem Leaves.dropWhile (h : S.Leaves left inner) : S.Leaves (left.dropWhile isBlankText) inner := by
  refine Leaves.step (left.takeWhile isBlankText) ?_ (leaves?_blanks inner left)
  rwa [List.takeWhile_append_dropWhile]

theorem length_dropWhile_le (left : List Node) : (left.dropWhile isBlankText).length ≤ left.length :=
  (List.dropWhile_suffix _).length_le

/-- The node that is next for the first cursor is the end tag, or else one of those in common. It is next for the second. -/
theorem Leaves.next {node : Node} {more : List Node} (h : S.Leaves left inner)
    (hdrop : (S.first left inner).ahead.dropWhile isBlankText = node :: more) :
    (node = .finish ∧ more = S.rest ∧ inner = [] ∧ (S.second left inner).ahead.dropWhile isBlankText = .finish :: S.rest') ∨
      ∃ between, more = between ++ .finish :: S.rest ∧ S.Leaves (node :: between) inner ∧ between.length ≤ left.length ∧
        (S.second left inner).ahead.dropWhile isBlankText = node :: (between ++ .finish :: S.rest') := by
  have hleaves := h.dropWhile
  have hlength := length_dropWhile_le left
  rw [first, dropWhile_first] at hdrop
  rw [second, dropWhile_first]
  generalize left.dropWhile isBlankText = between at hdrop hleaves hlength
  cases between with
  | nil =>
    obtain ⟨rfl, rfl⟩ := List.cons.inj hdrop
    exact .inl ⟨rfl, rfl, Option.some.inj hleaves.closes, rfl⟩
  | cons node' between =>
    obtain ⟨rfl, rfl⟩ := List.cons.inj hdrop
    exact .inr ⟨between, rfl, hleaves, Nat.le_of_succ_le hlength, rfl⟩

/-! #### Steps inside -/

theorem follows_peekStart (S : Span) (bound n : Nat) :
    Follows (S.alongside bound n) peekStart peekStart (Option.Rel Eq) (S.alongside bound n) := by
  refine follows_of_leaves fun left inner r c₁ hleaves hbound hn hok => ?_
  have hbound' := Nat.le_trans (length_dropWhile_le left) hbound
  obtain ⟨-, hspent⟩ | ⟨more, rfl, hdrop, rfl⟩ | ⟨e, more, rfl, hdrop, rfl⟩ := peekStart_ok hok
  · -- The end tag is still there.
    rw [peekStart_eq hok, first, IsSpent, dropWhile_first] at hspent
    simp at hspent
  · rw [first, dropWhile_first] at hdrop
    obtain ⟨more', hdrop'⟩ := exists_next S.rest' hdrop
    refine ⟨none, _, peekStart_of_finish (by rw [second, dropWhile_first]; exact hdrop'), .none, _, inner,
      hleaves.dropWhile, hbound', hn, ?_, ?_⟩
    · simp only [first, hdrop]
    · simp only [second, hdrop']
  · rw [first, dropWhile_first] at hdrop
    obtain ⟨more', hdrop'⟩ := exists_next S.rest' hdrop
    refine ⟨some e, _, peekStart_of_start (by rw [second, dropWhile_first]; exact hdrop'), .some rfl, _, inner,
      hleaves.dropWhile, hbound', hn, ?_, ?_⟩
    · simp only [first, hdrop]
    · simp only [second, hdrop']

theorem follows_peek (S : Span) (bound n : Nat) :
    Follows (S.alongside bound n) peek peek (Option.Rel Node.IsCaptured) (S.alongside bound n) := by
  refine follows_of_leaves fun left inner node c₁ hleaves hbound hn hok => ?_
  obtain rfl := peek_eq hok
  have hhere : (S.alongside bound n).linked (S.first left inner) (S.second left inner) :=
    ⟨left, inner, hleaves, hbound, hn, rfl, rfl⟩
  cases left with
  | nil =>
    cases hok
    exact ⟨_, _, rfl, .some .finish, hhere⟩
  | cons next left =>
    cases hok
    exact ⟨_, _, rfl, .some (Node.IsCaptured.refl next), hhere⟩

theorem follows_foldText (S : Span) (bound n : Nat) {σ : Type} (f : σ → String → Except Error σ) (a : σ) :
    Follows (S.alongside bound n) (foldText f a) (foldText f a) Eq (S.alongside bound n) := by
  refine follows_of_leaves fun left inner b c₁ hleaves hbound hn hok => ?_
  obtain ⟨texts, more, hahead, hfold, rfl⟩ := foldText_iff.1 hok
  obtain ⟨between, rfl, hbetween, hleaves'⟩ := hleaves.split _ hahead (leaves?_texts inner texts)
  obtain ⟨more', hbetween'⟩ := exists_next S.rest' hbetween.symm
  refine ⟨b, ⟨.finish :: more', S.ending', inner ++ S.opened'⟩, foldText_iff.2 ⟨texts, more', ?_, hfold, rfl⟩, rfl, between,
    inner, hleaves', ?_, hn, ?_, ?_⟩
  · rw [second, List.append_assoc, hbetween']
  · rw [List.length_append] at hbound
    omega
  · simp only [first, hbetween]
  · rw [second, hbetween']

theorem follows_expectStart (S : Span) (bound n : Nat) :
    Follows (S.alongside bound n) expectStart expectStart Eq (S.alongside bound (n + 1)) := by
  refine follows_of_leaves fun left inner e c₁ hleaves hbound hn hok => ?_
  obtain ⟨more, hdrop, rfl⟩ := expectStart_iff.1 hok
  obtain ⟨hfinish, -⟩ | ⟨between, rfl, hbetween, hlength, hdrop'⟩ := hleaves.next hdrop
  · cases hfinish
  · exact ⟨e, _, expectStart_iff.2 ⟨_, hdrop', rfl⟩, rfl, between, e :: inner, hbetween.step [.start e] rfl,
      Nat.le_trans hlength hbound, by simp [hn], rfl, rfl⟩

theorem follows_finishElement (S : Span) (bound n : Nat) :
    Follows (S.alongside bound (n + 1)) finishElement finishElement (fun _ _ => True) (S.alongside bound n) := by
  refine follows_of_leaves fun left inner _ c₁ hleaves hbound hn hok => ?_
  obtain ⟨more, hdrop, rfl⟩ := finishElement_iff.1 hok
  obtain ⟨e, inner, rfl⟩ := List.exists_cons_of_length_eq_add_one hn
  -- The end tag in common is not that of an element further in.
  obtain ⟨-, -, hnone, -⟩ | ⟨between, rfl, hbetween, hlength, hdrop'⟩ := hleaves.next hdrop
  · cases hnone
  · exact ⟨(), _, finishElement_iff.2 ⟨_, hdrop', rfl⟩, trivial, between, inner, hbetween.step [.finish] rfl,
      Nat.le_trans hlength hbound, Nat.succ.inj hn, rfl, rfl⟩

theorem follows_skipToEnd (S : Span) (bound n : Nat) :
    Follows (S.alongside bound (n + 1)) skipToEnd skipToEnd (fun _ _ => True) (S.alongside bound n) := by
  refine follows_of_leaves fun left inner _ c₁ hleaves hbound hn hok => ?_
  obtain ⟨e, inner, rfl⟩ := List.exists_cons_of_length_eq_add_one hn
  obtain ⟨inside, more, hahead, hinside, rfl⟩ := (skipToEnd_iff rfl).1 hok
  -- An element further in ends among the nodes in common.
  obtain ⟨between, rfl, rfl, hleaves'⟩ := hleaves.split (inside ++ [.finish]) (by simpa using hahead)
    (leaves?_trans (hinside.leaves? _))
  refine ⟨(), _, (skipToEnd_iff rfl).2 ⟨inside, between ++ .finish :: S.rest', ?_, hinside, rfl⟩, trivial, between, inner,
    hleaves', ?_, Nat.succ.inj hn, rfl, rfl⟩
  · simp [second]
  · simp only [List.length_append] at hbound
    omega

/-! #### Leaving the element around -/

theorem follows_finishElement_around (S : Span) (bound : Nat) :
    Follows (S.alongside bound 0) finishElement finishElement (fun _ _ => True) S.behind := by
  refine follows_of_leaves fun left inner _ c₁ hleaves _ hn hok => ?_
  obtain rfl := List.eq_nil_of_length_eq_zero hn
  obtain ⟨more, hdrop, rfl⟩ := finishElement_iff.1 hok
  obtain ⟨-, rfl, -, hdrop'⟩ | ⟨between, -, hbetween, -⟩ := hleaves.next hdrop
  · exact ⟨(), _, finishElement_iff.2 ⟨_, hdrop', rfl⟩, trivial, rfl, rfl⟩
  · -- No element further in is open that could end here.
    cases hbetween.closes

theorem follows_skipToEnd_around (S : Span) (bound : Nat) (hopened : S.opened ≠ []) :
    Follows (S.alongside bound 0) skipToEnd skipToEnd (fun _ _ => True) S.behind := by
  obtain ⟨e, o, ho⟩ := List.exists_cons_of_ne_nil hopened
  obtain ⟨o', ho'⟩ : ∃ o', S.opened' = e :: o' := by
    have haround := S.around
    rw [ho] at haround
    exact List.head?_eq_some_iff.1 haround
  refine follows_of_leaves fun left inner _ c₁ hleaves _ hn hok => ?_
  obtain rfl := List.eq_nil_of_length_eq_zero hn
  obtain ⟨inside, more, hahead, hinside, rfl⟩ := (skipToEnd_iff (c := S.first left []) ho).1 hok
  -- What is skipped is all that is left, since whole elements are in front of one end tag only.
  obtain ⟨rfl, rfl⟩ := AreWhole.finish_inj hleaves.closes hinside hahead
  refine ⟨(), _, (skipToEnd_iff (c := S.second left []) ho').2 ⟨left, S.rest', rfl, hinside, rfl⟩, trivial, ?_, ?_⟩
  · rw [ho]
    rfl
  · rw [ho']
    rfl

end Span
end SoapBinding.Xml
