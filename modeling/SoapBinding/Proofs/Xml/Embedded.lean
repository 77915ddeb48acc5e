import SoapBinding.Proofs.Outcome
import SoapBinding.Proofs.Xml.Captured
import SoapBinding.Proofs.Xml.Tokens

/-!
# Documents inside others

The cursor of a document that is read alone, beside one that reads the same document inside another: what is ahead of the
first is in front of what is ahead of the second (`Cursor.IsPlaced`). Every operation that succeeds alone succeeds there,
with the same result but for what is captured (`Cursor.placed`). A cursor alone can run out of nodes, and find the end of the
document where the other finds more; then it is lost, until an end tag is asked for that it cannot find.

The place of a document inside others is given by their start tags, and by the scope inside them (`Scope.inside?`). They may
bind whatever they want, but for what is bound everywhere (`captures_inside?`).
-/

namespace SoapBinding.Xml

open Outcome

/-- The elements that are open in a document, and those open where it stands inside another. -/
inductive Element.AreCaptured : List Element → List Element → Prop where
  | around (outer : List Element) : AreCaptured [] outer
  | cons {e e' : Element} {opened opened' : List Element} : e.IsCaptured e' → AreCaptured opened opened' →
      AreCaptured (e :: opened) (e' :: opened')

theorem Element.AreCaptured.drop {opened opened' : List Element} (h : AreCaptured opened opened') :
    AreCaptured (opened.drop 1) (opened'.drop 1) := by
  cases h with
  | around outer => exact .around _
  | cons _ h => exact h

namespace Cursor

/-- What is ahead of one cursor is in front of what is ahead of the other, with a number of elements open. -/
structure IsPlaced (depth : Nat) (c c' : Cursor) : Prop where
  ahead : Fronts c.ahead c'.ahead
  opened : Element.AreCaptured c.opened c'.opened
  depth : c.opened.length = depth

/-- The innermost elements that are open are one element in two places. -/
theorem IsPlaced.current? {depth : Nat} {c c' : Cursor} (h : IsPlaced (depth + 1) c c') :
    ∃ e e', c.current? = some e ∧ c'.current? = some e' ∧ e.IsCaptured e' := by
  obtain ⟨ahead, ending, opened⟩ := c
  obtain ⟨ahead', ending', opened'⟩ := c'
  obtain ⟨-, hopened, hdepth⟩ := h
  cases hopened with
  | around => cases hdepth
  | cons he => exact ⟨_, _, rfl, rfl, he⟩

/-- There is nothing left to read. -/
def IsSpent (c : Cursor) : Prop := c.ahead = []

/-- A cursor alone and one in its place inside another document. The one alone is lost where there is nothing left. -/
def placed (depth : Nat) : Pairing Cursor Cursor := ⟨IsPlaced depth, IsSpent⟩

variable {depth : Nat} {o : List Element} {e : Element} {ns ns' : List Node}

theorem isBlankText_captured {n n' : Node} (h : n.IsCaptured n') : isBlankText n' = isBlankText n := by
  cases h <;> rfl

/-- Without the blank text in front, what is ahead of one cursor is still in front of what is ahead of the other. -/
theorem fronts_dropWhile (h : Fronts ns ns') : Fronts (ns.dropWhile isBlankText) (ns'.dropWhile isBlankText) := by
  induction h with
  | nil => exact .nil _
  | @cons n n' rest rest' hn hrest ih =>
    rw [List.dropWhile_cons, List.dropWhile_cons, isBlankText_captured hn]
    cases isBlankText n with
    | true => exact ih
    | false => exact .cons hn hrest

/-- The node that is next alone is next in the other place, where it may be captured. -/
theorem captured_next {n : Node} {rest : List Node} (h : Fronts ns ns') (hdrop : ns.dropWhile isBlankText = n :: rest) :
    ∃ n' rest', ns'.dropWhile isBlankText = n' :: rest' ∧ n.IsCaptured n' ∧ Fronts rest rest' := by
  have hnext := fronts_dropWhile h
  rw [hdrop] at hnext
  generalize ns'.dropWhile isBlankText = following at hnext
  cases hnext with
  | cons hn hrest => exact ⟨_, _, rfl, hn, hrest⟩

/-! ### The next element -/

theorem peekStart_spent {c c₁ : Cursor} {r : Option Element} (hc : c.IsSpent) (h : peekStart c = .ok r c₁) :
    r = none ∧ c₁.IsSpent := by
  obtain ⟨ahead, ending, opened⟩ := c
  obtain rfl : ahead = [] := hc
  cases ending with
  | complete =>
    cases h
    exact ⟨rfl, rfl⟩
  | failed fault => cases h

/-- A start tag is found where one is next. -/
theorem peekStart_of_start {c : Cursor} {rest : List Node} (h : c.ahead.dropWhile isBlankText = .start e :: rest) :
    peekStart c = .ok (some e) ⟨.start e :: rest, c.ending, c.opened⟩ := by
  unfold peekStart
  dsimp only
  rw [h]

/-- No start tag is found where an end tag is next. -/
theorem peekStart_of_finish {c : Cursor} {rest : List Node} (h : c.ahead.dropWhile isBlankText = .finish :: rest) :
    peekStart c = .ok none ⟨.finish :: rest, c.ending, c.opened⟩ := by
  unfold peekStart
  dsimp only
  rw [h]

/-- A start tag or an end tag is next where no fault is found, or there is nothing left. -/
theorem peekStart_ok {c c₁ : Cursor} {r : Option Element} (h : peekStart c = .ok r c₁) :
    (r = none ∧ c₁.IsSpent) ∨ (∃ rest, r = none ∧ c.ahead.dropWhile isBlankText = .finish :: rest ∧
      c₁ = ⟨.finish :: rest, c.ending, c.opened⟩) ∨
      ∃ e rest, r = some e ∧ c.ahead.dropWhile isBlankText = .start e :: rest ∧
        c₁ = ⟨.start e :: rest, c.ending, c.opened⟩ := by
  cases hdrop : c.ahead.dropWhile isBlankText with
  | nil =>
    have hspent : peekStart ⟨[], c.ending, c.opened⟩ = .ok r c₁ := by
      rw [← h]
      simp [peekStart, hdrop]
    exact .inl (peekStart_spent (c := ⟨[], c.ending, c.opened⟩) rfl hspent)
  | cons n rest =>
    cases n with
    | start e =>
      rw [peekStart_of_start hdrop] at h
      cases h
      exact .inr (.inr ⟨e, rest, rfl, rfl, rfl⟩)
    | finish =>
      rw [peekStart_of_finish hdrop] at h
      cases h
      exact .inr (.inl ⟨rest, rfl, rfl, rfl⟩)
    | text t =>
      unfold peekStart at h
      dsimp only at h
      rw [hdrop] at h
      cases h

/-- An element that starts next is found again where it has been found. -/
theorem peekStart_again {c c₁ : Cursor} (h : peekStart c = .ok (some e) c₁) : peekStart c₁ = .ok (some e) c₁ := by
  obtain ⟨hnone, -⟩ | ⟨_, hnone, -⟩ | ⟨e', rest, he, -, rfl⟩ := peekStart_ok h
  · cases hnone
  · cases hnone
  · cases he
    exact peekStart_of_start rfl

/-- The element that starts next is found in both places. -/
theorem follows_peekStart (depth : Nat) :
    Follows (placed depth) peekStart peekStart (Option.Rel Element.IsCaptured) (placed depth) := by
  constructor
  · intro c r c₁ hc hok
    obtain ⟨rfl, hspent⟩ := peekStart_spent hc hok
    exact ⟨hspent, none, .none⟩
  · intro c c' r c₁ hplaced hok
    obtain ⟨rfl, hspent⟩ | ⟨rest, rfl, hdrop, rfl⟩ | ⟨e, rest, rfl, hdrop, rfl⟩ := peekStart_ok hok
    · exact .inl ⟨hspent, none, .none⟩
    · obtain ⟨n', rest', hdrop', hn, hrest⟩ := captured_next hplaced.ahead hdrop
      cases hn with
      | finish =>
        exact .inr ⟨_, _, peekStart_of_finish hdrop', .none, .cons .finish hrest, hplaced.opened, hplaced.depth⟩
    · obtain ⟨n', rest', hdrop', hn, hrest⟩ := captured_next hplaced.ahead hdrop
      cases hn with
      | start he =>
        exact .inr ⟨_, _, peekStart_of_start hdrop', .some he, .cons (.start he) hrest, hplaced.opened, hplaced.depth⟩

/-- A start tag is passed where one is next. -/
theorem expectStart_iff {c c₁ : Cursor} : expectStart c = .ok e c₁ ↔
    ∃ rest, c.ahead.dropWhile isBlankText = .start e :: rest ∧ c₁ = ⟨rest, c.ending, e :: c.opened⟩ := by
  constructor
  · intro h
    obtain ⟨r, c₂, hpeek, h⟩ := bind_eq_ok.1 h
    obtain ⟨rfl, -⟩ | ⟨-, rfl, -⟩ | ⟨e', rest, rfl, hdrop, rfl⟩ := peekStart_ok hpeek
    · cases h
    · cases h
    · cases h
      exact ⟨rest, hdrop, rfl⟩
  · rintro ⟨rest, hdrop, rfl⟩
    rw [expectStart, bind_ok (peekStart_of_start hdrop)]
    rfl

/-- An end tag is passed where one is next. -/
theorem finishElement_iff {c c₁ : Cursor} : finishElement c = .ok () c₁ ↔
    ∃ rest, c.ahead.dropWhile isBlankText = .finish :: rest ∧ c₁ = ⟨rest, c.ending, c.opened.drop 1⟩ := by
  constructor
  · intro h
    obtain ⟨r, c₂, hpeek, h⟩ := bind_eq_ok.1 h
    obtain ⟨rfl, hspent⟩ | ⟨rest, rfl, hdrop, rfl⟩ | ⟨_, _, rfl, -⟩ := peekStart_ok hpeek
    · obtain ⟨ahead, ending, opened⟩ := c₂
      obtain rfl : ahead = [] := hspent
      cases ending <;> cases h
    · cases h
      exact ⟨rest, hdrop, rfl⟩
    · cases h
  · rintro ⟨rest, hdrop, rfl⟩
    rw [finishElement, bind_ok (peekStart_of_finish hdrop)]
    rfl

/-- The start tag that is passed alone is passed in the other place, where it may be captured. -/
theorem follows_expectStart (depth : Nat) :
    Follows (placed depth) expectStart expectStart Element.IsCaptured (placed (depth + 1)).surely := by
  constructor
  · intro c e c₁ hc hok
    obtain ⟨rest, hdrop, -⟩ := expectStart_iff.1 hok
    rw [show c.ahead = [] from hc] at hdrop
    cases hdrop
  · intro c c' e c₁ hplaced hok
    obtain ⟨rest, hdrop, rfl⟩ := expectStart_iff.1 hok
    obtain ⟨n', rest', hdrop', hn, hrest⟩ := captured_next hplaced.ahead hdrop
    cases hn with
    | start he =>
      exact .inr ⟨_, _, expectStart_iff.2 ⟨rest', hdrop', rfl⟩, he, hrest, .cons he hplaced.opened,
        congrArg (· + 1) hplaced.depth⟩

/-- The end tag that is passed alone is passed in the other place. -/
theorem follows_finishElement (depth : Nat) :
    Follows (placed (depth + 1)) finishElement finishElement (fun _ _ => True) (placed depth).surely := by
  constructor
  · intro c _ c₁ hc hok
    obtain ⟨rest, hdrop, -⟩ := finishElement_iff.1 hok
    rw [show c.ahead = [] from hc] at hdrop
    cases hdrop
  · intro c c' _ c₁ hplaced hok
    obtain ⟨rest, hdrop, rfl⟩ := finishElement_iff.1 hok
    obtain ⟨n', rest', hdrop', hn, hrest⟩ := captured_next hplaced.ahead hdrop
    cases hn with
    | finish =>
      refine .inr ⟨(), _, finishElement_iff.2 ⟨rest', hdrop', rfl⟩, trivial, hrest, hplaced.opened.drop, ?_⟩
      rw [List.length_drop, hplaced.depth, Nat.add_sub_cancel]

/-! ### Passing what an element holds -/

/-- Nothing is skipped where few enough elements are open. -/
theorem skipBelow_done (ending : Ending) (o : List Element) (ns : List Node) :
    skipBelow (o.length + 1) ending o ns = .ok () ⟨ns, ending, o⟩ := by
  cases ns <;> simp [skipBelow]

/-- What is skipped alone is skipped in the other place. The elements opened on the way are closed again. -/
theorem skipBelow_captured {ending ending' : Ending} (inner inner' : List Element) {o o' : List Element} {c₁ : Cursor}
    (h : Fronts ns ns') (hlength : inner.length = inner'.length)
    (hok : skipBelow (o.length + 1) ending (inner ++ o) ns = .ok () c₁) :
    ∃ c₁', skipBelow (o'.length + 1) ending' (inner' ++ o') ns' = .ok () c₁' ∧ Fronts c₁.ahead c₁'.ahead ∧
      c₁.opened = o ∧ c₁'.opened = o' := by
  -- On the nodes ahead. The elements to be closed are as many in both places, but not the same.
  induction h generalizing inner inner' with
  | nil behind =>
    cases inner with
    | nil =>
      obtain rfl := List.eq_nil_of_length_eq_zero hlength.symm
      rw [List.nil_append, skipBelow_done] at hok
      cases hok
      exact ⟨_, skipBelow_done ending' o' behind, .nil behind, rfl, rfl⟩
    | cons e inner =>
      -- Alone, the document ends with elements open, which is a fault.
      rw [skipBelow, if_neg (by simp)] at hok
      cases ending <;> cases hok
  | @cons n n' rest rest' hn hrest ih =>
    cases inner with
    | nil =>
      obtain rfl := List.eq_nil_of_length_eq_zero hlength.symm
      rw [List.nil_append, skipBelow_done] at hok
      cases hok
      exact ⟨_, skipBelow_done ending' o' _, .cons hn hrest, rfl, rfl⟩
    | cons e inner =>
      obtain ⟨e', inner', rfl⟩ :=
        List.exists_cons_of_length_pos (by rw [← hlength]; exact Nat.succ_pos _ : 0 < inner'.length)
      rw [skipBelow, if_neg (by simp)] at hok
      rw [skipBelow, if_neg (by simp)]
      cases hn with
      | @start f f' _ => exact ih (f :: e :: inner) (f' :: e' :: inner') (congrArg (· + 1) hlength) hok
      | finish => exact ih inner inner' (Nat.succ.inj hlength) hok
      | text t => exact ih (e :: inner) (e' :: inner') hlength hok

/-- What an element holds is passed in both places. Alone, there have to be nodes left for its end. -/
theorem follows_skipToEnd (depth : Nat) :
    Follows (placed (depth + 1)).surely skipToEnd skipToEnd (fun _ _ => True) (placed depth).surely := by
  constructor
  · intro c _ c₁ hc
    exact hc.elim
  · rintro ⟨ahead, ending, opened⟩ ⟨ahead', ending', opened'⟩ ⟨⟩ c₁ ⟨hahead, hopened, hdepth⟩ hok
    cases hopened with
    | around => cases hdepth
    | @cons e e' o o' he hopened =>
      unfold skipToEnd Cursor.depth at hok ⊢
      dsimp only at hok ⊢
      rw [if_neg (by simp)] at hok
      rw [if_neg (by simp)]
      obtain ⟨c₁', hok', hahead', ho, ho'⟩ := @skipBelow_captured _ _ _ ending' [e] [e'] o o' c₁ hahead rfl hok
      refine .inr ⟨(), c₁', hok', trivial, hahead', ?_, ?_⟩
      · rwa [ho, ho']
      · rw [ho]
        exact Nat.succ.inj hdepth

/-! ### Texts -/

theorem foldNodes_captured {σ : Type} {f : σ → String → Except Error σ} {a b : σ} {ending ending' : Ending}
    {o o' : List Element} {c₁ : Cursor} (h : Fronts ns ns') (hok : foldNodes f ending o a ns = .ok b c₁) :
    ∃ c₁', foldNodes f ending' o' a ns' = .ok b c₁' ∧ Fronts c₁.ahead c₁'.ahead ∧ c₁.opened = o ∧ c₁'.opened = o' := by
  induction h generalizing a with
  | nil => cases ending <;> cases hok
  | cons hn hrest ih =>
    cases hn with
    | start => cases hok
    | finish =>
      cases hok
      exact ⟨_, rfl, .cons .finish hrest, rfl, rfl⟩
    | text t =>
      unfold foldNodes at hok ⊢
      cases hf : f a t with
      | error fault =>
        rw [hf] at hok
        cases hok
      | ok a' =>
        rw [hf] at hok
        exact ih hok

/-- The texts of an element are the same in both places. -/
theorem follows_foldText {σ : Type} (f : σ → String → Except Error σ) (a : σ) (depth : Nat) :
    Follows (placed depth) (foldText f a) (foldText f a) Eq (placed depth).surely := by
  constructor
  · rintro ⟨_, ending, opened⟩ b c₁ ⟨⟩ hok
    cases ending <;> cases hok
  · intro c c' b c₁ hplaced hok
    obtain ⟨c₁', hok', hahead, hopened, hopened'⟩ := foldNodes_captured hplaced.ahead hok
    refine .inr ⟨b, c₁', hok', rfl, hahead, ?_, ?_⟩
    · rw [hopened, hopened']
      exact hplaced.opened
    · rw [hopened]
      exact hplaced.depth

/-- The next node is found in both places. -/
theorem follows_peek (depth : Nat) :
    Follows (placed depth) peek peek (Option.Rel Node.IsCaptured) (placed depth) := by
  have hspent {c c₁ : Cursor} {r : Option Node} (hc : c.IsSpent) (hok : peek c = .ok r c₁) :
      c₁.IsSpent ∧ ∃ r', Option.Rel Node.IsCaptured r r' := by
    obtain ⟨_, ending, opened⟩ := c
    obtain rfl := hc
    cases ending <;> cases hok
    exact ⟨rfl, none, .none⟩
  constructor
  · intro c r c₁
    exact hspent
  · rintro ⟨ahead, ending, opened⟩ ⟨ahead', ending', opened'⟩ r c₁ ⟨hahead, hopened, hdepth⟩ hok
    cases hahead with
    | nil => exact .inl (@hspent ⟨[], ending, opened⟩ _ _ rfl hok)
    | cons hn hrest =>
      cases hok
      exact .inr ⟨_, _, rfl, .some hn, .cons hn hrest, hopened, hdepth⟩

end Cursor

/-! ### Inside other elements -/

/-- The scope inside start tags that stand one inside the other, if they can be read. -/
def Scope.inside? (outer : Scope) : List PendingTag → Option Scope
  | [] => some outer
  | t :: rest =>
    if IsTag t then
      match Element.ofTag outer (tagBytes t) with
      | .ok (_, scope) => scope.inside? rest
      | .error _ => none
    else none

theorem Scope.exists_of_inside?_cons {outer inner : Scope} {t : PendingTag} {rest : List PendingTag}
    (h : outer.inside? (t :: rest) = some inner) :
    IsTag t ∧ ∃ e scope, Element.ofTag outer (tagBytes t) = .ok (e, scope) ∧ scope.inside? rest = some inner := by
  rw [inside?] at h
  split at h
  · next ht =>
    split at h
    · next e scope hread => exact ⟨ht, e, scope, hread, h⟩
    · cases h
  · cases h

/-- The text of start tags. -/
def openingTexts (tags : List PendingTag) : String := String.join (tags.map fun t => openingText (some t))

theorem ofString_openingTexts_cons (t : PendingTag) (tags : List PendingTag) :
    Utf8.ofString (openingTexts (t :: tags)) = 0x3C :: (tagBytes t ++ 0x3E :: Utf8.ofString (openingTexts tags)) := by
  rw [openingTexts, List.map_cons, String.join_cons, openingText]
  simp only [Utf8.ofString_append, ofString_render]
  rw [show Utf8.ofString "<" = [0x3C] from rfl, show Utf8.ofString ">" = [0x3E] from rfl]
  simp only [List.append_assoc, List.cons_append, List.nil_append]
  rfl

/-- Moves past a number of start tags. -/
def Cursor.enter : Nat → Reading Unit
  | 0 => return ()
  | n + 1 => do
    let _ ← expectStart
    enter n

section
variable {outer inner scope : Scope} {tags : List PendingTag}

/-- Two qualifiers are bound everywhere. -/
theorem Scope.uri?_initial {qualifier uri : Bytes} (h : initial.uri? qualifier = some uri) :
    qualifier = Token.ascii "xml" ∨ qualifier = Token.ascii "xmlns" := by
  by_cases hxml : qualifier = Token.ascii "xml"
  · exact .inl hxml
  by_cases hxmlns : qualifier = Token.ascii "xmlns"
  · exact .inr hxmlns
  rw [initial, uri?_cons_of_ne (Ne.symm hxml), uri?_cons_of_ne (Ne.symm hxmlns)] at h
  cases h

/-- No attribute takes back what is bound everywhere. -/
theorem Scope.captures_declare (h : initial.Captures outer) {a : String × String}
    (hdeclare : outer.declare (rawOf a) = .ok scope) : initial.Captures scope := by
  -- What is bound everywhere is not hidden by another qualifier, and a default namespace is a text as it was written.
  have hcons {qualifier : Bytes} (hxml : qualifier ≠ Token.ascii "xml") (hxmlns : qualifier ≠ Token.ascii "xmlns") :
      initial.Captures (⟨qualifier, (rawOf a).value⟩ :: outer) := by
    constructor
    · intro other uri hother
      have hne : qualifier ≠ other := by
        rintro rfl
        exact (uri?_initial hother).elim hxml hxmlns
      rw [uri?_cons_of_ne hne]
      exact h.keeps _ _ hother
    · intro uri huri
      by_cases hempty : qualifier = []
      · subst hempty
        rw [uri?_cons_self] at huri
        cases huri
        exact .inr ⟨_, Element.text_ofString _⟩
      · rw [uri?_cons_of_ne hempty] at huri
        exact h.default uri huri
  unfold Scope.declare at hdeclare
  split at hdeclare
  · cases hdeclare
    exact hcons (by decide) (by decide)
  · split at hdeclare
    · dsimp only at hdeclare
      split at hdeclare
      · -- `xml` may be declared as what it stands for, which binds nothing.
        split at hdeclare
        · cases hdeclare
          exact h
        · cases hdeclare
      · split at hdeclare
        · cases hdeclare
        · next hxml hreserved =>
          cases hdeclare
          exact hcons hxml (by simp_all)
    · cases hdeclare
      exact h

/-- Nor do the attributes of a tag. -/
theorem Scope.captures_enter {as : List (String × String)} {isFaulty : Bool} (h : initial.Captures outer)
    (henter : outer.enter ⟨as.map rawOf, isFaulty⟩ = .ok scope) : initial.Captures scope := by
  unfold Scope.enter at henter
  dsimp only at henter
  induction as generalizing outer with
  | nil =>
    cases henter
    exact h
  | cons a as ih =>
    rw [List.map_cons, List.foldlM_cons] at henter
    obtain ⟨middle, hdeclare, henter⟩ := except_bind_eq_ok.1 henter
    exact ih (captures_declare h hdeclare) henter

/-- Whatever elements bind, a document alone is captured inside them. -/
theorem Scope.captures_inside? (h : outer.inside? tags = some inner) (houter : initial.Captures outer) :
    initial.Captures inner := by
  induction tags generalizing outer with
  | nil =>
    cases h
    exact houter
  | cons t rest ih =>
    obtain ⟨ht, e, scope, hread, hrest⟩ := exists_of_inside?_cons h
    have henter := (Element.ofTag_eq_ok.1 hread).1
    rw [scan_tag ht] at henter
    exact ih hrest (captures_enter houter henter)

/-- Moving past start tags leads to what stands inside them. -/
theorem Cursor.enter_openingTexts {opened : List Frame} {o : List Element}
    (h : (Node.scopeOf opened).inside? tags = some inner) (rest : Bytes) :
    ∃ frames o', Node.scopeOf frames = inner ∧
      enter tags.length ⟨(nodesWithin opened (Utf8.ofString (openingTexts tags) ++ rest)).items,
          (nodesWithin opened (Utf8.ofString (openingTexts tags) ++ rest)).ending, o⟩ =
        .ok () ⟨(nodesWithin frames rest).items, (nodesWithin frames rest).ending, o'⟩ := by
  induction tags generalizing opened o with
  | nil => exact ⟨opened, o, Option.some.inj h, rfl⟩
  | cons t tags ih =>
    obtain ⟨ht, e, scope, hread, hrest⟩ := Scope.exists_of_inside?_cons h
    obtain ⟨frames, o', hframes, henter⟩ := @ih (⟨Utf8.ofString t.name, scope⟩ :: opened) (e :: o) hrest
    refine ⟨frames, o', hframes, ?_⟩
    have htexts : Utf8.ofString (openingTexts (t :: tags)) ++ rest =
        0x3C :: (tagBytes t ++ 0x3E :: (Utf8.ofString (openingTexts tags) ++ rest)) := by
      rw [ofString_openingTexts_cons]
      simp only [List.append_assoc, List.cons_append]
    rw [htexts, nodesWithin_start ht hread, List.length_cons, enter]
    refine bind_eq_ok.2 ⟨e, _, expectStart_iff.2 ⟨_, ?_, rfl⟩, henter⟩
    exact List.dropWhile_cons_of_neg (by simp [isBlankText])

/-- Start tags begin with markup, and so does an element inside them. -/
theorem exists_ofString_openingTexts {bs : Bytes} (tags : List PendingTag) :
    ∃ bs', Utf8.ofString (openingTexts tags) ++ 0x3C :: bs = 0x3C :: bs' := by
  cases tags with
  | nil => exact ⟨bs, rfl⟩
  | cons t tags =>
    rw [ofString_openingTexts_cons, List.cons_append]
    exact ⟨_, rfl⟩

/-- **A written element, alone and inside others.** Behind the start tags of the others, its nodes are ahead. -/
theorem Markup.isPlaced {m : Markup} {name : String} (hm : m.IsElement name) (htags : ∀ t ∈ m.tags, IsTag t)
    (h : Scope.initial.inside? tags = some inner) (behind : Bytes) :
    ∃ c', Cursor.enter tags.length
        (.ofSource (.ofBytes (Utf8.ofString (openingTexts tags ++ m.render) ++ behind))) = .ok () c' ∧
      Cursor.IsPlaced 0 (.ofSource (.ofBytes (Utf8.ofString m.render))) c' := by
  obtain ⟨attributes, body, rfl⟩ := hm
  have htokens := lexes_tokens (.around ⟨name, attributes⟩ body) htags (by cases body <;> simp [around])
  -- Both documents begin with markup, so neither has a byte order mark in front.
  obtain ⟨bs, hbs⟩ := exists_ofString_elementText ⟨name, attributes⟩ (body.map renderAll)
  rw [← render_around] at hbs
  obtain ⟨bs', hbs'⟩ := @exists_ofString_openingTexts (bs ++ behind) tags
  obtain ⟨frames, o', hframes, henter⟩ := @Cursor.enter_openingTexts _ _ [] [] h (0x3C :: (bs ++ behind))
  rw [hbs'] at henter
  have hwhole : Utf8.ofString (openingTexts tags ++ (around ⟨name, attributes⟩ body).render) ++ behind = 0x3C :: bs' := by
    rw [Utf8.ofString_append, hbs, List.append_assoc, List.cons_append, hbs']
  refine ⟨_, by rw [hwhole, ofSource_markup]; exact henter, ?_⟩
  have hcaptured : Frame.AreCaptured [] frames :=
    .around (hframes ▸ Scope.captures_inside? h ⟨fun _ _ => id, fun _ => .inl⟩)
  rw [hbs, ofSource_markup, ← hbs]
  refine ⟨?_, .around _, rfl⟩
  -- The element is cut into the same tokens at the end of one document and in the middle of the other.
  have halone := htokens []
  have hinside := htokens behind
  rw [List.append_nil] at halone
  rw [hbs, List.cons_append] at hinside
  rw [nodesWithin, nodesWithin, halone, hinside]
  have hnothing : (Token.lex false []).items = [] := by
    rw [Token.lex]
    rfl
  simp only [Pieces.prepend, hnothing, List.append_nil]
  exact fronts_ofTokens hcaptured

end
end SoapBinding.Xml
