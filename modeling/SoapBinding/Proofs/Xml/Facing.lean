import SoapBinding.Proofs.Outcome
import SoapBinding.Xml.Cursor

/-!
# How far a cursor has moved

A cursor only moves forward, so what is ahead of it is always an end of what was ahead before. `Faces`
says this of a place, and at some places also which element comes next:

* `c.Faces ending none nodes` — the nodes ahead are the last of `nodes`;
* `c.Faces ending (some e) nodes` — the element `e` comes next, and `nodes` are behind its start tag.

The triples below follow one operation each. What an operation leaves ahead is told by the nodes alone, so
taking an element shows as fewer nodes (`triple_expectStart`). An operation fails with what stands behind the
document, or with a fault of its own, which is never `Error.endless`.
-/

namespace SoapBinding.Xml

open Outcome

namespace Cursor

/-- The nodes given, behind the start tag of an element if one is known to come next. -/
def facing (front : Option Element) (nodes : List Node) : List Node :=
  (front.map Node.start).toList ++ nodes

/-- The cursor has moved on to the nodes given, or stands in front of an element that they are behind. -/
structure Faces (ending : Ending) (front : Option Element) (nodes : List Node) (c : Cursor) : Prop where
  ending_eq : c.ending = ending
  ahead : c.ahead <:+ facing front nodes
  starts : front ≠ none → c.ahead = facing front nodes

/-- Faults that reading a document could only meet by never coming to an end. -/
structure IsEndless (ending : Ending) (fault : Error → Prop) : Prop where
  only : ∀ e, fault e → e = .endless
  ending : ∀ e, ending = .failed e → ¬fault e

variable {α : Type} {ending : Ending} {fault : Error → Prop} {front : Option Element} {e : Element}
  {nodes rest : List Node} {c : Cursor} {work : Reading α}

theorem IsEndless.not_fault (hf : IsEndless ending fault) {error : Error} (h : error ≠ .endless) : ¬fault error :=
  fun he => h (hf.only error he)

@[simp] theorem facing_none (nodes : List Node) : facing none nodes = nodes := rfl

@[simp] theorem facing_some (e : Element) (nodes : List Node) : facing (some e) nodes = .start e :: nodes := rfl

theorem Faces.mono (h : c.Faces ending none rest) (hrest : rest <:+ nodes) : c.Faces ending none nodes :=
  ⟨h.ending_eq, h.ahead.trans hrest, fun hnone => absurd rfl hnone⟩

theorem Faces.loosen (h : c.Faces ending front nodes) : c.Faces ending none (facing front nodes) :=
  ⟨h.ending_eq, h.ahead, fun hnone => absurd rfl hnone⟩

/-- The nodes can be told exactly. -/
theorem Faces.tighten (h : c.Faces ending front nodes) :
    ∃ rest, rest <:+ nodes ∧ c.ahead = facing front rest ∧ c.Faces ending front rest := by
  cases front with
  | none => exact ⟨c.ahead, h.ahead, rfl, h.ending_eq, List.suffix_refl _, fun hnone => absurd rfl hnone⟩
  | some e =>
    have hahead := h.starts (by simp)
    exact ⟨nodes, List.suffix_refl _, hahead, h⟩

/-! ### Operations -/

/-- The place in front of an element that has been found to come next. -/
def Found (ending : Ending) (front : Option Element) (nodes : List Node) (e : Element) (c : Cursor) : Prop :=
  ∃ rest, c.Faces ending (some e) rest ∧
    (facing (some e) rest <:+ facing front nodes ∧ rest <:+ nodes ∧ ∀ known ∈ front, known = e)

theorem triple_atEnd (hf : IsEndless ending fault) {pre : Cursor → Prop} {post : α → Cursor → Prop}
    (hpre : ∀ c, pre c → c.ending = ending) (hnothing : Triple pre work post fault) :
    Triple pre (atEnd work) post fault := by
  intro c hc
  unfold atEnd
  cases hending : c.ending with
  | complete => exact hnothing c hc
  | failed e =>
    exact Triple.of_error (hf.ending e (by rw [← hpre c hc, hending]))

theorem triple_peekStart (hf : IsEndless ending fault) :
    Triple (Faces ending front nodes) peekStart
      (fun found c => (found = none → c.Faces ending none nodes) ∧ ∀ e ∈ found, Found ending front nodes e c) fault := by
  intro c hc
  have hsuffix : c.ahead.dropWhile isBlankText <:+ facing front nodes :=
    (List.dropWhile_suffix _).trans hc.ahead
  -- Where the next element is known, no blank text stands in front of it.
  have hknown (known : Element) (hfront : front = some known) :
      c.ahead.dropWhile isBlankText = .start known :: nodes := by
    subst hfront
    rw [hc.starts (by simp), facing_some, List.dropWhile_cons, if_neg (by simp [isBlankText])]
  unfold peekStart
  dsimp only
  split
  · next e rest hahead =>
    refine Triple.of_ok ?_
    refine ⟨fun h => (nomatch h), ?_⟩
    rintro e' ⟨⟩
    rw [hahead] at hsuffix
    refine ⟨rest, ⟨hc.ending_eq, ?_, fun _ => hahead⟩, hsuffix, ?_, ?_⟩
    · show c.ahead.dropWhile isBlankText <:+ _
      rw [hahead]
      exact List.suffix_refl _
    · cases front with
      | none => exact (List.suffix_cons _ _).trans hsuffix
      | some known =>
        have hrest := hknown known rfl
        rw [hahead] at hrest
        cases hrest
        exact List.suffix_refl _
    · intro known hmem
      have hrest := hknown known hmem
      rw [hahead] at hrest
      cases hrest
      rfl
  · next rest hahead =>
    refine Triple.of_ok ?_
    refine ⟨fun _ => ?_, fun _ h => (nomatch h)⟩
    cases front with
    | none => exact ⟨hc.ending_eq, hsuffix, fun hnone => absurd rfl hnone⟩
    | some known =>
      rw [hknown known rfl] at hahead
      cases hahead
  · exact Triple.of_error (hf.not_fault (by simp))
  · next hahead =>
    have hnone : front = none := by
      cases front with
      | none => rfl
      | some known =>
        rw [hknown known rfl] at hahead
        cases hahead
    subst hnone
    refine triple_atEnd hf (fun _ h => h.ending_eq) (Triple.pure fun c' hc' => ?_) _
      (show Faces ending none nodes _ from ⟨hc.ending_eq, hsuffix, fun hnone => absurd rfl hnone⟩)
    exact ⟨fun _ => hc', fun _ h => (nomatch h)⟩

theorem triple_failWithin (hf : IsEndless ending fault) {pre : Cursor → Prop} {post : α → Cursor → Prop}
    (what : Option String → ContentFault) : Triple pre (failWithin what : Reading α) post fault := by
  intro c _
  exact Triple.of_error (hf.not_fault (by simp))

theorem triple_peek (hf : IsEndless ending fault) :
    Triple (Faces ending none nodes) peek (fun _ => Faces ending none nodes) fault := by
  intro c hc
  unfold peek
  split
  · exact Triple.of_ok hc
  · exact triple_atEnd hf (fun _ h => h.ending_eq) (Triple.pure fun _ h => h) c hc

theorem triple_next (hf : IsEndless ending fault) :
    Triple (Faces ending none nodes) Cursor.next (fun _ => Faces ending none nodes) fault := by
  intro c hc
  unfold Cursor.next
  split
  · next n rest hahead =>
    refine Triple.of_ok ?_
    have hrest : rest <:+ nodes := (List.suffix_cons n rest).trans (hahead ▸ hc.ahead)
    exact ⟨hc.ending_eq, hrest, fun hnone => absurd rfl hnone⟩
  · exact triple_atEnd hf (fun _ h => h.ending_eq) (Triple.pure fun _ h => h) c hc

/-- Moving past the element that comes next leaves what is behind its start tag. -/
theorem triple_next_start : Triple (Faces ending (some e) rest) Cursor.next (fun _ => Faces ending none rest) fault := by
  intro c hc
  have hahead := hc.starts (by simp)
  unfold Cursor.next
  rw [hahead]
  exact Triple.of_ok ⟨hc.ending_eq, List.suffix_refl _, fun hnone => absurd rfl hnone⟩

/-- **A start tag that is taken leaves fewer nodes.** -/
theorem triple_expectStart (hf : IsEndless ending fault) :
    Triple (Faces ending front nodes) expectStart
      (fun e c => ∃ rest, c.Faces ending none rest ∧
        (facing (some e) rest <:+ facing front nodes ∧ rest <:+ nodes)) fault := by
  apply Triple.bind (triple_peekStart hf)
  rintro (_ | e)
  · exact triple_failWithin hf _
  · refine Triple.obtain (fun c h => h.2 e rfl) ?_
    rintro rest ⟨hsuffix, hrest, -⟩
    apply Triple.bind triple_next_start
    intro _
    exact Triple.pure fun c hc => ⟨rest, hc, hsuffix, hrest⟩

theorem triple_finishElement (hf : IsEndless ending fault) :
    Triple (Faces ending none nodes) finishElement (fun _ => Faces ending none nodes) fault := by
  apply Triple.bind (triple_peekStart hf)
  rintro (_ | e)
  · apply Triple.mono _ (fun c h => h.1 rfl) fun _ _ h => h
    apply Triple.bind (triple_next hf)
    rintro (_ | _)
    · exact triple_failWithin hf _
    · exact Triple.pure fun _ h => h
  · exact triple_failWithin hf _

theorem triple_skipToEnd (hf : IsEndless ending fault) :
    Triple (Faces ending none nodes) skipToEnd (fun _ => Faces ending none nodes) fault := by
  have hskip (target : Nat) (opened : List Element) (ahead : List Node) (hahead : ahead <:+ nodes) :
      (∀ u c', skipBelow target ending opened ahead = .ok u c' → c'.Faces ending none nodes) ∧
        ∀ e c', skipBelow target ending opened ahead = .error e c' → ¬fault e := by
    induction ahead generalizing opened with
    | nil =>
      unfold skipBelow
      split
      · exact Triple.of_ok ⟨rfl, hahead, fun hnone => absurd rfl hnone⟩
      · have hend : Triple (Faces ending none nodes)
            (atEnd (throw (.content (.documentEnded none))) : Reading Unit)
            (fun _ => Faces ending none nodes) fault :=
          triple_atEnd hf (fun _ h => h.ending_eq) (Triple.throw (hf.not_fault (by simp)))
        exact hend ⟨[], ending, opened⟩ ⟨rfl, hahead, fun hnone => absurd rfl hnone⟩
    | cons n rest ih =>
      unfold skipBelow
      split
      · exact Triple.of_ok ⟨rfl, hahead, fun hnone => absurd rfl hnone⟩
      · exact ih (openedAfter opened n) ((List.suffix_cons n rest).trans hahead)
  intro c hc
  obtain ⟨ahead, ending', opened⟩ := c
  obtain rfl : ending' = ending := hc.ending_eq
  unfold skipToEnd
  dsimp only
  split
  · exact Triple.of_ok hc
  · exact hskip _ _ _ hc.ahead

theorem triple_skipElement (hf : IsEndless ending fault) :
    Triple (Faces ending none nodes) skipElement (fun _ => Faces ending none nodes) fault := by
  apply Triple.bind (triple_expectStart hf)
  intro e
  refine Triple.obtain (fun c h => h) ?_
  rintro rest ⟨-, hrest⟩
  exact (triple_skipToEnd hf).mono (fun _ h => h) fun _ _ h => h.mono hrest

theorem triple_foldText {σ : Type} {f : σ → String → Except Error σ} {a : σ} (hf : IsEndless ending fault)
    (hstep : ∀ a t e, f a t = .error e → ¬fault e) :
    Triple (Faces ending none nodes) (foldText f a) (fun _ => Faces ending none nodes) fault := by
  have hfold (opened : List Element) (ahead : List Node) (a : σ) (hahead : ahead <:+ nodes) :
      (∀ b c', foldNodes f ending opened a ahead = .ok b c' → c'.Faces ending none nodes) ∧
        ∀ e c', foldNodes f ending opened a ahead = .error e c' → ¬fault e := by
    induction ahead generalizing a with
    | nil =>
      exact triple_atEnd hf (fun _ (h : Faces ending none nodes _) => h.ending_eq)
        (triple_failWithin hf _) ⟨[], ending, opened⟩ ⟨rfl, hahead, fun hnone => absurd rfl hnone⟩
    | cons n rest ih =>
      cases n with
      | start e =>
        exact triple_failWithin hf (.elementInText e.localName) ⟨.start e :: rest, ending, opened⟩
          (show Faces ending none nodes _ from ⟨rfl, hahead, fun hnone => absurd rfl hnone⟩)
      | finish =>
        exact Triple.of_ok ⟨rfl, hahead, fun hnone => absurd rfl hnone⟩
      | text t =>
        unfold foldNodes
        cases hft : f a t with
        | ok b => exact ih b ((List.suffix_cons _ rest).trans hahead)
        | error e =>
          exact Triple.of_error (hstep a t e hft)
  intro c hc
  obtain ⟨ahead, ending', opened⟩ := c
  obtain rfl : ending' = ending := hc.ending_eq
  exact hfold opened ahead a hc.ahead

end Cursor
end SoapBinding.Xml
