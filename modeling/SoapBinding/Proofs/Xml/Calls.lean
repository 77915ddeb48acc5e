import Mathlib.Data.List.Induction
import SoapBinding.Proofs.Xml.Written

/-!
# Calls to a sink

What is written lags behind the calls, since a start tag waits for attributes. Two questions that a sink answers depend on the
calls alone, whichever of them failed on the way: whether the document can be finished, and whether an attribute can still be
added.

    finish_ok_iff : (∃ document, (after calls (empty none)).finish = .ok document) ↔ openedBy calls = []
    addAttribute_ok_iff : (∃ s', addAttribute name value (after calls (empty none)) = .ok () s') ↔ TagWaits calls

Both follow from an invariant of one call (`Reflects.step`).
-/

namespace SoapBinding.Xml.Sink

open Outcome

/-- A call to a sink. -/
inductive Call where
  | startElement (name : String)
  | addAttribute (name value : String)
  | declare (qualifier uri : String)
  | markNil
  | markType (type : TypeName)
  | text (t : String)
  | endElement
  deriving Repr, DecidableEq

namespace Call

/-- The work that a call does. -/
def perform : Call → Writing Unit
  | startElement name => Sink.startElement name
  | addAttribute name value => Sink.addAttribute name value
  | declare qualifier uri => Sink.declare qualifier uri
  | markNil => Sink.markNil
  | markType type => Sink.markType type
  | text t => Sink.text t
  | endElement => Sink.endElement

/-- Whether a call adds attributes to the tag that waits, and nothing else. -/
def isMark : Call → Bool
  | addAttribute .. | declare .. | markNil | markType _ => true
  | _ => false

/-- The elements that are open behind a call. The end of no element changes nothing. -/
def opens (opened : List String) : Call → List String
  | startElement name => name :: opened
  | endElement => opened.tail
  | _ => opened

end Call

/-- The sink behind some calls, whether or not each of them succeeds. -/
def after (calls : List Call) (s : Sink) : Sink := calls.foldl (fun s c => left (c.perform s)) s

/-- The elements that some calls have started and not ended, the innermost first. -/
def openedBy (calls : List Call) : List String := calls.foldl Call.opens []

/-- Nothing but attributes has been written since an element has been started. -/
def TagWaits (calls : List Call) : Prop :=
  ∃ front name marks, calls = front ++ .startElement name :: marks ∧ ∀ c ∈ marks, c.isMark = true

theorem tagWaits_concat {calls : List Call} {c : Call} :
    TagWaits (calls ++ [c]) ↔ (∃ name, c = .startElement name) ∨ c.isMark = true ∧ TagWaits calls := by
  constructor
  · rintro ⟨front, name, marks, heq, hmarks⟩
    -- The last call is the start of the element itself, or a mark behind it.
    rcases List.eq_nil_or_concat marks with rfl | ⟨marks, last, rfl⟩
    · obtain ⟨-, hlast⟩ := List.append_inj' heq rfl
      exact .inl ⟨name, List.singleton_inj.1 hlast⟩
    · rw [List.concat_eq_append, ← List.cons_append, ← List.append_assoc] at heq
      obtain ⟨rfl, hlast⟩ := List.append_inj' heq rfl
      obtain rfl := List.singleton_inj.1 hlast
      simp only [List.concat_eq_append, List.forall_mem_append, List.forall_mem_singleton] at hmarks
      exact .inr ⟨hmarks.2, front, name, marks, rfl, hmarks.1⟩
  · rintro (⟨name, rfl⟩ | ⟨hmark, front, name, marks, rfl, hmarks⟩)
    · exact ⟨calls, name, [], rfl, nofun⟩
    · exact ⟨front, name, marks ++ [c], by simp,
        List.forall_mem_append.2 ⟨hmarks, List.forall_mem_singleton.2 hmark⟩⟩

/-! ### Marks -/

/-- Whether it succeeds or not, the work adds attributes at most. -/
def Keeps (work : Writing Unit) : Prop :=
  ∀ s, (left (work s)).limit = s.limit ∧ (left (work s)).opened = s.opened ∧
    (left (work s)).pending.isSome = s.pending.isSome

theorem Keeps.andThen {work next : Writing Unit} (hw : Keeps work) (hn : Keeps next) :
    Keeps (work >>= fun _ => next) := by
  intro s
  have hs := hw s
  cases h : work s with
  | error e s' =>
    rw [h] at hs
    rwa [bind_error h]
  | ok u s' =>
    rw [h, left_ok] at hs
    rw [bind_ok h]
    obtain ⟨hlimit, hopened, hpending⟩ := hn s'
    exact ⟨hlimit.trans hs.1, hopened.trans hs.2.1, hpending.trans hs.2.2⟩

theorem keeps_addAttribute (name value : String) : Keeps (addAttribute name value) := by
  intro s
  unfold addAttribute
  cases h : s.pending <;> simp [h]

theorem keeps_declare (qualifier uri : String) : Keeps (declare qualifier uri) := by
  intro s
  unfold declare
  rw [bind_ok (get_apply s)]
  split
  · exact ⟨rfl, rfl, rfl⟩
  · exact keeps_addAttribute _ _ s

theorem keeps_of_isMark {c : Call} (h : c.isMark = true) : Keeps c.perform := by
  cases c with
  | addAttribute name value => exact keeps_addAttribute name value
  | declare qualifier uri => exact keeps_declare qualifier uri
  | markNil => exact (keeps_declare _ _).andThen (keeps_addAttribute _ _)
  | markType type =>
    refine (keeps_declare _ _).andThen ?_
    split
    · exact keeps_addAttribute _ _
    · exact (keeps_declare _ _).andThen (keeps_addAttribute _ _)
  | _ => cases h

/-! ### What a sink is behind calls -/

/-- A sink is what some calls have made of an empty one: as far as one can tell by asking for the end of the document and for
one more attribute. -/
structure Reflects (calls : List Call) (s : Sink) : Prop where
  limit : s.limit = none
  opened : s.opened = openedBy calls
  pending : s.pending.isSome = true ↔ TagWaits calls
  within : s.pending.isSome = true → s.opened ≠ []

theorem openedBy_concat (calls : List Call) (c : Call) : openedBy (calls ++ [c]) = c.opens (openedBy calls) := by
  rw [openedBy, List.foldl_append]
  rfl

/-- Behind a call that writes, no tag waits. -/
theorem Reflects.written {calls : List Call} {c : Call} {s : Sink} (hlimit : s.limit = none)
    (hopened : s.opened = openedBy (calls ++ [c])) (hpending : s.pending = none) (hmark : c.isMark = false)
    (hstart : ∀ name, c ≠ .startElement name) : Reflects (calls ++ [c]) s := by
  refine ⟨hlimit, hopened, ?_, by simp [hpending]⟩
  simp [tagWaits_concat, hpending, hmark, hstart]

/-- **One more call.** -/
theorem Reflects.step {calls : List Call} {s : Sink} (h : Reflects calls s) (c : Call) :
    Reflects (calls ++ [c]) (left (c.perform s)) := by
  by_cases hmark : c.isMark = true
  · -- A mark leaves all of this as it is, also where it fails.
    obtain ⟨hlimit, hopened, hpending⟩ := keeps_of_isMark hmark s
    have hopens : c.opens (openedBy calls) = openedBy calls := by
      cases c <;> first | rfl | cases hmark
    have hstart : ¬∃ name, c = .startElement name := by
      rintro ⟨name, rfl⟩
      cases hmark
    refine ⟨hlimit.trans h.limit, ?_, ?_, ?_⟩
    · rw [hopened, h.opened, openedBy_concat, hopens]
    · rw [hpending, h.pending, tagWaits_concat]
      simp [hmark, hstart]
    · rw [hpending, hopened]
      exact h.within
  · -- Any other call writes the tag that waits.
    rw [Bool.not_eq_true] at hmark
    cases c with
    | startElement name =>
      rw [Call.perform, startElement_ok h.limit, left_ok]
      refine ⟨h.limit, ?_, ?_, fun _ => List.cons_ne_nil _ _⟩
      · rw [openedBy_concat, ← h.opened]
        rfl
      · exact ⟨fun _ => tagWaits_concat.2 (.inl ⟨name, rfl⟩), fun _ => rfl⟩
    | text t =>
      obtain ⟨s', hok⟩ := text_ok h.limit t
      rw [Call.perform, hok, left_ok, text_eq hok]
      refine .written h.limit ?_ rfl rfl nofun
      rw [openedBy_concat, ← h.opened]
      rfl
    | endElement =>
      rw [Call.perform]
      cases hopened : s.opened with
      | nil =>
        -- Nothing is open, so no tag waits, and the call fails and changes nothing.
        have hpending : s.pending = none := by
          have := mt h.within (by simp [hopened])
          simpa using this
        have hfails : endElement s = .error (.sink .nothingOpen) s := by
          unfold endElement
          rw [hopened]
        rw [hfails, left_error]
        refine .written h.limit ?_ hpending rfl nofun
        rw [openedBy_concat, ← h.opened, hopened]
        rfl
      | cons name outer =>
        obtain ⟨s', hok, hstands⟩ := endElement_ok ⟨h.limit, hopened⟩
        rw [hok, left_ok]
        refine .written hstands.limit ?_ (pending_of_endElement hok) rfl nofun
        rw [hstands.opened, openedBy_concat, ← h.opened, hopened]
        rfl
    | _ => cases hmark

theorem reflects_after (calls : List Call) : Reflects calls (after calls (empty none)) := by
  induction calls using List.reverseRecOn with
  | nil =>
    refine ⟨rfl, rfl, ⟨nofun, ?_⟩, nofun⟩
    rintro ⟨front, name, marks, heq, -⟩
    simp at heq
  | append_singleton calls c ih =>
    rw [after, List.foldl_append]
    exact ih.step c

/-- **The document can be finished** if no element is open any more, and only then. -/
theorem finish_ok_iff (calls : List Call) :
    (∃ document, (after calls (empty none)).finish = .ok document) ↔ openedBy calls = [] := by
  rw [← (reflects_after calls).opened]
  unfold finish
  cases (after calls (empty none)).opened <;> simp

/-- **An attribute can be added** if nothing but attributes has been written since an element has been started, and only
then. -/
theorem addAttribute_ok_iff (calls : List Call) (name value : String) :
    (∃ s', addAttribute name value (after calls (empty none)) = .ok () s') ↔ TagWaits calls := by
  rw [← (reflects_after calls).pending]
  unfold addAttribute
  cases (after calls (empty none)).pending <;> simp

end SoapBinding.Xml.Sink
