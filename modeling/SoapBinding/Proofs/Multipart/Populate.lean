import SoapBinding.Proofs.Exchange
import SoapBinding.Proofs.Multipart.Ids

/-!
# Attachments merged into a context

An envelope hands its attachments to a context one after the other, and stops at the first whose id the context uses for
another content (`Context.Clashes`). As the ids of an envelope are distinct, what is registered on the way does not matter
to the ids that follow (`IsIndexed.attachment?_addAll`). So whether all are registered, and which of them if not, can be told
from the context as it was:

    populate_of_read : … (∃ c', e.populate c = .ok () c') ↔ ∀ b ∈ e.attachments, ¬c.Clashes b
-/

namespace SoapBinding

/-- A list without repetitions has none to lose. -/
theorem eraseDups_of_nodup {α : Type} [BEq α] [LawfulBEq α] {l : List α} (h : l.Nodup) : l.eraseDups = l := by
  induction l with
  | nil => rfl
  | cons a l ih =>
    obtain ⟨ha, hl⟩ := List.nodup_cons.1 h
    have hkept : l.filter (fun b => !b == a) = l := by
      rw [List.filter_eq_self]
      intro b hb
      have hne : b ≠ a := fun heq => ha (heq ▸ hb)
      simpa using hne
    rw [List.eraseDups_cons, hkept, ih hl]

namespace Context

variable {c c' : Context} {b : Binary} {bs : List Binary} {id : String} {fault : Error}

/-- Another content has the id of a content. -/
def Clashes (c : Context) (b : Binary) : Prop := ∃ other, c.attachment? b.id = some other ∧ other ≠ b

/-! ### One content -/

/-- A content that clashes is refused, and no other one. -/
theorem add_eq_error : c.add b = .error fault ↔ c.Clashes b ∧ fault = .attachment (.duplicateId b.id) := by
  unfold add Clashes
  cases hknown : c.attachment? b.id with
  | none => simp
  | some other =>
    by_cases heq : other = b
    · simp [heq]
    · dsimp only
      rw [if_neg heq]
      constructor
      · rintro ⟨⟩
        exact ⟨⟨other, rfl, heq⟩, rfl⟩
      · rintro ⟨-, rfl⟩
        rfl

/-- Registering a content does not matter to other ids. -/
theorem IsIndexed.attachment?_add (hc : c.IsIndexed) (h : c.add b = .ok c') (hid : id ≠ b.id) :
    c'.attachment? id = c.attachment? id := by
  obtain ⟨-, rfl⟩ | ⟨hnew, rfl⟩ := hc.add_ok h
  · rfl
  · ext other
    rw [(hc.push hnew).attachment?_iff, hc.attachment?_iff]
    refine and_congr_left ?_
    rintro rfl
    show other ∈ c.attachments ++ [b] ↔ _
    rw [List.mem_append, List.mem_singleton]
    exact or_iff_left fun heq => hid (congrArg _ heq)

/-! ### Contents in a row -/

/-- Registering contents in a row does not matter to other ids. -/
theorem IsIndexed.attachment?_addAll (hc : c.IsIndexed) (h : c.addAll bs = .ok () c') (hid : id ∉ bs.map Binary.id) :
    c'.attachment? id = c.attachment? id := by
  induction bs generalizing c with
  | nil =>
    cases h
    rfl
  | cons b bs ih =>
    obtain ⟨middle, hadd, hrest⟩ := addAll_cons.1 h
    rw [List.map_cons, List.mem_cons, not_or] at hid
    rw [ih (hc.add hadd) hrest hid.2, hc.attachment?_add hadd hid.1]

/-- Registered contents are known, and so are those from before. -/
theorem IsIndexed.attachment?_of_addAll (hc : c.IsIndexed) (h : c.addAll bs = .ok () c')
    (hb : b ∈ c.attachments ∨ b ∈ bs) : c'.attachment? b.id = some b :=
  (hc.addAll h).attachment?_iff.2 ⟨(hc.mem_attachments_addAll h).2 hb, rfl⟩

/-- Registering fails at the first content that is refused, with those in front of it registered. -/
theorem exists_of_addAll_error (h : c.addAll bs = .error fault c') :
    ∃ front b behind, bs = front ++ b :: behind ∧ c.addAll front = .ok () c' ∧ c'.add b = .error fault := by
  induction bs generalizing c with
  | nil => cases h
  | cons b bs ih =>
    rw [addAll] at h
    cases hadd : c.add b with
    | error fault' =>
      rw [hadd] at h
      cases h
      exact ⟨[], b, bs, rfl, rfl, hadd⟩
    | ok middle =>
      rw [hadd] at h
      obtain ⟨front, other, behind, rfl, hfront, hother⟩ := ih h
      exact ⟨b :: front, other, behind, rfl, addAll_cons.2 ⟨middle, hadd, hfront⟩, hother⟩

/-- Contents of distinct ids that are registered have not clashed, and those that were not there come behind, in order. -/
theorem IsIndexed.of_addAll_ok (hc : c.IsIndexed) (hdistinct : (bs.map Binary.id).Nodup)
    (h : c.addAll bs = .ok () c') :
    (∀ b ∈ bs, ¬c.Clashes b) ∧ c'.attachments = c.attachments ++ bs.filter (· ∉ c.attachments) := by
  constructor
  · rintro b hb ⟨other, hother, hne⟩
    -- The content and the one that it clashes with would both be there behind.
    have hknown := (extends_addAll h).knows b.id other hother
    have hregistered := hc.attachment?_of_addAll h (.inr hb)
    exact hne (Option.some.inj (hknown.symm.trans hregistered))
  · have hremoved : bs.removeAll c.attachments = bs.filter (· ∉ c.attachments) := by
      simp [List.removeAll]
    rw [hc.attachments_addAll h, hremoved, eraseDups_of_nodup (hdistinct.of_map.filter _)]

/-- Contents of distinct ids fail to be registered at the first that clashes. -/
theorem IsIndexed.of_addAll_error (hc : c.IsIndexed) (hdistinct : (bs.map Binary.id).Nodup)
    (h : c.addAll bs = .error fault c') :
    ∃ front b behind, bs = front ++ b :: behind ∧ c.addAll front = .ok () c' ∧ (∀ other ∈ front, ¬c.Clashes other) ∧
      c.Clashes b ∧ fault = .attachment (.duplicateId b.id) ∧
      c'.attachments = c.attachments ++ front.filter (· ∉ c.attachments) := by
  obtain ⟨front, b, behind, rfl, hfront, hb⟩ := exists_of_addAll_error h
  obtain ⟨hclashes, rfl⟩ := add_eq_error.1 hb
  rw [List.map_append, List.map_cons, List.nodup_append] at hdistinct
  have hid : b.id ∉ front.map Binary.id := fun hmem => hdistinct.2.2 _ hmem _ List.mem_cons_self rfl
  obtain ⟨hnone, hattachments⟩ := hc.of_addAll_ok hdistinct.1 hfront
  refine ⟨front, b, behind, rfl, hfront, hnone, ?_, rfl, hattachments⟩
  unfold Clashes at hclashes ⊢
  rwa [hc.attachment?_addAll hfront hid] at hclashes

/-- Contents of distinct ids are registered if and only if none of them clashes. -/
theorem IsIndexed.exists_addAll_iff (hc : c.IsIndexed) (hdistinct : (bs.map Binary.id).Nodup) :
    (∃ c', c.addAll bs = .ok () c') ↔ ∀ b ∈ bs, ¬c.Clashes b := by
  constructor
  · rintro ⟨c', h⟩
    exact (hc.of_addAll_ok hdistinct h).1
  · intro hnone
    cases h : c.addAll bs with
    | ok u c' => exact ⟨c', rfl⟩
    | error fault c' =>
      obtain ⟨front, b, behind, rfl, -, -, hclashes, -⟩ := hc.of_addAll_error hdistinct h
      exact absurd hclashes (hnone b (List.mem_append_right _ List.mem_cons_self))

/-- Nothing clashes with a context that is empty. -/
theorem IsIndexed.not_clashes_of_empty (hc : c.IsIndexed) (hempty : c.attachments = []) (b : Binary) : ¬c.Clashes b := by
  rintro ⟨other, hother, -⟩
  have hmem := (hc.attachment?_iff.1 hother).1
  rw [hempty] at hmem
  exact List.not_mem_nil hmem

end Context

namespace Multipart

variable {c c' : Context} {e : Envelope} {limits : Limits} {contentType : String} {nonces nonces' : Nonces} {s : Source}
  {fault : Error}

/-- The parts of a body that are attachments: those behind the first, if the content type announces parts. -/
def attachmentParts (limits : Limits) (contentType : String) (s : Source) : List Part :=
  match relatedBoundary? contentType with
  | none => []
  | some boundary =>
    match Part.ofSource limits (Utf8.ofString boundary) s with
    | .ok parts => parts.tail
    | .error _ => []

/-- A context holds what it held, and the attachments of an envelope that it did not hold behind. -/
structure Merged (c : Context) (e : Envelope) (c' : Context) : Prop where
  attachments : c'.attachments = c.attachments ++ e.attachments.filter (· ∉ c.attachments)
  resolves : ∀ b, b ∈ c.attachments ∨ b ∈ e.attachments → c'.resolve b.id = .ok b
  multipart : c'.multipart = (e.isMultipart || c.multipart)
  reference : c'.reference = c.reference
  chunkSize : c'.chunkSize = c.chunkSize

/-- A context holds what it held, and behind that the attachments of an envelope that it did not hold and that stand in front
of the first that clashes. -/
structure Halted (c : Context) (e : Envelope) (fault : Error) (c' : Context) : Prop where
  front : ∃ front b behind, e.attachments = front ++ b :: behind ∧ (∀ other ∈ front, ¬c.Clashes other) ∧ c.Clashes b ∧
    fault = .attachment (.duplicateId b.id) ∧ c'.attachments = c.attachments ++ front.filter (· ∉ c.attachments) ∧
    ∀ other ∈ front, c'.resolve other.id = .ok other
  extends_old : c'.Extends c

namespace Envelope

/-- Attachments of an envelope that has been read hold the attachment parts, in order, and its mode is that of the body. -/
theorem holds_of_read (hread : Envelope.read limits contentType nonces s = .ok (e, nonces')) :
    List.Forall₂ HoldsPart (attachmentParts limits contentType s) e.attachments ∧
      e.isMultipart = (relatedBoundary? contentType).isSome ∧
      ((∀ part ∈ attachmentParts limits contentType s, ¬part.headers.Declares "") →
        (e.attachments.map Binary.id).Nodup) := by
  unfold attachmentParts
  cases hboundary : relatedBoundary? contentType with
  | none =>
    rw [Envelope.read, hboundary] at hread
    cases hread
    exact ⟨.nil, rfl, fun _ => .nil⟩
  | some boundary =>
    rw [Envelope.read, hboundary] at hread
    obtain ⟨all, hparts, hread⟩ := Outcome.except_bind_eq_ok.1 hread
    dsimp only
    rw [hparts]
    cases all with
    | nil => cases hread
    | cons primary parts =>
      obtain ⟨attachments, hattachments, rfl⟩ := ofParts_eq_ok.1 hread
      have hholds := forall₂_attachmentsOf hattachments
      exact ⟨hholds, rfl, nodup_ids hholds (pairwise_attachmentsOf hattachments).1⟩

/-- Populating succeeds if registering the attachments does, and then sets the mode. -/
theorem populate_eq_ok : e.populate c = .ok () c' ↔
    ∃ middle, c.addAll e.attachments = .ok () middle ∧
      c' = { middle with multipart := e.isMultipart || middle.multipart } := by
  rw [populate]
  cases c.addAll e.attachments with
  | error fault middle => simp
  | ok u middle =>
    obtain ⟨attachments, index, multipart, reference, chunkSize⟩ := middle
    cases hmode : e.isMultipart <;> simp [eq_comm]

/-- Populating fails as registering the attachments does. -/
theorem populate_eq_error : e.populate c = .error fault c' ↔ c.addAll e.attachments = .error fault c' := by
  rw [populate]
  cases c.addAll e.attachments with
  | error fault middle => simp
  | ok u middle => simp

/-- Only the mode is not that of the context in which the attachments have been registered. -/
theorem merged_of_populate (hc : c.IsIndexed) (hdistinct : (e.attachments.map Binary.id).Nodup)
    (h : e.populate c = .ok () c') : Merged c e c' := by
  obtain ⟨middle, hadd, rfl⟩ := populate_eq_ok.1 h
  have hextends := Context.extends_addAll hadd
  refine ⟨(hc.of_addAll_ok hdistinct hadd).2, fun b hb => ?_, ?_, hextends.reference, hextends.chunkSize⟩
  · have hknown : middle.attachment? b.id = some b := hc.attachment?_of_addAll hadd hb
    exact Context.resolve_of_attachment? hknown
  · show (e.isMultipart || middle.multipart) = _
    rw [hextends.multipart]

theorem halted_of_populate (hc : c.IsIndexed) (hdistinct : (e.attachments.map Binary.id).Nodup)
    (h : e.populate c = .error fault c') : Halted c e fault c' := by
  obtain ⟨front, b, behind, hsplit, hfront, hnone, hclashes, hfault, hattachments⟩ :=
    hc.of_addAll_error hdistinct (populate_eq_error.1 h)
  exact ⟨⟨front, b, behind, hsplit, hnone, hclashes, hfault, hattachments, fun other hother =>
    Context.resolve_of_attachment? (hc.attachment?_of_addAll hfront (.inr hother))⟩, Context.extends_addAll hfront⟩

end Envelope

open Envelope in
/-- **An envelope is merged without losing or replacing anything.** Where no attachment part declares an empty id, whatever has
been done with the context, the attachments are merged into it if none of them clashes with what it holds, and the mode
becomes that of a body in parts if the body was one. If one clashes, the context still knows what it knew and holds the
attachments in front of the first that does, and its mode is the one from before. An empty context takes every envelope. -/
theorem populate_of_read (hread : Envelope.read limits contentType nonces s = .ok (e, nonces'))
    (hnamed : ∀ part ∈ attachmentParts limits contentType s, ¬part.headers.Declares "")
    (reference : Reference) (chunkSize : Nat) (ops : List Operation) :
    let c := (Context.ofSettings reference chunkSize).after ops
    List.Forall₂ HoldsPart (attachmentParts limits contentType s) e.attachments ∧
      e.isMultipart = (relatedBoundary? contentType).isSome ∧
      ((∃ c', e.populate c = .ok () c') ↔ ∀ b ∈ e.attachments, ¬c.Clashes b) ∧
      (∀ c', e.populate c = .ok () c' → Merged c e c') ∧
      (∀ fault c', e.populate c = .error fault c' → Halted c e fault c') ∧
      (c.attachments = [] → ∃ c', e.populate c = .ok () c' ∧ c'.attachments = e.attachments) := by
  intro c
  have hc : c.IsIndexed := (Context.isIndexed_ofSettings reference chunkSize).after ops
  obtain ⟨hholds, hmode, hids⟩ := holds_of_read hread
  have hdistinct := hids hnamed
  have hiff : (∃ c', e.populate c = .ok () c') ↔ ∀ b ∈ e.attachments, ¬c.Clashes b := by
    rw [← hc.exists_addAll_iff hdistinct]
    simp [populate_eq_ok]
  refine ⟨hholds, hmode, hiff, fun c' => merged_of_populate hc hdistinct, fun fault c' => halted_of_populate hc hdistinct,
    fun hempty => ?_⟩
  obtain ⟨c', hpopulate⟩ := hiff.2 fun b _ => hc.not_clashes_of_empty hempty b
  have hmerged := (merged_of_populate hc hdistinct hpopulate).attachments
  refine ⟨c', hpopulate, ?_⟩
  simpa [hempty] using hmerged

/-- A body with three attachments. -/
def threeBody : Source :=
  .ofBytes <| Utf8.ofString ("--b\r\n\r\n<letters/>\r\n--b\r\nContent-ID: <a>\r\n\r\nalpha\r\n--b\r\nContent-ID: <b>\r\n\r\n" ++
    "beta\r\n--b\r\nContent-ID: <c>\r\n\r\ngamma\r\n--b--")

/-- The attachments of that body. -/
def three : List Binary :=
  [.ofBytes "a" (Utf8.ofString "alpha"), .ofBytes "b" (Utf8.ofString "beta"), .ofBytes "c" (Utf8.ofString "gamma")]

/-- Another content gets the id of the second of them. -/
def secondTaken : List Operation := [.add (.ofBytes "b" [])]

/-- The second of three attachments clashes, so the first is there and the third is not. -/
theorem populate_of_read_three :
    ∃ e rest fault c', Envelope.read ⟨16, 4⟩ "multipart/related; boundary=b" .fresh threeBody = .ok (e, rest) ∧
      e.attachments = three ∧ e.populate ((Context.ofSettings .href 3).after secondTaken) = .error fault c' ∧
      Halted ((Context.ofSettings .href 3).after secondTaken) e fault c' ∧
      c'.attachments = [.ofBytes "b" [], .ofBytes "a" (Utf8.ofString "alpha")] ∧ c'.multipart = false ∧
      ∃ c', e.populate (Context.ofSettings .href 3) = .ok () c' ∧ c'.attachments = three := by
  have hread : Envelope.read ⟨16, 4⟩ "multipart/related; boundary=b" .fresh threeBody =
      .ok (⟨.ofBytes (Utf8.ofString "<letters/>"), none, three, true⟩, ⟨3⟩) := by
    rw [threeBody, Utf8.ofString_ofList_append]
    exact eq_ok_of_toOption (by decide +kernel)
  have hparts : attachmentParts ⟨16, 4⟩ "multipart/related; boundary=b" threeBody =
      [⟨[("content-id", "<a>")], Utf8.ofString "alpha"⟩, ⟨[("content-id", "<b>")], Utf8.ofString "beta"⟩,
        ⟨[("content-id", "<c>")], Utf8.ofString "gamma"⟩] := by
    rw [threeBody, Utf8.ofString_ofList_append]
    decide +kernel
  have hnamed : ∀ part ∈ attachmentParts ⟨16, 4⟩ "multipart/related; boundary=b" threeBody,
      ¬part.headers.Declares "" := by
    rw [hparts]
    simp only [← Headers.contentId?_eq_some_iff]
    decide +kernel
  obtain ⟨-, -, hiff, -, herror, -⟩ := populate_of_read hread hnamed .href 3 secondTaken
  obtain ⟨-, -, -, -, -, hempty⟩ := populate_of_read hread hnamed .href 3 []
  cases hresult : Envelope.populate ⟨.ofBytes (Utf8.ofString "<letters/>"), none, three, true⟩
      ((Context.ofSettings .href 3).after secondTaken) with
  | ok u c' =>
    -- The second attachment clashes with what the context holds.
    refine absurd ⟨.ofBytes "b" [], ?_, by decide⟩ (hiff.1 ⟨c', hresult⟩ (.ofBytes "b" (Utf8.ofString "beta")) ?_)
    · exact List.mem_cons_of_mem _ List.mem_cons_self
    · decide +kernel
  | error fault c' =>
    refine ⟨_, _, fault, c', hread, rfl, hresult, herror fault c' hresult, ?_, ?_, hempty rfl⟩
    · have hleft : (Outcome.left (Envelope.populate ⟨.ofBytes (Utf8.ofString "<letters/>"), none, three, true⟩
          ((Context.ofSettings .href 3).after secondTaken))).attachments =
          [.ofBytes "b" [], .ofBytes "a" (Utf8.ofString "alpha")] := by
        decide +kernel
      rwa [hresult] at hleft
    · exact (herror fault c' hresult).extends_old.multipart

end Multipart
end SoapBinding
