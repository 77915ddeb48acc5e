import Mathlib.Data.List.Forall2
import SoapBinding.Proofs.Base64.RoundTrip
import SoapBinding.Proofs.Context.Index
import SoapBinding.Proofs.Multipart.Capacity
import SoapBinding.Proofs.Outcome
import SoapBinding.Proofs.Text.Trim

/-!
# The ids of attachments

A part *declares* an id (`Headers.Declares`) by its first `Content-ID` header: the id is the value without the blank
characters at either end and, inside them, without an angle bracket in front and one behind. `contentId?` computes just
that. Every attachment of a body holds the content of its part, in order, under the id that the part declares, and no
two parts declare one id. So, where the declared ids are not empty, they are the keys: each leads to the bytes of its
part in the context that the attachments are registered in, and reading the body once more gives the same envelope.

An empty id is declared too (`Content-ID: <>`). Such a part gets a fresh id, under which no message can refer to it.
-/

namespace SoapBinding.Multipart

namespace Headers

variable {headers : Headers} {cs id : List Char}

/-- The value of a header holds an id, between brackets or not, with blank characters around them. -/
def HoldsId (value id : List Char) : Prop :=
  ∃ opening closing : List Char,
    (Text.IsTrimmed (opening ++ (id ++ closing)) ∧ ∃ front back, value = front ++ (opening ++ (id ++ closing)) ++ back ∧
      (∀ c ∈ front, Text.isBlank c = true) ∧ ∀ c ∈ back, Text.isBlank c = true) ∧
    (opening = ['<'] ∨ opening = [] ∧ (id ++ closing).head? ≠ some '<') ∧
    (closing = ['>'] ∨ closing = [] ∧ id.getLast? ≠ some '>')

/-- The first header of the name holds the id. -/
def Declares (headers : Headers) (id : String) : Prop :=
  ∃ value, (∃ before after : Headers, headers = before ++ ("content-id", value) :: after ∧
    ∀ header ∈ before, header.1 ≠ "content-id") ∧ HoldsId value.toList id.toList

/-- The bracket behind is taken off. -/
theorem withoutClosing_eq_iff (cs : List Char) : (if cs.getLast? = some '>' then cs.dropLast else cs) = id ↔
    ∃ closing, cs = id ++ closing ∧ (closing = ['>'] ∨ closing = [] ∧ id.getLast? ≠ some '>') := by
  split
  · next h =>
    obtain ⟨front, rfl⟩ := List.getLast?_eq_some_iff.1 h
    rw [List.dropLast_concat]
    constructor
    · rintro rfl
      exact ⟨['>'], rfl, .inl rfl⟩
    · rintro ⟨_, heq, rfl | ⟨rfl, hid⟩⟩
      · exact List.append_cancel_right heq
      · rw [List.append_nil] at heq
        exact absurd (heq ▸ h) hid
  · next h =>
    constructor
    · rintro rfl
      exact ⟨[], (List.append_nil _).symm, .inr ⟨rfl, h⟩⟩
    · rintro ⟨_, rfl, rfl | ⟨rfl, -⟩⟩
      · exact absurd List.getLast?_concat h
      · exact List.append_nil id

/-- Brackets are taken off one by one, the one in front first. -/
theorem withoutBrackets_eq_iff :
    withoutBrackets cs = id ↔ ∃ opening closing, cs = opening ++ (id ++ closing) ∧
      (opening = ['<'] ∨ opening = [] ∧ (id ++ closing).head? ≠ some '<') ∧
      (closing = ['>'] ∨ closing = [] ∧ id.getLast? ≠ some '>') := by
  by_cases hhead : cs.head? = some '<'
  · obtain ⟨rest, rfl⟩ := List.head?_eq_some_iff.1 hhead
    refine (withoutClosing_eq_iff rest).trans ⟨?_, ?_⟩
    · rintro ⟨closing, h, hcases⟩
      exact ⟨['<'], closing, congrArg _ h, .inl rfl, hcases⟩
    · rintro ⟨_, closing, h, rfl | ⟨rfl, hother⟩, hcases⟩
      · exact ⟨closing, (List.cons.inj h).2, hcases⟩
      · rw [← List.nil_append (id ++ closing), ← h] at hother
        exact absurd rfl hother
  · have hkept : withoutBrackets cs = if cs.getLast? = some '>' then cs.dropLast else cs := by
      unfold withoutBrackets
      dsimp only
      split
      · exact absurd rfl hhead
      · rfl
    rw [hkept]
    refine (withoutClosing_eq_iff cs).trans ⟨?_, ?_⟩
    · rintro ⟨closing, rfl, hcases⟩
      exact ⟨[], closing, rfl, .inr ⟨rfl, hhead⟩, hcases⟩
    · rintro ⟨_, closing, rfl, rfl | ⟨rfl, -⟩, hcases⟩
      · exact absurd rfl hhead
      · exact ⟨closing, rfl, hcases⟩

/-- The id of a part is the one that its headers declare. -/
theorem contentId?_eq_some_iff {id : String} : headers.contentId? = some id ↔ headers.Declares id := by
  have hget {value : String} : headers.get? "content-id" = some value ↔ ∃ before after : Headers,
      headers = before ++ ("content-id", value) :: after ∧ ∀ header ∈ before, header.1 ≠ "content-id" := by
    rw [get?, List.lookup_eq_some_iff]
    simp only [bne_iff_ne, ne_comm]
  have hvalue {value : String} : String.ofList (withoutBrackets (Text.trimChars value.toList)) = id ↔
      HoldsId value.toList id.toList := by
    rw [← String.toList_inj, String.toList_ofList, withoutBrackets_eq_iff]
    simp only [Text.trimChars_eq_iff]
    rfl
  rw [contentId?, Option.map_eq_some_iff]
  simp only [hget, hvalue]
  rfl

end Headers

/-! ### Attachments of parts -/

/-- Fresh ids are not empty. -/
theorem idAt_ne_empty (n : Nat) : Nonces.idAt n ≠ "" := by
  intro h
  have hnil : Base64.encode (Nonces.nonce n) = [] := String.ofList_eq_empty_iff.1 h
  have hdecode := Base64.decode?_encode (Nonces.nonce n)
  rw [hnil] at hdecode
  have hlength := Nonces.length_nonce n
  rw [← Option.some.inj hdecode] at hlength
  cases hlength

namespace Envelope

variable {nonces nonces' : Nonces} {met : List String} {part : Part} {parts : List Part} {attachments : List Binary}

/-- The content of a part, under the id that the part declares. Where that is empty, there is some id. -/
structure HoldsPart (part : Part) (b : Binary) : Prop where
  content : b.storage = .memory part.content
  id_ne_empty : b.id ≠ ""
  declared : ∃ id, part.headers.Declares id ∧ (id ≠ "" → b.id = id)

/-- The first of several parts has an id that none in front of it has, and gives the first attachment. -/
theorem attachmentsOf_cons_ok (h : attachmentsOf nonces met (part :: parts) = .ok (attachments, nonces')) :
    ∃ id others, part.headers.Declares id ∧ id ∉ met ∧
      attachmentsOf nonces.next.2 (id :: met) parts = .ok (others, nonces') ∧
      attachments = (Binary.ofBytes nonces.next.1 part.content).withId id :: others := by
  rw [attachmentsOf] at h
  cases hid : part.headers.contentId? with
  | none =>
    rw [hid] at h
    cases h
  | some id =>
    rw [hid] at h
    dsimp only at h
    split at h
    · cases h
    · next hmet =>
      obtain ⟨⟨others, rest⟩, hrest, hok⟩ := Outcome.except_bind_eq_ok.1 h
      cases hok
      exact ⟨id, others, Headers.contentId?_eq_some_iff.1 hid, by simpa using hmet, hrest, rfl⟩

/-- Attachments hold the parts in order. -/
theorem forall₂_attachmentsOf (h : attachmentsOf nonces met parts = .ok (attachments, nonces')) :
    List.Forall₂ HoldsPart parts attachments := by
  induction parts generalizing nonces met attachments with
  | nil =>
    cases h
    exact .nil
  | cons part parts ih =>
    obtain ⟨id, others, hdeclares, -, hothers, rfl⟩ := attachmentsOf_cons_ok h
    refine .cons ?_ (ih hothers)
    by_cases hid : id = ""
    · subst hid
      exact ⟨rfl, idAt_ne_empty nonces.used, "", hdeclares, fun hne => absurd rfl hne⟩
    · have hkept : (Binary.ofBytes nonces.next.1 part.content).withId id = .ofBytes id part.content := by
        rw [Binary.withId, if_neg (by simpa using hid)]
        rfl
      rw [hkept]
      exact ⟨rfl, hid, id, hdeclares, fun _ => rfl⟩

/-- No two parts declare one id, and none declares one of those met before. -/
theorem pairwise_attachmentsOf (h : attachmentsOf nonces met parts = .ok (attachments, nonces')) :
    (parts.Pairwise fun part other => ∀ id, part.headers.Declares id → ¬other.headers.Declares id) ∧
      ∀ part ∈ parts, ∀ id ∈ met, ¬part.headers.Declares id := by
  induction parts generalizing nonces met attachments with
  | nil => exact ⟨.nil, nofun⟩
  | cons part parts ih =>
    obtain ⟨id, others, hdeclares, hmet, hothers, -⟩ := attachmentsOf_cons_ok h
    obtain ⟨hpairwise, hnew⟩ := ih hothers
    -- A part declares one id only.
    have heq {other : String} (hother : part.headers.Declares other) : other = id :=
      Option.some.inj ((Headers.contentId?_eq_some_iff.2 hother).symm.trans (Headers.contentId?_eq_some_iff.2 hdeclares))
    refine ⟨.cons ?_ hpairwise, ?_⟩
    · rintro behind hmem other hother
      exact hnew behind hmem other (heq hother ▸ List.mem_cons_self)
    · rintro front hmem other hother hdeclared
      rcases List.mem_cons.1 hmem with rfl | hbehind
      · exact hmet (heq hdeclared ▸ hother)
      · exact hnew front hbehind other (List.mem_cons_of_mem id hother) hdeclared

/-- A part that declares no empty id keeps the one that it declares. -/
theorem HoldsPart.eq_ofBytes {b : Binary} (h : HoldsPart part b) (hne : ¬part.headers.Declares "") :
    b = .ofBytes (part.headers.contentId?.getD "") part.content := by
  obtain ⟨id, hid, hkept⟩ := h.declared
  have heq : b.id = id := hkept fun hempty => hne (hempty ▸ hid)
  rw [Headers.contentId?_eq_some_iff.2 hid, Option.getD_some, ← heq, Binary.ofBytes, ← h.content]

/-- Each part behind the first declares an id. -/
theorem exists_declared (h : List.Forall₂ HoldsPart parts attachments) (hpart : part ∈ parts) :
    ∃ id, part.headers.Declares id := by
  induction h with
  | nil => cases hpart
  | cons hb _ ih =>
    rcases List.mem_cons.1 hpart with rfl | hrest
    · exact hb.declared.imp fun _ => And.left
    · exact ih hrest

/-- Where no declared id is empty, the parts tell the attachments. -/
theorem eq_map_of_forall₂ (h : List.Forall₂ HoldsPart parts attachments)
    (hne : ∀ part ∈ parts, ¬part.headers.Declares "") :
    attachments = parts.map fun part => .ofBytes (part.headers.contentId?.getD "") part.content := by
  induction h with
  | nil => rfl
  | @cons part b parts attachments hb _ ih =>
    rw [List.map_cons, ← hb.eq_ofBytes (hne part List.mem_cons_self),
      ← ih fun other hother => hne other (List.mem_cons_of_mem part hother)]

/-- The envelope of parts has the attachments of those behind the first. -/
theorem ofParts_eq_ok {primary : Part} {e : Envelope} :
    (ofParts nonces (primary :: parts)).mapError Error.attachment = .ok (e, nonces') ↔
      ∃ attachments, attachmentsOf nonces [] parts = .ok (attachments, nonces') ∧
        e = ⟨.ofBytes primary.content, primary.headers.get? "content-type", attachments, true⟩ := by
  rw [ofParts]
  cases attachmentsOf nonces [] parts with
  | error fault =>
    constructor
    · rintro ⟨⟩
    · rintro ⟨_, ⟨⟩, -⟩
  | ok result =>
    obtain ⟨attachments, rest⟩ := result
    constructor
    · rintro ⟨⟩
      exact ⟨attachments, rfl, rfl⟩
    · rintro ⟨_, ⟨⟩, rfl⟩
      rfl

/-- Ids that are not empty are as distinct as those that parts declare. -/
theorem nodup_ids (h : List.Forall₂ HoldsPart parts attachments)
    (hpairwise : parts.Pairwise fun part other => ∀ id, part.headers.Declares id → ¬other.headers.Declares id)
    (hne : ∀ part ∈ parts, ¬part.headers.Declares "") : (attachments.map Binary.id).Nodup := by
  have hids : attachments.map Binary.id = parts.map fun part => part.headers.contentId?.getD "" := by
    rw [eq_map_of_forall₂ h hne, List.map_map]
    rfl
  rw [hids, List.nodup_iff_pairwise_ne, List.pairwise_map]
  refine hpairwise.imp_of_mem fun {part other} hpart hother hdiffer hsame => ?_
  obtain ⟨id, hid⟩ := exists_declared h hpart
  obtain ⟨id', hid'⟩ := exists_declared h hother
  rw [Headers.contentId?_eq_some_iff.2 hid, Headers.contentId?_eq_some_iff.2 hid'] at hsame
  obtain rfl : id = id' := hsame
  exact hdiffer id hid hid'

/-- Whatever the supply of ids, parts that have been accepted are accepted, and tell the envelope if none declares an empty
id. -/
theorem ofParts_resupplied {primary : Part} {e : Envelope}
    (h : (ofParts nonces (primary :: parts)).mapError Error.attachment = .ok (e, nonces'))
    (hne : ∀ part ∈ parts, ¬part.headers.Declares "") (supply : Nonces) :
    ∃ rest, (ofParts supply (primary :: parts)).mapError Error.attachment = .ok (e, rest) := by
  have halike := ofParts_alike nonces supply (primary :: parts)
  rw [h] at halike
  generalize hother : (ofParts supply (primary :: parts)).mapError Error.attachment = result at halike
  cases halike with
  | @succeeded _ r _ =>
    obtain ⟨other, rest⟩ := r
    obtain ⟨attachments, hattachments, rfl⟩ := ofParts_eq_ok.1 h
    obtain ⟨others, hothers, rfl⟩ := ofParts_eq_ok.1 hother
    refine ⟨rest, ?_⟩
    rw [eq_map_of_forall₂ (forall₂_attachmentsOf hattachments) hne, ← eq_map_of_forall₂ (forall₂_attachmentsOf hothers) hne]

/-- Distinct ids that are not empty are keys: a context that was empty knows each part under its id. -/
theorem exists_populate {e : Envelope} {c : Context} (hc : c.IsIndexed) (hempty : c.attachments = [])
    (hdistinct : (e.attachments.map Binary.id).Nodup) :
    ∃ c', e.populate c = .ok () c' ∧ ∀ b ∈ e.attachments, c'.resolve b.id = .ok b := by
  have hnew : ∀ b ∈ e.attachments, ∀ other ∈ c.attachments, other.id ≠ b.id := fun b _ other hother =>
    absurd (hempty ▸ hother) List.not_mem_nil
  obtain ⟨c', hadd, hattachments⟩ := hc.addAll_of_new hnew hdistinct
  rw [hempty, List.nil_append] at hattachments
  have hfound : ∀ b ∈ e.attachments, c'.attachment? b.id = some b := fun b hb =>
    (hc.addAll hadd).attachment?_iff.2 ⟨hattachments ▸ hb, rfl⟩
  refine ⟨if e.isMultipart then { c' with multipart := true } else c', ?_, fun b hb => ?_⟩
  · rw [populate, hadd]
  · have hresolve : c'.resolve b.id = .ok b := by
      rw [Context.resolve, hfound b hb]
    split
    · exact hresolve
    · exact hresolve

end Envelope

/-! ### Envelopes -/

open Envelope in
/-- **Attachments go by the ids of their parts.** In an envelope that was read in parts, the attachments hold the parts
behind the first, in order, each under the id that its headers declare, and no id is declared twice. If none is empty,
they are keys: in a context without attachments each leads to the content of its part, and the body gives the same
envelope whenever it is read. -/
theorem keyed_of_read {limits : Limits} {contentType : String} {nonces nonces' : Nonces} {s : Source} {e : Envelope}
    (hread : Envelope.read limits contentType nonces s = .ok (e, nonces')) (hmultipart : e.isMultipart = true) :
    ∃ boundary primary parts, relatedBoundary? contentType = some boundary ∧
      Part.ofSource limits (Utf8.ofString boundary) s = .ok (primary :: parts) ∧
      List.Forall₂ HoldsPart parts e.attachments ∧
      (parts.Pairwise fun part other => ∀ id, part.headers.Declares id → ¬other.headers.Declares id) ∧
      ((∀ part ∈ parts, ¬part.headers.Declares "") →
        (e.attachments.map Binary.id).Nodup ∧
        (∀ c : Context, c.attachments = [] → c.index = ∅ → ∃ c', e.populate c = .ok () c' ∧
          ∀ part ∈ parts, ∀ id, part.headers.Declares id → c'.resolve id = .ok (.ofBytes id part.content)) ∧
        ∀ supply, ∃ rest, Envelope.read limits contentType supply s = .ok (e, rest)) := by
  cases hboundary : relatedBoundary? contentType with
  | none =>
    rw [Envelope.read, hboundary] at hread
    cases hread
    cases hmultipart
  | some boundary =>
    have hof (supply : Nonces) : Envelope.read limits contentType supply s =
        Part.ofSource limits (Utf8.ofString boundary) s >>= fun parts => (ofParts supply parts).mapError .attachment := by
      rw [Envelope.read, hboundary]
    rw [hof] at hread
    obtain ⟨all, hparts, hread⟩ := Outcome.except_bind_eq_ok.1 hread
    cases all with
    | nil => cases hread
    | cons primary parts =>
      obtain ⟨attachments, hattachments, rfl⟩ := ofParts_eq_ok.1 hread
      have hholds := forall₂_attachmentsOf hattachments
      have hpairwise := (pairwise_attachmentsOf hattachments).1
      refine ⟨boundary, primary, parts, rfl, hparts, hholds, hpairwise, fun hne => ?_⟩
      have heq := eq_map_of_forall₂ hholds hne
      have hdistinct := nodup_ids hholds hpairwise hne
      refine ⟨hdistinct, fun c hempty hindex => ?_, fun supply => ?_⟩
      · obtain ⟨c', hpopulate, hresolve⟩ := exists_populate (e := ⟨_, _, attachments, true⟩)
          (Context.isIndexed_empty hempty hindex) hempty hdistinct
        refine ⟨c', hpopulate, fun part hpart id hid => ?_⟩
        have hmem : Binary.ofBytes id part.content ∈ attachments := by
          rw [heq]
          refine List.mem_map.2 ⟨part, hpart, ?_⟩
          rw [Headers.contentId?_eq_some_iff.2 hid, Option.getD_some]
        exact hresolve _ hmem
      · rw [hof, hparts]
        exact ofParts_resupplied hread hne supply

/-- A body whose ids stand in brackets with blank characters around them, behind the first header of another name, and
on a line that goes on with the header in front of it. -/
def lettersBody : Source :=
  .ofBytes <| Utf8.ofString ("--b\r\n\r\n<letters/>\r\n--b\r\nX: y\r\nCONTENT-ID: \t<a b> \r\n\r\nalpha\r\n--b\r\nContent-ID:\r\n  c\r\n" ++
    "Content-ID: d\r\nContent-Transfer-Encoding: base64\r\n\r\nYmV0YQ==\r\n--b--")

/-- The attachments of that body. -/
def letters : List Binary := [.ofBytes "a b" (Utf8.ofString "alpha"), .ofBytes "c" (Utf8.ofString "beta")]

/-- A result that is a value can be computed. -/
theorem eq_ok_of_toOption {ε α : Type} {r : Except ε α} {a : α} (h : r.toOption = some a) : r = .ok a := by
  cases r with
  | error e => cases h
  | ok b => exact congrArg _ (Option.some.inj h)

theorem keyed_of_read_letters :
    ∃ e rest, Envelope.read ⟨16, 4⟩ "multipart/related; boundary=b" .fresh lettersBody = .ok (e, rest) ∧
      e.isMultipart = true ∧ e.attachments = letters ∧
      (∃ c', e.populate .inline = .ok () c' ∧ ∀ b ∈ letters, c'.resolve b.id = .ok b) ∧
      ∀ supply, ∃ rest, Envelope.read ⟨16, 4⟩ "multipart/related; boundary=b" supply lettersBody = .ok (e, rest) := by
  have hread : Envelope.read ⟨16, 4⟩ "multipart/related; boundary=b" .fresh lettersBody =
      .ok (⟨.ofBytes (Utf8.ofString "<letters/>"), none, letters, true⟩, ⟨2⟩) := by
    rw [lettersBody, Utf8.ofString_ofList_append]
    exact eq_ok_of_toOption (by decide +kernel)
  have hparts : (Part.ofSource ⟨16, 4⟩ (Utf8.ofString "b") lettersBody).toOption =
      some [⟨[], Utf8.ofString "<letters/>"⟩, ⟨[("x", "y"), ("content-id", "<a b>")], Utf8.ofString "alpha"⟩,
        ⟨[("content-id", " c"), ("content-id", "d"), ("content-transfer-encoding", "base64")], Utf8.ofString "beta"⟩] := by
    rw [lettersBody, Utf8.ofString_ofList_append]
    decide +kernel
  obtain ⟨boundary, primary, parts, hboundary, hof, -, -, hkeys⟩ := keyed_of_read hread rfl
  obtain rfl : "b" = boundary := Option.some.inj ((by decide : some "b" = relatedBoundary? _).trans hboundary)
  rw [hof] at hparts
  obtain ⟨rfl, rfl⟩ := List.cons.inj (Option.some.inj hparts)
  obtain ⟨-, hpopulate, hagain⟩ := hkeys (by
    simp only [← Headers.contentId?_eq_some_iff]
    decide +kernel)
  obtain ⟨c', hc', hresolve⟩ := hpopulate .inline rfl rfl
  refine ⟨_, _, hread, rfl, rfl, ⟨c', hc', ?_⟩, hagain⟩
  simp only [← Headers.contentId?_eq_some_iff] at hresolve
  intro b hb
  simp only [letters, List.mem_cons, List.not_mem_nil, or_false] at hb
  rcases hb with rfl | rfl
  · exact hresolve _ List.mem_cons_self _ (by decide +kernel)
  · exact hresolve _ (List.mem_cons_of_mem _ List.mem_cons_self) _ (by decide +kernel)

/-- A body with a part whose id is empty. -/
def namelessBody : Source := .ofBytes <| Utf8.ofString "--b\r\n\r\nroot\r\n--b\r\nContent-ID: <>\r\n\r\nx\r\n--b--"

/-- A part whose id is empty is no fault, and its attachment goes by an id that no part declares. Another supply gives
another one. -/
theorem not_keyed_of_read :
    ∃ e e' rest rest' primary part,
      Envelope.read .usual "multipart/related; boundary=b" ⟨0⟩ namelessBody = .ok (e, rest) ∧ e.isMultipart = true ∧
      Envelope.read .usual "multipart/related; boundary=b" ⟨1⟩ namelessBody = .ok (e', rest') ∧
      Part.ofSource .usual (Utf8.ofString "b") namelessBody = .ok [primary, part] ∧ part.headers.Declares "" ∧
      (∀ b ∈ e.attachments, ¬part.headers.Declares b.id) ∧ e.attachments ≠ e'.attachments := by
  have hread (n : Nat) (hn : n = 0 ∨ n = 1) :
      Envelope.read .usual "multipart/related; boundary=b" ⟨n⟩ namelessBody =
        .ok (⟨.ofBytes (Utf8.ofString "root"), none, [.ofBytes (Nonces.idAt n) (Utf8.ofString "x")], true⟩, ⟨n + 1⟩) := by
    apply eq_ok_of_toOption
    rcases hn with rfl | rfl <;> decide +kernel
  have hparts : Part.ofSource .usual (Utf8.ofString "b") namelessBody =
      .ok [⟨[], Utf8.ofString "root"⟩, ⟨[("content-id", "<>")], Utf8.ofString "x"⟩] :=
    eq_ok_of_toOption (by decide +kernel)
  refine ⟨_, _, _, _, _, _, hread 0 (.inl rfl), rfl, hread 1 (.inr rfl), hparts, ?_, ?_, ?_⟩
  · exact Headers.contentId?_eq_some_iff.1 (by decide +kernel)
  · intro b hb hdeclares
    rw [List.mem_singleton.1 hb] at hdeclares
    have hid := Headers.contentId?_eq_some_iff.2 hdeclares
    exact idAt_ne_empty 0 (Option.some.inj (hid.symm.trans (by decide +kernel)))
  · decide +kernel

end SoapBinding.Multipart
