import SoapBinding.Proofs.Multipart.Refinement

/-!
# Bodies read through two buffers

A line buffer bounds how much of a body is held at a time. Two buffers of different capacities cut the
lines of a body into different chunks, and yet the envelope is the same, or there is none for either
(`read_alike`). Only a delimiter tells the buffers apart: it is judged as a whole, so where padding makes
one so long that one buffer holds it and the other does not, the readers part (`not_read_alike`).

A source may also fail behind its bytes. Then nothing comes of the line that it fails in, and the body
is read as if it ended in front of that line.
-/

namespace SoapBinding.Multipart

/-! ### Work that comes out alike -/

/-- Two pieces of work both fail, or both succeed with results that are related. -/
inductive Alike {α β : Type} (R : α → β → Prop) : Except Error α → Except Error β → Prop
  | failed (e e' : Error) : Alike R (.error e) (.error e')
  | succeeded {a : α} {b : β} (h : R a b) : Alike R (.ok a) (.ok b)

namespace Alike

variable {α β α' β' : Type} {R : α → β → Prop} {S : α' → β' → Prop}

theorem bind {work : Except Error α} {work' : Except Error β} {next : α → Except Error α'}
    {next' : β → Except Error β'} (h : Alike R work work')
    (hnext : ∀ a b, R a b → Alike S (next a) (next' b)) : Alike S (work >>= next) (work' >>= next') := by
  cases h with
  | failed e e' => exact .failed e e'
  | succeeded h => exact hnext _ _ h

theorem trans {work work' work'' : Except Error α} (h : Alike Eq work work') (h' : Alike Eq work' work'') :
    Alike Eq work work'' := by
  cases h with
  | failed e e' =>
    cases h'
    exact .failed e _
  | succeeded h =>
    cases h'
    subst h
    exact .succeeded ‹_›

theorem symm {work work' : Except Error α} (h : Alike Eq work work') : Alike Eq work' work := by
  cases h with
  | failed e e' => exact .failed e' e
  | succeeded h => exact .succeeded h.symm

/-- Two readers that follow the same reference come out alike. -/
theorem of_follows {ι : Type} {work : Except Error α} {work' : Except Error β} {reference : Option ι}
    {result : ι → Option α} {result' : ι → Option β} (h : Follows work (reference.bind result))
    (h' : Follows work' (reference.bind result'))
    (hR : ∀ i, reference = some i → (result i = none ∧ result' i = none) ∨
      ∃ a b, result i = some a ∧ result' i = some b ∧ R a b) : Alike R work work' := by
  have hfailed (hnone : reference.bind result = none) (hnone' : reference.bind result' = none) :
      Alike R work work' := by
    rw [hnone] at h
    rw [hnone'] at h'
    obtain ⟨fault, rfl⟩ := h
    obtain ⟨fault', rfl⟩ := h'
    exact .failed _ _
  cases href : reference with
  | none => exact hfailed (by rw [href]; rfl) (by rw [href]; rfl)
  | some i =>
    rcases hR i href with ⟨hnone, hnone'⟩ | ⟨a, b, ha, hb, hab⟩
    · exact hfailed (by rw [href]; exact hnone) (by rw [href]; exact hnone')
    · rw [href, Option.bind_some, ha] at h
      rw [href, Option.bind_some, hb] at h'
      rw [show work = .ok a from h, show work' = .ok b from h']
      exact .succeeded hab

end Alike

/-! ### Chunks that are read alike -/

/-- Rows of chunks from which each of the three loops reads the same, up to such rows. -/
structure ReadAlike (boundary : Bytes) (R : List Chunk → List Chunk → Prop) : Prop where
  preamble {cs cs' : List Chunk} (h : R cs cs') :
    Alike R (skipPreamble boundary true cs) (skipPreamble boundary true cs')
  headers {cs cs' : List Chunk} (h : R cs cs') :
    Alike (fun r r' => r.1 = r'.1 ∧ R r.2 r'.2) (readHeaders [] [] cs) (readHeaders [] [] cs')
  content {cs cs' : List Chunk} (encoding : Encoding) (h : R cs cs') :
    Alike (fun r r' => r.1 = r'.1 ∧ r.2.1 = r'.2.1 ∧ R r.2.2 r'.2.2)
      (readContent boundary (.start encoding) true false cs)
      (readContent boundary (.start encoding) true false cs')

namespace ReadAlike

variable {boundary : Bytes} {R : List Chunk → List Chunk → Prop} {cs cs' : List Chunk}

theorem part (h : ReadAlike boundary R) (hR : R cs cs') :
    Alike (fun r r' => r.1 = r'.1 ∧ r.2.1 = r'.2.1 ∧ R r.2.2 r'.2.2)
      (readPart boundary cs) (readPart boundary cs') := by
  refine (h.headers hR).bind ?_
  rintro ⟨headers, cs⟩ ⟨_, cs'⟩ ⟨rfl, hrest⟩
  dsimp only
  cases headers.encoding with
  | error fault => exact .failed _ _
  | ok encoding =>
    refine (h.content encoding hrest).bind ?_
    rintro ⟨content, delimiter, cs⟩ ⟨_, _, cs'⟩ ⟨rfl, rfl, hrest⟩
    exact .succeeded ⟨rfl, rfl, hrest⟩

theorem parts (h : ReadAlike boundary R) (hR : R cs cs') (limit left : Nat) :
    Alike Eq (readParts boundary limit left cs) (readParts boundary limit left cs') := by
  induction left generalizing cs cs' with
  | zero => exact .failed _ _
  | succ left ih =>
    refine (h.part hR).bind ?_
    rintro ⟨part, delimiter, cs⟩ ⟨_, _, cs'⟩ ⟨rfl, rfl, hrest⟩
    cases delimiter with
    | terminal => exact .succeeded rfl
    | next =>
      refine (ih hrest).bind ?_
      rintro parts _ rfl
      exact .succeeded rfl

/-- The parts of a body, behind its preamble. -/
theorem body (h : ReadAlike boundary R) (hR : R cs cs') (limit : Nat) :
    Alike Eq (skipPreamble boundary true cs >>= readParts boundary limit limit)
      (skipPreamble boundary true cs' >>= readParts boundary limit limit) :=
  (h.preamble hR).bind fun _ _ hrest => h.parts hrest limit limit

end ReadAlike

/-! ### Two capacities -/

section
variable {boundary : Bytes} {capacity capacity' : Nat}

/-- Two buffers hold the same of the lines that would be delimiters. -/
def HoldSame (capacity capacity' : Nat) (boundary : Bytes) (ls : List Bytes) : Prop :=
  ∀ line ∈ ls, delimiter? boundary line ≠ none → (line.length < capacity ↔ line.length < capacity')

theorem HoldSame.mono {ls ls' : List Bytes} (h : HoldSame capacity capacity' boundary ls)
    (hsub : ls' ⊆ ls) : HoldSame capacity capacity' boundary ls' :=
  fun line hline => h line (hsub hline)

/-- So the buffers cut lines at the same delimiters. -/
theorem HoldSame.cutWhere_eq {ls : List Bytes} (h : HoldSame capacity capacity' boundary ls) :
    cutWhere (heldDelimiter? capacity boundary) ls = cutWhere (heldDelimiter? capacity' boundary) ls := by
  apply cutWhere_congr
  intro line hline
  by_cases hnone : delimiter? boundary line = none
  · rw [heldDelimiter?, heldDelimiter?, hnone, ite_self, ite_self]
  · exact if_congr (h line hline hnone) rfl rfl

/-- The chunks of the same lines in two buffers. -/
def OfSameLines (capacity capacity' : Nat) (boundary : Bytes) (cs cs' : List Chunk) : Prop :=
  ∃ ls, HoldSame capacity capacity' boundary ls ∧ cs = Chunk.ofLines capacity ls ∧
    cs' = Chunk.ofLines capacity' ls

/-- **The chunks of the same lines are read alike.** -/
theorem readAlike_ofSameLines (hpos : 0 < capacity) (hpos' : 0 < capacity') :
    ReadAlike boundary (OfSameLines capacity capacity' boundary) where
  preamble := by
    rintro _ _ ⟨ls, hsame, rfl, rfl⟩
    refine Alike.of_follows (skipPreamble_held hpos ls)
      (hsame.cutWhere_eq ▸ skipPreamble_held hpos' ls) ?_
    rintro ⟨front, delimiter, behind⟩ hcut
    cases delimiter with
    | terminal => exact .inl ⟨rfl, rfl⟩
    | next => exact .inr ⟨_, _, rfl, rfl, behind, hsame.mono (subset_of_cutWhere hcut), rfl, rfl⟩
  headers := by
    rintro _ _ ⟨ls, hsame, rfl, rfl⟩
    refine Alike.of_follows (readHeaders_follows [] ls) (readHeaders_follows [] ls) ?_
    rintro ⟨front, behind⟩ hcut
    dsimp only
    cases front.foldlM Unbuffered.withLine? [] with
    | none => exact .inl ⟨rfl, rfl⟩
    | some headers =>
      exact .inr ⟨_, _, rfl, rfl, rfl, behind, hsame.mono (subset_of_cutAtEmpty hcut), rfl, rfl⟩
  content := by
    rintro _ _ encoding ⟨ls, hsame, rfl, rfl⟩
    refine Alike.of_follows (readContent_held hpos (Content.holds_start encoding))
      (hsame.cutWhere_eq ▸ readContent_held hpos' (Content.holds_start encoding)) ?_
    rintro ⟨front, delimiter, behind⟩ hcut
    dsimp only
    cases encoding.decode? ([] ++ joined false front) with
    | none => exact .inl ⟨rfl, rfl⟩
    | some decoded =>
      exact .inr ⟨_, _, rfl, rfl, rfl, rfl, behind, hsame.mono (subset_of_cutWhere hcut), rfl, rfl⟩

end

/-! ### Sources that fail -/

/-- Chunks from which no loop gets anything. -/
structure Fruitless (boundary : Bytes) (cs : List Chunk) : Prop where
  preamble (atLineStart : Bool) : ∃ e, skipPreamble boundary atLineStart cs = .error e
  headers (headers : Headers) (line : Bytes) : ∃ e, readHeaders headers line cs = .error e
  content (content : Content) (atLineStart afterBreak : Bool) :
    ∃ e, readContent boundary content atLineStart afterBreak cs = .error e

/-- The chunks of a line in which the source fails. -/
inductive CutOff : List Chunk → Prop
  | failed (bytes : Bytes) : CutOff [⟨bytes, .failed⟩]
  | full (bytes : Bytes) {cs : List Chunk} (h : CutOff cs) : CutOff (⟨bytes, .full⟩ :: cs)

section
variable {boundary : Bytes} {cs tail tail' : List Chunk}

theorem CutOff.fruitless (h : CutOff cs) : Fruitless boundary cs := by
  induction h with
  | failed bytes => exact ⟨fun _ => ⟨.io, rfl⟩, fun _ _ => ⟨.io, rfl⟩, fun _ _ _ => ⟨.io, rfl⟩⟩
  | full bytes _ ih =>
    -- A full chunk is not judged, so each loop goes on to the failure.
    have hnone (atLineStart : Bool) : Chunk.delimiter? boundary atLineStart ⟨bytes, .full⟩ = none :=
      chunk_delimiter?_eq_none fun _ hfull => absurd rfl hfull
    refine ⟨?_, fun headers line => ih.headers headers _, ?_⟩
    · intro atLineStart
      rw [skipPreamble, hnone]
      exact ih.preamble _
    · intro content atLineStart afterBreak
      rw [readContent, hnone]
      dsimp only
      cases (if afterBreak then content.breakLine else content).push bytes with
      | error fault => exact ⟨_, rfl⟩
      | ok content => exact ih.content _ _ _

/-- Nothing comes of a body that ends with an empty line. -/
theorem fruitless_empty : Fruitless boundary [⟨[], .inputEnd⟩] := by
  have hnone (atLineStart : Bool) : Chunk.delimiter? boundary atLineStart ⟨[], .inputEnd⟩ = none :=
    chunk_delimiter?_eq_none fun _ _ => by simp [delimiter?, unpadded, hyphens]
  refine ⟨fun atLineStart => ?_, fun _ _ => ⟨_, rfl⟩, fun content atLineStart afterBreak => ?_⟩
  · rw [skipPreamble, hnone]
    exact ⟨_, rfl⟩
  · rw [readContent, hnone]
    exact ⟨_, rfl⟩

/-- The same chunks in front of two tails. -/
def InFrontOf (tail tail' cs cs' : List Chunk) : Prop := ∃ front, cs = front ++ tail ∧ cs' = front ++ tail'

/-- **The same chunks are read alike** in front of tails of which nothing comes: the loops either end in
front of the tail or fail with it. -/
theorem readAlike_inFrontOf (h : Fruitless boundary tail) (h' : Fruitless boundary tail') :
    ReadAlike boundary (InFrontOf tail tail') where
  preamble := by
    rintro _ _ ⟨front, rfl, rfl⟩
    generalize true = atLineStart
    induction front generalizing atLineStart with
    | nil =>
      obtain ⟨e, he⟩ := h.preamble atLineStart
      obtain ⟨e', he'⟩ := h'.preamble atLineStart
      rw [List.nil_append, List.nil_append, he, he']
      exact .failed e e'
    | cons c rest ih =>
      rw [List.cons_append, List.cons_append, skipPreamble, skipPreamble]
      split
      · exact .failed _ _
      · cases c.delimiter? boundary atLineStart with
        | some delimiter =>
          cases delimiter with
          | next => exact .succeeded ⟨rest, rfl, rfl⟩
          | terminal => exact .failed _ _
        | none =>
          dsimp only
          split
          · exact .failed _ _
          · exact ih _
  headers := by
    rintro _ _ ⟨front, rfl, rfl⟩
    generalize ([] : Headers) = headers
    generalize ([] : Bytes) = line
    induction front generalizing headers line with
    | nil =>
      obtain ⟨e, he⟩ := h.headers headers line
      obtain ⟨e', he'⟩ := h'.headers headers line
      rw [List.nil_append, List.nil_append, he, he']
      exact .failed e e'
    | cons c rest ih =>
      rw [List.cons_append, List.cons_append, readHeaders, readHeaders]
      cases c.ending with
      | failed => exact .failed _ _
      | inputEnd => exact .failed _ _
      | full => exact ih _ _
      | lineBreak =>
        dsimp only
        split
        · exact .succeeded ⟨rfl, rest, rfl, rfl⟩
        · cases Headers.addLine headers (Utf8.decodeLossy (line ++ c.bytes)) with
          | error fault => exact .failed _ _
          | ok headers => exact ih _ _
  content := by
    rintro _ _ encoding ⟨front, rfl, rfl⟩
    generalize Content.start encoding = content
    generalize true = atLineStart
    generalize false = afterBreak
    induction front generalizing content atLineStart afterBreak with
    | nil =>
      obtain ⟨e, he⟩ := h.content content atLineStart afterBreak
      obtain ⟨e', he'⟩ := h'.content content atLineStart afterBreak
      rw [List.nil_append, List.nil_append, he, he']
      exact .failed e e'
    | cons c rest ih =>
      rw [List.cons_append, List.cons_append, readContent, readContent]
      split
      · exact .failed _ _
      · cases c.delimiter? boundary atLineStart with
        | some delimiter =>
          dsimp only
          cases content.finish with
          | error fault => exact .failed _ _
          | ok bytes => exact .succeeded ⟨rfl, rfl, rest, rfl, rfl⟩
        | none =>
          dsimp only
          split
          · exact .failed _ _
          · cases (if afterBreak then content.breakLine else content).push c.bytes with
            | error fault => exact .failed _ _
            | ok content => exact ih _ _ _

end

namespace Chunk

variable {capacity : Nat}

/-- The chunks of whole lines. -/
def ofWholeLines (capacity : Nat) (ls : List Bytes) : List Chunk := ls.flatMap (ofLine capacity .lineBreak)

theorem ofWholeLines_cons (line : Bytes) (rest : List Bytes) :
    ofWholeLines capacity (line :: rest) = ofLine capacity .lineBreak line ++ ofWholeLines capacity rest :=
  List.flatMap_cons

/-- A body that ends with a line break ends with an empty line. -/
theorem ofLines_concat_nil (hpos : 0 < capacity) (ls : List Bytes) :
    ofLines capacity (ls ++ [[]]) = ofWholeLines capacity ls ++ [⟨[], .inputEnd⟩] := by
  induction ls with
  | nil => exact ofLine_of_lt hpos
  | cons line rest ih =>
    rw [List.cons_append, ofLines_cons_lineEnd, ih, ofWholeLines_cons, List.append_assoc]
    rcases lineEnd_cases (rest ++ [[]]) with ⟨hnil, -⟩ | ⟨-, he⟩
    · simp at hnil
    · rw [he]

/-- What a source delivers before it fails are whole lines, and a line that is cut off. -/
theorem scan_failing (held : Bytes) (room : Nat) (bytes : Bytes) (hroom : 0 < room)
    (h : held.length + room = capacity) :
    ∃ tail, CutOff tail ∧ scan capacity true held room bytes =
      ofWholeLines capacity ((held.reverse ++ (cutLines bytes).1) :: (cutLines bytes).2).dropLast ++ tail := by
  have hpos : 0 < capacity := by omega
  have hheld : held.reverse.length < capacity := by
    rw [List.length_reverse]
    omega
  fun_induction scan capacity true held room bytes with
  | case1 held room => exact ⟨_, .failed _, rfl⟩
  | case2 held room b hb => exact ⟨_, .failed _, rfl⟩
  | case3 held room b _ hfull => exact ⟨_, .full _ (.failed _), rfl⟩
  | case4 held room b _ hfits => exact ⟨_, .failed _, rfl⟩
  | case5 held room b c rest hbc ih =>
    obtain ⟨tail, htail, heq⟩ := ih hpos (by simp) (by simpa using hpos)
    refine ⟨tail, htail, ?_⟩
    rw [heq, cutLines, if_pos hbc, List.append_nil]
    show _ = ofWholeLines capacity (held.reverse :: (_ :: _ : List Bytes).dropLast) ++ tail
    rw [ofWholeLines_cons, ofLine_of_lt hheld]
    rfl
  | case6 held room b c rest hbc hfull ih =>
    -- The buffer is full: this chunk is cut off with the rest if the line never ends, and belongs to its line otherwise.
    obtain ⟨tail, htail, heq⟩ := ih hpos (by simp) (by simpa using hpos)
    have hlen : (held.reverse ++ [b]).length = capacity := by
      rw [List.length_append, List.length_reverse, List.length_singleton]
      omega
    rw [heq, cutLines, if_neg hbc, List.append_cons, List.reverse_cons]
    cases (cutLines (c :: rest)).2 with
    | nil => exact ⟨_, .full _ htail, rfl⟩
    | cons next others =>
      refine ⟨tail, htail, ?_⟩
      rw [List.dropLast_cons_cons, List.dropLast_cons_cons, ofWholeLines_cons, ofWholeLines_cons,
        ofLine_append hpos hlen]
      rfl
  | case7 held room b c rest hbc hfits ih =>
    obtain ⟨tail, htail, heq⟩ := ih (by omega) (by rw [List.length_cons]; omega)
      (by rw [List.length_reverse, List.length_cons]; omega)
    refine ⟨tail, htail, ?_⟩
    rw [heq, cutLines, if_neg hbc, List.reverse_cons, List.append_assoc]
    rfl

end Chunk

/-! ### Bodies -/

section
variable {boundary : Bytes} {limits limits' : Limits} {s : Source}

/-- A body that fails is read as one that ends in front of the line it fails in. -/
theorem body_failing (capacity limit : Nat) (hpos : 0 < capacity) (bytes : Bytes) :
    Alike Eq
      (skipPreamble boundary true (Chunk.ofSource capacity ⟨bytes, true⟩) >>= readParts boundary limit limit)
      (skipPreamble boundary true (Chunk.ofLines capacity ((lines bytes).dropLast ++ [[]])) >>=
        readParts boundary limit limit) := by
  obtain ⟨tail, htail, hscan⟩ := Chunk.scan_failing [] capacity bytes hpos (Nat.zero_add capacity)
  apply (readAlike_inFrontOf htail.fruitless fruitless_empty).body
  exact ⟨_, hscan, Chunk.ofLines_concat_nil hpos _⟩

/-- Two buffers that hold the same delimiters give the same parts. -/
theorem ofSource_alike (hmax : limits.maxParts = limits'.maxParts)
    (h : HoldSame (limits.capacity boundary) (limits'.capacity boundary) boundary (lines s.bytes)) :
    Alike Eq (Part.ofSource limits boundary s) (Part.ofSource limits' boundary s) := by
  obtain ⟨bytes, fails⟩ := s
  have hpos := limits.capacity_pos boundary
  have hpos' := limits'.capacity_pos boundary
  have hbody {ls : List Bytes} (hls : HoldSame (limits.capacity boundary) (limits'.capacity boundary)
      boundary ls) := (readAlike_ofSameLines hpos hpos').body ⟨ls, hls, rfl, rfl⟩ limits.maxParts
  unfold Part.ofSource
  rw [← hmax]
  cases fails with
  | false =>
    show Alike Eq (skipPreamble boundary true (Chunk.scan _ false [] _ bytes) >>= _)
      (skipPreamble boundary true (Chunk.scan _ false [] _ bytes) >>= _)
    rw [Chunk.scan_eq_ofLines hpos, Chunk.scan_eq_ofLines hpos']
    exact hbody h
  | true =>
    -- The line that is cut off is no line for either reader, and the empty one in its place is no delimiter.
    have hcut : HoldSame (limits.capacity boundary) (limits'.capacity boundary) boundary
        ((lines bytes).dropLast ++ [[]]) := by
      intro line hline hne
      rcases List.mem_append.1 hline with hmem | hempty
      · exact h line (List.dropLast_subset _ hmem) hne
      · rw [List.mem_singleton.1 hempty]
        exact iff_of_true hpos hpos'
    have hfailing := @body_failing boundary (limits.capacity boundary) limits.maxParts hpos bytes
    have hfailing' := @body_failing boundary (limits'.capacity boundary) limits.maxParts hpos' bytes
    exact (hfailing.trans (hbody hcut)).trans hfailing'.symm

end

/-! ### Envelopes -/

/-- Two envelopes hold the same. The parts whose id is empty have fresh ids, of one supply or the
other. -/
structure Envelope.Agrees (nonces nonces' : Nonces) (e e' : Envelope) : Prop where
  primary : e.primary = e'.primary
  primaryType : e.primaryType = e'.primaryType
  isMultipart : e.isMultipart = e'.isMultipart
  attachments : ∃ (parts : List Part) (ids : List String),
    parts.mapM (fun part => part.headers.contentId?) = some ids ∧
    e.attachments = Unbuffered.attachments nonces parts ids ∧
    e'.attachments = Unbuffered.attachments nonces' parts ids

/-- The supply of fresh ids makes no other difference to the envelope of parts. -/
theorem ofParts_alike (nonces nonces' : Nonces) (parts : List Part) :
    Alike (fun r r' => r.1.Agrees nonces nonces' r'.1)
      ((Envelope.ofParts nonces parts).mapError .attachment)
      ((Envelope.ofParts nonces' parts).mapError .attachment) := by
  cases parts with
  | nil => exact .failed _ _
  | cons primary others =>
    have h := ofParts_follows nonces primary others
    have h' := ofParts_follows nonces' primary others
    simp only [Unbuffered.attachments?, Option.bind_eq_bind, Option.bind_assoc] at h h'
    -- Both follow the ids of the parts, which know no supply.
    refine Alike.of_follows h h' ?_
    intro ids hids
    by_cases hnodup : ids.Nodup
    · rw [if_pos hnodup, if_pos hnodup]
      exact .inr ⟨_, _, rfl, rfl, rfl, rfl, rfl, others, ids, hids, rfl, rfl⟩
    · rw [if_neg hnodup, if_neg hnodup]
      exact .inl ⟨rfl, rfl⟩

/-- **The line buffer only bounds memory.** Read through two buffers, a body has no envelope for either
or envelopes that hold the same, provided that both buffers hold or neither holds each line that would be
a delimiter. -/
theorem read_alike {buffer buffer' maxParts : Nat} {contentType : String} {s : Source}
    (h : ∀ boundary, relatedBoundary? contentType = some boundary →
      HoldSame (Limits.capacity ⟨buffer, maxParts⟩ (Utf8.ofString boundary))
        (Limits.capacity ⟨buffer', maxParts⟩ (Utf8.ofString boundary)) (Utf8.ofString boundary)
        (lines s.bytes))
    (nonces nonces' : Nonces) :
    Alike (fun r r' => r.1.Agrees nonces nonces' r'.1)
      (Envelope.read ⟨buffer, maxParts⟩ contentType nonces s)
      (Envelope.read ⟨buffer', maxParts⟩ contentType nonces' s) := by
  unfold Envelope.read
  cases hboundary : relatedBoundary? contentType with
  | none => exact .succeeded ⟨rfl, rfl, rfl, [], [], rfl, rfl, rfl⟩
  | some boundary =>
    have hparts := @ofSource_alike (Utf8.ofString boundary) ⟨buffer, maxParts⟩ ⟨buffer', maxParts⟩ s rfl
      (h boundary hboundary)
    refine hparts.bind ?_
    rintro parts _ rfl
    exact ofParts_alike nonces nonces' parts

/-- A body with padded delimiters, a line longer than the small buffer, and base64 text that the small
buffer cuts. -/
def invoiceBody : Source :=
  .ofBytes <| Utf8.ofString ("hi\r\n--b   \r\n\r\n<invoice>0123456789</invoice>\r\n--b\t\r\nContent-ID: <>" ++
    "\r\nContent-Transfer-Encoding: base64\r\n\r\naGVsbG8gd29y\r\nbGQ=\r\n--b--  \r\nbye")

theorem read_alike_invoice :
    (∀ boundary, relatedBoundary? "multipart/related; boundary=b" = some boundary →
      HoldSame (Limits.capacity ⟨1, 2⟩ (Utf8.ofString boundary))
        (Limits.capacity ⟨8192, 2⟩ (Utf8.ofString boundary)) (Utf8.ofString boundary)
        (lines invoiceBody.bytes)) ∧
    Alike (fun r r' => r.1.Agrees ⟨0⟩ ⟨7⟩ r'.1)
      (Envelope.read ⟨1, 2⟩ "multipart/related; boundary=b" ⟨0⟩ invoiceBody)
      (Envelope.read ⟨8192, 2⟩ "multipart/related; boundary=b" ⟨7⟩ invoiceBody) ∧
    (Envelope.read ⟨1, 2⟩ "multipart/related; boundary=b" ⟨0⟩ invoiceBody).isOk = true := by
  have hboundary : relatedBoundary? "multipart/related; boundary=b" = some "b" := by decide
  have hsame : ∀ boundary, relatedBoundary? "multipart/related; boundary=b" = some boundary →
      HoldSame (Limits.capacity ⟨1, 2⟩ (Utf8.ofString boundary))
        (Limits.capacity ⟨8192, 2⟩ (Utf8.ofString boundary)) (Utf8.ofString boundary)
        (lines invoiceBody.bytes) := by
    intro boundary hother
    rw [hboundary] at hother
    cases hother
    unfold HoldSame
    rw [invoiceBody, Utf8.ofString_ofList_append]
    decide +kernel
  have hread : (Envelope.read ⟨1, 2⟩ "multipart/related; boundary=b" ⟨0⟩ invoiceBody).isOk = true := by
    rw [invoiceBody, Utf8.ofString_ofList_append]
    decide +kernel
  exact ⟨hsame, @read_alike 1 8192 2 _ invoiceBody hsame ⟨0⟩ ⟨7⟩, hread⟩

/-- A body whose first delimiter has eight spaces behind it. -/
def paddedBody : Source := .ofBytes <| Utf8.ofString "--b        \r\n\r\nroot\r\n--b--"

/-- Without that proviso buffers do make a difference: a delimiter with more padding than the smaller
one holds is lost to it. -/
theorem not_read_alike :
    ¬∀ buffer buffer', 0 < buffer → 0 < buffer' →
      Alike (fun r r' => r.1.Agrees ⟨0⟩ ⟨0⟩ r'.1)
        (Envelope.read ⟨buffer, 8⟩ "multipart/related; boundary=b" ⟨0⟩ paddedBody)
        (Envelope.read ⟨buffer', 8⟩ "multipart/related; boundary=b" ⟨0⟩ paddedBody) := by
  intro h
  have hsmall : (Envelope.read ⟨8, 8⟩ "multipart/related; boundary=b" ⟨0⟩ paddedBody).isOk =
      false := by
    rw [paddedBody, Utf8.ofString_ofList]
    decide +kernel
  have hlarge : (Envelope.read ⟨64, 8⟩ "multipart/related; boundary=b" ⟨0⟩ paddedBody).isOk =
      true := by
    rw [paddedBody, Utf8.ofString_ofList]
    decide +kernel
  have halike := h 8 64 (by decide) (by decide)
  generalize Envelope.read ⟨8, 8⟩ _ _ _ = small at hsmall halike
  generalize Envelope.read ⟨64, 8⟩ _ _ _ = large at hlarge halike
  cases halike with
  | failed e e' => cases hlarge
  | succeeded _ => cases hsmall

end SoapBinding.Multipart
