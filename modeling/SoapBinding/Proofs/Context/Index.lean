import SoapBinding.Proofs.Context

/-!
# The index of a context

A context keeps its attachments twice: as a list, and as an index from ids to positions in the list. The two agree
(`Context.IsIndexed`) in a fresh context, and registering an attachment keeps them in step. Ids are then distinct, an
attachment is known by its id exactly when it is among the list, and registering meets one of three cases: the
content is there, another content has its id, or the id is new. So what registering many attachments in a row makes
of the list is the list with those behind it that it does not hold yet, without repetitions:

    attachments_addAll : c.addAll bs = .ok () c' →
      c'.attachments = c.attachments ++ (bs.removeAll c.attachments).eraseDups
-/

namespace SoapBinding.Context

/-- The index tells the position of each attachment under its id, and nothing else. -/
def IsIndexed (c : Context) : Prop :=
  ∀ id position, c.index[id]? = some position ↔ (c.attachments[position]?).map Binary.id = some id

/-- The context with an attachment of a new id behind the others. -/
def push (c : Context) (b : Binary) : Context :=
  { c with attachments := c.attachments ++ [b], index := c.index.insert b.id c.attachments.length }

variable {c c' : Context} {b other : Binary} {bs : List Binary} {id : String}

/-! ### Looking up -/

/-- What lies at a position of the list is what its id leads to. -/
theorem IsIndexed.index_of_getElem? (hc : c.IsIndexed) {position : Nat} (h : c.attachments[position]? = some b) :
    c.index[b.id]? = some position :=
  (hc b.id position).2 (by rw [h]; rfl)

/-- Positions that the index tells lie in the list. -/
theorem IsIndexed.lt_length (hc : c.IsIndexed) {position : Nat} (h : c.index[id]? = some position) :
    position < c.attachments.length := by
  obtain ⟨b, hb, -⟩ := Option.map_eq_some_iff.1 ((hc id position).1 h)
  exact (List.getElem?_eq_some_iff.1 hb).1

/-- What an id leads to is the attachment of that id. -/
theorem IsIndexed.attachment?_iff (hc : c.IsIndexed) :
    c.attachment? id = some b ↔ b ∈ c.attachments ∧ b.id = id := by
  constructor
  · intro h
    obtain ⟨position, hposition, hget⟩ := Option.bind_eq_some_iff.1 h
    have hid := (hc id position).1 hposition
    rw [hget] at hid
    exact ⟨List.mem_of_getElem? hget, by simpa using hid⟩
  · rintro ⟨hmem, rfl⟩
    obtain ⟨position, hget⟩ := List.mem_iff_getElem?.1 hmem
    exact Option.bind_eq_some_iff.2 ⟨position, hc.index_of_getElem? hget, hget⟩

/-- Two attachments of one id are one. -/
theorem IsIndexed.eq_of_id (hc : c.IsIndexed) (hb : b ∈ c.attachments) (hother : other ∈ c.attachments)
    (hid : b.id = other.id) : b = other :=
  Option.some_inj.1 ((hc.attachment?_iff.2 ⟨hb, hid⟩).symm.trans (hc.attachment?_iff.2 ⟨hother, rfl⟩))

/-- An id leads nowhere where no attachment has it. -/
theorem IsIndexed.attachment?_eq_none (hc : c.IsIndexed) :
    c.attachment? id = none ↔ ∀ b ∈ c.attachments, b.id ≠ id := by
  rw [Option.eq_none_iff_forall_ne_some]
  exact ⟨fun h b hb hid => h b (hc.attachment?_iff.2 ⟨hb, hid⟩), fun h b hb =>
    h b (hc.attachment?_iff.1 hb).1 (hc.attachment?_iff.1 hb).2⟩

/-- No id is there twice. -/
theorem IsIndexed.nodup (hc : c.IsIndexed) : (c.attachments.map (·.id)).Nodup := by
  rw [List.Nodup, List.pairwise_iff_getElem]
  intro i j hi hj hlt heq
  rw [List.length_map] at hi hj
  rw [List.getElem_map, List.getElem_map] at heq
  -- One id leads to one position.
  have hfirst := hc.index_of_getElem? (List.getElem?_eq_getElem hi)
  have hsecond := hc.index_of_getElem? (List.getElem?_eq_getElem hj)
  rw [heq, hsecond] at hfirst
  have : j = i := Option.some_inj.1 hfirst
  omega

/-! ### Registering -/

theorem isIndexed_empty (hattachments : c.attachments = []) (hindex : c.index = ∅) : c.IsIndexed := by
  intro id position
  rw [hattachments, hindex]
  simp

/-- A fresh context is indexed. -/
theorem isIndexed_ofSettings (reference : Reference) (chunkSize : Nat) : (ofSettings reference chunkSize).IsIndexed :=
  isIndexed_empty rfl rfl

/-- A content that is there already is not registered again. -/
theorem IsIndexed.add_of_mem (hc : c.IsIndexed) (h : b ∈ c.attachments) : c.add b = .ok c := by
  rw [add, hc.attachment?_iff.2 ⟨h, rfl⟩]
  exact if_pos rfl

/-- Another content under an id in use is refused. -/
theorem IsIndexed.add_of_used (hc : c.IsIndexed) (h : other ∈ c.attachments) (hid : other.id = b.id)
    (hne : other ≠ b) : c.add b = .error (.attachment (.duplicateId b.id)) := by
  rw [add, hc.attachment?_iff.2 ⟨h, hid⟩]
  exact if_neg hne

/-- A content of a new id comes last. -/
theorem IsIndexed.add_of_new (hc : c.IsIndexed) (h : ∀ other ∈ c.attachments, other.id ≠ b.id) :
    c.add b = .ok (c.push b) := by
  rw [add, hc.attachment?_eq_none.2 h]
  rfl

/-- Registering succeeds where the content is there already, or its id is new. -/
theorem IsIndexed.add_ok (hc : c.IsIndexed) (h : c.add b = .ok c') :
    (b ∈ c.attachments ∧ c' = c) ∨ (∀ other ∈ c.attachments, other.id ≠ b.id) ∧ c' = c.push b := by
  by_cases hnew : ∀ other ∈ c.attachments, other.id ≠ b.id
  · rw [hc.add_of_new hnew] at h
    cases h
    exact .inr ⟨hnew, rfl⟩
  · obtain ⟨other, hmem, hid⟩ : ∃ other ∈ c.attachments, other.id = b.id := by
      simpa using hnew
    by_cases heq : other = b
    · rw [hc.add_of_mem (heq ▸ hmem)] at h
      cases h
      exact .inl ⟨heq ▸ hmem, rfl⟩
    · rw [hc.add_of_used hmem hid heq] at h
      cases h

/-- A new id gets the position behind all others. -/
theorem IsIndexed.push (hc : c.IsIndexed) (h : ∀ other ∈ c.attachments, other.id ≠ b.id) : (c.push b).IsIndexed := by
  intro id position
  dsimp only [Context.push]
  rw [Std.TreeMap.getElem?_insert]
  by_cases hid : b.id = id
  · subst hid
    rw [if_pos Std.ReflCmp.compare_self, List.getElem?_append]
    split
    · next hlt =>
      -- No old attachment has the new id.
      have hother := h _ (List.getElem_mem hlt)
      simp [List.getElem?_eq_getElem hlt, hother, Nat.ne_of_gt hlt]
    · next hge =>
      rcases Nat.lt_or_eq_of_le (Nat.le_of_not_lt hge) with hgt | heq
      · simp [Nat.ne_of_lt hgt, Nat.sub_ne_zero_of_lt hgt]
      · simp [heq]
  · rw [if_neg (fun heq => hid (Std.LawfulEqCmp.eq_of_compare heq)), List.getElem?_append]
    split
    · exact hc id position
    · next hge =>
      -- Behind the old attachments there is the new one, which has another id.
      have hnone : c.index[id]? ≠ some position := fun heq => hge (hc.lt_length heq)
      simp only [hnone, false_iff]
      cases position - c.attachments.length <;> simp [hid]

theorem IsIndexed.add (hc : c.IsIndexed) (h : c.add b = .ok c') : c'.IsIndexed := by
  obtain ⟨-, rfl⟩ | ⟨hnew, rfl⟩ := hc.add_ok h
  · exact hc
  · exact hc.push hnew

/-! ### Registering in a row -/

/-- Registering one content in front of others. -/
theorem addAll_cons : c.addAll (b :: bs) = .ok () c' ↔ ∃ middle, c.add b = .ok middle ∧ middle.addAll bs = .ok () c' := by
  rw [addAll]
  cases c.add b <;> simp

/-- Registering some contents and then others. -/
theorem addAll_append {front back : List Binary} :
    c.addAll (front ++ back) = .ok () c' ↔ ∃ middle, c.addAll front = .ok () middle ∧ middle.addAll back = .ok () c' := by
  induction front generalizing c with
  | nil => simp [addAll]
  | cons b front ih =>
    simp only [List.cons_append, addAll_cons, ih]
    grind

/-- Registering contents keeps the settings. -/
theorem extends_addAll (h : c.addAll bs = .ok () c') : c'.Extends c := by
  induction bs generalizing c with
  | nil =>
    cases h
    exact .refl _
  | cons b bs ih =>
    obtain ⟨middle, hadd, hrest⟩ := addAll_cons.1 h
    exact (ih hrest).trans (extends_add hadd).1

theorem IsIndexed.addAll (hc : c.IsIndexed) (h : c.addAll bs = .ok () c') : c'.IsIndexed := by
  induction bs generalizing c with
  | nil =>
    cases h
    exact hc
  | cons b bs ih =>
    obtain ⟨middle, hadd, hrest⟩ := addAll_cons.1 h
    exact ih (hc.add hadd) hrest

/-- **Registered contents come behind the attachments from before**, in order, without repetitions and without those that
are there already. -/
theorem IsIndexed.attachments_addAll (hc : c.IsIndexed) (h : c.addAll bs = .ok () c') :
    c'.attachments = c.attachments ++ (bs.removeAll c.attachments).eraseDups := by
  induction bs generalizing c with
  | nil =>
    cases h
    simp [List.removeAll]
  | cons b bs ih =>
    obtain ⟨middle, hadd, hrest⟩ := addAll_cons.1 h
    rw [ih (hc.add hadd) hrest]
    obtain ⟨hmem, rfl⟩ | ⟨hnew, rfl⟩ := hc.add_ok hadd
    · simp [List.removeAll, hmem]
    · have hmem : b ∉ c.attachments := fun hb => hnew b hb rfl
      have hremove : bs.removeAll (c.attachments ++ [b]) =
          (bs.removeAll c.attachments).filter (fun other => !other == b) := by
        simp only [List.removeAll, List.filter_filter]
        congr 1
        funext other
        by_cases heq : other = b <;> simp [heq]
      show c.attachments ++ [b] ++ (bs.removeAll (c.attachments ++ [b])).eraseDups = _
      rw [hremove]
      simp [List.removeAll, hmem, List.eraseDups_cons]

/-- Contents of new and distinct ids are all registered, behind the attachments from before. -/
theorem IsIndexed.addAll_of_new (hc : c.IsIndexed) (hnew : ∀ b ∈ bs, ∀ other ∈ c.attachments, other.id ≠ b.id)
    (hdistinct : (bs.map Binary.id).Nodup) :
    ∃ c', c.addAll bs = .ok () c' ∧ c'.attachments = c.attachments ++ bs := by
  induction bs generalizing c with
  | nil => exact ⟨c, rfl, (List.append_nil _).symm⟩
  | cons b bs ih =>
    rw [List.map_cons, List.nodup_cons] at hdistinct
    have hfirst := hnew b List.mem_cons_self
    have hrest : ∀ other ∈ bs, ∀ old ∈ (c.push b).attachments, old.id ≠ other.id := by
      intro other hother old hold
      rcases List.mem_append.1 hold with hbefore | hlast
      · exact hnew other (List.mem_cons_of_mem b hother) old hbefore
      · rw [List.mem_singleton.1 hlast]
        exact fun hid => hdistinct.1 (hid ▸ List.mem_map_of_mem hother)
    obtain ⟨c', hadd, hattachments⟩ := ih (hc.push hfirst) hrest hdistinct.2
    refine ⟨c', addAll_cons.2 ⟨c.push b, hc.add_of_new hfirst, hadd⟩, ?_⟩
    rw [hattachments]
    exact List.append_assoc ..

/-- Registered contents are among the attachments. -/
theorem IsIndexed.mem_attachments_addAll (hc : c.IsIndexed) (h : c.addAll bs = .ok () c') :
    b ∈ c'.attachments ↔ b ∈ c.attachments ∨ b ∈ bs := by
  rw [hc.attachments_addAll h]
  by_cases hb : b ∈ c.attachments <;> simp [List.removeAll, hb]

end SoapBinding.Context
