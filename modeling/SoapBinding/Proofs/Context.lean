import SoapBinding.Context

/-!
# Contexts that grow

Registering an attachment takes nothing away from a context: what it resolved before it still resolves
(`Context.Extends`), and now it resolves the attachment's id as well (`extends_add`).
-/

namespace SoapBinding.Context

/-- A context that knows all attachments of another. -/
def Knows (later earlier : Context) : Prop :=
  ∀ id b, earlier.attachment? id = some b → later.attachment? id = some b

/-- A context with the settings of another that knows all attachments of that one. -/
structure Extends (later earlier : Context) : Prop where
  multipart : later.multipart = earlier.multipart
  reference : later.reference = earlier.reference
  chunkSize : later.chunkSize = earlier.chunkSize
  knows : later.Knows earlier

/-- A context whose inline payloads are encoded in chunks of whole quanta. -/
structure HasWholeChunks (c : Context) : Prop where
  pos : 0 < c.chunkSize
  whole : c.chunkSize % 3 = 0

/-- Every context has been built from settings. -/
theorem hasWholeChunks_ofSettings (reference : Reference) (chunkSize : Nat) :
    (ofSettings reference chunkSize).HasWholeChunks := by
  refine ⟨?_, ?_⟩ <;> simp only [ofSettings] <;> omega

variable {c c' c'' : Context} {b : Binary}

theorem Knows.refl (c : Context) : c.Knows c := fun _ _ h => h

theorem Knows.trans (h : c''.Knows c') (h' : c'.Knows c) : c''.Knows c :=
  fun id b hb => h id b (h' id b hb)

theorem Extends.refl (c : Context) : c.Extends c := ⟨rfl, rfl, rfl, .refl c⟩

theorem Extends.trans (h : c''.Extends c') (h' : c'.Extends c) : c''.Extends c :=
  ⟨h.multipart.trans h'.multipart, h.reference.trans h'.reference, h.chunkSize.trans h'.chunkSize,
    h.knows.trans h'.knows⟩

theorem Extends.hasWholeChunks (h : c'.Extends c) (hc : c.HasWholeChunks) : c'.HasWholeChunks :=
  ⟨h.chunkSize ▸ hc.pos, h.chunkSize ▸ hc.whole⟩

/-- A known attachment is resolved. -/
theorem resolve_of_attachment? {id : String} (h : c.attachment? id = some b) : c.resolve id = .ok b := by
  rw [resolve, h]

/-- A registered attachment is known, and so is every one from before. -/
theorem extends_add (h : c.add b = .ok c') : c'.Extends c ∧ c'.attachment? b.id = some b := by
  unfold add at h
  split at h
  · next other hother =>
    split at h
    · next heq =>
      subst heq
      cases h
      exact ⟨.refl c, hother⟩
    · cases h
  · next hnone =>
    cases h
    have hlookup (id : String) :
        attachment? { c with
          attachments := c.attachments ++ [b]
          index := c.index.insert b.id c.attachments.length } id =
        if b.id = id then some b
        else c.index[id]?.bind fun position => (c.attachments ++ [b])[position]? := by
      unfold attachment?
      dsimp only
      rw [Std.TreeMap.getElem?_insert]
      by_cases heq : b.id = id
      · rw [if_pos (by rw [heq]; exact Std.ReflCmp.compare_self), if_pos heq]
        simp
      · rw [if_neg (fun h => heq (Std.LawfulEqCmp.eq_of_compare h)), if_neg heq]
        rfl
    refine ⟨⟨rfl, rfl, rfl, ?_⟩, by rw [hlookup, if_pos rfl]⟩
    intro id other hother
    have hne : b.id ≠ id := by
      rintro rfl
      rw [hnone] at hother
      cases hother
    unfold attachment? at hother
    obtain ⟨position, hposition, hget⟩ := Option.bind_eq_some_iff.1 hother
    rw [hlookup, if_neg hne, hposition]
    show (c.attachments ++ [b])[position]? = some other
    rw [List.getElem?_append_left (List.getElem?_eq_some_iff.1 hget).1]
    exact hget

end SoapBinding.Context
