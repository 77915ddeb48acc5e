/-!
# Splitting text

Cutting a text at the first place where a separator stands.
-/

namespace SoapBinding.Text

/-- What stands in front of the first separator, and what stands behind it. -/
def splitFirst? (separator : Char) (cs : List Char) : Option (List Char × List Char) :=
  match cs.dropWhile (· != separator) with
  | [] => none
  | _ :: after => some (cs.takeWhile (· != separator), after)

/-- Both parts and the separator make up the text, and the first part is free of separators. -/
theorem eq_of_splitFirst? {separator : Char} {cs front after : List Char}
    (h : splitFirst? separator cs = some (front, after)) :
    cs = front ++ separator :: after ∧ separator ∉ front := by
  induction cs generalizing front after with
  | nil => simp [splitFirst?] at h
  | cons c cs ih =>
    by_cases hc : c = separator
    · subst hc
      simp only [splitFirst?, List.dropWhile_cons, List.takeWhile_cons, bne_self_eq_false,
        Bool.false_eq_true, if_false, Option.some.injEq, Prod.mk.injEq] at h
      obtain ⟨rfl, rfl⟩ := h
      simp
    · have hne : (c != separator) = true := by simpa using hc
      simp only [splitFirst?, List.dropWhile_cons, List.takeWhile_cons, hne, if_true] at h
      split at h
      · cases h
      · next d rest hrest =>
        simp only [Option.some.injEq, Prod.mk.injEq] at h
        obtain ⟨rfl, rfl⟩ := h
        have hsplit : splitFirst? separator cs = some (cs.takeWhile (· != separator), rest) := by
          simp only [splitFirst?, hrest]
        obtain ⟨hcs, hmem⟩ := ih hsplit
        refine ⟨by rw [List.cons_append, ← hcs], ?_⟩
        simp only [List.mem_cons, not_or]
        exact ⟨fun h => hc h.symm, hmem⟩

end SoapBinding.Text
