import SoapBinding.Text.Blank
import SoapBinding.Text.Split

/-!
# Text that is trimmed and split

What trimming leaves as it is, and where text is cut: a text that neither begins nor ends with a blank
character is its own trimming, and a text is cut at the separator behind a part that is free of it.
-/

namespace SoapBinding.Text

/-- Blank characters in front do not count. -/
theorem trimChars_cons_of_isBlank {c : Char} (h : isBlank c = true) (cs : List Char) :
    trimChars (c :: cs) = trimChars cs := by
  rw [trimChars, trimLeft, List.dropWhile_cons, if_pos h]
  rfl

/-- A text that neither begins nor ends with a blank character is not trimmed. -/
theorem trimChars_eq {cs : List Char} (hhead : ∀ c ∈ cs.head?, isBlank c = false)
    (hlast : ∀ c ∈ cs.getLast?, isBlank c = false) : trimChars cs = cs := by
  have hdrop (ds : List Char) (h : ∀ c ∈ ds.head?, isBlank c = false) : ds.dropWhile isBlank = ds := by
    cases ds with
    | nil => rfl
    | cons d ds => rw [List.dropWhile_cons, if_neg (by rw [h d rfl]; decide)]
  rw [trimChars, trimLeft, hdrop cs hhead, trimRight,
    hdrop cs.reverse (by rwa [List.head?_reverse]), List.reverse_reverse]

/-- What stands between two characters that are not blank is not trimmed. -/
theorem trimChars_between {a b : Char} {cs : List Char} (ha : isBlank a = false)
    (hb : isBlank b = false) : trimChars (a :: cs ++ [b]) = a :: cs ++ [b] := by
  apply trimChars_eq
  · intro c hc
    obtain rfl : a = c := Option.some.inj hc
    exact ha
  · intro c hc
    rw [List.getLast?_concat] at hc
    obtain rfl : b = c := Option.some.inj hc
    exact hb

/-- A text without blank characters is not trimmed. -/
theorem trimChars_of_not_blank {cs : List Char} (h : ∀ c ∈ cs, isBlank c = false) :
    trimChars cs = cs :=
  trimChars_eq (fun c hc => h c (List.mem_of_mem_head? hc)) fun c hc => h c (List.mem_of_mem_getLast? hc)

/-- A text without blank characters is its own trimming. -/
theorem trim_of_not_blank {s : String} (h : ∀ c ∈ s.toList, isBlank c = false) : trim s = s := by
  rw [trim, trimChars_of_not_blank h, String.ofList_toList]

/-- Whether a written text holds blank characters can be computed. -/
theorem isBlank_of_any {cs : List Char} {c : Char} (hcs : cs.any isBlank = false) (h : c ∈ cs) : isBlank c = false :=
  Bool.eq_false_iff.2 (List.any_eq_false.1 hcs c h)

/-- Trimmed text does not end with a blank character. -/
theorem isBlank_getLast?_trimChars (cs : List Char) :
    ∀ c ∈ (trimChars cs).getLast?, isBlank c = false := by
  intro c hc
  rw [trimChars, trimRight, List.getLast?_reverse] at hc
  have := List.head?_dropWhile_not isBlank (trimLeft cs).reverse
  rw [hc] at this
  simpa using this

/-- Trimmed text does not begin with a blank character. -/
theorem isBlank_head?_trimChars (cs : List Char) : ∀ c ∈ (trimChars cs).head?, isBlank c = false := by
  intro c hc
  -- What is left at the end is a front of what is left in front.
  have hprefix : trimChars cs <+: trimLeft cs := by
    rw [trimChars, trimRight, ← List.reverse_suffix, List.reverse_reverse]
    exact List.dropWhile_suffix isBlank
  obtain ⟨back, hback⟩ := hprefix
  have hleft : (trimLeft cs).head? = some c := by
    rw [← hback, List.head?_append, hc]
    rfl
  have := List.head?_dropWhile_not isBlank cs
  rw [show cs.dropWhile isBlank = trimLeft cs from rfl, hleft] at this
  simpa using this

/-- Trimmed text is its own trimming. -/
theorem trim_trim (s : String) : trim (trim s) = trim s := by
  rw [trim, trim, String.toList_ofList,
    trimChars_eq (isBlank_head?_trimChars s.toList) (isBlank_getLast?_trimChars s.toList)]

/-- Text that neither begins nor ends with a blank character. -/
def IsTrimmed (cs : List Char) : Prop :=
  (∀ c ∈ cs.head?, isBlank c = false) ∧ ∀ c ∈ cs.getLast?, isBlank c = false

/-- Trimming takes the blank characters off at both ends, and no others. -/
theorem trimChars_eq_iff {cs core : List Char} :
    trimChars cs = core ↔ IsTrimmed core ∧ ∃ front back, cs = front ++ core ++ back ∧
      (∀ c ∈ front, isBlank c = true) ∧ ∀ c ∈ back, isBlank c = true := by
  constructor
  · rintro rfl
    refine ⟨⟨isBlank_head?_trimChars cs, isBlank_getLast?_trimChars cs⟩, cs.takeWhile isBlank,
      ((trimLeft cs).reverse.takeWhile isBlank).reverse, ?_, List.all_eq_true.1 List.all_takeWhile, ?_⟩
    · rw [trimChars, trimRight, List.append_assoc, ← List.reverse_append, List.takeWhile_append_dropWhile,
        List.reverse_reverse]
      exact List.takeWhile_append_dropWhile.symm
    · intro c hc
      exact List.all_eq_true.1 List.all_takeWhile c (List.mem_reverse.1 hc)
  · rintro ⟨hcore, front, back, rfl, hfront, hback⟩
    have hback' : ∀ c ∈ back.reverse, isBlank c = true := fun c hc => hback c (List.mem_reverse.1 hc)
    rw [List.append_assoc, trimChars, trimLeft, List.dropWhile_append_of_pos hfront]
    cases core with
    | nil =>
      have hdrop : (back ++ []).dropWhile isBlank = [] := List.dropWhile_append_of_pos hback
      rw [List.nil_append, ← List.append_nil back, hdrop]
      rfl
    | cons c core =>
      rw [List.cons_append, List.dropWhile_cons, if_neg (by rw [hcore.1 c rfl]; decide), trimRight, ← List.cons_append,
        List.reverse_append, List.dropWhile_append_of_pos hback']
      have := trimChars_eq hcore.1 hcore.2
      rwa [trimChars, trimLeft, List.dropWhile_cons, if_neg (by rw [hcore.1 c rfl]; decide)] at this

/-- A text with a separator in it is cut. -/
theorem exists_splitFirst? {separator : Char} {cs : List Char} (h : separator ∈ cs) :
    ∃ front after, splitFirst? separator cs = some (front, after) := by
  unfold splitFirst?
  split
  · next hnil =>
    have hall := List.takeWhile_append_dropWhile (p := (· != separator)) (l := cs)
    rw [hnil, List.append_nil] at hall
    rw [← hall] at h
    simpa using List.all_eq_true.1 List.all_takeWhile separator h
  · exact ⟨_, _, rfl⟩

/-- A text is cut at the first separator. -/
theorem splitFirst?_append {separator : Char} {front : List Char} (h : separator ∉ front)
    (after : List Char) :
    splitFirst? separator (front ++ separator :: after) = some (front, after) := by
  have hfront : ∀ c ∈ front, (c != separator) = true := by
    intro c hc
    rw [bne_iff_ne]
    rintro rfl
    exact h hc
  rw [splitFirst?, List.dropWhile_append_of_pos hfront, List.takeWhile_append_of_pos hfront,
    List.dropWhile_cons, List.takeWhile_cons, if_neg (by simp), if_neg (by simp), List.append_nil]

end SoapBinding.Text
