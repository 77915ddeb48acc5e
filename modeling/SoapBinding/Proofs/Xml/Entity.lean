import SoapBinding.Proofs.Text.Utf8
import SoapBinding.Xml.Element

/-!
# Escaped text

Replacing the entities in an escaped text gives the text back (`unescaped_escape`), and an escaped text
holds none of the characters that markup is recognised by.
-/

namespace SoapBinding.Xml

/-- The entity in front of a text is replaced. -/
theorem unescape?_entity {name rest : List Char} {c : Char} (hname : name.all inEntity = true)
    (hentity : entity? name = some c) :
    unescape? ('&' :: (name ++ ';' :: rest)) = (unescape? rest).map (c :: ·) := by
  have htake : (name ++ ';' :: rest).takeWhile inEntity = name := by
    rw [List.takeWhile_append_of_pos (List.all_eq_true.1 hname), List.takeWhile_cons, if_neg (by decide), List.append_nil]
  have hdrop : (name ++ ';' :: rest).dropWhile inEntity = ';' :: rest := by
    rw [List.dropWhile_append_of_pos (List.all_eq_true.1 hname), List.dropWhile_cons, if_neg (by decide)]
  rw [unescape?, if_pos rfl]
  split
  · next rest' heq =>
    rw [hdrop] at heq
    cases heq
    rw [htake, hentity]
    rfl
  · next hne => exact absurd hdrop (hne rest)

/-- An escaped character in front of a text is replaced. -/
theorem unescape?_escapedChar (c : Char) (rest : List Char) :
    unescape? (escapedChar c ++ rest) = (unescape? rest).map (c :: ·) := by
  unfold escapedChar
  split
  · exact @unescape?_entity ['l', 't'] rest '<' (by decide) (by decide)
  · exact @unescape?_entity ['g', 't'] rest '>' (by decide) (by decide)
  · exact @unescape?_entity ['a', 'm', 'p'] rest '&' (by decide) (by decide)
  · exact @unescape?_entity ['a', 'p', 'o', 's'] rest '\'' (by decide) (by decide)
  · exact @unescape?_entity ['q', 'u', 'o', 't'] rest '"' (by decide) (by decide)
  · next hamp _ _ => rw [List.singleton_append, unescape?, if_neg hamp]

theorem unescape?_flatMap (cs : List Char) : unescape? (cs.flatMap escapedChar) = some cs := by
  induction cs with
  | nil => rw [List.flatMap_nil, unescape?]
  | cons c cs ih => rw [List.flatMap_cons, unescape?_escapedChar, ih, Option.map_some]

theorem toList_escape (s : String) : (escape s).toList = s.toList.flatMap escapedChar := by
  rw [escape, String.toList_ofList]

/-- **An escaped text stands for the text.** -/
theorem unescaped_escape (s : String) : Element.unescaped (Utf8.ofString (escape s)) = .ok s := by
  unfold Element.unescaped Element.text
  rw [Utf8.toString?_ofString]
  dsimp only [Bind.bind, Except.bind]
  rw [toList_escape, unescape?_flatMap]
  show Except.ok (String.ofList s.toList) = _
  rw [String.ofList_toList]

/-- No two texts are escaped alike. -/
theorem escape_inj {s t : String} (h : escape s = escape t) : s = t := by
  have hs := unescaped_escape s
  rw [h, unescaped_escape] at hs
  exact (Except.ok.inj hs).symm

/-! ### What an escaped text does not hold -/

/-- The characters that escaped text is free of. -/
def isMarkup (c : Char) : Bool := c == '<' || c == '>' || c == '\'' || c == '"'

theorem isMarkup_of_mem {cs : List Char} {c : Char} (hcs : cs.any isMarkup = false) (h : c ∈ cs) : isMarkup c = false :=
  Bool.eq_false_iff.2 (List.any_eq_false.1 hcs c h)

theorem isMarkup_of_mem_escapedChar {c d : Char} (h : d ∈ escapedChar c) : isMarkup d = false := by
  unfold escapedChar at h
  split at h
  · exact @isMarkup_of_mem "&lt;".toList _ (by decide) h
  · exact @isMarkup_of_mem "&gt;".toList _ (by decide) h
  · exact @isMarkup_of_mem "&amp;".toList _ (by decide) h
  · exact @isMarkup_of_mem "&apos;".toList _ (by decide) h
  · exact @isMarkup_of_mem "&quot;".toList _ (by decide) h
  · next hlt hgt _ hapos hquot =>
    rw [List.mem_singleton.1 h]
    simp only [isMarkup, Bool.or_eq_false_iff, beq_eq_false_iff_ne]
    exact ⟨⟨⟨hlt, hgt⟩, hapos⟩, hquot⟩

theorem isMarkup_of_mem_escape {s : String} {c : Char} (h : c ∈ (escape s).toList) :
    isMarkup c = false := by
  rw [toList_escape] at h
  obtain ⟨d, -, hd⟩ := List.mem_flatMap.1 h
  exact isMarkup_of_mem_escapedChar hd

/-- No byte of an escaped text is that of a character of markup. -/
theorem not_mem_ofString_escape (n : Nat) (h : n < 0x80) (hn : isMarkup (Char.ofNat n) = true)
    (s : String) : UInt8.ofNat n ∉ Utf8.ofString (escape s) := by
  intro hmem
  rw [isMarkup_of_mem_escape ((Utf8.mem_encode_iff h _).1 hmem)] at hn
  cases hn

theorem escape_append (s t : String) : escape (s ++ t) = escape s ++ escape t := by
  rw [escape, escape, escape, String.toList_append, List.flatMap_append, String.ofList_append]

/-- A text without the characters of markup and without `&` is written as it is. -/
theorem escape_eq {s : String} (h : ∀ c ∈ s.toList, isMarkup c = false ∧ c ≠ '&') : escape s = s := by
  have hchar : ∀ cs : List Char, (∀ c ∈ cs, isMarkup c = false ∧ c ≠ '&') →
      cs.flatMap escapedChar = cs := by
    intro cs hcs
    induction cs with
    | nil => rfl
    | cons c cs ih =>
      obtain ⟨hmarkup, hamp⟩ := hcs c List.mem_cons_self
      simp only [isMarkup, Bool.or_eq_false_iff, beq_eq_false_iff_ne] at hmarkup
      obtain ⟨⟨⟨hlt, hgt⟩, hapos⟩, hquot⟩ := hmarkup
      have hself : escapedChar c = [c] := by
        unfold escapedChar
        split <;> first | contradiction | rfl
      rw [List.flatMap_cons, hself, ih fun d hd => hcs d (List.mem_cons_of_mem c hd)]
      rfl
  rw [escape, hchar _ h, String.ofList_toList]

end SoapBinding.Xml
