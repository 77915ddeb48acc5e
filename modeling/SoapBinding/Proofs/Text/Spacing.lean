import SoapBinding.Proofs.Text.Case
import SoapBinding.Proofs.Text.Trim

/-!
# Texts alike up to their spacing

`squeeze` makes one space of each run of blank characters. Two texts that differ in how long one run is (`Respaced`) are
squeezed to one text, and so are their trimmings. A text without blank characters is alike to no other.
-/

namespace SoapBinding.Text

/-- Whether no character is blank. -/
def IsInk (cs : List Char) : Prop := ∀ c ∈ cs, isBlank c = false

/-- Whether every character is blank. -/
def IsGap (cs : List Char) : Prop := ∀ c ∈ cs, isBlank c = true

instance (cs : List Char) : Decidable (IsInk cs) :=
  decidable_of_iff (cs.all (!isBlank ·)) (by simp [IsInk])

instance (cs : List Char) : Decidable (IsGap cs) := decidable_of_iff (cs.all isBlank) List.all_eq_true

instance (cs : List Char) : Decidable (IsTrimmed cs) :=
  decidable_of_iff (cs.head?.all (!isBlank ·) && cs.getLast?.all (!isBlank ·)) (by simp [IsTrimmed, Option.all_eq_true])

theorem isGap_nil : IsGap [] := List.forall_mem_nil _

theorem IsGap.append {cs ds : List Char} (h : IsGap cs) (h' : IsGap ds) : IsGap (cs ++ ds) := List.forall_mem_append.2 ⟨h, h'⟩

/-! ### Squeezing -/

/-- Characters with one space for each run of blank ones. A run that has begun in front of them leaves no space more. -/
def squeezeFrom (afterBlank : Bool) : List Char → List Char
  | [] => []
  | c :: cs =>
    if isBlank c then (if afterBlank then squeezeFrom true cs else ' ' :: squeezeFrom true cs)
    else c :: squeezeFrom false cs

/-- A text with one space for each run of blank characters. -/
def squeeze (s : String) : String := String.ofList (squeezeFrom false s.toList)

example : squeeze " a \t\u00a0 b" = " a b" := by decide +kernel

variable {cs ds front gap gap' back : List Char}

/-- A run leaves one space, or none behind another blank character. -/
theorem squeezeFrom_gap (hne : gap ≠ []) (h : IsGap gap) (afterBlank : Bool) (back : List Char) :
    squeezeFrom afterBlank (gap ++ back) = (if afterBlank then [] else [' ']) ++ squeezeFrom true back := by
  induction gap generalizing afterBlank with
  | nil => exact absurd rfl hne
  | cons c gap ih =>
    obtain ⟨hc, hgap⟩ := List.forall_mem_cons.1 h
    have hrest : squeezeFrom true (gap ++ back) = squeezeFrom true back := by
      cases gap with
      | nil => rfl
      | cons d gap => exact ih (List.cons_ne_nil d gap) hgap true
    rw [List.cons_append, squeezeFrom, if_pos hc, hrest]
    cases afterBlank <;> rfl

/-- Ink is not squeezed. -/
theorem squeezeFrom_of_isInk (h : IsInk cs) : squeezeFrom false cs = cs := by
  induction cs with
  | nil => rfl
  | cons c cs ih =>
    obtain ⟨hc, hcs⟩ := List.forall_mem_cons.1 h
    rw [squeezeFrom, if_neg (by rw [hc]; decide), ih hcs]

/-- Only ink is squeezed to ink. -/
theorem isInk_of_squeezeFrom (h : IsInk (squeezeFrom false cs)) : IsInk cs := by
  induction cs with
  | nil => exact h
  | cons c cs ih =>
    rw [squeezeFrom] at h
    by_cases hc : isBlank c = true
    · rw [if_pos hc, if_neg (by decide)] at h
      exact absurd (h ' ' List.mem_cons_self) (by decide)
    · rw [if_neg hc] at h
      obtain ⟨hc, hcs⟩ := List.forall_mem_cons.1 h
      exact List.forall_mem_cons.2 ⟨hc, ih hcs⟩

/-- Ink is alike to no other text. -/
theorem eq_of_squeeze {s t : String} (hs : IsInk s.toList) (h : squeeze s = squeeze t) : s = t := by
  have heq : s.toList = squeezeFrom false t.toList := by
    have htext := congrArg String.toList h
    rwa [squeeze, squeeze, String.toList_ofList, String.toList_ofList, squeezeFrom_of_isInk hs] at htext
  have ht : IsInk t.toList := isInk_of_squeezeFrom (heq ▸ hs)
  rw [← String.toList_inj, heq, squeezeFrom_of_isInk ht]

/-- What is ink in small letters is ink. -/
theorem isInk_of_lowerAscii {s : String} (h : IsInk (lowerAscii s).toList) : IsInk s.toList := by
  intro c hc
  rw [← isBlank_toLower]
  apply h
  rw [lowerAscii, String.toList_ofList]
  exact List.mem_map_of_mem hc

/-- Texts that are alike are the same word or none. -/
theorem lowerAscii_eq_iff_of_squeeze {s t word : String} (hword : IsInk word.toList) (h : squeeze s = squeeze t) :
    lowerAscii s = word ↔ lowerAscii t = word := by
  constructor
  · rintro rfl
    rw [eq_of_squeeze (isInk_of_lowerAscii hword) h]
  · rintro rfl
    rw [eq_of_squeeze (isInk_of_lowerAscii hword) h.symm]

/-! ### Longer and shorter runs -/

/-- Texts that differ in how long one run of blank characters is. -/
def Respaced (cs ds : List Char) : Prop :=
  ∃ front gap gap' back, (cs = front ++ gap ++ back ∧ ds = front ++ gap' ++ back) ∧
    (gap ≠ [] ∧ IsGap gap) ∧ gap' ≠ [] ∧ IsGap gap'

/-- They are squeezed to one text. -/
theorem Respaced.squeezeFrom_eq (h : Respaced cs ds) (afterBlank : Bool) :
    squeezeFrom afterBlank cs = squeezeFrom afterBlank ds := by
  obtain ⟨front, gap, gap', back, ⟨rfl, rfl⟩, ⟨hne, hgap⟩, hne', hgap'⟩ := h
  rw [List.append_assoc, List.append_assoc]
  induction front generalizing afterBlank with
  | nil =>
    rw [List.nil_append, List.nil_append, squeezeFrom_gap hne hgap, squeezeFrom_gap hne' hgap']
  | cons c front ih =>
    rw [List.cons_append, List.cons_append, squeezeFrom, squeezeFrom, ih, ih]

theorem Respaced.squeeze_eq (h : Respaced cs ds) : squeeze (String.ofList cs) = squeeze (String.ofList ds) := by
  rw [squeeze, squeeze, String.toList_ofList, String.toList_ofList, h.squeezeFrom_eq]

/-! ### Trimming -/

/-- A text is its trimming between blank characters. -/
theorem exists_trimChars (cs : List Char) : ∃ front back, cs = front ++ trimChars cs ++ back ∧ IsGap front ∧ IsGap back :=
  (trimChars_eq_iff.1 rfl).2

/-- Blank characters at either end do not count. -/
theorem trimChars_gaps (hfront : IsGap front) (hback : IsGap back) (cs : List Char) :
    trimChars (front ++ cs ++ back) = trimChars cs := by
  obtain ⟨hcore, front', back', hcs, hfront', hback'⟩ := trimChars_eq_iff.1 (rfl : trimChars cs = trimChars cs)
  refine trimChars_eq_iff.2 ⟨hcore, front ++ front', back' ++ back, ?_, hfront.append hfront', IsGap.append hback' hback⟩
  rw [congrArg (fun inside => front ++ inside ++ back) hcs]
  simp only [List.append_assoc]

theorem trimChars_gap_append (h : IsGap front) (cs : List Char) : trimChars (front ++ cs) = trimChars cs := by
  have := trimChars_gaps h isGap_nil cs
  rwa [List.append_nil] at this

theorem trimChars_append_gap (h : IsGap back) (cs : List Char) : trimChars (cs ++ back) = trimChars cs := by
  have := trimChars_gaps isGap_nil h cs
  rwa [List.nil_append] at this

theorem trimChars_eq_nil_iff : trimChars cs = [] ↔ IsGap cs := by
  constructor
  · intro h
    obtain ⟨front, back, hcs, hfront, hback⟩ := exists_trimChars cs
    rw [hcs, h, List.append_nil]
    exact IsGap.append hfront hback
  · intro h
    have := trimChars_gap_append h []
    rwa [List.append_nil] at this

theorem isTrimmed_trimChars (cs : List Char) : IsTrimmed (trimChars cs) := (trimChars_eq_iff.1 rfl).1

/-- A text is trimmed if it begins and ends with trimmed texts that are not empty. -/
theorem IsTrimmed.between (hcs : IsTrimmed cs) (hds : IsTrimmed ds) (hne : cs ≠ []) (hne' : ds ≠ []) (inside : List Char) :
    IsTrimmed (cs ++ inside ++ ds) := by
  constructor
  · intro c hc
    rw [List.append_assoc, List.head?_append, Option.or_of_isSome (List.isSome_head?.2 hne)] at hc
    exact hcs.1 c hc
  · intro c hc
    rw [List.getLast?_append, Option.or_of_isSome (List.getLast?_isSome.2 hne')] at hc
    exact hds.2 c hc

/-- Between texts that are not blank, nothing is trimmed. -/
theorem exists_trimChars_between (hcs : ¬IsGap cs) (hds : ¬IsGap ds) (inside : List Char) :
    ∃ front back, IsGap front ∧ IsGap back ∧
      trimChars (cs ++ inside ++ ds) = trimChars cs ++ (back ++ inside ++ front) ++ trimChars ds := by
  obtain ⟨lead, back, hcs', hlead, hback⟩ := exists_trimChars cs
  obtain ⟨front, trail, hds', hfront, htrail⟩ := exists_trimChars ds
  refine ⟨front, back, hfront, hback, trimChars_eq_iff.2 ⟨?_, lead, trail, ?_, hlead, htrail⟩⟩
  · exact (isTrimmed_trimChars cs).between (isTrimmed_trimChars ds) (mt trimChars_eq_nil_iff.1 hcs)
      (mt trimChars_eq_nil_iff.1 hds) _
  · rw [congrArg (fun front => front ++ inside ++ ds) hcs', congrArg (fun behind => _ ++ inside ++ behind) hds']
    simp only [List.append_assoc]

/-- The trimmings of texts that differ in a run differ in that run, or not at all. -/
theorem Respaced.trimChars (h : Respaced cs ds) : trimChars cs = trimChars ds ∨ Respaced (trimChars cs) (trimChars ds) := by
  obtain ⟨front, gap, gap', back, ⟨rfl, rfl⟩, ⟨hne, hgap⟩, hne', hgap'⟩ := h
  by_cases hfront : IsGap front
  · left
    rw [trimChars_gap_append (hfront.append hgap), trimChars_gap_append (hfront.append hgap')]
  · by_cases hback : IsGap back
    · left
      rw [List.append_assoc, List.append_assoc, trimChars_append_gap (hgap.append hback),
        trimChars_append_gap (hgap'.append hback)]
    · right
      obtain ⟨lead, trail, hlead, htrail, heq⟩ := exists_trimChars_between hfront hback gap
      obtain ⟨lead', trail', hlead', htrail', heq'⟩ := exists_trimChars_between hfront hback gap'
      refine ⟨_, _, _, _, ⟨heq, heq'⟩, ⟨by simp [hne], ?_⟩, by simp [hne'], ?_⟩
      · exact (htrail.append hgap).append hlead
      · exact (htrail'.append hgap').append hlead'

end SoapBinding.Text
