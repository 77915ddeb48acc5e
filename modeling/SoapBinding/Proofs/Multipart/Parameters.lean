import SoapBinding.Proofs.Multipart.ContentType
import SoapBinding.Proofs.Text.Case
import SoapBinding.Proofs.Text.Spacing

/-!
# Parameters of a content type

A content type as it may be written (`WrittenHeader`): a media type, and parameters behind semicolons, each a name and a
value with an equals sign in between and blank characters around either. A value is a token, or it stands between quotes
and may hold anything but quotes. Such a text is cut at the semicolons between its parameters and at no others, as the
quotes are closed wherever a parameter ends (`Parameter.Written.piecesFrom_append`), so the boundary is the value of the
first parameter that is named so and has one:

    boundary_of_written : WrittenHeader mediaType parameters header → …
-/

namespace SoapBinding.Multipart

open Text (IsTrimmed IsGap IsInk InAnyCase)

/-! ### Written parameters -/

/-- A parameter of a content type. -/
structure Parameter where
  /-- The name. -/
  name : List Char
  /-- The value, without quotes around. -/
  value : List Char
  /-- Whether the value is written between quotes. -/
  isQuoted : Bool
  name_plain : '=' ∉ name ∧ ';' ∉ name ∧ '"' ∉ name
  name_trimmed : IsTrimmed name
  value_plain : '"' ∉ value
  value_token : isQuoted = false → ';' ∉ value ∧ IsInk value

/-- A text stands between blank characters. -/
def Padded (core text : List Char) : Prop :=
  ∃ front back, text = front ++ core ++ back ∧ IsGap front ∧ IsGap back

namespace Parameter

/-- The value as it is written. -/
def shown (p : Parameter) : List Char := if p.isQuoted then '"' :: p.value ++ ['"'] else p.value

/-- A parameter named `boundary` that has a value. -/
def IsBoundary (p : Parameter) : Prop := InAnyCase p.name "boundary".toList ∧ p.value ≠ []

/-- A text that writes a parameter. -/
inductive Written (p : Parameter) : List Char → Prop where
  | mk {name value : List Char} : Padded p.name name → Padded p.shown value → Written p (name ++ '=' :: value)

end Parameter

/-- A text that writes parameters, each behind a semicolon. -/
inductive WrittenParameters : List Parameter → List Char → Prop where
  | nil : WrittenParameters [] []
  | cons {p : Parameter} {parameters : List Parameter} {text rest : List Char} : p.Written text →
      WrittenParameters parameters rest → WrittenParameters (p :: parameters) (';' :: text ++ rest)

/-- A text that writes a media type with parameters. -/
inductive WrittenHeader (mediaType : List Char) (parameters : List Parameter) : List Char → Prop where
  | mk {media rest : List Char} : Padded mediaType media → WrittenParameters parameters rest →
      WrittenHeader mediaType parameters (media ++ rest)

variable {p : Parameter} {parameters : List Parameter} {core text rest : List Char}

/-! ### Cutting -/

theorem Padded.trimChars_eq (h : Padded core text) (hcore : IsTrimmed core) : Text.trimChars text = core :=
  Text.trimChars_eq_iff.2 ⟨hcore, h⟩

/-- Blank characters around a text add nothing that matters between parameters. -/
theorem Padded.not_mem {c : Char} (h : Padded core text) (hc : Text.isBlank c = false) (hcore : c ∉ core) : c ∉ text := by
  obtain ⟨front, back, rfl, hfront, hback⟩ := h
  rw [List.mem_append, List.mem_append]
  rintro ((hmem | hmem) | hmem)
  · rw [hfront c hmem] at hc
    cases hc
  · exact hcore hmem
  · rw [hback c hmem] at hc
    cases hc

namespace Parameter

theorem isTrimmed_shown (p : Parameter) : IsTrimmed p.shown := by
  unfold shown
  cases hquoted : p.isQuoted with
  | true =>
    rw [if_pos rfl]
    refine ⟨fun c hc => ?_, fun c hc => ?_⟩
    · obtain rfl : '"' = c := by simpa using hc
      decide
    · rw [List.getLast?_concat] at hc
      obtain rfl : '"' = c := by simpa using hc
      decide
  | false =>
    rw [if_neg (by decide)]
    have hink := (p.value_token hquoted).2
    exact ⟨fun c hc => hink c (List.mem_of_mem_head? hc), fun c hc => hink c (List.mem_of_mem_getLast? hc)⟩

theorem unquoted_shown (p : Parameter) : unquoted p.shown = p.value := by
  unfold shown
  split
  · rw [unquoted_quoted]
  · unfold unquoted
    split
    · next rest heq => exact absurd (heq ▸ List.mem_cons_self) p.value_plain
    · rfl

/-- A written value goes into one piece whole, and leaves no quotes open. -/
theorem piecesFrom_value (h : Padded p.shown text) (rest : List Char) :
    piecesFrom false (text ++ rest) = (text ++ (piecesFrom false rest).1, (piecesFrom false rest).2) := by
  unfold shown at h
  cases hquoted : p.isQuoted with
  | true =>
    rw [hquoted, if_pos rfl] at h
    obtain ⟨front, back, rfl, hfront, hback⟩ := h
    have hplain {c : Char} (hc : Text.isBlank c = false) {cs : List Char} (hcs : IsGap cs) : c ∉ cs := fun hmem => by
      rw [hcs c hmem] at hc
      cases hc
    have happend : front ++ ('"' :: p.value ++ ['"']) ++ back ++ rest =
        front ++ ('"' :: p.value ++ '"' :: (back ++ rest)) := by simp
    rw [happend, piecesFrom_plain (hplain (by decide) hfront) (hplain (by decide) hfront), piecesFrom_quoted p.value_plain,
      piecesFrom_plain (hplain (by decide) hback) (hplain (by decide) hback)]
    simp
  | false =>
    rw [hquoted, if_neg (by decide)] at h
    exact piecesFrom_plain (h.not_mem (by decide) (p.value_token hquoted).1) (h.not_mem (by decide) p.value_plain) rest

/-- So does a written parameter. -/
theorem Written.piecesFrom_append (h : p.Written text) (rest : List Char) :
    piecesFrom false (text ++ rest) = (text ++ (piecesFrom false rest).1, (piecesFrom false rest).2) := by
  obtain ⟨hname, hvalue⟩ := h
  next name value =>
    have hsemicolon : ';' ∉ name ++ ['='] := by
      simpa using hname.not_mem (by decide) p.name_plain.2.1
    have hquote : '"' ∉ name ++ ['='] := by
      simpa using hname.not_mem (by decide) p.name_plain.2.2
    have happend : name ++ '=' :: value ++ rest = name ++ ['='] ++ (value ++ rest) := by simp
    rw [happend, piecesFrom_plain hsemicolon hquote, piecesFrom_value hvalue]
    simp

/-- A written parameter gives a boundary if it is one. -/
theorem Written.boundaryOf?_eq_some_iff (h : p.Written text) {boundary : String} :
    boundaryOf? text = some boundary ↔ p.IsBoundary ∧ boundary = String.ofList p.value := by
  obtain ⟨hname, hvalue⟩ := h
  next name value =>
    have hequals : '=' ∉ name := hname.not_mem (by decide) p.name_plain.1
    rw [boundaryOf?, Text.splitFirst?_append hequals]
    dsimp only
    rw [hname.trimChars_eq p.name_trimmed, hvalue.trimChars_eq p.isTrimmed_shown, p.unquoted_shown]
    by_cases hnamed : InAnyCase p.name "boundary".toList
    · rw [if_pos ((Text.sameUpToCase_iff (by decide)).2 hnamed)]
      by_cases hempty : p.value = []
      · rw [if_pos (List.isEmpty_iff.2 hempty)]
        exact iff_of_false (Option.some_ne_none boundary).symm fun h => h.1.2 hempty
      · rw [if_neg fun h => hempty (List.isEmpty_iff.1 h), Option.some_inj, eq_comm]
        exact (and_iff_right ⟨hnamed, hempty⟩).symm
    · rw [if_neg fun hsame => hnamed ((Text.sameUpToCase_iff (by decide)).1 hsame)]
      exact iff_of_false (Option.some_ne_none boundary).symm fun h => hnamed h.1.1

end Parameter

/-- Written parameters are cut where they end. -/
theorem WrittenParameters.exists_pieces (h : WrittenParameters parameters rest) :
    ∃ pieces, piecesFrom false rest = ([], pieces) ∧ List.Forall₂ (fun p => p.Written) parameters pieces := by
  induction h with
  | nil => exact ⟨[], rfl, .nil⟩
  | @cons p parameters text rest hp _ ih =>
    obtain ⟨pieces, hpieces, hall⟩ := ih
    refine ⟨text :: pieces, ?_, .cons hp hall⟩
    rw [List.cons_append, piecesFrom_semicolon, hp.piecesFrom_append, hpieces, List.append_nil]

/-- The first of written parameters that gives a boundary. -/
theorem findSome?_boundaryOf? {pieces : List (List Char)} (h : List.Forall₂ (fun p => p.Written) parameters pieces)
    {boundary : String} :
    pieces.findSome? boundaryOf? = some boundary ↔ ∃ front p behind, parameters = front ++ p :: behind ∧
      (∀ q ∈ front, ¬q.IsBoundary) ∧ p.IsBoundary ∧ boundary = String.ofList p.value := by
  induction h with
  | nil => simp
  | @cons p text parameters pieces hp _ ih =>
    rw [List.findSome?_cons]
    cases hfirst : boundaryOf? text with
    | some found =>
      obtain ⟨hboundary, rfl⟩ := hp.boundaryOf?_eq_some_iff.1 hfirst
      constructor
      · rintro ⟨⟩
        exact ⟨[], p, parameters, rfl, nofun, hboundary, rfl⟩
      · rintro ⟨front, q, behind, heq, hfront, hq, rfl⟩
        cases front with
        | nil =>
          obtain ⟨rfl, -⟩ := List.cons.inj heq
          rfl
        | cons first front =>
          obtain ⟨rfl, -⟩ := List.cons.inj heq
          exact absurd hboundary (hfront p List.mem_cons_self)
    | none =>
      have hother : ¬p.IsBoundary := fun hboundary => by
        rw [hp.boundaryOf?_eq_some_iff.2 ⟨hboundary, rfl⟩] at hfirst
        cases hfirst
      refine ih.trans ⟨?_, ?_⟩
      · rintro ⟨front, q, behind, rfl, hfront, hq⟩
        exact ⟨p :: front, q, behind, rfl, List.forall_mem_cons.2 ⟨hother, hfront⟩, hq⟩
      · rintro ⟨front, q, behind, heq, hfront, hq, rfl⟩
        cases front with
        | nil =>
          obtain ⟨rfl, -⟩ := List.cons.inj heq
          exact absurd hq hother
        | cons first front =>
          obtain ⟨-, rfl⟩ := List.cons.inj heq
          exact ⟨front, q, behind, rfl, (List.forall_mem_cons.1 hfront).2, hq, rfl⟩

/-- No boundary is given where no parameter is one. -/
theorem findSome?_boundaryOf?_eq_none {pieces : List (List Char)}
    (h : List.Forall₂ (fun p => p.Written) parameters pieces) :
    pieces.findSome? boundaryOf? = none ↔ ∀ p ∈ parameters, ¬p.IsBoundary := by
  induction h with
  | nil => simp
  | @cons p text parameters pieces hp _ ih =>
    have hfirst : boundaryOf? text = none ↔ ¬p.IsBoundary := by
      simp [Option.eq_none_iff_forall_ne_some, hp.boundaryOf?_eq_some_iff]
    rw [List.findSome?_cons, List.forall_mem_cons, ← hfirst, ← ih]
    cases boundaryOf? text <;> simp

/-- **The boundary is the value of the first parameter that is named so and has one**, whatever stands between the quotes
of others, in a content type `multipart/related` written in any case and with any blank characters around its parameters.
Where there is no such parameter, there is no boundary. -/
theorem boundary_of_written {mediaType : List Char} {header : String}
    (hmedia : InAnyCase mediaType "multipart/related".toList) (h : WrittenHeader mediaType parameters header.toList) :
    (∀ boundary, relatedBoundary? header = some boundary ↔ ∃ front p behind, parameters = front ++ p :: behind ∧
      (∀ q ∈ front, ¬q.IsBoundary) ∧ p.IsBoundary ∧ boundary = String.ofList p.value) ∧
    (relatedBoundary? header = none ↔ ∀ p ∈ parameters, ¬p.IsBoundary) := by
  have hplain : ∀ c ∈ mediaType, (c ≠ ';' ∧ c ≠ '"') ∧ Text.isBlank c = false := by
    simpa using @InAnyCase.all (fun c => (c != ';' && c != '"') && !Text.isBlank c) _ _ hmedia (by decide)
  have htrimmed : IsTrimmed mediaType :=
    ⟨fun c hc => (hplain c (List.mem_of_mem_head? hc)).2, fun c hc => (hplain c (List.mem_of_mem_getLast? hc)).2⟩
  generalize htext : header.toList = text at h
  obtain ⟨hpadded, hparameters⟩ := h
  next media rest =>
    obtain ⟨pieces, hpieces, hall⟩ := hparameters.exists_pieces
    have hcut : piecesFrom false header.toList = (media, pieces) := by
      rw [htext, piecesFrom_plain (hpadded.not_mem (by decide) fun hmem => (hplain _ hmem).1.1 rfl)
        (hpadded.not_mem (by decide) fun hmem => (hplain _ hmem).1.2 rfl), hpieces, List.append_nil]
    have hboundary : relatedBoundary? header = pieces.findSome? boundaryOf? := by
      rw [relatedBoundary?, hcut]
      dsimp only
      rw [hpadded.trimChars_eq htrimmed, if_pos ((Text.sameUpToCase_iff (by decide)).2 hmedia)]
    rw [hboundary]
    exact ⟨fun boundary => findSome?_boundaryOf? hall, findSome?_boundaryOf?_eq_none hall⟩

/-- Parameters of a content type: a value that looks like a boundary between its quotes, a boundary without a value, and two
with one. -/
def mixedParameters : List Parameter := [
  ⟨"type".toList, "a; boundary=x".toList, true, by decide, by decide, by decide, by decide⟩,
  ⟨"Boundary".toList, [], true, by decide, by decide, by decide, by decide⟩,
  ⟨"BOUNDARY".toList, "b;=c ".toList, true, by decide, by decide, by decide, by decide⟩,
  ⟨"boundary".toList, "d".toList, false, by decide, by decide, by decide, by decide⟩]

theorem boundary_of_written_mixed :
    WrittenHeader "Multipart/RELATED".toList mixedParameters
      "Multipart/RELATED ; type=\"a; boundary=x\"; Boundary=\"\";BOUNDARY = \"b;=c \" ; boundary=d".toList ∧
    relatedBoundary?
      "Multipart/RELATED ; type=\"a; boundary=x\"; Boundary=\"\";BOUNDARY = \"b;=c \" ; boundary=d" = some "b;=c " := by
  have hmedia : InAnyCase "Multipart/RELATED".toList "multipart/related".toList := by
    unfold InAnyCase
    decide
  have hwritten : WrittenHeader "Multipart/RELATED".toList mixedParameters
      "Multipart/RELATED ; type=\"a; boundary=x\"; Boundary=\"\";BOUNDARY = \"b;=c \" ; boundary=d".toList := by
    have htext : "Multipart/RELATED ; type=\"a; boundary=x\"; Boundary=\"\";BOUNDARY = \"b;=c \" ; boundary=d".toList =
        "Multipart/RELATED ".toList ++ (';' :: (" type".toList ++ '=' :: "\"a; boundary=x\"".toList) ++
          (';' :: (" Boundary".toList ++ '=' :: "\"\"".toList) ++
          (';' :: ("BOUNDARY ".toList ++ '=' :: " \"b;=c \" ".toList) ++
          (';' :: (" boundary".toList ++ '=' :: "d".toList) ++ [])))) := by decide
    rw [htext]
    refine .mk ⟨[], " ".toList, by decide, by decide, by decide⟩ (.cons (.mk ?_ ?_) (.cons (.mk ?_ ?_)
      (.cons (.mk ?_ ?_) (.cons (.mk ?_ ?_) .nil))))
    · exact ⟨" ".toList, [], by decide, by decide, by decide⟩
    · exact ⟨[], [], by decide, by decide, by decide⟩
    · exact ⟨" ".toList, [], by decide, by decide, by decide⟩
    · exact ⟨[], [], by decide, by decide, by decide⟩
    · exact ⟨[], " ".toList, by decide, by decide, by decide⟩
    · exact ⟨" ".toList, " ".toList, by decide, by decide, by decide⟩
    · exact ⟨" ".toList, [], by decide, by decide, by decide⟩
    · exact ⟨[], [], by decide, by decide, by decide⟩
  refine ⟨hwritten, ((boundary_of_written hmedia hwritten).1 _).2 ⟨mixedParameters.take 2, mixedParameters[2], _, rfl, ?_, ?_,
    by decide⟩⟩
  · unfold Parameter.IsBoundary InAnyCase
    decide
  · unfold Parameter.IsBoundary InAnyCase
    decide

end SoapBinding.Multipart
