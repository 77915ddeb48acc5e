import SoapBinding.Multipart.ContentType
import SoapBinding.Multipart.Framing
import SoapBinding.Proofs.Text.Trim

/-!
# The content type of a body in parts

A content type written for a body announces the boundary with which the body is written. Both the root
type and the boundary stand between quotes there, so neither semicolons nor blanks in them matter; only
a quote would.
-/

namespace SoapBinding.Multipart

/-! ### Pieces -/

/-- Outside quotes everything but semicolons and quotes goes into the first piece. -/
theorem piecesFrom_plain {front : List Char} (hsemicolon : ';' ∉ front) (hquote : '"' ∉ front)
    (rest : List Char) :
    piecesFrom false (front ++ rest) =
      (front ++ (piecesFrom false rest).1, (piecesFrom false rest).2) := by
  induction front with
  | nil => rfl
  | cons c front ih =>
    rw [List.mem_cons, not_or] at hsemicolon hquote
    have hc : (false != (c == '"')) = false := by simp [Ne.symm hquote.1]
    rw [List.cons_append, piecesFrom, if_neg (by simp [Ne.symm hsemicolon.1]), hc,
      ih hsemicolon.2 hquote.2]
    rfl

/-- Between quotes everything up to the closing quote goes into the first piece. -/
theorem piecesFrom_quoted {text : List Char} (h : '"' ∉ text) (rest : List Char) :
    piecesFrom false ('"' :: text ++ '"' :: rest) =
      ('"' :: text ++ '"' :: (piecesFrom false rest).1, (piecesFrom false rest).2) := by
  have htext : ∀ text : List Char, '"' ∉ text →
      piecesFrom true (text ++ '"' :: rest) =
        (text ++ '"' :: (piecesFrom false rest).1, (piecesFrom false rest).2) := by
    intro text h
    induction text with
    | nil => rfl
    | cons c text ih =>
      rw [List.mem_cons, not_or] at h
      have hc : (true != (c == '"')) = true := by simp [Ne.symm h.1]
      rw [List.cons_append, piecesFrom, if_neg (by simp), hc, ih h.2]
      rfl
  show ('"' :: (piecesFrom true (text ++ '"' :: rest)).1,
    (piecesFrom true (text ++ '"' :: rest)).2) = _
  rw [htext text h]
  rfl

/-- A semicolon outside quotes ends a piece. -/
theorem piecesFrom_semicolon (rest : List Char) :
    piecesFrom false (';' :: rest) =
      ([], (piecesFrom false rest).1 :: (piecesFrom false rest).2) := rfl

/-! ### The boundary -/

theorem unquoted_quoted (text : List Char) : unquoted ('"' :: text ++ ['"']) = text := by
  rw [List.cons_append, unquoted, if_pos (by simp), List.dropLast_concat]

/-- A parameter of another name gives no boundary. -/
theorem boundaryOf?_type (text : List Char) :
    boundaryOf? (" type=".toList ++ text) = none := by
  show boundaryOf? (" type".toList ++ '=' :: text) = none
  rw [boundaryOf?, Text.splitFirst?_append (by decide)]
  exact if_neg (by decide)

/-- A parameter with the name gives the boundary between its quotes. -/
theorem boundaryOf?_boundary {boundary : String} (h : boundary ≠ "") :
    boundaryOf? (" boundary=".toList ++ ('"' :: boundary.toList ++ ['"'])) = some boundary := by
  show boundaryOf? (" boundary".toList ++ '=' :: ('"' :: boundary.toList ++ ['"'])) = some boundary
  rw [boundaryOf?, Text.splitFirst?_append (by decide)]
  dsimp only
  rw [if_pos (by decide), Text.trimChars_between (by decide) (by decide), unquoted_quoted,
    if_neg (by simpa using h), String.ofList_toList]

/-- The characters of a content type. -/
theorem Framing.toList_contentType (f : Framing) (rootType : String) :
    (f.contentType rootType).toList =
      "multipart/related".toList ++ (';' :: (" type=".toList ++ ('"' :: rootType.toList ++
        '"' :: (';' :: (" boundary=".toList ++ ('"' :: f.boundary.toList ++ ['"'])))))) := by
  have happend (a b c d e : String) : (a ++ b ++ c ++ d ++ e).toList =
      a.toList ++ (b.toList ++ (c.toList ++ (d.toList ++ e.toList))) := by
    simp only [String.toList_append, List.append_assoc]
  have hfront : "multipart/related; type=\"".toList =
      "multipart/related".toList ++ (';' :: (" type=".toList ++ ['"'])) := by decide
  have hmiddle : "\"; boundary=\"".toList = '"' :: ';' :: (" boundary=".toList ++ ['"']) := by
    decide
  have hlast : "\"".toList = ['"'] := by decide
  refine (happend _ _ _ _ _).trans ?_
  rw [hfront, hmiddle, hlast]
  simp only [List.append_assoc, List.cons_append, List.nil_append]

/-- **The content type of a framing announces its boundary.** -/
theorem Framing.relatedBoundary?_contentType {f : Framing} {rootType : String}
    (hempty : f.boundary ≠ "") (hboundary : '"' ∉ f.boundary.toList)
    (hroot : '"' ∉ rootType.toList) :
    relatedBoundary? (f.contentType rootType) = some f.boundary := by
  have hpieces : piecesFrom false (f.contentType rootType).toList =
      ("multipart/related".toList, [" type=".toList ++ ('"' :: rootType.toList ++ ['"']),
        " boundary=".toList ++ ('"' :: f.boundary.toList ++ ['"'])]) := by
    rw [f.toList_contentType, piecesFrom_plain (by decide) (by decide), piecesFrom_semicolon,
      piecesFrom_plain (by decide) (by decide), piecesFrom_quoted hroot, piecesFrom_semicolon,
      piecesFrom_plain (by decide) (by decide), piecesFrom_quoted hboundary]
    simp only [piecesFrom, List.append_nil]
  rw [relatedBoundary?, hpieces]
  dsimp only
  rw [if_pos (by decide), List.findSome?_cons, boundaryOf?_type, List.findSome?_cons,
    boundaryOf?_boundary hempty]

end SoapBinding.Multipart
