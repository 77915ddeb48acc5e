import SoapBinding.Xml.Cursor

/-!
# What stands behind a document

A document is complete, or its stream fails, or its markup or one of its names is at fault. Whatever it is, it
is not a reading without end (`Node.ending_ofSource`): that is a fault of readers alone.
-/

namespace SoapBinding.Xml

/-- Work that fails for a reason of the document, if it fails. -/
def EndsWell {α : Type} (work : Except Error α) : Prop := work ≠ .error .endless

namespace EndsWell

variable {α β : Type} {work : Except Error α} {next : α → Except Error β}

theorem bind (hw : EndsWell work) (hn : ∀ a, EndsWell (next a)) : EndsWell (work >>= next) := by
  cases work with
  | ok a => exact hn a
  | error e => exact fun h => hw (by cases h; rfl)

theorem map {f : α → β} (hw : EndsWell work) : EndsWell (work.map f) := by
  cases work with
  | ok a => exact fun h => by cases h
  | error e => exact fun h => hw (by cases h; rfl)

theorem ok {a : α} : EndsWell (.ok a) := fun h => by cases h

theorem markup : EndsWell (.error .markup : Except Error α) := fun h => by cases h

end EndsWell

namespace Element

theorem endsWell_text (bs : Bytes) : EndsWell (text bs) := by
  unfold text
  split
  · exact .markup
  · exact .ok

/-- What is no text once its entities are replaced is malformed markup. -/
theorem unescaped_error {raw : Bytes} {fault : Error} (h : unescaped raw = .error fault) : fault = .markup := by
  unfold unescaped text at h
  cases htext : Utf8.toString? raw with
  | none =>
    rw [htext] at h
    cases h
    rfl
  | some s =>
    rw [htext] at h
    cases hchars : unescape? s.toList with
    | none =>
      simp only [bind, Except.bind, hchars] at h
      cases h
      rfl
    | some cs =>
      simp only [bind, Except.bind, hchars] at h
      cases h

theorem endsWell_unescaped (raw : Bytes) : EndsWell (unescaped raw) :=
  fun h => nomatch unescaped_error h

theorem endsWell_spaceOf (name : Bytes) (resolution : Resolution) : EndsWell (spaceOf name resolution) := by
  cases resolution with
  | bound uri => exact (endsWell_text uri).map
  | unbound => exact .ok
  | undeclared qualifier => exact fun h => by cases h

theorem endsWell_resolveAttributes (scope : Scope) (isFaulty : Bool) (met : List Bytes)
    (raw : List RawAttribute) : EndsWell (resolveAttributes scope isFaulty met raw) := by
  induction raw generalizing met with
  | nil =>
    unfold resolveAttributes
    split
    · exact .markup
    · exact .ok
  | cons a rest ih =>
    unfold resolveAttributes
    split
    · exact .markup
    · split
      · exact ih _
      · apply (endsWell_spaceOf _ _).bind
        intro space
        apply (endsWell_text _).bind
        intro localName
        apply (endsWell_unescaped _).bind
        intro value
        exact (ih _).bind fun _ => .ok

theorem endsWell_declare (scope : Scope) (a : RawAttribute) : EndsWell (scope.declare a) := by
  unfold Scope.declare
  dsimp only
  split
  · exact .ok
  · split
    · split
      · split
        · exact .ok
        · exact .markup
      · split
        · exact .markup
        · exact .ok
    · exact .ok

theorem endsWell_enter (scope : Scope) (raw : RawAttributes) : EndsWell (scope.enter raw) := by
  unfold Scope.enter
  generalize raw.items = items
  induction items generalizing scope with
  | nil => exact .ok
  | cons a items ih => exact (endsWell_declare scope a).bind fun _ => ih _

theorem endsWell_ofTag (outer : Scope) (tag : Bytes) : EndsWell (ofTag outer tag) := by
  apply (endsWell_enter _ _).bind
  intro scope
  apply (endsWell_spaceOf _ _).bind
  intro space
  apply (endsWell_text _).bind
  intro localName
  apply (endsWell_resolveAttributes _ _ _ _).bind
  intro attributes
  split
  · exact .ok
  · next value _ =>
    have htype : EndsWell (resolveType scope localName value) := by
      unfold resolveType
      dsimp only
      split
      · exact fun h => by cases h
      · exact .ok
    exact htype.map.bind fun _ => .ok

end Element

/-- The tokens of a document end with its stream, or where markup is malformed. -/
theorem Token.ending_lex (fails : Bool) (bs : Bytes) : (lex fails bs).ending ≠ .failed .endless := by
  fun_induction lex fails bs with
  | case1 => cases fails <;> simp [Pieces.none]
  | case2 _ _ _ _ ih => exact ih
  | case3 _ _ _ ih => exact ih
  | case8 _ _ _ _ _ _ _ ih => exact ih
  | _ => cases fails <;> simp [Pieces.none, Pieces.cons]

theorem Node.ending_ofTokens {ending : Ending} (hending : ending ≠ .failed .endless) (opened : List Frame)
    (tokens : List Token) : (ofTokens ending opened tokens).ending ≠ .failed .endless := by
  induction tokens generalizing opened with
  | nil => exact hending
  | cons t tokens ih =>
    cases t with
    | text raw =>
      unfold ofTokens
      split
      · next e he => exact fun h => Element.endsWell_unescaped raw (by cases h; exact he)
      · exact ih opened
    | data raw =>
      unfold ofTokens
      split
      · next e he => exact fun h => Element.endsWell_text raw (by cases h; exact he)
      · exact ih opened
    | start tag isEmpty =>
      unfold ofTokens
      split
      · next e he => exact fun h => Element.endsWell_ofTag _ tag (by cases h; exact he)
      · split
        · exact ih opened
        · exact ih _
    | finish tag =>
      unfold ofTokens
      split
      · exact fun h => by cases h
      · split
        · exact ih _
        · exact fun h => by cases h

/-- **No document ends in a reading without end.** -/
theorem Node.ending_ofSource (source : Source) : (ofSource source).ending ≠ .failed .endless :=
  ending_ofTokens (Token.ending_lex _ _) [] _

end SoapBinding.Xml
