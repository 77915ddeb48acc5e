import SoapBinding.Proofs.Xml.Markup

/-!
# The tokens of a written document

An element that has been written is cut into the same tokens wherever it stands (`Markup.lexes_tokens`), if the names in
its tags are those of XML. A run of text ends only where markup begins, and two texts in a row are one run; so a row of
pieces is looked at in front of markup, behind the text that it goes on with. Each start tag among the tokens has its end tag
there, if it needs one (`Token.AreNested`).
-/

namespace SoapBinding.Xml

/-- Bytes that are cut into tokens of their own, whatever stands behind them. -/
def Lexes (bs : Bytes) (tokens : List Token) : Prop :=
  ∀ rest, Token.lex false (bs ++ rest) = (Token.lex false rest).prepend tokens

/-- Bytes that are cut into tokens of their own in front of markup. -/
def LexesInside (bs : Bytes) (tokens : List Token) : Prop :=
  ∀ rest, Token.lex false (bs ++ 0x3C :: rest) = (Token.lex false (0x3C :: rest)).prepend tokens

/-- Texts and elements, each start tag with its end tag. -/
inductive Token.AreNested : List Token → Prop where
  | nil : AreNested []
  | text {raw : Bytes} {rest : List Token} : AreNested rest → AreNested (.text raw :: rest)
  | empty {tag : Bytes} {rest : List Token} : AreNested rest → AreNested (.start tag true :: rest)
  | element {tag name : Bytes} {inside rest : List Token} : Node.closingName name = Element.nameOf tag →
      AreNested inside → AreNested rest → AreNested (.start tag false :: (inside ++ .finish name :: rest))

/-- A run of text as tokens; there is none where there is no text. -/
def Token.ofRun (raw : Bytes) : List Token := if raw = [] then [] else [.text raw]

mutual

/-- The tokens of a piece. -/
def Markup.tokens : Markup → List Token
  | .text t => Token.ofRun (Utf8.ofString (escape t))
  | .empty tag => [.start (tagBytes tag) true]
  | .element tag body => .start (tagBytes tag) false :: (tokensBehind [] body ++ [.finish (Utf8.ofString tag.name)])

/-- The tokens of a row of pieces behind some text. Two texts in a row are one run, so a text waits for what follows it. -/
def Markup.tokensBehind (raw : Bytes) : List Markup → List Token
  | [] => Token.ofRun raw
  | .text t :: row => tokensBehind (raw ++ Utf8.ofString (escape t)) row
  | m :: row => Token.ofRun raw ++ (m.tokens ++ tokensBehind [] row)

end

variable {bs bs' : Bytes} {tokens tokens' : List Token} {tag : PendingTag}

theorem Token.AreNested.append (h : AreNested tokens) (h' : AreNested tokens') : AreNested (tokens ++ tokens') := by
  induction h with
  | nil => exact h'
  | text _ ih => exact .text ih
  | empty _ ih => exact .empty ih
  | element hname hinside _ _ ih =>
    rw [List.cons_append, List.append_assoc, List.cons_append]
    exact .element hname hinside ih

theorem Lexes.inside (h : Lexes bs tokens) (h' : LexesInside bs' tokens') :
    LexesInside (bs ++ bs') (tokens ++ tokens') := by
  intro rest
  rw [List.append_assoc, h, h', Pieces.prepend_append]

/-- An empty tag is one token. -/
theorem lexes_empty (ht : IsTag tag) :
    Lexes (Utf8.ofString (elementText tag none)) [.start (tagBytes tag) true] := by
  intro rest
  rw [elementText, Utf8.ofString_append, Utf8.ofString_append, ofString_render,
    show Utf8.ofString "<" = [0x3C] from rfl, show Utf8.ofString "/>" = [0x2F, 0x3E] from rfl]
  simp only [List.append_assoc, List.cons_append, List.nil_append]
  exact lex_empty ht rest

theorem areNested_element (ht : IsTag tag) (h : Token.AreNested tokens) :
    Token.AreNested (.start (tagBytes tag) false :: (tokens ++ [.finish (Utf8.ofString tag.name)])) :=
  .element ((closingName_ofString ht.name).trans (nameOf_tagBytes ht).symm) h .nil

/-- Start tag, inside and end tag. -/
theorem lexes_element {text : String} (ht : IsTag tag) (h : LexesInside (Utf8.ofString text) tokens) :
    Lexes (Utf8.ofString (elementText tag (some text)))
      (.start (tagBytes tag) false :: (tokens ++ [.finish (Utf8.ofString tag.name)])) := by
  intro rest
  rw [elementText]
  simp only [Utf8.ofString_append, ofString_render]
  rw [show Utf8.ofString "<" = [0x3C] from rfl, show Utf8.ofString ">" = [0x3E] from rfl,
    show Utf8.ofString "</" = [0x3C, 0x2F] from rfl]
  simp only [List.append_assoc, List.cons_append, List.nil_append]
  rw [lex_start ht, h, lex_finish ht.name]
  simp [Pieces.cons, Pieces.prepend]

/-! ### Pieces -/

theorem lexesInside_ofRun {raw : Bytes} (h : 0x3C ∉ raw) : LexesInside raw (Token.ofRun raw) := by
  intro rest
  rw [Token.ofRun]
  split
  · next hnil =>
    subst hnil
    rfl
  · next hne => exact lex_text hne h

theorem areNested_ofRun (raw : Bytes) : Token.AreNested (Token.ofRun raw) := by
  rw [Token.ofRun]
  split
  · exact .nil
  · exact .text .nil

theorem Markup.tokensBehind_cons {m : Markup} (hm : ∀ t, m ≠ .text t) (raw : Bytes) (row : List Markup) :
    tokensBehind raw (m :: row) = Token.ofRun raw ++ (m.tokens ++ tokensBehind [] row) := by
  cases m with
  | text t => exact (hm t rfl).elim
  | empty | element => rw [tokensBehind]; exact nofun

/-- An element begins with markup. -/
theorem Markup.exists_ofString_render {m : Markup} (hm : ∀ t, m ≠ .text t) : ∃ bs, Utf8.ofString m.render = 0x3C :: bs := by
  cases m with
  | text t => exact (hm t rfl).elim
  | empty tag => exact exists_ofString_elementText tag none
  | element tag body => exact exists_ofString_elementText tag _

mutual

/-- **An element is cut into its tokens.** -/
theorem Markup.lexes_tokens (m : Markup) (htags : ∀ t ∈ m.tags, IsTag t) (hm : ∀ t, m ≠ .text t) :
    Lexes (Utf8.ofString m.render) m.tokens := by
  cases m with
  | text t => exact (hm t rfl).elim
  | empty tag => exact lexes_empty (htags tag List.mem_cons_self)
  | element tag body =>
    have hbody := lexes_tokensBehind body [] List.not_mem_nil fun t ht => htags t (List.mem_cons_of_mem _ ht)
    exact lexes_element (htags tag List.mem_cons_self) hbody

/-- A row of pieces behind some text is cut into its tokens in front of markup. -/
theorem Markup.lexes_tokensBehind (row : List Markup) (raw : Bytes) (hraw : 0x3C ∉ raw)
    (htags : ∀ t ∈ tagsAll row, IsTag t) :
    LexesInside (raw ++ Utf8.ofString (renderAll row)) (tokensBehind raw row) := by
  cases row with
  | nil => simpa [renderAll, tokensBehind, Utf8.ofString] using lexesInside_ofRun hraw
  | cons m row =>
    have hrow : ∀ t ∈ tagsAll row, IsTag t := fun t ht => htags t (List.mem_append_right _ ht)
    by_cases hm : ∃ t, m = .text t
    · obtain ⟨t, rfl⟩ := hm
      have hescape : 0x3C ∉ raw ++ Utf8.ofString (escape t) := by
        rw [List.mem_append, not_or]
        exact ⟨hraw, not_mem_ofString_escape 0x3C (by decide) (by decide) t⟩
      have h := lexes_tokensBehind row (raw ++ Utf8.ofString (escape t)) hescape hrow
      rwa [renderAll, render, Utf8.ofString_append, ← List.append_assoc, tokensBehind]
    · -- An element is markup, which ends the run of text in front.
      rw [not_exists] at hm
      have htokens := lexes_tokens m (fun t ht => htags t (List.mem_append_left _ ht)) hm
      have htokens' := lexes_tokensBehind row [] List.not_mem_nil hrow
      obtain ⟨bs, hbs⟩ := exists_ofString_render hm
      intro rest
      have hinside := htokens.inside htokens' rest
      rw [tokensBehind_cons hm, renderAll, Utf8.ofString_append, List.append_assoc]
      rw [hbs, List.nil_append, List.cons_append, List.cons_append] at hinside
      rw [hbs, List.cons_append, List.cons_append, lexesInside_ofRun hraw, hinside, Pieces.prepend_append (Token.ofRun raw)]

end

mutual

/-- Each start tag among the tokens of an element has its end tag there. -/
theorem Markup.areNested_tokens (m : Markup) (htags : ∀ t ∈ m.tags, IsTag t) : Token.AreNested m.tokens := by
  cases m with
  | text t => exact areNested_ofRun _
  | empty tag => exact .empty .nil
  | element tag body =>
    have hbody := areNested_tokensBehind body [] fun t ht => htags t (List.mem_cons_of_mem _ ht)
    exact areNested_element (htags tag List.mem_cons_self) hbody

theorem Markup.areNested_tokensBehind (row : List Markup) (raw : Bytes) (htags : ∀ t ∈ tagsAll row, IsTag t) :
    Token.AreNested (tokensBehind raw row) := by
  cases row with
  | nil => exact areNested_ofRun raw
  | cons m row =>
    have hrow := areNested_tokensBehind row
    have htags' : ∀ t ∈ tagsAll row, IsTag t := fun t ht => htags t (List.mem_append_right _ ht)
    by_cases hm : ∃ t, m = .text t
    · obtain ⟨t, rfl⟩ := hm
      rw [tokensBehind]
      exact hrow _ htags'
    · rw [not_exists] at hm
      rw [tokensBehind_cons hm]
      exact (areNested_ofRun raw).append
        ((areNested_tokens m fun t ht => htags t (List.mem_append_left _ ht)).append (hrow [] htags'))

end

end SoapBinding.Xml
