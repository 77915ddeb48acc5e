import SoapBinding.Proofs.Xml.Element
import SoapBinding.Xml.Cursor

/-!
# What written text shows

A piece of a document that a sink has written is read as nodes of its own, whatever stands in front of
it and behind it:

    Shows text nodes : … nodesWithin opened (bytes of text ++ rest) = (nodesWithin opened rest).prepend nodes

All that is asked of the place is that no default namespace is in scope there. A run of text ends only
where markup begins, so the text inside an element is looked at in front of an end tag (`ShowsInside`).

An element shows its start tag, what its inside shows, and its end tag (`shows_element`).
-/

namespace SoapBinding.Xml

/-- Pieces with others in front. -/
def Pieces.prepend {α : Type} (front : List α) (p : Pieces α) : Pieces α := ⟨front ++ p.items, p.ending⟩

theorem Pieces.prepend_append {α : Type} (front middle : List α) (p : Pieces α) :
    p.prepend (front ++ middle) = (p.prepend middle).prepend front := by
  rw [Pieces.prepend, List.append_assoc]
  rfl

/-- The nodes of bytes that stand inside the elements opened. -/
def nodesWithin (opened : List Frame) (bs : Bytes) : Pieces Node :=
  Node.ofTokens (Token.lex false bs).ending opened (Token.lex false bs).items

/-- A text is read as nodes, wherever it stands. -/
def Shows (text : String) (nodes : List Node) : Prop :=
  ∀ opened rest, Scope.IsBare (Node.scopeOf opened) →
    nodesWithin opened (Utf8.ofString text ++ rest) = (nodesWithin opened rest).prepend nodes

/-- A text is read as nodes in front of markup. -/
def ShowsInside (text : String) (nodes : List Node) : Prop :=
  ∀ opened rest, Scope.IsBare (Node.scopeOf opened) →
    nodesWithin opened (Utf8.ofString text ++ 0x3C :: rest) =
      (nodesWithin opened (0x3C :: rest)).prepend nodes

/-- A text is read as nodes where a run of text ends behind it: in front of markup, or with the document. -/
def ShowsRun (text : String) (nodes : List Node) : Prop :=
  ∀ opened rest, Scope.IsBare (Node.scopeOf opened) → (∀ b ∈ rest.head?, b = 0x3C) →
    nodesWithin opened (Utf8.ofString text ++ rest) = (nodesWithin opened rest).prepend nodes

theorem Shows.inside {text : String} {nodes : List Node} (h : Shows text nodes) :
    ShowsInside text nodes :=
  fun opened rest hopened => h opened (0x3C :: rest) hopened

theorem ShowsRun.inside {text : String} {nodes : List Node} (h : ShowsRun text nodes) : ShowsInside text nodes :=
  fun opened rest hopened => h opened (0x3C :: rest) hopened (by simp)

theorem shows_nil : Shows "" [] := fun _ _ _ => rfl

/-- Two texts in a row show their nodes in a row. -/
theorem Shows.append {text text' : String} {nodes nodes' : List Node} (h : Shows text nodes)
    (h' : Shows text' nodes') : Shows (text ++ text') (nodes ++ nodes') := by
  intro opened rest hopened
  rw [Utf8.ofString_append, List.append_assoc, h _ _ hopened, h' _ _ hopened, Pieces.prepend_append]

/-! ### Tokens -/

section
variable {t : PendingTag} {name : String}

/-- Markup leaves its token. -/
theorem lex_markup {fails : Bool} {bs rest : Bytes} {token : Token}
    (h : Token.markup bs = .token token rest) :
    Token.lex fails (0x3C :: bs) = (Token.lex fails rest).cons token := by
  rw [Token.lex, if_pos rfl]
  split
  · next heq =>
    rw [h] at heq
    cases heq
    rfl
  all_goals
    next heq =>
      rw [h] at heq
      cases heq

/-- A run of text leaves one token where it ends: in front of markup, or with the document. -/
theorem lex_run {bs rest : Bytes} (hne : bs ≠ []) (h : 0x3C ∉ bs) (hrest : ∀ b ∈ rest.head?, b = 0x3C) :
    Token.lex false (bs ++ rest) = (Token.lex false rest).cons (.text bs) := by
  obtain ⟨b, bs, rfl⟩ := List.exists_cons_of_ne_nil hne
  rw [List.mem_cons, not_or] at h
  have hall : ∀ c ∈ bs, (c != 0x3C) = true := by
    intro c hc
    rw [bne_iff_ne]
    rintro rfl
    exact h.2 hc
  have hstop : rest.dropWhile (· != 0x3C) = rest ∧ rest.takeWhile (· != 0x3C) = [] := by
    cases rest with
    | nil => exact ⟨rfl, rfl⟩
    | cons c rest =>
      obtain rfl := hrest c rfl
      exact ⟨rfl, rfl⟩
  have hdrop : (bs ++ rest).dropWhile (· != 0x3C) = rest := by
    rw [List.dropWhile_append_of_pos hall, hstop.1]
  have htake : (bs ++ rest).takeWhile (· != 0x3C) = bs := by
    rw [List.takeWhile_append_of_pos hall, hstop.2, List.append_nil]
  rw [List.cons_append, Token.lex, if_neg (Ne.symm h.1)]
  dsimp only
  rw [htake]
  split
  · next heq =>
    rw [hdrop] at heq
    subst heq
    rw [Token.lex]
    rfl
  · next heq =>
    rw [hdrop] at heq
    subst heq
    rfl

/-- A run of text in front of markup leaves one token. -/
theorem lex_text {bs rest : Bytes} (hne : bs ≠ []) (h : 0x3C ∉ bs) :
    Token.lex false (bs ++ 0x3C :: rest) = (Token.lex false (0x3C :: rest)).cons (.text bs) :=
  lex_run hne h (by simp)

/-- What stands behind the `<` of a tag that does not end an element. -/
theorem markup_tag (ht : IsTag t) (bs : Bytes) :
    Token.markup (tagBytes t ++ bs) = Token.openTag (tagBytes t ++ bs) := by
  obtain ⟨b, name, hname⟩ := ht.name.exists_cons
  have hmem : b ∈ Utf8.ofString t.name := by rw [hname]; exact List.mem_cons_self
  have hbang := ht.name.ne_of_mem hmem 0x21 (by decide) (by decide)
  have hslash := ht.name.ne_of_mem hmem 0x2F (by decide) (by decide)
  have hquestion := ht.name.ne_of_mem hmem 0x3F (by decide) (by decide)
  rw [tagBytes, hname, List.cons_append, List.cons_append, Token.markup.eq_def]
  dsimp only
  rw [if_neg (by simpa using hbang), if_neg (by simpa using hslash), if_neg (by simpa using hquestion)]

/-- A tag does not end with a slash. -/
theorem getLast?_tagBytes (ht : IsTag t) : (tagBytes t).getLast? ≠ some 0x2F := by
  intro h
  have hmem := List.mem_of_getLast? h
  unfold tagBytes at h
  cases hlist : t.attributes.getLast? with
  | none =>
    rw [List.getLast?_eq_none_iff.1 hlist, List.flatMap_nil, List.append_nil] at h
    exact ht.name.not_mem_ofString 0x2F (by decide) (by decide) (List.mem_of_getLast? h)
  | some a =>
    obtain ⟨front, hfront⟩ := List.getLast?_eq_some_iff.1 hlist
    rw [hfront, List.flatMap_append, List.flatMap_cons, List.flatMap_nil, List.append_nil, attributeBytes,
      ← List.append_assoc] at h
    rw [show (Utf8.ofString a.1 ++ 0x3D :: 0x22 :: (Utf8.ofString (escape a.2) ++ [0x22])) =
      (Utf8.ofString a.1 ++ 0x3D :: 0x22 :: Utf8.ofString (escape a.2)) ++ [0x22] from by simp] at h
    rw [← List.cons_append, ← List.append_assoc, List.getLast?_concat] at h
    exact absurd (Option.some.inj h) (by decide)

/-- The tag of an element that has an inside. -/
theorem lex_start (ht : IsTag t) (rest : Bytes) :
    Token.lex false (0x3C :: (tagBytes t ++ 0x3E :: rest)) =
      (Token.lex false rest).cons (.start (tagBytes t) false) := by
  apply lex_markup
  have hcut : Token.cutTag? none (0x3E :: rest) = some ([], rest) := rfl
  rw [markup_tag ht, Token.openTag, cutTag?_tag ht hcut, Token.closed, List.append_nil,
    if_neg (by simpa using getLast?_tagBytes ht)]

/-- The tag of an empty element. -/
theorem lex_empty (ht : IsTag t) (rest : Bytes) :
    Token.lex false (0x3C :: (tagBytes t ++ 0x2F :: 0x3E :: rest)) =
      (Token.lex false rest).cons (.start (tagBytes t) true) := by
  apply lex_markup
  have hcut : Token.cutTag? none (0x2F :: 0x3E :: rest) = some ([0x2F], rest) := rfl
  rw [markup_tag ht, Token.openTag, cutTag?_tag ht hcut, Token.closed, List.getLast?_concat,
    if_pos (by decide), List.dropLast_concat]

/-- The tag that ends an element. -/
theorem lex_finish (h : IsTagName name) (rest : Bytes) :
    Token.lex false (0x3C :: 0x2F :: (Utf8.ofString name ++ 0x3E :: rest)) =
      (Token.lex false rest).cons (.finish (Utf8.ofString name)) := by
  apply lex_markup
  have hcut : Token.cutTag? none (0x3E :: rest) = some ([], rest) := rfl
  have hname := cutTag?_plain (h.not_mem_ofString 0x3E (by decide) (by decide))
    (h.not_mem_ofString 0x22 (by decide) (by decide)) (h.not_mem_ofString 0x27 (by decide) (by decide)) hcut
  rw [Token.markup.eq_def]
  dsimp only
  rw [if_neg (by decide), if_pos (by decide), hname, Token.closed, List.append_nil]

/-! ### Nodes -/

/-- White space at the end of an end tag would not count, but a name ends with none. -/
theorem closingName_ofString (h : IsTagName name) :
    Node.closingName (Utf8.ofString name) = Utf8.ofString name := by
  obtain ⟨b, bs, hname⟩ := h.exists_cons
  have hspace : (Utf8.ofString name).all isSpace = false := by
    rw [hname, List.all_cons, h.not_isSpace (by rw [hname]; exact List.mem_cons_self), Bool.false_and]
  have hdrop : ∀ bs : Bytes, (∀ b ∈ bs, isSpace b = false) → bs.dropWhile isSpace = bs := by
    intro bs hbs
    cases bs with
    | nil => rfl
    | cons b bs => rw [List.dropWhile_cons, if_neg (by simp [hbs b List.mem_cons_self])]
  rw [Node.closingName, if_neg (by simp [hspace]),
    hdrop _ fun b hb => h.not_isSpace (List.mem_reverse.1 hb), List.reverse_reverse]

end

/-- A run of text shows itself where it ends, unless there is nothing of it. -/
theorem showsRun_text (s : String) : ShowsRun (escape s) (if s = "" then [] else [.text s]) := by
  intro opened rest _ hrest
  by_cases hempty : s = ""
  · subst hempty
    rfl
  · have hne : Utf8.ofString (escape s) ≠ [] := by
      intro hnil
      have hs := unescaped_escape s
      rw [hnil] at hs
      have hnothing := unescaped_escape ""
      rw [show Utf8.ofString (escape "") = [] from by decide, hs] at hnothing
      exact hempty (Except.ok.inj hnothing)
    rw [if_neg hempty, nodesWithin,
      lex_run hne (not_mem_ofString_escape 0x3C (by decide) (by decide) s) hrest]
    show Node.ofTokens _ opened (.text _ :: _) = _
    rw [Node.ofTokens, unescaped_escape]
    rfl

theorem showsInside_text (s : String) : ShowsInside (escape s) (if s = "" then [] else [.text s]) :=
  (showsRun_text s).inside

/-- An element as it is written; without a body it is an empty one. -/
def elementText (t : PendingTag) (body : Option String) : String :=
  match body with
  | none => "<" ++ t.render ++ "/>"
  | some text => "<" ++ t.render ++ ">" ++ text ++ "</" ++ t.name ++ ">"

/-- A start tag opens an element, and what stands behind it is inside. -/
theorem nodesWithin_start {t : PendingTag} {e : Element} {scope : Scope} {opened : List Frame} (ht : IsTag t)
    (hread : Element.ofTag (Node.scopeOf opened) (tagBytes t) = .ok (e, scope)) (rest : Bytes) :
    nodesWithin opened (0x3C :: (tagBytes t ++ 0x3E :: rest)) =
      (nodesWithin (⟨Utf8.ofString t.name, scope⟩ :: opened) rest).cons (.start e) := by
  rw [nodesWithin, lex_start ht]
  show Node.ofTokens _ opened (.start _ false :: _) = _
  rw [Node.ofTokens, hread]
  dsimp only
  rw [if_neg (by decide), nameOf_tagBytes ht]
  rfl

/-- An element is read as its start tag, what stands inside, and its end tag. Behind it, the scope is that of the place. -/
theorem nodesWithin_element {t : PendingTag} {e : Element} {scope : Scope} {opened : List Frame} {body : Option String}
    {nodes : List Node} (ht : IsTag t) (hread : Element.ofTag (Node.scopeOf opened) (tagBytes t) = .ok (e, scope))
    (hbody : ∀ rest, nodesWithin (⟨Utf8.ofString t.name, scope⟩ :: opened) (Utf8.ofString (body.getD "") ++ 0x3C :: rest) =
      (nodesWithin (⟨Utf8.ofString t.name, scope⟩ :: opened) (0x3C :: rest)).prepend nodes)
    (hnone : body = none → nodes = []) (rest : Bytes) :
    nodesWithin opened (Utf8.ofString (elementText t body) ++ rest) =
      (nodesWithin opened rest).prepend (.start e :: nodes ++ [.finish]) := by
  cases body with
  | none =>
    rw [hnone rfl, nodesWithin]
    have hbytes : Utf8.ofString (elementText t none) ++ rest =
        0x3C :: (tagBytes t ++ 0x2F :: 0x3E :: rest) := by
      rw [elementText, Utf8.ofString_append, Utf8.ofString_append, ofString_render,
        show Utf8.ofString "<" = [0x3C] from rfl, show Utf8.ofString "/>" = [0x2F, 0x3E] from rfl]
      simp only [List.append_assoc, List.cons_append, List.nil_append]
    rw [hbytes, lex_empty ht]
    show Node.ofTokens _ opened (.start _ true :: _) = _
    rw [Node.ofTokens, hread]
    rfl
  | some text =>
    have hbytes : Utf8.ofString (elementText t (some text)) ++ rest =
        0x3C :: (tagBytes t ++ 0x3E :: (Utf8.ofString text ++
          0x3C :: 0x2F :: (Utf8.ofString t.name ++ 0x3E :: rest))) := by
      rw [elementText]
      simp only [Utf8.ofString_append, ofString_render]
      rw [show Utf8.ofString "<" = [0x3C] from rfl, show Utf8.ofString ">" = [0x3E] from rfl,
        show Utf8.ofString "</" = [0x3C, 0x2F] from rfl]
      simp only [List.append_assoc, List.cons_append, List.nil_append]
    have hend : nodesWithin (⟨Utf8.ofString t.name, scope⟩ :: opened)
        (0x3C :: 0x2F :: (Utf8.ofString t.name ++ 0x3E :: rest)) = (nodesWithin opened rest).cons .finish := by
      rw [nodesWithin, lex_finish ht.name]
      show Node.ofTokens _ _ (.finish _ :: _) = _
      rw [Node.ofTokens, closingName_ofString ht.name]
      dsimp only
      rw [if_pos rfl]
      rfl
    rw [hbytes, nodesWithin_start ht hread, show text = (some text).getD "" from rfl, hbody, hend]
    simp only [Pieces.cons, Pieces.prepend, List.cons_append, List.append_assoc, List.nil_append]

/-- **An element shows its start tag, what its inside shows, and its end tag.** -/
theorem shows_element {t : PendingTag} {e : Element} {body : Option String} {nodes : List Node}
    (ht : StandsFor t e) (hbody : ShowsInside (body.getD "") nodes) (hnone : body = none → nodes = []) :
    Shows (elementText t body) (.start e :: nodes ++ [.finish]) := by
  intro opened rest hopened
  obtain ⟨scope, hscope, hofTag⟩ := ht.2 _ hopened
  exact nodesWithin_element ht.1 hofTag (fun rest => hbody _ rest hscope) hnone rest

/-- An empty element shows its tags. -/
theorem shows_empty {t : PendingTag} {e : Element} (ht : StandsFor t e) :
    Shows (elementText t none) [.start e, .finish] :=
  @shows_element t e none [] ht shows_nil.inside fun _ => rfl

/-- What is written for an element begins with markup. -/
theorem exists_ofString_elementText (tag : PendingTag) (body : Option String) :
    ∃ bs, Utf8.ofString (elementText tag body) = 0x3C :: bs := by
  cases body <;> simp only [elementText, String.append_assoc] <;> rw [Utf8.ofString_append] <;> exact ⟨_, rfl⟩

/-- The nodes of a document that begins with markup, which is no byte order mark. -/
theorem ofSource_markup (bs : Bytes) :
    Cursor.ofSource (.ofBytes (0x3C :: bs)) =
      ⟨(nodesWithin [] (0x3C :: bs)).items, (nodesWithin [] (0x3C :: bs)).ending, []⟩ := by
  have hmark : Token.byteOrderMark.isPrefixOf (0x3C :: bs) = false := rfl
  unfold Cursor.ofSource Node.ofSource Token.ofSource Source.ofBytes
  dsimp only
  rw [hmark, if_neg (by decide)]
  rfl

/-- What is read from a document that is one element. -/
theorem ofSource_element {t : PendingTag} {body : Option String} {nodes : List Node} {ending : Ending}
    (h : nodesWithin [] (Utf8.ofString (elementText t body)) = ⟨nodes, ending⟩) :
    Cursor.ofSource (.ofBytes (Utf8.ofString (elementText t body))) = ⟨nodes, ending, []⟩ := by
  obtain ⟨bs, hbs⟩ := exists_ofString_elementText t body
  rw [hbs] at h
  rw [hbs, ofSource_markup, h]

theorem nodesWithin_nil : nodesWithin [] [] = ⟨[], .complete⟩ := by
  rw [nodesWithin, Token.lex]
  rfl

/-- A document that is one element shows the nodes of the element and nothing behind them. -/
theorem ofSource_elementText {t : PendingTag} {body : Option String} {nodes : List Node}
    (h : Shows (elementText t body) nodes) :
    Cursor.ofSource (.ofBytes (Utf8.ofString (elementText t body))) = ⟨nodes, .complete, []⟩ := by
  have hnodes := h [] [] Scope.isBare_initial
  rw [List.append_nil, nodesWithin_nil] at hnodes
  rw [ofSource_element hnodes]
  simp

end SoapBinding.Xml
