import SoapBinding.Proofs.Xml.Passing

/-!
# What stands in a scope

A written element may be at fault for a reader: a tag may give an attribute twice, or name a type of a namespace that cannot
be declared. So it is not known beforehand which nodes it shows. But it is cut into the same tokens wherever it stands, and
from these the same nodes are read wherever the same namespaces are in scope: whole elements and texts, or nodes up to a fault
that closes nothing of what stands around (`Token.AreNested.outcome`).

An element that is read from a document of its own is therefore read from any place with the same scope
(`Markup.shows_or_breaks`). One without attributes has inside it the scope that is around it (`showsIn_plain`).
-/

namespace SoapBinding.Xml

open Node (scopeOf ofTokens leaves? AreWhole)

variable {scope : Scope} {tokens : List Token} {nodes nodes' inner : List Node} {text text' name : String} {fault : Error}

/-! ### Tokens -/

/-- In a scope, tokens are read as nodes, whatever stands behind them. -/
def Token.AreRead (scope : Scope) (tokens : List Token) (nodes : List Node) : Prop :=
  ∀ ending opened more, scopeOf opened = scope →
    ofTokens ending opened (tokens ++ more) = (ofTokens ending opened more).prepend nodes

/-- In a scope, tokens are read up to a fault, so that it does not matter what stands behind them. -/
def Token.AreFaulty (scope : Scope) (tokens : List Token) (nodes : List Node) (fault : Error) : Prop :=
  ∀ ending opened more, scopeOf opened = scope → ofTokens ending opened (tokens ++ more) = ⟨nodes, .failed fault⟩

/-- The nodes of some tokens in a scope: whole elements and texts, or nodes that close no element around, up to a fault. -/
inductive Token.IsOutcome (scope : Scope) (tokens : List Token) : Prop where
  | read (nodes : List Node) : AreWhole nodes → AreRead scope tokens nodes → IsOutcome scope tokens
  | faulty (nodes : List Node) (fault : Error) : (leaves? [] nodes).isSome → AreFaulty scope tokens nodes fault →
      IsOutcome scope tokens

/-- Tokens in front that are read as whole elements and texts. -/
theorem Token.IsOutcome.behind {front : List Token} (h : IsOutcome scope tokens) (hwhole : AreWhole nodes)
    (hfront : AreRead scope front nodes) : IsOutcome scope (front ++ tokens) := by
  obtain ⟨nodes', hnodes', hread⟩ | ⟨nodes', fault, hnodes', hfaulty⟩ := h
  · refine .read (nodes ++ nodes') ((Node.leaves?_trans hwhole).trans hnodes') fun ending opened more hopened => ?_
    rw [List.append_assoc, hfront _ _ _ hopened, hread _ _ _ hopened, Pieces.prepend_append]
  · refine .faulty (nodes ++ nodes') fault (by rwa [Node.leaves?_trans hwhole]) fun ending opened more hopened => ?_
    rw [List.append_assoc, hfront _ _ _ hopened, hfaulty _ _ _ hopened]
    rfl

/-- A fault in the first token. -/
theorem Token.IsOutcome.failed {token : Token}
    (h : ∀ ending opened more, scopeOf opened = scope → ofTokens ending opened (token :: more) = .none (.failed fault)) :
    IsOutcome scope (token :: tokens) :=
  .faulty [] fault rfl fun _ _ more hopened => h _ _ (tokens ++ more) hopened

/-- The nodes of one element, with whole elements and texts inside. -/
theorem areWhole_element (e : Element) (h : AreWhole inner) : AreWhole (.start e :: (inner ++ [.finish])) := by
  show leaves? [e] (inner ++ [.finish]) = some []
  rw [Node.leaves?_trans (h.leaves? [e])]
  rfl

section
variable {tag name : Bytes} {e : Element} {insideScope : Scope} {inside : List Token}

theorem Token.ofTokens_start (htag : Element.ofTag scope tag = .ok (e, insideScope)) (ending : Ending) {opened : List Frame}
    (more : List Token) (hopened : scopeOf opened = scope) : ofTokens ending opened (.start tag false :: more) =
      (ofTokens ending (⟨Element.nameOf tag, insideScope⟩ :: opened) more).cons (.start e) := by
  rw [ofTokens, hopened, htag]
  rfl

theorem Token.areRead_empty (htag : Element.ofTag scope tag = .ok (e, insideScope)) :
    AreRead scope [.start tag true] [.start e, .finish] := by
  intro ending opened more hopened
  rw [List.singleton_append, ofTokens, hopened, htag]
  rfl

/-- Inside an element, the scope is that of its tag; behind the end tag it is that of the place again. -/
theorem Token.AreRead.element (h : AreRead insideScope inside inner) (hname : Node.closingName name = Element.nameOf tag)
    (htag : Element.ofTag scope tag = .ok (e, insideScope)) :
    AreRead scope (.start tag false :: (inside ++ [.finish name])) (.start e :: (inner ++ [.finish])) := by
  intro ending opened more hopened
  rw [List.cons_append, List.append_assoc, ofTokens_start htag ending _ hopened, h _ _ _ rfl, List.singleton_append,
    ofTokens]
  dsimp only
  rw [if_pos hname]
  simp [Pieces.cons, Pieces.prepend]

theorem Token.AreFaulty.element (h : AreFaulty insideScope inside inner fault) (hleaves : (leaves? [] inner).isSome)
    (htag : Element.ofTag scope tag = .ok (e, insideScope)) (tokens : List Token) :
    (leaves? [] (.start e :: inner)).isSome ∧
      AreFaulty scope (.start tag false :: (inside ++ tokens)) (.start e :: inner) fault := by
  refine ⟨?_, fun ending opened more hopened => ?_⟩
  · obtain ⟨left, hleft⟩ := Option.isSome_iff_exists.1 hleaves
    exact Option.isSome_iff_exists.2 ⟨left ++ [e], Node.leaves?_inside hleft⟩
  · rw [List.cons_append, List.append_assoc, ofTokens_start htag ending _ hopened, h _ _ _ rfl]
    rfl

end

/-- **Nested tokens are read alike wherever the scope is the same**, or they are at fault alike. -/
theorem Token.AreNested.outcome (h : AreNested tokens) (scope : Scope) : IsOutcome scope tokens := by
  induction h generalizing scope with
  | nil => exact .read [] rfl fun _ _ _ _ => rfl
  | @text raw rest _ ih =>
    cases htext : Element.unescaped raw with
    | error fault => exact .failed fun _ _ _ _ => by rw [ofTokens, htext]
    | ok s =>
      have hread : AreRead scope [.text raw] [.text s] := fun _ _ _ _ => by
        rw [List.singleton_append, ofTokens, htext]
        rfl
      have hwhole : AreWhole [.text s] := rfl
      exact (ih scope).behind hwhole hread
  | @empty tag rest _ ih =>
    cases htag : Element.ofTag scope tag with
    | error fault => exact .failed fun _ _ _ hopened => by rw [ofTokens, hopened, htag]
    | ok read =>
      have hwhole : AreWhole [.start read.1, .finish] := rfl
      exact (ih scope).behind hwhole (areRead_empty htag)
  | @element tag name inside rest hname _ _ ihInside ihRest =>
    cases htag : Element.ofTag scope tag with
    | error fault => exact .failed fun _ _ _ hopened => by rw [ofTokens, hopened, htag]
    | ok read =>
      obtain ⟨nodes, hnodes, hread⟩ | ⟨nodes, fault, hnodes, hfaulty⟩ := ihInside read.2
      · have hbehind := (ihRest scope).behind (areWhole_element read.1 hnodes) (hread.element hname htag)
        rwa [List.cons_append, List.append_assoc] at hbehind
      · obtain ⟨hleaves, hfaulty⟩ := hfaulty.element hnodes htag (.finish name :: rest)
        exact .faulty _ fault hleaves hfaulty

/-! ### Texts -/

/-- In a scope, a text is read as nodes, whatever stands behind it. -/
def ShowsIn (scope : Scope) (text : String) (nodes : List Node) : Prop :=
  ∀ opened rest, scopeOf opened = scope →
    nodesWithin opened (Utf8.ofString text ++ rest) = (nodesWithin opened rest).prepend nodes

/-- In a scope, a text is read up to a fault, with some elements left open. -/
def FailsIn (scope : Scope) (text : String) : Prop :=
  ∃ nodes fault, (leaves? [] nodes).isSome ∧
    ∀ opened rest, scopeOf opened = scope → nodesWithin opened (Utf8.ofString text ++ rest) = ⟨nodes, .failed fault⟩

/-- In a scope, an element is read up to a fault in front of its end tag. -/
def BreaksIn (scope : Scope) (text : String) : Prop :=
  ∃ nodes fault, (leaves? [] nodes).isSome ∧ (∀ e ns rest, Node.AreElement e ns → nodes ≠ ns ++ rest) ∧
    ∀ opened rest, scopeOf opened = scope → nodesWithin opened (Utf8.ofString text ++ rest) = ⟨nodes, .failed fault⟩

theorem BreaksIn.failsIn (h : BreaksIn scope text) : FailsIn scope text := by
  obtain ⟨nodes, fault, hleaves, -, hfails⟩ := h
  exact ⟨nodes, fault, hleaves, hfails⟩

theorem Shows.showsIn (h : Shows text nodes) (hscope : scope.IsBare) : ShowsIn scope text nodes := by
  rintro opened rest rfl
  exact h opened rest hscope

theorem showsIn_nil (scope : Scope) : ShowsIn scope "" [] := fun _ _ _ => rfl

/-- A text shows one row of nodes. -/
theorem ShowsIn.eq {nodes' : List Node} (h : ShowsIn .initial text nodes) (h' : ShowsIn .initial text nodes') :
    nodes = nodes' := by
  have hsame := (h [] [] rfl).symm.trans (h' [] [] rfl)
  rw [nodesWithin_nil] at hsame
  simpa [Pieces.prepend] using congrArg Pieces.items hsame

/-- And there is no fault in it. -/
theorem ShowsIn.not_failsIn (h : ShowsIn .initial text nodes) : ¬FailsIn .initial text := by
  rintro ⟨nodes', fault, -, hfails⟩
  have hsame := (h [] [] rfl).symm.trans (hfails [] [] rfl)
  rw [nodesWithin_nil] at hsame
  cases hsame

theorem ShowsIn.append (h : ShowsIn scope text nodes) (h' : ShowsIn scope text' nodes') :
    ShowsIn scope (text ++ text') (nodes ++ nodes') := by
  intro opened rest hopened
  rw [Utf8.ofString_append, List.append_assoc, h _ _ hopened, h' _ _ hopened, Pieces.prepend_append]

/-- What stands behind a fault is not read. -/
theorem FailsIn.append (h : FailsIn scope text) (text' : String) : FailsIn scope (text ++ text') := by
  obtain ⟨nodes, fault, hnodes, hfails⟩ := h
  refine ⟨nodes, fault, hnodes, fun opened rest hopened => ?_⟩
  rw [Utf8.ofString_append, List.append_assoc, hfails _ _ hopened]

theorem FailsIn.behind (h : FailsIn scope text') (hwhole : AreWhole nodes) (hfront : ShowsIn scope text nodes) :
    FailsIn scope (text ++ text') := by
  obtain ⟨nodes', fault, hnodes', hfails⟩ := h
  refine ⟨nodes ++ nodes', fault, by rwa [Node.leaves?_trans hwhole], fun opened rest hopened => ?_⟩
  rw [Utf8.ofString_append, List.append_assoc, hfront _ _ hopened, hfails _ _ hopened]
  rfl

theorem showsIn_of_lexes (hlexes : Lexes (Utf8.ofString text) tokens) (hread : Token.AreRead scope tokens nodes) :
    ShowsIn scope text nodes := by
  intro opened rest hopened
  rw [nodesWithin, hlexes]
  exact hread _ _ _ hopened

/-- Nodes that leave an element open hold none as a whole in front. -/
theorem ne_append_of_leaves {e e' : Element} {ns rest : List Node} (hleaves : (leaves? [] nodes).isSome)
    (hns : Node.AreElement e' ns) : .start e :: nodes ≠ ns ++ rest := by
  obtain ⟨blanks, inner, hblanks, hinner, rfl⟩ := hns
  intro heq
  cases blanks with
  | nil =>
    rw [List.nil_append, List.cons_append, List.append_assoc] at heq
    obtain ⟨-, rfl⟩ := List.cons.inj heq
    rw [Node.leaves?_trans hinner] at hleaves
    cases hleaves
  | cons blank blanks =>
    obtain ⟨rfl, -⟩ := List.cons.inj heq
    exact absurd (hblanks _ List.mem_cons_self) (by simp [Cursor.isBlankText])

theorem nil_ne_append {e : Element} {ns rest : List Node} (hns : Node.AreElement e ns) : [] ≠ ns ++ rest := by
  obtain ⟨blanks, inner, -, -, rfl⟩ := hns
  simp

/-- **A written element is read as one element, or it is at fault**, in all places of one scope alike. -/
theorem Markup.shows_or_breaks {m : Markup} (hm : m.IsElement name) (htags : ∀ t ∈ m.tags, IsTag t) (scope : Scope) :
    (∃ e inner, AreWhole inner ∧ ShowsIn scope m.render (.start e :: (inner ++ [.finish]))) ∨ BreaksIn scope m.render := by
  obtain ⟨attributes, body, rfl⟩ := hm
  rw [tags_around, List.forall_mem_cons] at htags
  obtain ⟨htag, htags⟩ := htags
  rw [render_around]
  have hbreaks {text : String} {tokens : List Token} (hlexes : Lexes (Utf8.ofString text) tokens) {nodes : List Node}
      {fault : Error} (hleaves : (leaves? [] nodes).isSome) (hnone : ∀ e ns rest, Node.AreElement e ns → nodes ≠ ns ++ rest)
      (hfaulty : Token.AreFaulty scope tokens nodes fault) : BreaksIn scope text := by
    refine ⟨nodes, fault, hleaves, hnone, fun opened rest hopened => ?_⟩
    rw [nodesWithin, hlexes]
    exact hfaulty _ _ _ hopened
  cases hofTag : Element.ofTag scope (tagBytes ⟨name, attributes⟩) with
  | error fault =>
    have hfaulty {isEmpty : Bool} {rest : List Token} :
        Token.AreFaulty scope (.start (tagBytes ⟨name, attributes⟩) isEmpty :: rest) [] fault := by
      intro ending opened more hopened
      rw [List.cons_append, ofTokens, hopened, hofTag]
      rfl
    cases body with
    | none => exact .inr (hbreaks (lexes_empty htag) rfl (fun _ _ _ => nil_ne_append) hfaulty)
    | some row =>
      have hlexes := lexes_element htag (lexes_tokensBehind row [] List.not_mem_nil htags)
      exact .inr (hbreaks hlexes rfl (fun _ _ _ => nil_ne_append) hfaulty)
  | ok read =>
    cases body with
    | none => exact .inl ⟨read.1, [], rfl, showsIn_of_lexes (lexes_empty htag) (Token.areRead_empty hofTag)⟩
    | some row =>
      have hlexes := lexes_element htag (lexes_tokensBehind row [] List.not_mem_nil htags)
      have hname := (closingName_ofString htag.name).trans (nameOf_tagBytes htag).symm
      obtain ⟨inner, hinner, hread⟩ | ⟨nodes, fault, hnodes, hfaulty⟩ :=
        (areNested_tokensBehind row [] htags).outcome read.2
      · exact .inl ⟨read.1, inner, hinner, showsIn_of_lexes hlexes (hread.element hname hofTag)⟩
      · obtain ⟨hleaves, hfaulty⟩ := hfaulty.element hnodes hofTag [.finish (Utf8.ofString name)]
        exact .inr (hbreaks hlexes hleaves (fun _ _ _ => ne_append_of_leaves hnodes) hfaulty)

/-! ### Elements without attributes -/

/-- An element without attributes leaves the scope as it is. -/
theorem ofTag_plain (h : IsName name) (hscope : scope.IsBare) :
    Element.ofTag scope (tagBytes ⟨name, []⟩) = .ok (⟨name, none, [], none⟩, scope) := by
  obtain ⟨scope', -, hread⟩ := (standsFor_plain h).2 scope hscope
  have henter := (Element.ofTag_eq_ok.1 hread).1
  rw [scan_tag (standsFor_plain h).1] at henter
  obtain rfl : scope = scope' := Except.ok.inj henter
  exact hread

/-- An element without attributes shows its tags around what its inside shows in the same scope. -/
theorem showsIn_plain {body : Option String} (h : IsName name) (hscope : scope.IsBare)
    (hbody : ShowsIn scope (body.getD "") nodes) (hnone : body = none → nodes = []) :
    ShowsIn scope (elementText ⟨name, []⟩ body) (.start ⟨name, none, [], none⟩ :: nodes ++ [.finish]) := by
  rintro opened rest rfl
  refine nodesWithin_element (standsFor_plain h).1 (ofTag_plain h hscope) (fun rest => hbody _ _ rfl) hnone rest

/-- An element without attributes is at fault where its inside is. -/
theorem breaksIn_plain {text : String} (h : IsName name) (hscope : scope.IsBare) (hfails : FailsIn scope text) :
    BreaksIn scope (elementText ⟨name, []⟩ (some text)) := by
  obtain ⟨nodes, fault, hleaves, hfails⟩ := hfails
  obtain ⟨left, hleft⟩ := Option.isSome_iff_exists.1 hleaves
  refine ⟨.start ⟨name, none, [], none⟩ :: nodes, fault, Option.isSome_iff_exists.2 ⟨left ++ [_], Node.leaves?_inside hleft⟩,
    fun _ _ _ => ne_append_of_leaves hleaves, ?_⟩
  rintro opened rest rfl
  have htag := (standsFor_plain h).1
  have hbytes : Utf8.ofString (elementText ⟨name, []⟩ (some text)) ++ rest =
      0x3C :: (tagBytes ⟨name, []⟩ ++ 0x3E :: (Utf8.ofString text ++ (Utf8.ofString ("</" ++ name ++ ">") ++ rest))) := by
    rw [elementText]
    simp only [Utf8.ofString_append, ofString_render]
    rw [show Utf8.ofString "<" = [0x3C] from rfl, show Utf8.ofString ">" = [0x3E] from rfl]
    simp only [List.append_assoc, List.cons_append, List.nil_append]
  have hinside := hfails (⟨Utf8.ofString name, scopeOf opened⟩ :: opened)
  rw [hbytes, nodesWithin_start htag (ofTag_plain h hscope), hinside _ rfl]
  rfl

/-! ### Documents -/

/-- A document that is one element shows the nodes of the element and nothing behind them. -/
theorem ofSource_showsIn {t : PendingTag} {body : Option String} (h : ShowsIn .initial (elementText t body) nodes) :
    Cursor.ofSource (.ofBytes (Utf8.ofString (elementText t body))) = ⟨nodes, .complete, []⟩ := by
  have hnodes := h [] [] rfl
  rw [List.append_nil, nodesWithin_nil] at hnodes
  rw [ofSource_element hnodes]
  simp

/-- A document that is an element at fault ends in the fault, in front of the end tag. -/
theorem ofSource_breaksIn {t : PendingTag} {body : Option String} (h : BreaksIn .initial (elementText t body)) :
    ∃ nodes fault, (∀ e ns rest, Node.AreElement e ns → nodes ≠ ns ++ rest) ∧
      Cursor.ofSource (.ofBytes (Utf8.ofString (elementText t body))) = ⟨nodes, .failed fault, []⟩ := by
  obtain ⟨nodes, fault, -, hnone, hbreaks⟩ := h
  have hnodes := hbreaks [] [] rfl
  rw [List.append_nil] at hnodes
  exact ⟨nodes, fault, hnone, ofSource_element hnodes⟩

end SoapBinding.Xml
