import SoapBinding.Proofs.Xml.Calls

/-!
# Forests, written and read back

A forest is a row of texts and elements. Writing it call by call and reading the document node by node gives the forest again,
except that a reader cannot tell where one text ends and the next begins, nor that there has been an empty one
(`Node.merged`):

    drain_written : … drain n (ofSource document) = .ok (unmarked (merged (nodesAll forest))) ⟨[], .complete, []⟩

A run of text ends only where markup begins. So a row is looked at together with the text in front of it, to which its own
first texts add (`showsRun_all`). At the very start of a document, one character of a text is lost: the one that is taken for
the mark of UTF-8 (`Node.unmarked`).
-/

namespace SoapBinding.Xml

open Outcome

/-- A text, or an element around a row of trees. -/
inductive Tree where
  | text (t : String)
  | element (tag : PendingTag) (body : List Tree)

namespace Tree

mutual

/-- The calls that write a tree. -/
def calls : Tree → List Sink.Call
  | text t => [.text t]
  | element tag body =>
    .startElement tag.name :: (tag.attributes.map (fun a => .addAttribute a.1 a.2) ++ (callsAll body ++ [.endElement]))

/-- The calls that write a row of trees. -/
def callsAll : List Tree → List Sink.Call
  | [] => []
  | t :: rest => t.calls ++ callsAll rest

end

mutual

/-- The nodes of a tree, one for each text. -/
def nodes : Tree → List Node
  | text t => [.text t]
  | element tag body => .start tag.element :: (nodesAll body ++ [.finish])

/-- The nodes of a row of trees. -/
def nodesAll : List Tree → List Node
  | [] => []
  | t :: rest => t.nodes ++ nodesAll rest

end

mutual

/-- The tags of a tree. -/
def tags : Tree → List PendingTag
  | text _ => []
  | element tag body => tag :: tagsAll body

/-- The tags of a row of trees. -/
def tagsAll : List Tree → List PendingTag
  | [] => []
  | t :: rest => t.tags ++ tagsAll rest

end

mutual

/-- A tree as it is written. -/
def render : Tree → String
  | text t => escape t
  | element tag body => elementText tag (renderAll body)

/-- A row of trees as it is written, unless there is none. -/
def renderAll : List Tree → Option String
  | [] => none
  | t :: rest => Option.merge (· ++ ·) (some t.render) (renderAll rest)

end

mutual

/-- A tree without the empty texts in it. -/
def filled : Tree → List Tree
  | text t => if t = "" then [] else [text t]
  | element tag body => [element tag (filledAll body)]

/-- A row of trees without the empty texts in it. -/
def filledAll : List Tree → List Tree
  | [] => []
  | t :: rest => t.filled ++ filledAll rest

end

theorem renderAll_cons (t : Tree) (rest : List Tree) :
    (renderAll (t :: rest)).getD "" = t.render ++ (renderAll rest).getD "" := by
  rw [renderAll]
  cases renderAll rest <;> simp

end Tree

/-! ### Writing -/

namespace Sink

/-- Calls in a row, up to the first that fails. -/
def performAll : List Call → Writing Unit
  | [] => pure ()
  | c :: rest => do
    c.perform
    performAll rest

theorem performAll_append (calls calls' : List Call) :
    performAll (calls ++ calls') = (performAll calls >>= fun _ => performAll calls') := by
  induction calls with
  | nil => rw [List.nil_append, performAll, pure_bind]
  | cons c calls ih => rw [List.cons_append, performAll, performAll, ih, bind_assoc]

/-- The calls succeed where nothing limits the document, and add a body to it. -/
def Writes (calls : List Call) (body : Option String) : Prop :=
  ∀ opened s, Stands opened s → performAll calls s = .ok () (s.wrote [] body)

variable {calls calls' : List Call} {body body' : Option String}

theorem writes_nil : Writes [] none := fun _ s _ => by rw [wrote_nothing]; rfl

theorem Writes.append (h : Writes calls body) (h' : Writes calls' body') :
    Writes (calls ++ calls') (Option.merge (· ++ ·) body body') := by
  intro opened s hs
  rw [performAll_append, bind_ok (h opened s hs), h' opened _ (hs.wrote _ _), wrote_wrote]

theorem writes_text (t : String) : Writes [.text t] (some (escape t)) := by
  intro opened s hs
  obtain ⟨s', hok⟩ := text_ok hs.limit t
  rw [text_eq hok] at hok
  rw [performAll, Call.perform, bind_ok hok]
  rfl

/-- Attributes come one behind the other. -/
theorem performAll_attributes (s : Sink) (name : String) (attributes front : List (String × String)) :
    performAll (attributes.map fun a => .addAttribute a.1 a.2) ((s.started name).wrote front none) =
      .ok () ((s.started name).wrote (front ++ attributes) none) := by
  induction attributes generalizing front with
  | nil => rw [List.append_nil]; rfl
  | cons a attributes ih =>
    obtain ⟨s', hok⟩ := addAttribute_ok s name a.1 a.2 front
    rw [addAttribute_eq hok, wrote_attributes] at hok
    rw [List.map_cons, performAll, Call.perform, bind_ok hok, ih, List.append_assoc]
    rfl

/-- Calls that add attributes, a body and the end make an element. -/
theorem Writes.marked {marking : List Call} {name : String} {attributes : List (String × String)}
    (hmarking : ∀ s : Sink, performAll marking (s.started name) = .ok () ((s.started name).wrote attributes none))
    (h : Writes calls body) :
    Writes (.startElement name :: (marking ++ (calls ++ [.endElement]))) (some (elementText ⟨name, attributes⟩ body)) := by
  intro opened s hs
  have hstands : ((s.started name).wrote attributes none).Stands (name :: opened) := (hs.started name).wrote _ _
  -- The tag waits up to here, with the attributes in it.
  have hbody := h _ _ hstands
  rw [wrote_attributes, List.append_nil] at hbody
  obtain ⟨s', hend, -⟩ := endElement_ok ((hs.started name).wrote attributes body)
  rw [performAll, Call.perform, bind_ok (startElement_ok hs.limit name), performAll_append, bind_ok (hmarking s),
    performAll_append, bind_ok hbody, performAll, Call.perform, bind_ok hend, endElement_eq hend]
  rfl

theorem Writes.element {tag : PendingTag} (h : Writes calls body) :
    Writes (.startElement tag.name :: (tag.attributes.map (fun a => .addAttribute a.1 a.2) ++ (calls ++ [.endElement])))
      (some (elementText tag body)) := by
  refine Writes.marked (fun s => ?_) h
  have hattributes := performAll_attributes s tag.name tag.attributes []
  rwa [wrote_nothing, List.nil_append] at hattributes

/-- Calls that write a text make it a document. -/
theorem Writes.exists_document (h : Writes calls body) :
    ∃ s', performAll calls (.empty none) = .ok () s' ∧ s'.finish = .ok (body.getD "") := by
  refine ⟨_, h [] (.empty none) ⟨rfl, rfl⟩, ?_⟩
  cases body with
  | none => rfl
  | some text =>
    show Except.ok ("" ++ "" ++ text) = _
    rw [String.empty_append, String.empty_append]
    rfl

end Sink

mutual

/-- **The calls of a tree write it**, each of them. -/
theorem Tree.writes : ∀ t : Tree, Sink.Writes t.calls (some t.render)
  | .text t => Sink.writes_text t
  | .element _ body => (writesAll body).element

theorem Tree.writesAll : ∀ row : List Tree, Sink.Writes (callsAll row) (renderAll row)
  | [] => Sink.writes_nil
  | t :: rest => t.writes.append (writesAll rest)

end

/-! ### Texts in a row -/

namespace Node

/-- A text, unless there is nothing of it. -/
def ofText (s : String) : List Node := if s = "" then [] else [.text s]

/-- Nodes behind a text, with texts in a row made one. -/
def mergedBehind (s : String) : List Node → List Node
  | [] => ofText s
  | .text t :: rest => mergedBehind (s ++ t) rest
  | .start e :: rest => ofText s ++ .start e :: mergedBehind "" rest
  | .finish :: rest => ofText s ++ .finish :: mergedBehind "" rest

/-- Nodes with texts in a row made one, and without empty texts. -/
def merged (nodes : List Node) : List Node := mergedBehind "" nodes

/-- No text goes on behind an end tag. -/
theorem mergedBehind_append_finish (s : String) (front back : List Node) :
    mergedBehind s (front ++ .finish :: back) = mergedBehind s front ++ .finish :: merged back := by
  induction front generalizing s with
  | nil => rfl
  | cons n front ih => cases n <;> simp [mergedBehind, ih]

end Node

/-- Empty texts leave nothing to be read. -/
theorem Tree.mergedBehind_filledAll : ∀ (row : List Tree) (s : String) (behind : List Node),
    Node.mergedBehind s (nodesAll (filledAll row) ++ behind) = Node.mergedBehind s (nodesAll row ++ behind)
  | [], _, _ => rfl
  | .text t :: rest, s, behind => by
    have ih := mergedBehind_filledAll rest (s ++ t) behind
    by_cases ht : t = ""
    · subst ht
      simpa [filledAll, filled, nodesAll, nodes, Node.mergedBehind] using ih
    · simpa [filledAll, filled, nodesAll, nodes, Node.mergedBehind, ht] using ih
  | .element tag body :: rest, s, behind => by
    have hbody := mergedBehind_filledAll body "" []
    have hrest := mergedBehind_filledAll rest "" behind
    rw [List.append_nil, List.append_nil] at hbody
    simp [filledAll, filled, nodesAll, nodes, Node.mergedBehind, Node.mergedBehind_append_finish, Node.merged, hbody, hrest]

theorem Tree.tagsAll_filledAll : ∀ row : List Tree, tagsAll (filledAll row) = tagsAll row
  | [] => rfl
  | .text t :: rest => by
    have ih := tagsAll_filledAll rest
    by_cases ht : t = "" <;> simpa [filledAll, filled, tagsAll, tags, ht] using ih
  | .element tag body :: rest => by
    simp [filledAll, filled, tagsAll, tags, tagsAll_filledAll body, tagsAll_filledAll rest]

/-! ### Reading -/

/-- A text, an element behind it, and what stands behind the element. -/
theorem ShowsRun.before {front text back : String} {nodes nodes' nodes'' : List Node} (hfront : ShowsRun front nodes)
    (h : Shows text nodes') (hmarkup : ∃ bs, Utf8.ofString text = 0x3C :: bs) (hback : ShowsRun back nodes'') :
    ShowsRun (front ++ (text ++ back)) (nodes ++ (nodes' ++ nodes'')) := by
  intro opened rest hopened hrest
  obtain ⟨bs, hbs⟩ := hmarkup
  have hinside := hback opened rest hopened hrest
  have htext := h opened (Utf8.ofString back ++ rest) hopened
  rw [Utf8.ofString_append, Utf8.ofString_append, List.append_assoc, List.append_assoc,
    hfront opened _ hopened (by simp [hbs]), htext, hinside, Pieces.prepend_append, Pieces.prepend_append]

mutual

/-- An element that has been written shows its nodes. -/
theorem Tree.shows_element (tag : PendingTag) (body : List Tree) (h : ∀ t ∈ (element tag body).tags, t.IsPlain) :
    Shows (element tag body).render (.start tag.element :: Node.merged (nodesAll body) ++ [.finish]) := by
  obtain ⟨htag, hbody⟩ := List.forall_mem_cons.1 h
  have hrow := (showsRun_all body "" hbody).inside
  refine Xml.shows_element (standsFor_element htag) (by simpa [escape, Node.merged] using hrow) fun hnone => ?_
  -- A tag that ends itself has no body, while an empty text makes a body that shows nothing.
  cases body with
  | nil => rfl
  | cons t rest => cases hrest : renderAll rest <;> simp [renderAll, hrest] at hnone

/-- **A row of trees behind a text shows its nodes**, with the text merged into them. -/
theorem Tree.showsRun_all (row : List Tree) (s : String) (h : ∀ t ∈ tagsAll row, t.IsPlain) :
    ShowsRun (escape s ++ (renderAll row).getD "") (Node.mergedBehind s (nodesAll row)) := by
  cases row with
  | nil => simpa [renderAll, nodesAll, Node.mergedBehind, Node.ofText] using showsRun_text s
  | cons t rest =>
    have hrest : ∀ t ∈ tagsAll rest, t.IsPlain := fun t ht => h t (List.mem_append_right _ ht)
    rw [renderAll_cons]
    cases t with
    | text t =>
      -- The run of text goes on.
      have hrow := showsRun_all rest (s ++ t) hrest
      rwa [escape_append, String.append_assoc] at hrow
    | element tag body =>
      -- Markup ends the run, and another one starts behind the element.
      have hfirst := shows_element tag body fun t ht => h t (List.mem_append_left _ ht)
      have hrow := showsRun_all rest "" hrest
      rw [show escape "" = "" from rfl, String.empty_append] at hrow
      have hnodes : Node.mergedBehind s (nodesAll (element tag body :: rest)) =
          Node.ofText s ++ ((.start tag.element :: Node.merged (nodesAll body) ++ [.finish]) ++
            Node.mergedBehind "" (nodesAll rest)) := by
        simp [nodesAll, nodes, Node.mergedBehind, Node.mergedBehind_append_finish, Node.merged]
      rw [hnodes]
      exact (showsRun_text s).before hfirst (exists_ofString_elementText tag _) hrow

end

/-! ### The start of a document -/

/-- The character that the mark of UTF-8 stands for. -/
def byteOrderChar : Char := '\uFEFF'

/-- Characters without the mark that may stand in front of them. -/
def withoutMark : List Char → List Char
  | [] => []
  | c :: cs => if c = byteOrderChar then cs else c :: cs

/-- What is read of the first text of a document. -/
def unmarkedText (s : String) : String := String.ofList (withoutMark s.toList)

/-- Nodes without the mark that may stand in front of a document. -/
def Node.unmarked : List Node → List Node
  | .text s :: rest => ofText (unmarkedText s) ++ rest
  | nodes => nodes

/-- The mark is passed over, as the bytes of a character. -/
theorem drop_byteOrderMark (cs : List Char) :
    (if Token.byteOrderMark.isPrefixOf (Utf8.encode cs) then (Utf8.encode cs).drop 3 else Utf8.encode cs) =
      Utf8.encode (withoutMark cs) := by
  have hmark : Token.byteOrderMark = String.utf8EncodeChar byteOrderChar := by decide
  cases cs with
  | nil => rfl
  | cons c cs =>
    rw [withoutMark, Utf8.encode_cons]
    by_cases hc : c = byteOrderChar
    · subst hc
      have hprefix : Token.byteOrderMark.isPrefixOf (String.utf8EncodeChar byteOrderChar ++ Utf8.encode cs) = true := by
        rw [hmark, List.isPrefixOf_iff_prefix]
        exact List.prefix_append _ _
      rw [if_pos hprefix, if_pos rfl, show 3 = (String.utf8EncodeChar byteOrderChar).length from by decide, List.drop_left]
    · have hprefix : ¬Token.byteOrderMark.isPrefixOf (String.utf8EncodeChar c ++ Utf8.encode cs) = true := by
        rw [hmark, List.isPrefixOf_iff_prefix]
        rintro ⟨rest, heq⟩
        exact hc (Utf8.encodeChar_append_inj heq).1.symm
      rw [if_neg hprefix, if_neg hc, Utf8.encode_cons]

/-- The mark is no character that is escaped. -/
theorem withoutMark_escape (s t : String) (h : ∀ c ∈ t.toList.head?, c ≠ byteOrderChar) :
    withoutMark (escape s ++ t).toList = (escape (unmarkedText s) ++ t).toList := by
  have hskip (cs : List Char) (hcs : ∀ c ∈ cs.head?, c ≠ byteOrderChar) : withoutMark cs = cs := by
    cases cs with
    | nil => rfl
    | cons c cs => rw [withoutMark, if_neg (hcs c rfl)]
  rw [String.toList_append, String.toList_append, toList_escape, toList_escape, unmarkedText, String.toList_ofList]
  cases hs : s.toList with
  | nil => exact hskip _ h
  | cons c cs =>
    rw [List.flatMap_cons, withoutMark, List.append_assoc]
    by_cases hc : c = byteOrderChar
    · subst hc
      rfl
    · -- An escape begins with an ampersand, and any other character stands for itself.
      rw [if_neg hc, List.flatMap_cons, List.append_assoc]
      apply hskip
      unfold escapedChar
      split <;> simp_all [byteOrderChar]

/-- The nodes of a document, whose mark is passed over. -/
theorem ofSource_ofString (document : String) :
    Cursor.ofSource (.ofBytes (Utf8.ofString document)) =
      ⟨(nodesWithin [] (Utf8.encode (withoutMark document.toList))).items,
        (nodesWithin [] (Utf8.encode (withoutMark document.toList))).ending, []⟩ := by
  rw [← drop_byteOrderMark]
  rfl

theorem Node.unmarked_ofText_append (s : String) {nodes : List Node} (h : ∀ t rest, nodes ≠ .text t :: rest) :
    unmarked (ofText s ++ nodes) = ofText (unmarkedText s) ++ nodes := by
  by_cases hs : s = ""
  · subst hs
    cases nodes with
    | nil => rfl
    | cons n rest =>
      cases n with
      | text t => exact absurd rfl (h t rest)
      | _ => rfl
  · rw [ofText, if_neg hs]
    rfl

/-- **The document of a row is read as its nodes.** Texts at the start are gathered first, since the mark is looked for in all
of them together. -/
theorem Tree.ofSource_row (row : List Tree) (s : String) (h : ∀ t ∈ tagsAll row, t.IsPlain) :
    Cursor.ofSource (.ofBytes (Utf8.ofString (escape s ++ (renderAll row).getD ""))) =
      ⟨Node.unmarked (Node.mergedBehind s (nodesAll row)), .complete, []⟩ := by
  -- Where the first run of text has ended, the mark can be taken off in front of it.
  have hshown (hhead : ∀ c ∈ ((renderAll row).getD "").toList.head?, c ≠ byteOrderChar)
      (hunmarked : Node.unmarked (Node.mergedBehind s (nodesAll row)) =
        Node.mergedBehind (unmarkedText s) (nodesAll row)) :
      Cursor.ofSource (.ofBytes (Utf8.ofString (escape s ++ (renderAll row).getD ""))) =
        ⟨Node.unmarked (Node.mergedBehind s (nodesAll row)), .complete, []⟩ := by
    have hnodes := showsRun_all row (unmarkedText s) h [] [] Scope.isBare_initial (by simp)
    have hempty : nodesWithin [] [] = ⟨[], .complete⟩ := by
      rw [nodesWithin, Token.lex]
      rfl
    rw [List.append_nil, hempty, Utf8.ofString] at hnodes
    rw [ofSource_ofString, withoutMark_escape s _ hhead, hnodes, hunmarked]
    simp [Pieces.prepend]
  cases row with
  | nil =>
    refine hshown (by simp [renderAll]) ?_
    have hrest : ∀ t rest, ([] : List Node) ≠ .text t :: rest := by simp
    simpa [nodesAll, Node.mergedBehind] using Node.unmarked_ofText_append s hrest
  | cons t rest =>
    cases t with
    | text t =>
      rw [renderAll_cons, render, ← String.append_assoc, ← escape_append]
      exact ofSource_row rest (s ++ t) fun t ht => h t (List.mem_append_right _ ht)
    | element tag body =>
      refine hshown ?_ ?_
      · rw [renderAll_cons, render]
        cases renderAll body <;> simp [elementText, byteOrderChar]
      · simp only [nodesAll, nodes, List.cons_append, Node.mergedBehind]
        exact Node.unmarked_ofText_append s (by simp)

/-! ### Node by node -/

/-- Reads nodes up to the end of the document, at most so many. -/
def Cursor.drain : Nat → Reading (List Node)
  | 0 => pure []
  | n + 1 => do
    match ← next with
    | none => return []
    | some node => return node :: (← drain n)

theorem Cursor.drain_eq {n : Nat} {ahead : List Node} {opened : List Element} (h : ahead.length ≤ n) :
    drain n ⟨ahead, .complete, opened⟩ = .ok ahead ⟨[], .complete, ahead.foldl openedAfter opened⟩ := by
  induction n generalizing ahead opened with
  | zero =>
    obtain rfl := List.length_eq_zero_iff.1 (Nat.le_zero.1 h)
    rfl
  | succ n ih =>
    cases ahead with
    | nil => rfl
    | cons node rest =>
      have hnext : next ⟨node :: rest, .complete, opened⟩ = .ok (some node) ⟨rest, .complete, openedAfter opened node⟩ := rfl
      rw [drain, bind_ok hnext]
      dsimp only
      rw [bind_ok (ih (Nat.le_of_succ_le_succ h))]
      rfl

namespace Node

@[simp] theorem foldl_openedAfter_ofText (s : String) (opened : List Element) :
    (ofText s).foldl Cursor.openedAfter opened = opened := by
  unfold ofText
  split <;> rfl

theorem foldl_openedAfter_mergedBehind (s : String) (nodes : List Node) (opened : List Element) :
    (mergedBehind s nodes).foldl Cursor.openedAfter opened = nodes.foldl Cursor.openedAfter opened := by
  induction nodes generalizing s opened with
  | nil => exact foldl_openedAfter_ofText s opened
  | cons n nodes ih => cases n <;> simp [mergedBehind, ih, Cursor.openedAfter]

theorem foldl_openedAfter_unmarked (nodes : List Node) (opened : List Element) :
    (unmarked nodes).foldl Cursor.openedAfter opened = nodes.foldl Cursor.openedAfter opened := by
  unfold unmarked
  split <;> simp [Cursor.openedAfter]

end Node

/-- Behind a row of trees, the same elements are open as in front. -/
theorem Tree.foldl_openedAfter : ∀ (row : List Tree) (opened : List Element),
    (nodesAll row).foldl Cursor.openedAfter opened = opened
  | [], _ => rfl
  | .text t :: rest, opened => foldl_openedAfter rest opened
  | .element tag body :: rest, opened => by
    simp [nodesAll, nodes, Cursor.openedAfter, foldl_openedAfter body, foldl_openedAfter rest]

/-! ### There and back -/

/-- The calls of a row of trees make a document. -/
theorem Tree.exists_document (row : List Tree) :
    ∃ s', Sink.performAll (callsAll row) (.empty none) = .ok () s' ∧ s'.finish = .ok ((renderAll row).getD "") :=
  (writesAll row).exists_document

/-- The document of a row of trees is read as its nodes. -/
theorem Tree.ofSource_document (row : List Tree) (h : ∀ t ∈ tagsAll row, t.IsPlain) :
    Cursor.ofSource (.ofBytes (Utf8.ofString ((renderAll row).getD ""))) =
      ⟨Node.unmarked (Node.merged (nodesAll row)), .complete, []⟩ := by
  have hrow := ofSource_row row "" h
  rwa [show escape "" = "" from rfl, String.empty_append] at hrow

/-- Rows that differ in empty texts only are read alike. -/
theorem Tree.merged_eq_of_filledAll_eq {row row' : List Tree} (h : filledAll row' = filledAll row) :
    Node.merged (nodesAll row') = Node.merged (nodesAll row) := by
  have hfilled (row : List Tree) : Node.merged (nodesAll row) = Node.merged (nodesAll (filledAll row)) := by
    have := mergedBehind_filledAll row "" []
    rw [List.append_nil, List.append_nil] at this
    exact this.symm
  rw [hfilled row', hfilled row, h]

/-- **What is written to a sink is read back by a cursor.** The calls of a forest with plain tags make a document, of which a
cursor reads the nodes of the forest in order, with texts in a row made one and without empty texts, and behind them the end.
A forest that differs in empty texts only is read alike. Whatever calls a sink has received, it can be finished if no element
is open, and takes an attribute if nothing else has been written since an element has been started. -/
theorem drain_written {forest : List Tree} (hplain : ∀ t ∈ Tree.tagsAll forest, t.IsPlain) :
    (∃ s' document, Sink.performAll (Tree.callsAll forest) (.empty none) = .ok () s' ∧ s'.finish = .ok document ∧
      (∀ n, (Node.unmarked (Node.merged (Tree.nodesAll forest))).length ≤ n →
        Cursor.drain n (.ofSource (.ofBytes (Utf8.ofString document))) =
          .ok (Node.unmarked (Node.merged (Tree.nodesAll forest))) ⟨[], .complete, []⟩) ∧
      ∀ forest', Tree.filledAll forest' = Tree.filledAll forest → ∃ s'' document',
        Sink.performAll (Tree.callsAll forest') (.empty none) = .ok () s'' ∧ s''.finish = .ok document' ∧
          Cursor.ofSource (.ofBytes (Utf8.ofString document')) = Cursor.ofSource (.ofBytes (Utf8.ofString document))) ∧
    (∀ calls, (∃ document, (Sink.after calls (.empty none)).finish = .ok document) ↔ Sink.openedBy calls = []) ∧
    ∀ calls name value, (∃ s', Sink.addAttribute name value (Sink.after calls (.empty none)) = .ok () s') ↔
      Sink.TagWaits calls := by
  refine ⟨?_, Sink.finish_ok_iff, Sink.addAttribute_ok_iff⟩
  obtain ⟨s', hwritten, hfinish⟩ := Tree.exists_document forest
  have hsource := Tree.ofSource_document forest hplain
  refine ⟨s', _, hwritten, hfinish, ?_, ?_⟩
  · intro n hn
    have hopened : (Node.unmarked (Node.merged (Tree.nodesAll forest))).foldl Cursor.openedAfter [] = [] := by
      rw [Node.foldl_openedAfter_unmarked, Node.merged, Node.foldl_openedAfter_mergedBehind, Tree.foldl_openedAfter]
    rw [hsource, Cursor.drain_eq hn, hopened]
  · intro forest' hfilled
    have htags : Tree.tagsAll forest' = Tree.tagsAll forest := by
      rw [← Tree.tagsAll_filledAll forest', hfilled, Tree.tagsAll_filledAll]
    obtain ⟨s'', hwritten', hfinish'⟩ := Tree.exists_document forest'
    refine ⟨s'', _, hwritten', hfinish', ?_⟩
    rw [hsource, Tree.ofSource_document forest' (htags ▸ hplain), Tree.merged_eq_of_filledAll_eq hfilled]

/-- A greeting in two pieces around an empty text, and an element with an empty text in it. -/
def greeting : List Tree :=
  [.text " ", .element ⟨"say", [("to", "a\n<\"b\">"), ("from", "")]⟩
    [.text "x < ", .text "", .text "y & z", .element ⟨"end", []⟩ [.text ""]]]

/-- The greeting is read back. -/
theorem drain_written_greeting :
    ∃ s' document, Sink.performAll (Tree.callsAll greeting) (.empty none) = .ok () s' ∧ s'.finish = .ok document ∧
      Cursor.drain 6 (.ofSource (.ofBytes (Utf8.ofString document))) =
        .ok [.text " ", .start ⟨"say", none, [⟨none, "to", "a\n<\"b\">"⟩, ⟨none, "from", ""⟩], none⟩, .text "x < y & z",
          .start ⟨"end", none, [], none⟩, .finish, .finish] ⟨[], .complete, []⟩ := by
  obtain ⟨⟨s', document, hwritten, hfinish, hdrain, -⟩, -, -⟩ := @drain_written greeting (by decide +kernel)
  exact ⟨s', document, hwritten, hfinish, hdrain 6 (by decide +kernel)⟩

/-- Two pieces of a document are not read back. The name of the default namespace declares one, and the character that the mark
of UTF-8 stands for is passed over in front of a document. -/
theorem not_read_back :
    (∃ s' document, Sink.performAll (Tree.callsAll [.element ⟨"a", [("xmlns", "v")]⟩ []]) (.empty none) = .ok () s' ∧
      s'.finish = .ok document ∧
      (Cursor.ofSource (.ofBytes (Utf8.ofString document))).ahead = [.start ⟨"a", some "v", [], none⟩, .finish]) ∧
    ∃ s' document, Sink.performAll (Tree.callsAll [.text "\uFEFFx", .element ⟨"a", []⟩ []]) (.empty none) = .ok () s' ∧
      s'.finish = .ok document ∧
      (Cursor.ofSource (.ofBytes (Utf8.ofString document))).ahead = [.text "x", .start ⟨"a", none, [], none⟩, .finish] := by
  constructor
  · obtain ⟨s', hwritten, hfinish⟩ := Tree.exists_document [.element ⟨"a", [("xmlns", "v")]⟩ []]
    exact ⟨s', _, hwritten, hfinish, by decide +kernel⟩
  · obtain ⟨s', hwritten, hfinish⟩ := Tree.exists_document [.text "\uFEFFx", .element ⟨"a", []⟩ []]
    exact ⟨s', _, hwritten, hfinish, by decide +kernel⟩

end SoapBinding.Xml
