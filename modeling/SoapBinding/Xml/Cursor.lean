import SoapBinding.Xml.Document

/-!
# Cursors

A `Cursor` stands at a place in a document: it knows the nodes ahead, what stands behind them, and
the elements that are open, the innermost first. The operations of `Reading` move it; when one fails,
the cursor stays where the fault was found.

Reading past the last node finds the end of the document again and again, or the fault that stands
there.
-/

namespace SoapBinding.Xml

/-- A place in a document. -/
structure Cursor where
  /-- The nodes ahead. -/
  ahead : List Node
  /-- What stands behind the nodes. -/
  ending : Ending
  /-- The elements that are open, the innermost first. -/
  opened : List Element

/-- Work that moves a cursor. -/
abbrev Reading := EStateM Error Cursor

namespace Cursor

/-- The start of a document. -/
def ofSource (s : Source) : Cursor :=
  let nodes := Node.ofSource s
  ⟨nodes.items, nodes.ending, []⟩

/-- The number of open elements. -/
def depth (c : Cursor) : Nat := c.opened.length

/-- The innermost open element. -/
def current? (c : Cursor) : Option Element := c.opened.head?

/-- The name of the innermost open element. -/
def around (c : Cursor) : Option String := c.current?.map (·.localName)

/-- The open elements behind a node. -/
def openedAfter (opened : List Element) : Node → List Element
  | .start e => e :: opened
  | .finish => opened.drop 1
  | .text _ => opened

/-- What is found behind the last node: nothing, or a fault. -/
def atEnd {α : Type} (nothing : Reading α) : Reading α := fun c =>
  match c.ending with
  | .complete => nothing c
  | .failed e => .error e c

/-- The next node, without moving; none at the end of the document. -/
def peek : Reading (Option Node) := fun c =>
  match c.ahead with
  | n :: _ => .ok (some n) c
  | [] => atEnd (pure none) c

/-- The next node, moving past it; none at the end of the document. -/
def next : Reading (Option Node) := fun c =>
  match c.ahead with
  | n :: rest => .ok (some n) { c with ahead := rest, opened := openedAfter c.opened n }
  | [] => atEnd (pure none) c

/-- Whether a node is a text of blanks only. -/
def isBlankText : Node → Bool
  | .text s => Text.allBlank s
  | _ => false

/-- Moves past blank text, and tells the element that starts there; none where the element around
ends. -/
def peekStart : Reading (Option Element) := fun c =>
  let c := { c with ahead := c.ahead.dropWhile isBlankText }
  match c.ahead with
  | .start e :: _ => .ok (some e) c
  | .finish :: _ => .ok none c
  | .text s :: _ => .error (.content (.strayText (Text.trim s) c.around)) c
  | [] => atEnd (pure none) c

/-- Fails with a fault that tells the element around. -/
def failWithin {α : Type} (fault : Option String → ContentFault) : Reading α := fun c =>
  .error (.content (fault c.around)) c

/-- Moves past the next start tag; only blank text may stand in front of it. -/
def expectStart : Reading Element := do
  match ← peekStart with
  | none => failWithin .contentEnded
  | some e =>
    let _ ← next
    return e

/-- Moves past the end tag of the element around; only blank text may stand in front of it. -/
def finishElement : Reading Unit := do
  match ← peekStart with
  | some e => failWithin (.strayElement e.localName)
  | none =>
    match ← next with
    | some _ => return ()
    | none => failWithin .documentEnded

/-- Moves on until fewer than `target` elements are open. -/
def skipBelow (target : Nat) (ending : Ending) (opened : List Element) :
    List Node → EStateM.Result Error Cursor Unit
  | [] =>
    if opened.length < target then .ok () ⟨[], ending, opened⟩
    else atEnd (throw (.content (.documentEnded none))) ⟨[], ending, opened⟩
  | n :: rest =>
    if opened.length < target then .ok () ⟨n :: rest, ending, opened⟩
    else skipBelow target ending (openedAfter opened n) rest

/-- Moves past everything up to the end tag of the element around, and past that tag. -/
def skipToEnd : Reading Unit := fun c =>
  if c.depth = 0 then .ok () c else skipBelow c.depth c.ending c.opened c.ahead

/-- Moves past the next element with all it holds. -/
def skipElement : Reading Unit := do
  let _ ← expectStart
  skipToEnd

/-- Hands the texts up to the end of the element around to `f`, one after the other, and moves past
each that `f` accepts. -/
def foldNodes {σ : Type} (f : σ → String → Except Error σ) (ending : Ending)
    (opened : List Element) : σ → List Node → EStateM.Result Error Cursor σ
  | s, .text t :: rest =>
    match f s t with
    | .ok s => foldNodes f ending opened s rest
    | .error e => .error e ⟨.text t :: rest, ending, opened⟩
  | s, .finish :: rest => .ok s ⟨.finish :: rest, ending, opened⟩
  | _, .start e :: rest => failWithin (.elementInText e.localName) ⟨.start e :: rest, ending, opened⟩
  | _, [] => atEnd (failWithin .documentEnded) ⟨[], ending, opened⟩

/-- Collects the texts of the element around, up to its end tag. Other elements may not stand among
them. -/
def foldText {σ : Type} (f : σ → String → Except Error σ) (s : σ) : Reading σ := fun c =>
  foldNodes f c.ending c.opened s c.ahead

/-- The text of the element around, up to its end tag. -/
def readText : Reading String := foldText (fun s t => .ok (s ++ t)) ""

end Cursor
end SoapBinding.Xml
