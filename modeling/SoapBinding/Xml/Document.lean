import SoapBinding.Xml.Element

/-!
# Documents as nodes

A document is read as a row of nodes: start tags, end tags and texts. The tag of an empty element is
a start tag and an end tag. Every end tag has to repeat the name in the last start tag that is still
open, byte for byte; an element that is still open at the end of the document is no fault.

The nodes come with what stands behind them, so that a fault is met only by a reader that comes as
far.
-/

namespace SoapBinding.Xml

/-- A node of a document. -/
inductive Node where
  /-- A start tag. -/
  | start (e : Element)
  /-- An end tag. -/
  | finish
  /-- A run of text, or a character data section. -/
  | text (s : String)
  deriving Repr, DecidableEq

/-- An element that has been opened: the name in its tag, and the scope inside it. -/
structure Frame where
  /-- The name in the tag. -/
  name : Bytes
  /-- The namespaces in scope. -/
  scope : Scope
  deriving Repr, DecidableEq

namespace Node

/-- The name in an end tag: white space at the end does not count, unless there is nothing else. -/
def closingName (tag : Bytes) : Bytes :=
  if tag.all isSpace then tag else (tag.reverse.dropWhile isSpace).reverse

/-- The scope inside the innermost open element. -/
def scopeOf : List Frame → Scope
  | [] => Scope.initial
  | frame :: _ => frame.scope

/-- The nodes of tokens that stand inside the elements opened, the innermost first. -/
def ofTokens (ending : Ending) (opened : List Frame) : List Token → Pieces Node
  | [] => .none ending
  | .text raw :: rest =>
    match Element.unescaped raw with
    | .error e => .none (.failed e)
    | .ok s => (ofTokens ending opened rest).cons (.text s)
  | .data raw :: rest =>
    match Element.text raw with
    | .error e => .none (.failed e)
    | .ok s => (ofTokens ending opened rest).cons (.text s)
  | .start tag isEmpty :: rest =>
    match Element.ofTag (scopeOf opened) tag with
    | .error e => .none (.failed e)
    | .ok (element, scope) =>
      if isEmpty then ((ofTokens ending opened rest).cons .finish).cons (.start element)
      else (ofTokens ending (⟨Element.nameOf tag, scope⟩ :: opened) rest).cons (.start element)
  | .finish tag :: rest =>
    match opened with
    | [] => .none (.failed .markup)
    | frame :: outer =>
      if closingName tag = frame.name then (ofTokens ending outer rest).cons .finish
      else .none (.failed .markup)

/-- The nodes of a document. -/
def ofSource (s : Source) : Pieces Node :=
  let tokens := Token.ofSource s
  ofTokens tokens.ending [] tokens.items

end Node
end SoapBinding.Xml
