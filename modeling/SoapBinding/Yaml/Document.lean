import SoapBinding.Yaml.Token

/-!
# YAML documents

A text holds one document, and a document is one node. The tokens of the text are read into it: a node
is a scalar, a collection between brackets or braces, or a block collection. Nothing needs to be
written for a key, a value or an item, and then it is empty.

Anchors, tags, directives and block scalars are not read. Every step of the reader takes a token or
goes into a node, so a few steps for each token are enough.
-/

namespace SoapBinding.Yaml

/-- What stands behind the comma that separates two parts of a flow collection. There is none before
the first part. -/
def afterSeparator (isFirst : Bool) (tokens : List Token) : Option (List Token) :=
  if isFirst then some tokens
  else
    match tokens with
    | .separator :: rest => some rest
    | _ => none

namespace Node

mutual

/-- Reads a node. With `admitsItems`, the items of a sequence may stand here in the column of the
mapping around it. -/
def read : Nat → Bool → List Token → Option (Node × List Token)
  | 0, _, _ => none
  | steps + 1, admitsItems, tokens =>
    match tokens with
    | .scalar text isPlain :: rest => some (.scalar text isPlain, rest)
    | .sequenceStart :: rest => do
      let (items, rest) ← readFlowItems steps true rest
      some (.sequence items, rest)
    | .mappingStart :: rest => do
      let (entries, rest) ← readFlowEntries steps true rest
      some (.mapping entries, rest)
    | .blockSequence :: rest => do
      let (items, rest) ← readItems steps rest
      some (.sequence items, rest)
    | .blockMapping :: rest => do
      let (entries, rest) ← readEntries steps rest
      some (.mapping entries, rest)
    | .item :: _ =>
      if admitsItems then do
        let (items, rest) ← readLooseItems steps tokens
        some (.sequence items, rest)
      else none
    | _ => none

/-- Reads a node, which is empty in front of one of some tokens. -/
def readUnless (ends : List Token) :
    Nat → Bool → List Token → Option (Node × List Token)
  | 0, _, _ => none
  | steps + 1, admitsItems, tokens =>
    if tokens.head?.any ends.contains then some (.empty, tokens)
    else read steps admitsItems tokens

/-- Reads the items of a block sequence and its end. -/
def readItems : Nat → List Token → Option (List Node × List Token)
  | steps + 1, .item :: rest => do
    let (item, rest) ← readUnless [.item, .blockEnd] steps false rest
    let (items, rest) ← readItems steps rest
    some (item :: items, rest)
  | _ + 1, .blockEnd :: rest => some ([], rest)
  | _, _ => none

/-- Reads the items of a sequence that stands in the column of the mapping around it. -/
def readLooseItems : Nat → List Token → Option (List Node × List Token)
  | 0, _ => none
  | steps + 1, .item :: rest => do
    let (item, rest) ← readUnless [.item, .key, .value, .blockEnd] steps false rest
    let (items, rest) ← readLooseItems steps rest
    some (item :: items, rest)
  | _ + 1, rest => some ([], rest)

/-- Reads the entries of a block mapping and its end. -/
def readEntries : Nat → List Token → Option (List (Node × Node) × List Token)
  | steps + 1, .key :: rest => do
    let (key, rest) ← readUnless [.key, .value, .blockEnd] steps true rest
    let (value, rest) ← readValue [.key, .value, .blockEnd] steps true rest
    let (entries, rest) ← readEntries steps rest
    some ((key, value) :: entries, rest)
  | _ + 1, .blockEnd :: rest => some ([], rest)
  | _, _ => none

/-- Reads a value, if there is a colon in front of it. -/
def readValue (ends : List Token) :
    Nat → Bool → List Token → Option (Node × List Token)
  | 0, _, _ => none
  | steps + 1, admitsItems, tokens =>
    match tokens with
    | .value :: rest => readUnless ends steps admitsItems rest
    | _ => some (.empty, tokens)

/-- Reads the items of a flow sequence and its end. Behind the first one, a comma stands before
each. -/
def readFlowItems : Nat → Bool → List Token → Option (List Node × List Token)
  | 0, _, _ => none
  | _ + 1, _, .sequenceEnd :: rest => some ([], rest)
  | steps + 1, isFirst, tokens => do
    let tokens ← afterSeparator isFirst tokens
    match tokens with
    | .sequenceEnd :: rest => some ([], rest)
    | .key :: rest =>
      let (entry, rest) ← readPair steps rest
      let (items, rest) ← readFlowItems steps false rest
      some (.mapping [entry] :: items, rest)
    | _ =>
      let (item, rest) ← read steps false tokens
      let (items, rest) ← readFlowItems steps false rest
      some (item :: items, rest)

/-- Reads a key and its value in a flow sequence, which are a mapping of their own. The sign that
stands where a key is missing is passed over. -/
def readPair : Nat → List Token → Option ((Node × Node) × List Token)
  | 0, _ => none
  | steps + 1, tokens => do
    let (key, rest) ←
      match tokens with
      | .value :: rest | .separator :: rest | .sequenceEnd :: rest => some (.empty, rest)
      | _ => read steps false tokens
    let (value, rest) ← readValue [.separator, .sequenceEnd] steps false rest
    some ((key, value), rest)

/-- Reads the entries of a flow mapping and its end. Behind the first one, a comma stands before
each. A node without a colon behind it is a key without a value. -/
def readFlowEntries :
    Nat → Bool → List Token → Option (List (Node × Node) × List Token)
  | 0, _, _ => none
  | _ + 1, _, .mappingEnd :: rest => some ([], rest)
  | steps + 1, isFirst, tokens => do
    let tokens ← afterSeparator isFirst tokens
    match tokens with
    | .mappingEnd :: rest => some ([], rest)
    | .key :: rest =>
      let (key, rest) ← readUnless [.value, .separator, .mappingEnd] steps false rest
      let (value, rest) ← readValue [.separator, .mappingEnd] steps false rest
      let (entries, rest) ← readFlowEntries steps false rest
      some ((key, value) :: entries, rest)
    | _ =>
      let (key, rest) ← read steps false tokens
      let (entries, rest) ← readFlowEntries steps false rest
      some ((key, .empty) :: entries, rest)

end

end Node

/-! ### Documents -/

/-- The node that tokens hold, if they are those of one document. Marks may stand before and behind
it; in front of a mark at its end, nothing needs to be written only if there is one at its
beginning. -/
def Node.ofTokens? (tokens : List Token) : Option Node := do
  let steps := 4 * tokens.length + 4
  let (node, rest) ←
    match tokens with
    | [] => some (Node.empty, [])
    | .documentStart :: rest =>
      if rest.head?.all [Token.documentStart, .documentEnd].contains then some (.empty, rest)
      else Node.read steps false rest
    | _ => Node.read steps false tokens
  if rest.all (· == .documentEnd) then some node else none

/-- Reads the document of a text. -/
def read? (text : String) : Option Node := (Token.ofText? text).bind Node.ofTokens?

end SoapBinding.Yaml
