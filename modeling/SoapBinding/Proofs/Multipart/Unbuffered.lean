import SoapBinding.Multipart.Envelope
import SoapBinding.Proofs.Multipart.Content
import SoapBinding.Proofs.Multipart.Lines

/-!
# Bodies in parts, read line by line

The unbuffered reader knows the lines of a body and no capacity. It cuts a body into lines (`lines`) and the lines at delimiters;
a part is its header lines, up to the first empty line, and its content, which is decoded as a whole.

* Lines in front of the first delimiter do not count, nor do those behind the terminal delimiter.
* A header line needs a colon, unless it goes on with the header in front of it.
* The lines of a content are joined by line breaks; the one in front of the delimiter is dropped.
* The first part is the message. Every other one is an attachment and needs an id of its own.
-/

namespace SoapBinding.Multipart

namespace Unbuffered

/-! ### Cutting lines -/

/-- The lines in front of the first delimiter, the delimiter, and the lines behind it. -/
def cutAtDelimiter (boundary : Bytes) : List Bytes → Option (List Bytes × Delimiter × List Bytes)
  | [] => none
  | line :: rest =>
    match delimiter? boundary line with
    | some delimiter => some ([], delimiter, rest)
    | none =>
      (cutAtDelimiter boundary rest).map fun (front, delimiter, behind) =>
        (line :: front, delimiter, behind)

/-- The lines in front of the first empty line, and the lines behind it. The last line does not count:
it ends with the body. -/
def cutAtEmpty : List Bytes → Option (List Bytes × List Bytes)
  | line :: next :: rest =>
    if line.isEmpty then some ([], next :: rest)
    else (cutAtEmpty (next :: rest)).map fun (front, behind) => (line :: front, behind)
  | _ => none

/-- No line in front of the first empty one is empty. -/
theorem cutAtEmpty_behind {front : List Bytes} (h : ∀ line ∈ front, line ≠ []) (back : List Bytes) :
    cutAtEmpty (front ++ back) = (cutAtEmpty back).map fun (inside, behind) => (front ++ inside, behind) := by
  induction front with
  | nil => simp
  | cons line front ih =>
    obtain ⟨hline, hfront⟩ := List.forall_mem_cons.1 h
    have hempty : line.isEmpty = false := by simpa using hline
    rw [List.cons_append]
    cases hrest : front ++ back with
    | nil =>
      obtain ⟨rfl, rfl⟩ := List.append_eq_nil_iff.1 hrest
      rfl
    | cons next rest =>
      rw [cutAtEmpty, hempty, if_neg (by decide), ← hrest, ih hfront, Option.map_map]
      rfl

/-! ### Parts -/

/-- The headers with another line, which goes on with the last header or gives a new one. -/
def withLine? (headers : Headers) (line : Bytes) : Option Headers :=
  let text := Utf8.decodeLossy line
  match headers.getLast? with
  | some (name, value) =>
    if Headers.isContinuation text then
      some (headers.dropLast ++ [(name, value ++ " " ++ String.ofList (Text.trimChars text))])
    else header? text
  | none => header? text
where
  /-- The headers with the one that a line gives. -/
  header? (text : List Char) : Option Headers :=
    (Text.splitFirst? ':' text).map fun (name, value) =>
      headers ++ [(Text.lowerAscii (String.ofList (Text.trimChars name)),
        String.ofList (Text.trimChars value))]

/-- The first part of lines, the delimiter behind it, and the lines behind that. -/
def part? (boundary : Bytes) (ls : List Bytes) : Option (Part × Delimiter × List Bytes) := do
  let (headerLines, ls) ← cutAtEmpty ls
  let headers ← headerLines.foldlM withLine? []
  let encoding ← headers.encoding.toOption
  let (body, delimiter, ls) ← cutAtDelimiter boundary ls
  let content ← encoding.decode? (crlf.intercalate body)
  some (⟨headers, content⟩, delimiter, ls)

theorem length_lt_of_cutAtDelimiter {boundary : Bytes} {ls front behind : List Bytes}
    {delimiter : Delimiter} (h : cutAtDelimiter boundary ls = some (front, delimiter, behind)) :
    behind.length < ls.length := by
  induction ls generalizing front with
  | nil => cases h
  | cons line rest ih =>
    rw [cutAtDelimiter] at h
    split at h
    · cases h
      simp
    · obtain ⟨⟨front', delimiter', behind'⟩, hcut, heq⟩ := Option.map_eq_some_iff.1 h
      cases heq
      exact Nat.lt_succ_of_lt (ih hcut)

theorem length_lt_of_cutAtEmpty {ls front behind : List Bytes}
    (h : cutAtEmpty ls = some (front, behind)) : behind.length < ls.length := by
  fun_induction cutAtEmpty ls generalizing front with
  | case1 line next rest hempty =>
    cases h
    simp
  | case2 line next rest hempty ih =>
    obtain ⟨⟨front', behind'⟩, hcut, heq⟩ := Option.map_eq_some_iff.1 h
    cases heq
    exact Nat.lt_succ_of_lt (ih hcut)
  | case3 => cases h

/-- A part stands between two cuts: behind its headers and behind its content. -/
theorem cuts_of_part? {boundary : Bytes} {ls behind : List Bytes} {part : Part}
    {delimiter : Delimiter} (h : part? boundary ls = some (part, delimiter, behind)) :
    ∃ front ls' body, cutAtEmpty ls = some (front, ls') ∧
      cutAtDelimiter boundary ls' = some (body, delimiter, behind) := by
  simp only [part?, Option.bind_eq_bind, Option.bind_eq_some_iff, Option.some.injEq,
    Prod.mk.injEq, Prod.exists] at h
  obtain ⟨front, ls', hempty, _, _, _, _, body, _, _, hcut, _, _, _, rfl, rfl⟩ := h
  exact ⟨front, ls', body, hempty, hcut⟩

/-- A part takes lines. -/
theorem length_lt_of_part? {boundary : Bytes} {ls behind : List Bytes} {part : Part}
    {delimiter : Delimiter} (h : part? boundary ls = some (part, delimiter, behind)) :
    behind.length < ls.length := by
  obtain ⟨front, ls', body, hempty, hcut⟩ := cuts_of_part? h
  have h1 := length_lt_of_cutAtEmpty hempty
  have h2 := length_lt_of_cutAtDelimiter hcut
  omega

/-- The parts of the lines behind an opening delimiter, up to the terminal one. -/
def parts? (boundary : Bytes) (ls : List Bytes) : Option (List Part) :=
  match _h : part? boundary ls with
  | none => none
  | some (part, .terminal, _) => some [part]
  | some (part, .next, rest) => (parts? boundary rest).map (part :: ·)
termination_by ls.length
decreasing_by exact length_lt_of_part? _h

/-- The parts are the first one, and those behind it unless the delimiter is the terminal one. -/
theorem parts?_eq (boundary : Bytes) (ls : List Bytes) :
    parts? boundary ls = (part? boundary ls).bind fun (part, delimiter, rest) =>
      match delimiter with
      | .terminal => some [part]
      | .next => (parts? boundary rest).map (part :: ·) := by
  rw [parts?]
  split
  · next h => rw [h, Option.bind_none]
  · next h => rw [h, Option.bind_some]
  · next h => rw [h, Option.bind_some]

/-- There is at least one part. -/
theorem ne_nil_of_parts? {boundary : Bytes} {ls : List Bytes} {parts : List Part}
    (h : parts? boundary ls = some parts) : parts ≠ [] := by
  rw [parts?_eq, Option.bind_eq_some_iff] at h
  obtain ⟨⟨part, delimiter, rest⟩, -, h⟩ := h
  cases delimiter with
  | terminal =>
    cases h
    exact List.cons_ne_nil part []
  | next =>
    obtain ⟨others, -, rfl⟩ := Option.map_eq_some_iff.1 h
    exact List.cons_ne_nil part others

/-! ### Envelopes -/

/-- The attachments that parts hold under ids, in order. A part whose id is empty gets a fresh one. -/
def attachments (nonces : Nonces) (parts : List Part) (ids : List String) : List Binary :=
  (parts.zip ids).mapIdx fun i (part, id) =>
    ⟨if id.isEmpty then Nonces.idAt (nonces.used + i) else id, .memory part.content⟩

/-- The attachments that parts hold. Each part needs an id, and the ids have to be distinct. -/
def attachments? (nonces : Nonces) (parts : List Part) : Option (List Binary × Nonces) := do
  let ids ← parts.mapM fun part => part.headers.contentId?
  if ids.Nodup then some (attachments nonces parts ids, ⟨nonces.used + parts.length⟩) else none

/-- The parts of a body, if there are not too many. The first delimiter must not be the terminal one. -/
def bodyParts? (maxParts : Nat) (boundary : Bytes) (body : Bytes) : Option (List Part) := do
  let (_, delimiter, ls) ← cutAtDelimiter boundary (lines body)
  if delimiter = .next then
    let parts ← parts? boundary ls
    if parts.length ≤ maxParts then some parts else none
  else none

/-- The envelope that a body holds. -/
def envelope? (maxParts : Nat) (boundary : Bytes) (nonces : Nonces) (body : Bytes) :
    Option (Envelope × Nonces) := do
  match ← bodyParts? maxParts boundary body with
  | [] => none
  | primary :: others =>
    let (attachments, nonces) ← attachments? nonces others
    some (⟨.ofBytes primary.content, primary.headers.get? "content-type", attachments, true⟩, nonces)

end Unbuffered
end SoapBinding.Multipart
