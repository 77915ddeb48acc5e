import SoapBinding.Error
import SoapBinding.Source

/-!
# Markup tokens

A document is cut into tokens before anything in it is understood: runs of text, character data
sections, start tags and end tags. Comments, processing instructions and document type declarations
leave no token. Where each kind of markup ends is decided by its first bytes alone:

* a comment ends at the first `-->` behind its first four bytes, and has to begin with `<!--`;
* a character data section ends at the first `]]>`, and has to begin with `<![CDATA[`;
* a document type declaration ends at the `>` that balances its angle brackets, and has to name a
  type;
* a processing instruction ends at the first `?>`;
* any other tag ends at the first `>` outside quotes.

The tokens come with how the document ends behind them: properly, in malformed or unclosed markup, or
because the source fails. So a fault is met only by a reader that comes as far.
-/

namespace SoapBinding.Xml

/-- Space, tab, carriage return and line feed. -/
def isSpace (b : UInt8) : Bool := b == 0x20 || b == 0x09 || b == 0x0D || b == 0x0A

/-- A piece of a document. -/
inductive Token where
  /-- A run of text between markup. -/
  | text (raw : Bytes)
  /-- The inside of a character data section. -/
  | data (raw : Bytes)
  /-- A start tag: what stands between its angle brackets, less the slash of an empty element. -/
  | start (tag : Bytes) (isEmpty : Bool)
  /-- An end tag: what stands between `</` and `>`. -/
  | finish (tag : Bytes)
  deriving Repr, DecidableEq

/-- What a reader finds behind the last piece that could be read. -/
inductive Ending where
  /-- The end of the document. -/
  | complete
  /-- A failure. -/
  | failed (e : Error)
  deriving DecidableEq

/-- Pieces of a document and what stands behind them. -/
structure Pieces (α : Type) where
  /-- The pieces, in order. -/
  items : List α
  /-- What stands behind them. -/
  ending : Ending

namespace Pieces

/-- No piece in front of an ending. -/
def none {α : Type} (ending : Ending) : Pieces α := ⟨[], ending⟩

/-- One more piece in front. -/
def cons {α : Type} (a : α) (p : Pieces α) : Pieces α := ⟨a :: p.items, p.ending⟩

end Pieces

namespace Token

/-! ### Where markup ends -/

/-- What stands in front of the first occurrence of a mark, and what behind it. -/
def cut? (mark : Bytes) : Bytes → Option (Bytes × Bytes)
  | [] => if mark.isEmpty then some ([], []) else none
  | b :: bs =>
    if mark.isPrefixOf (b :: bs) then some ([], (b :: bs).drop mark.length)
    else (cut? mark bs).map fun (inside, rest) => (b :: inside, rest)

/-- What stands in front of the first `>` outside quotes, and what behind it. `quote` is the quote
that is open, if one is. -/
def cutTag? (quote : Option UInt8) : Bytes → Option (Bytes × Bytes)
  | [] => none
  | b :: bs =>
    if quote.isNone && b == 0x3E then some ([], bs)
    else
      let quote := match quote with
        | some q => if b == q then none else some q
        | none => if b == 0x22 || b == 0x27 then some b else none
      (cutTag? quote bs).map fun (inside, rest) => (b :: inside, rest)

/-- What stands in front of the `>` that balances the angle brackets, `depth` of which are open, and
what behind it. -/
def cutBalanced? (depth : Nat) : Bytes → Option (Bytes × Bytes)
  | [] => none
  | b :: bs =>
    if b == 0x3E && depth == 0 then some ([], bs)
    else
      let depth := if b == 0x3C then depth + 1 else if b == 0x3E then depth - 1 else depth
      (cutBalanced? depth bs).map fun (inside, rest) => (b :: inside, rest)

/-- What stands at the front of markup, behind its `<`. -/
inductive Markup where
  /-- A token, and the bytes behind it. -/
  | token (t : Token) (rest : Bytes)
  /-- Markup that leaves no token, and the bytes behind it. -/
  | skipped (rest : Bytes)
  /-- Markup that is closed but malformed. -/
  | malformed
  /-- Markup that is not closed. -/
  | unclosed
  deriving DecidableEq

/-- The bytes of ASCII text. -/
def ascii (s : String) : Bytes := s.toList.map fun c => UInt8.ofNat c.toNat

/-- Makes markup of what stands in front of and behind the place where it ends. -/
def closed (make : Bytes → Bytes → Markup) : Option (Bytes × Bytes) → Markup
  | none => .unclosed
  | some (inside, rest) => make inside rest

/-- Markup behind `<!-`. -/
def comment (bs : Bytes) : Markup :=
  closed (fun _ rest => if (ascii "!--").isPrefixOf bs then .skipped rest else .malformed)
    (cut? (ascii "-->") (bs.drop 3))

/-- Markup behind `<![`. -/
def dataSection (bs : Bytes) : Markup :=
  let mark := ascii "![CDATA["
  closed (fun inside rest =>
      if mark.isPrefixOf inside then .token (.data (inside.drop mark.length)) rest else .malformed)
    (cut? (ascii "]]>") bs)

/-- A byte with ASCII capital letters made small. -/
def lowerByte (b : UInt8) : UInt8 := if 0x41 ≤ b && b ≤ 0x5A then b + 0x20 else b

/-- Markup behind `<!D`. -/
def docType (bs : Bytes) : Markup :=
  let mark := ascii "!doctype"
  closed (fun inside rest =>
      if mark.isPrefixOf (inside.map lowerByte) && !(inside.drop mark.length).all isSpace then
        .skipped rest
      else .malformed)
    (cutBalanced? 0 bs)

/-- Markup behind `<?`. -/
def instruction (bs : Bytes) : Markup :=
  closed (fun inside rest => if inside.isEmpty then .malformed else .skipped rest)
    (cut? (ascii "?>") bs)

/-- A start tag. -/
def openTag (bs : Bytes) : Markup :=
  closed (fun inside rest =>
      if inside.getLast? == some 0x2F then .token (.start inside.dropLast true) rest
      else .token (.start inside false) rest)
    (cutTag? none bs)

/-- The markup whose first bytes behind `<` are given. -/
def markup : Bytes → Markup
  | [] => .unclosed
  | b :: bs =>
    if b == 0x21 then
      match bs with
      | [] => .unclosed
      | c :: _ =>
        if c == 0x5B then dataSection (b :: bs)
        else if c == 0x2D then comment (b :: bs)
        else if c == 0x44 || c == 0x64 then docType (b :: bs)
        else .malformed
    else if b == 0x2F then closed (fun inside rest => .token (.finish inside) rest) (cutTag? none bs)
    else if b == 0x3F then instruction (b :: bs)
    else openTag (b :: bs)

/-! ### Progress -/

/-- The number of bytes behind markup. -/
def Markup.remaining : Markup → Nat
  | .token _ rest => rest.length
  | .skipped rest => rest.length
  | .malformed => 0
  | .unclosed => 0

theorem length_of_cut? {mark bs inside rest : Bytes} (h : cut? mark bs = some (inside, rest)) :
    rest.length ≤ bs.length := by
  induction bs generalizing inside with
  | nil =>
    simp only [cut?] at h
    split at h <;> simp_all
  | cons b bs ih =>
    simp only [cut?] at h
    split at h
    · cases h
      simp only [List.length_drop]
      omega
    · obtain ⟨p, hp, he⟩ := Option.map_eq_some_iff.1 h
      cases he
      exact Nat.le_succ_of_le (ih hp)

theorem length_of_cutTag? {quote : Option UInt8} {bs inside rest : Bytes}
    (h : cutTag? quote bs = some (inside, rest)) : rest.length ≤ bs.length := by
  induction bs generalizing inside quote with
  | nil => simp [cutTag?] at h
  | cons b bs ih =>
    simp only [cutTag?] at h
    split at h
    · cases h
      simp
    · obtain ⟨p, hp, he⟩ := Option.map_eq_some_iff.1 h
      cases he
      exact Nat.le_succ_of_le (ih hp)

theorem length_of_cutBalanced? {depth : Nat} {bs inside rest : Bytes}
    (h : cutBalanced? depth bs = some (inside, rest)) : rest.length ≤ bs.length := by
  induction bs generalizing inside depth with
  | nil => simp [cutBalanced?] at h
  | cons b bs ih =>
    simp only [cutBalanced?] at h
    split at h
    · cases h
      simp
    · obtain ⟨p, hp, he⟩ := Option.map_eq_some_iff.1 h
      cases he
      exact Nat.le_succ_of_le (ih hp)

/-- Markup that is closed takes no more than there is. -/
theorem remaining_closed_le {make : Bytes → Bytes → Markup} {cut : Option (Bytes × Bytes)} {n : Nat}
    (hmake : ∀ inside rest, (make inside rest).remaining ≤ rest.length)
    (hcut : ∀ inside rest, cut = some (inside, rest) → rest.length ≤ n) :
    (closed make cut).remaining ≤ n := by
  match cut with
  | none => exact Nat.zero_le n
  | some (inside, rest) => exact Nat.le_trans (hmake inside rest) (hcut inside rest rfl)

/-- Markup takes no more bytes than stand behind its `<`. -/
theorem remaining_markup_le (bs : Bytes) : (markup bs).remaining ≤ bs.length := by
  match bs with
  | [] => simp [markup, Markup.remaining]
  | b :: bs =>
    have hdata : (dataSection (b :: bs)).remaining ≤ (b :: bs).length :=
      remaining_closed_le (by intros; split <;> simp [Markup.remaining])
        fun _ _ h => length_of_cut? h
    have hcomment : (comment (b :: bs)).remaining ≤ (b :: bs).length :=
      remaining_closed_le (by intros; split <;> simp [Markup.remaining])
        fun _ _ h => Nat.le_trans (length_of_cut? h) (by simp only [List.length_drop]; omega)
    have hdoc : (docType (b :: bs)).remaining ≤ (b :: bs).length :=
      remaining_closed_le (by intros; split <;> simp [Markup.remaining])
        fun _ _ h => length_of_cutBalanced? h
    have hinstruction : (instruction (b :: bs)).remaining ≤ (b :: bs).length :=
      remaining_closed_le (by intros; split <;> simp [Markup.remaining])
        fun _ _ h => length_of_cut? h
    have hopen : (openTag (b :: bs)).remaining ≤ (b :: bs).length :=
      remaining_closed_le (by intros; split <;> simp [Markup.remaining])
        fun _ _ h => length_of_cutTag? h
    have hclose : (closed (fun inside rest => .token (.finish inside) rest)
        (cutTag? none bs)).remaining ≤ (b :: bs).length :=
      remaining_closed_le (by intros; simp [Markup.remaining])
        fun _ _ h => Nat.le_succ_of_le (length_of_cutTag? h)
    simp only [markup]
    split
    · split
      · simp [Markup.remaining]
      · split
        · exact hdata
        · split
          · exact hcomment
          · split
            · exact hdoc
            · simp [Markup.remaining]
    · split
      · exact hclose
      · split
        · exact hinstruction
        · exact hopen

theorem length_dropWhile_le (p : UInt8 → Bool) (bs : Bytes) :
    (bs.dropWhile p).length ≤ bs.length := by
  induction bs with
  | nil => simp
  | cons b bs ih =>
    rw [List.dropWhile_cons]
    split
    · exact Nat.le_succ_of_le ih
    · simp

/-! ### The tokens of a document -/

/-- The tokens of the bytes of a source, which fails behind them if `fails`. A run of text ends only
where markup begins or where the source properly ends. -/
def lex (fails : Bool) : Bytes → Pieces Token
  | [] => .none (if fails then .failed .io else .complete)
  | b :: bs =>
    if b = 0x3C then
      match hm : markup bs with
      | .token t rest => (lex fails rest).cons t
      | .skipped rest => lex fails rest
      | .malformed => .none (.failed .markup)
      | .unclosed => .none (.failed (if fails then .io else .markup))
    else
      let raw := b :: bs.takeWhile (· != 0x3C)
      match hr : bs.dropWhile (· != 0x3C) with
      | [] => if fails then .none (.failed .io) else (Pieces.none .complete).cons (.text raw)
      | c :: rest => (lex fails (c :: rest)).cons (.text raw)
termination_by bs => bs.length
decreasing_by
  · have := remaining_markup_le bs
    rw [hm] at this
    exact Nat.lt_succ_of_le this
  · have := remaining_markup_le bs
    rw [hm] at this
    exact Nat.lt_succ_of_le this
  · have := length_dropWhile_le (· != 0x3C) bs
    rw [hr] at this
    exact Nat.lt_succ_of_le this

/-- The mark that may stand in front of a document, telling that it is UTF-8. -/
def byteOrderMark : Bytes := [0xEF, 0xBB, 0xBF]

/-- The tokens of a document. -/
def ofSource (s : Source) : Pieces Token :=
  lex s.fails (if byteOrderMark.isPrefixOf s.bytes then s.bytes.drop 3 else s.bytes)

end Token
end SoapBinding.Xml
