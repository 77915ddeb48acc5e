import SoapBinding.Proofs.Codec.Progress
import SoapBinding.Proofs.Xml.Document

/-!
# Reading comes to an end

A schema is grounded at a type when no type that it reaches holds values of itself with no element in between.
There the bounds of the reader are never met, on any document in which no element bears the name of a property
that is content:

    reading_ends : … readElement context element root st ≠ .error .endless st'

Between two elements the reading goes from type to type, and the types that it has met leave fewer to meet; an
element that is taken leaves fewer nodes and all types. A place of the document therefore needs no more than
`chainBound` steps.
-/

namespace SoapBinding.Decoding

open Outcome Xml

variable {s : Schema} {ending : Ending} {fault : Error → Prop} {front : Option Element} {nodes document : List Node}
  {root : TypeName} {d : Descriptor} {st : Decoder}

/-- **Reading the content of a type moves on**, past the element that begins it, in enough steps if the nodes
ahead and the types met on the way leave enough. -/
theorem passes_readContent (hf : Cursor.IsEndless ending fault) (hg : fault .endless → s.IsGrounded root)
    (hnames : s.HasNoContentNames root document) (context : Context) {met : List TypeName} {steps : Nat}
    (hd : Descriptor.compile s d.name = .ok d) (hreach : s.Reaches root d.name) (hmet : s.LeadTo met d.name)
    (hdocument : Cursor.facing front nodes <:+ document) (hbegins : ∀ e ∈ front, MayBegin s d e)
    (hsteps : fault .endless → (Cursor.facing front nodes).length * Descriptor.chainBound s +
      (Descriptor.unmet s met).length < steps) :
    Passes s ending fault (readContent context steps) d front nodes := by
  induction steps generalizing d met front nodes with
  | zero => exact Triple.throw fun he => Nat.not_lt_zero _ (hsteps he)
  | succ steps ih =>
    have hin : Inner s ending fault root document (readContent context steps) d.name
        (Cursor.facing front nodes).length := by
      refine ⟨?_, ?_⟩
      · -- No element lies in between: the type has not been met before.
        intro inner nested front' nodes' hnests hnested hdocument' hbound hbegins'
        obtain rfl := Descriptor.name_of_compile hnested
        refine ih hnested (hnests.reaches hreach) (hmet.cons hnests) hdocument' hbegins' fun he => ?_
        have hless := hmet.length_unmet_lt (hg he _ hreach) hnests
        have hproduct := Nat.mul_le_mul_right (Descriptor.chainBound s) hbound
        have := hsteps he
        omega
      · -- An element lies in between: one place less, and all types may be met again.
        intro inner nested nodes' hinner hnested hdocument' hbound
        obtain rfl := Descriptor.name_of_compile hnested
        refine ih hnested hinner Schema.leadTo_nil hdocument' (fun _ h => nomatch h) fun he => ?_
        have hless := Descriptor.length_unmet_nil_lt s
        have hproduct := Nat.mul_le_mul_right (Descriptor.chainBound s) hbound
        rw [Nat.succ_mul] at hproduct
        have := hsteps he
        rw [Cursor.facing_none]
        omega
    obtain ⟨name, shape⟩ := d
    unfold Passes
    cases shape with
    | simple primitive =>
      cases front with
      | none => exact triple_readPrimitive (keepsLeaves_faces hf) context primitive
      | some e => rcases hbegins e rfl with hchoice | hbegins <;> contradiction
    | sequence properties subtypes isAbstract =>
      rw [readContent]
      apply Triple.ite
      · intro _
        exact Triple.throw (hf.not_fault (by simp))
      · intro _
        have hfirst (e : Element) (he : e ∈ front) : ∃ p ∈ properties.head?, s.PropertyBegins e.localName p := by
          rcases hbegins e he with hchoice | hbegins
          · cases hchoice
          · cases hbegins with
            | first hp => exact ⟨_, rfl, hp⟩
        apply Triple.bind (triple_readProperties hf hin hd hreach hnames hg (fun _ hp => hp) hdocument
          (Nat.le_refl _) hfirst)
        intro fields
        exact Triple.pure fun _ h => h
    | choice variants =>
      rw [readContent]
      apply Triple.bind (triple_peekStart hf)
      rintro (_ | e)
      · exact Triple.throw (hf.not_fault (by simp))
      · refine Triple.obtain (fun st h => h.2 e rfl) ?_
        rintro rest ⟨hsuffix, hrest, -⟩
        have hvariants := triple_readVariants hf hin hd hreach hg (fun _ hv => hv)
          (hsuffix.trans hdocument) hsuffix.length_le
        exact hvariants.mono (fun _ h => h) fun _ _ h => Faces.mono h hrest

/-- The bound on the steps is enough for what is ahead. -/
theorem lt_depthBound (hst : Faces s ending front nodes st) {nodes' : List Node}
    (hle : nodes'.length ≤ st.cursor.ahead.length) :
    nodes'.length * Descriptor.chainBound s + (Descriptor.unmet s []).length < depthBound st := by
  have hless := Descriptor.length_unmet_nil_lt s
  have hproduct := Nat.mul_le_mul_right (Descriptor.chainBound s) hle
  unfold depthBound
  rw [hst.1.schema_eq, Nat.succ_mul]
  omega

/-- In enough steps for a place, the content of any type is read from fewer nodes than are there. -/
theorem passesBelow_readContent (hf : Cursor.IsEndless ending fault) (hg : fault .endless → s.IsGrounded root)
    (hnames : s.HasNoContentNames root document) (context : Context) (hst : Faces s ending front nodes st) :
    PassesBelow s ending fault root document (readContent context (depthBound st)) (st.cursor.ahead.length + 1) := by
  intro type d nodes' hreach hd hdocument hbound
  obtain rfl := Descriptor.name_of_compile hd
  exact passes_readContent hf hg hnames context hd hreach Schema.leadTo_nil hdocument (fun _ h => nomatch h)
    fun _ => lt_depthBound hst (Nat.le_of_lt_succ hbound)

/-- What is read next is taken, however many steps there are. -/
theorem readSingle_takes (hnames : s.HasNoContentNames root document) {context : Context} {steps : Nat}
    {type : TypeName} {p : Property} {nested : Descriptor} {comes st' : Decoder} {v : Value}
    (hst : Faces s ending none document st) (hreach : s.Reaches root type)
    (hd : Descriptor.compile s type = .ok d) (hp : p ∈ d.properties)
    (hnested : Descriptor.compile s p.type = .ok nested) (hcomes : comesNext p st = .ok true comes)
    (hread : readSingle (readContent context steps) type p nested comes = .ok v st') :
    st'.cursor.ahead.length < st.cursor.ahead.length := by
  obtain rfl := Descriptor.name_of_compile hd
  have hf : Cursor.IsEndless ending (fun _ => False) := ⟨fun _ => False.elim, fun _ _ => id⟩
  obtain ⟨rest, hrest, rfl, hfaces⟩ := hst.2.tighten
  have hhere : Faces s ending none st.cursor.ahead st := ⟨hst.1, hfaces⟩
  have hlook := (triple_comesNext hf hd hreach False.elim hp (by simp) st hhere).1 true comes hcomes
  obtain ⟨⟨e, behind⟩, hfound, hsuffix, -, hbegins⟩ := hlook.2 rfl
  have hin : Inner s ending (fun _ => False) root document (readContent context steps) d.name
      (Cursor.facing (some e) behind).length :=
    ⟨fun hnests hinner hdocument _ hmay => passes_readContent hf False.elim hnames context
        (Descriptor.name_of_compile hinner ▸ hinner) (Descriptor.name_of_compile hinner ▸ hnests.reaches hreach)
        Schema.leadTo_nil hdocument hmay False.elim,
      fun type' d' nodes' hinner hd' hdocument _ => passes_readContent hf False.elim hnames context
        (Descriptor.name_of_compile hd' ▸ hd') (Descriptor.name_of_compile hd' ▸ hinner)
        Schema.leadTo_nil hdocument (fun _ h => nomatch h) False.elim⟩
  have hsingle := triple_readSingle hf hin hd hreach hnames hp hnested (hsuffix.trans hrest) (Nat.le_refl _)
    (fun _ h => by cases h; exact hbegins)
  have hafter := ((hsingle comes hfound).1 v st' hread).2.ahead.length_le
  have hless := hsuffix.length_le
  simp only [Cursor.facing_none, Cursor.facing_some, List.length_cons] at hafter hless ⊢
  omega

/-- An element is not read without end. -/
theorem triple_readElement (hf : Cursor.IsEndless ending (· = .endless)) (hg : s.IsGrounded root)
    (hnames : s.HasNoContentNames root document) (context : Context) (element : String) :
    Triple (Faces s ending none document) (readElement context element root) (fun _ _ => True) (· = .endless) := by
  apply Triple.bind (triple_descriptor hf root)
  intro d
  apply Triple.given
  intro hd
  apply Triple.bind (triple_peekStart hf)
  rintro (_ | e)
  · exact Triple.throw (by simp)
  · refine Triple.obtain (fun st h => h.2 e rfl) ?_
    rintro rest ⟨hsuffix, -, -⟩
    apply Triple.ite
    · intro _
      apply Triple.bind Triple.get
      rintro here _ ⟨rfl, hhere⟩
      have hbelow := passesBelow_readContent hf (fun _ => hg) hnames context hhere
      have hbound : (Cursor.facing (some e) rest).length ≤ here.cursor.ahead.length + 1 := by
        rw [hhere.2.starts (by simp)]
        exact Nat.le_succ _
      have hwrapped : Triple (Faces s ending (some e) rest)
          (readWrapped (readContent context (depthBound here)) root true d) _ (· = .endless) :=
        triple_readWrapped hf hbelow .refl hd hsuffix hbound
      exact (hwrapped.mono (fun _ h => h) fun _ _ _ => trivial) here hhere
    · intro _
      exact Triple.throw (by simp)

/-- Documents do not end in a reading without end. -/
theorem isEndless_ofSource (source : Source) :
    Cursor.IsEndless (Node.ofSource source).ending (· = .endless) :=
  ⟨fun _ h => h, fun _ hending he => Node.ending_ofSource source (he ▸ hending)⟩

/-- The element of a whole document is not read without end. -/
theorem readElement_ne_endless (hg : s.IsGrounded root) {source : Source}
    (hnames : s.HasNoContentNames root (Node.ofSource source).items) (context : Context) (element : String)
    {registry : Registry} {nonces : Nonces} (hover : registry.Over s) (decoder : Decoder) :
    readElement context element root ⟨registry, .ofSource source, nonces⟩ ≠ .error .endless decoder := by
  have hfaces : Faces s (Node.ofSource source).ending none (Node.ofSource source).items
      ⟨registry, .ofSource source, nonces⟩ :=
    ⟨hover, rfl, List.suffix_refl _, fun h => absurd rfl h⟩
  intro hendless
  exact (triple_readElement (isEndless_ofSource source) hg hnames context element _ hfaces).2 _ _ hendless rfl

/-- **Reading ends.** At a place of a document in which no element bears the name of a property that is content,
and for a schema that is grounded at the type to be read:

* whenever the next element begins a value of a property and a value is then read, nodes have been taken;
* neither an element nor a content is read without end. -/
theorem reading_ends (hg : s.IsGrounded root) {source : Source}
    (hnames : s.HasNoContentNames root (Node.ofSource source).items) (hover : st.registry.Over s)
    (hstands : st.cursor.Faces (Node.ofSource source).ending none (Node.ofSource source).items)
    (context : Context) :
    (∀ type d p nested steps comes v st', s.Reaches root type → Descriptor.compile s type = .ok d →
      p ∈ d.properties → Descriptor.compile s p.type = .ok nested → comesNext p st = .ok true comes →
      readSingle (readContent context steps) type p nested comes = .ok v st' →
      st'.cursor.ahead.length < st.cursor.ahead.length) ∧
    (∀ element e st', readElement context element root st = .error e st' → e ≠ .endless) ∧
    ∀ e st', read context root st = .error e st' → e ≠ .endless := by
  have hst : Faces s (Node.ofSource source).ending none (Node.ofSource source).items st := ⟨hover, hstands⟩
  have hf := isEndless_ofSource source
  refine ⟨?_, ?_, ?_⟩
  · intro type d p nested steps comes v st' hreach hd hp hnested hcomes hread
    exact readSingle_takes hnames hst hreach hd hp hnested hcomes hread
  · intro element
    exact (triple_readElement hf hg hnames context element st hst).2
  · have hread : Triple (Faces s (Node.ofSource source).ending none (Node.ofSource source).items)
        (read context root) (fun _ _ => True) (· = .endless) := by
      apply Triple.bind (triple_descriptor hf root)
      intro d
      apply Triple.given
      intro hd
      apply Triple.bind Triple.get
      rintro here _ ⟨rfl, hhere⟩
      obtain ⟨rest, hrest, hahead, hfaces⟩ := hhere.2.tighten
      have hbelow := passesBelow_readContent hf (fun _ => hg) hnames context hhere
      have hcontent := hbelow root d rest .refl hd hrest (by rw [hahead]; exact Nat.lt_succ_self _)
      exact (Triple.mono hcontent (fun _ h => h) fun _ _ _ => trivial) here ⟨hhere.1, hfaces⟩
    exact (hread st hst).2

/-! ### Notes of lines

The lines of a note are content, so that their elements follow each other in it. -/

/-- Notes that hold any number of lines, and lines that are a text, or nothing at all. -/
def noteSchema (line : List Property) : Schema := ⟨[
  (⟨"", "Note"⟩, ⟨.sequence, none, false, [⟨"lines", ⟨"", "Line"⟩, false, true, false, true⟩], [], []⟩),
  (⟨"", "Line"⟩, ⟨.sequence, none, false, line, [], []⟩)]⟩

/-- A line of a text. -/
def textLine : List Property := [⟨"line", .xsd "string", false, false, false, false⟩]

/-- The decoder of a document that is to be read as a note. -/
def noteDecoder (line : List Property) (text : String) : Decoder :=
  ⟨.ofSchema (noteSchema line), .ofSource (.ofBytes (Utf8.ofString text)), .fresh⟩

/-- Notes are ranked above lines. -/
def noteRank (type : TypeName) : Nat := if type.localName = "Note" then 1 else 0

/-- A note of two lines is read to its end. -/
theorem reading_ends_note :
    (noteSchema textLine).IsGrounded ⟨"", "Note"⟩ ∧
    ∀ e st', readElement .inline "note" ⟨"", "Note"⟩
      (noteDecoder textLine "<note><line>a</line><line>b</line></note>") = .error e st' → e ≠ .endless := by
  have hg : (noteSchema textLine).IsGrounded ⟨"", "Note"⟩ :=
    @Schema.isGrounded_of_ranks (noteSchema textLine) _ noteRank (by decide +kernel)
  have hnames : (noteSchema textLine).HasNoContentNames ⟨"", "Note"⟩
      (Node.ofSource (.ofBytes (Utf8.ofString "<note><line>a</line><line>b</line></note>"))).items :=
    Schema.hasNoContentNames_of_avoids (by decide +kernel)
  have hstands : (noteDecoder textLine "<note><line>a</line><line>b</line></note>").cursor.Faces
      (Node.ofSource (.ofBytes (Utf8.ofString "<note><line>a</line><line>b</line></note>"))).ending none
      (Node.ofSource (.ofBytes (Utf8.ofString "<note><line>a</line><line>b</line></note>"))).items :=
    ⟨rfl, List.suffix_refl _, fun h => absurd rfl h⟩
  exact ⟨hg, (reading_ends hg hnames (Registry.over_ofSchema _) hstands .inline).2.1 "note"⟩

/-- An element that bears the name of the content property is accepted and not taken: where a line is nothing, it
is read in front of the element again and again. -/
theorem endless_of_content_name :
    (noteSchema []).IsGrounded ⟨"", "Note"⟩ ∧
    (∃ comes v st', comesNext ⟨"lines", ⟨"", "Line"⟩, false, true, false, true⟩ (noteDecoder [] "<lines/>") =
        .ok true comes ∧
      readSingle (readContent .inline 1) ⟨"", "Note"⟩ ⟨"lines", ⟨"", "Line"⟩, false, true, false, true⟩
        ⟨⟨"", "Line"⟩, .sequence [] [] false⟩ comes = .ok v st' ∧
      st'.cursor.ahead = (noteDecoder [] "<lines/>").cursor.ahead) ∧
    ∃ st', readElement .inline "note" ⟨"", "Note"⟩ (noteDecoder [] "<note><lines/></note>") = .error .endless st' := by
  refine ⟨@Schema.isGrounded_of_ranks (noteSchema []) _ noteRank (by decide +kernel), ?_, ?_⟩
  · have hnext : okWith (fun next comes => next && okWith
          (fun _ st' => decide (st'.cursor.ahead = (noteDecoder [] "<lines/>").cursor.ahead))
          (readSingle (readContent .inline 1) ⟨"", "Note"⟩ ⟨"lines", ⟨"", "Line"⟩, false, true, false, true⟩
            ⟨⟨"", "Line"⟩, .sequence [] [] false⟩ comes))
        (comesNext ⟨"lines", ⟨"", "Line"⟩, false, true, false, true⟩ (noteDecoder [] "<lines/>")) = true := by
      decide +kernel
    obtain ⟨next, comes, hcomes, hsingle⟩ := exists_of_okWith hnext
    rw [Bool.and_eq_true] at hsingle
    obtain ⟨rfl, hsingle⟩ := hsingle
    obtain ⟨v, st', hread, hahead⟩ := exists_of_okWith hsingle
    exact ⟨comes, v, st', hcomes, hread, of_decide_eq_true hahead⟩
  · have hread : errorWith (· == .endless)
        (readElement .inline "note" ⟨"", "Note"⟩ (noteDecoder [] "<note><lines/></note>")) = true := by
      decide +kernel
    obtain ⟨fault, st', h, hfault⟩ := exists_of_errorWith hread
    rw [eq_of_beq hfault] at h
    exact ⟨st', h⟩

end SoapBinding.Decoding
