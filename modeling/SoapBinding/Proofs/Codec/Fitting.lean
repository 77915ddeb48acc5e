import SoapBinding.Proofs.Codec.References
import SoapBinding.Proofs.Codec.Traces
import SoapBinding.Proofs.Xml.Document
import SoapBinding.Proofs.Xml.Referring
import SoapBinding.Proofs.Xml.Tokens

/-!
# Elements that fit their places

A piece of a document fits a place if each element in it suits the place where it stands (`Schema.Fits`). The places inside
an element are those of the type that it is read as. A document that fits is read as nodes that trace the schema
(`Schema.Fits.traces_ofSource`).

What the writer writes fits, whatever the value is, unless it is written as an abstract type:

    performs_writeElement : … Performs s (FittedElement s fun name t => name = element ∧ t = type)
      (writeElement files element type v)

An element stands where its name is declared of its type alone, is marked with a subtype if its value is written as one, and
holds what fits the type. The induction is on the value, as that of the writer is.
-/

namespace SoapBinding

open Outcome
open Xml (Cursor Element Frame Markup MayStandFor Node PendingTag Pieces Scope Sink StandsFor Token referring)

/-- A piece of a document whose elements suit their places, if they can be read. -/
inductive Schema.Fits (s : Schema) : Declarations → Markup → Prop where
  | text {place : Declarations} {t : String} : Fits s place (.text t)
  | empty {place : Declarations} {tag : PendingTag} {e : Element} {runtime : TypeName} : MayStandFor tag e →
      s.Suits place e runtime → Fits s place (.empty tag)
  | element {place : Declarations} {tag : PendingTag} {e : Element} {runtime : TypeName} {body : List Markup} :
      MayStandFor tag e → s.Suits place e runtime → (∀ m ∈ body, Fits s (s.Declares runtime) m) →
      Fits s place (.element tag body)

variable {s : Schema} {place : Declarations} {outer : List Declarations} {tag : PendingTag} {e : Element}
  {root owner type runtime : TypeName} {m : Markup} {d : Descriptor} {v : Value}

theorem Schema.Fits.around {body : Option (List Markup)} (htag : MayStandFor tag e) (hsuits : s.Suits place e runtime)
    (hbody : ∀ m ∈ body.getD [], s.Fits (s.Declares runtime) m) : s.Fits place (.around tag body) := by
  cases body with
  | none => exact .empty htag hsuits
  | some row => exact .element htag hsuits hbody

/-! ### Nodes of what fits -/

/-- What is found at a place: nodes that trace the schema, and no fault of a type behind them. -/
structure Schema.IsTrace (s : Schema) (places : List Declarations) (found : Pieces Node) : Prop where
  items : s.Traces places found.items
  ending : ∀ fault, found.ending = .failed fault → ¬fault.BlamesTypes

section
variable {found : Pieces Node} {ending : Xml.Ending} {opened : List Frame} {rest : List Token}

theorem Schema.isTrace_markup (places : List Declarations) : s.IsTrace places (.none (.failed .markup)) := by
  refine ⟨.nil, ?_⟩
  rintro _ ⟨⟩
  exact Error.IsHarmless.not_blames ⟨nofun, nofun⟩

theorem Schema.IsTrace.text {places : List Declarations} (h : s.IsTrace places found) (t : String) :
    s.IsTrace places (found.cons (.text t)) := ⟨.text h.items, h.ending⟩

theorem Schema.IsTrace.start (hsuits : s.Suits place e runtime)
    (h : s.IsTrace (s.Declares runtime :: place :: outer) found) : s.IsTrace (place :: outer) (found.cons (.start e)) :=
  ⟨.start hsuits h.items, h.ending⟩

theorem Schema.IsTrace.finish (h : s.IsTrace outer found) (place : Declarations) :
    s.IsTrace (place :: outer) (found.cons .finish) := ⟨.finish h.items, h.ending⟩

/-- A run of text is a text, or its entities are malformed. -/
theorem Schema.IsTrace.ofRun {places : List Declarations} (h : s.IsTrace places (Node.ofTokens ending opened rest))
    (raw : Bytes) : s.IsTrace places (Node.ofTokens ending opened (Token.ofRun raw ++ rest)) := by
  rw [Token.ofRun]
  split
  · exact h
  · rw [List.singleton_append, Node.ofTokens]
    cases hraw : Element.unescaped raw with
    | ok t => exact h.text t
    | error fault =>
      obtain rfl := Element.unescaped_error hraw
      exact isTrace_markup places

/-- An end tag closes the element around, or it is no end tag of that. -/
theorem Schema.IsTrace.closing {frame : Frame} (h : s.IsTrace outer (Node.ofTokens ending opened rest)) (place : Declarations)
    (name : Bytes) : s.IsTrace (place :: outer) (Node.ofTokens ending (frame :: opened) (.finish name :: rest)) := by
  rw [Node.ofTokens]
  split
  · exact h.finish place
  · exact isTrace_markup _

mutual

/-- **The nodes of a piece that fits trace the schema**, if those behind it do. -/
theorem Schema.Fits.isTrace {place : Declarations} {outer : List Declarations} {opened : List Frame} {rest : List Token}
    (m : Markup) (hm : s.Fits place m) (hbare : Scope.IsBare (Node.scopeOf opened))
    (hrest : s.IsTrace (place :: outer) (Node.ofTokens ending opened rest)) :
    s.IsTrace (place :: outer) (Node.ofTokens ending opened (m.tokens ++ rest)) := by
  cases m with
  | text t => exact hrest.ofRun _
  | empty tag =>
    cases hm with
    | @empty _ _ e runtime htag hsuits =>
      rw [Markup.tokens, List.singleton_append, Node.ofTokens]
      rcases htag.2 _ hbare with ⟨scope, -, hread⟩ | hrefused
      · rw [hread]
        exact (hrest.finish _).start hsuits
      · rw [hrefused]
        exact isTrace_markup _
  | element tag body =>
    cases hm with
    | @element _ _ e runtime _ htag hsuits hbody =>
      rw [Markup.tokens, List.cons_append, Node.ofTokens]
      rcases htag.2 _ hbare with ⟨scope, hscope, hread⟩ | hrefused
      · rw [hread]
        dsimp only
        rw [if_neg (by decide), List.append_assoc, List.singleton_append]
        -- Marks declare no default namespace, so there is none inside either.
        have hscope' : Scope.IsBare (Node.scopeOf (⟨Element.nameOf (Xml.tagBytes tag), scope⟩ :: opened)) := hscope
        exact (Schema.Fits.isTraceAll body [] hbody hscope' (hrest.closing _ _)).start hsuits
      · rw [hrefused]
        exact isTrace_markup _

/-- The nodes of a row of pieces that fit trace the schema. -/
theorem Schema.Fits.isTraceAll {place : Declarations} {outer : List Declarations} {opened : List Frame} {rest : List Token}
    (row : List Markup) (raw : Bytes) (hrow : ∀ m ∈ row, s.Fits place m) (hbare : Scope.IsBare (Node.scopeOf opened))
    (hrest : s.IsTrace (place :: outer) (Node.ofTokens ending opened rest)) :
    s.IsTrace (place :: outer) (Node.ofTokens ending opened (Markup.tokensBehind raw row ++ rest)) := by
  cases row with
  | nil =>
    rw [Markup.tokensBehind]
    exact hrest.ofRun raw
  | cons m row =>
    obtain ⟨hm, hothers⟩ := List.forall_mem_cons.1 hrow
    by_cases htext : ∃ t, m = .text t
    · obtain ⟨t, rfl⟩ := htext
      rw [Markup.tokensBehind]
      exact Schema.Fits.isTraceAll row _ hothers hbare hrest
    · rw [not_exists] at htext
      rw [Markup.tokensBehind_cons htext, List.append_assoc, List.append_assoc]
      exact (Schema.Fits.isTrace m hm hbare (Schema.Fits.isTraceAll row [] hothers hbare hrest)).ofRun raw

end

/-- What can be read has tags. -/
theorem Schema.Fits.isTag (h : s.Fits place m) : ∀ t ∈ m.tags, Xml.IsTag t := by
  induction h with
  | text => exact nofun
  | empty htag => exact List.forall_mem_singleton.2 htag.1
  | element htag _ _ ih =>
    refine List.forall_mem_cons.2 ⟨htag.1, fun t ht => ?_⟩
    obtain ⟨m, hm, htm⟩ := Markup.exists_of_mem_tagsAll ht
    exact ih m hm t htm

end

/-! ### What a sink gains -/

namespace Xml.Sink

/-- What has been written to a sink fits a place: references for the tag that waits, and a body behind it. -/
def Fitted (s : Schema) (place : Declarations) (sink sink' : Sink) : Prop :=
  ∃ (references : List String) (body : Option (List Markup)),
    sink' = sink.wrote (referring references) (body.map Markup.renderAll) ∧
    (references ≠ [] → sink.pending.isSome = true) ∧ ∀ m ∈ body.getD [], s.Fits place m

/-- An element has been written that fits a place. -/
def FittedElement (s : Schema) (place : Declarations) (sink sink' : Sink) : Prop :=
  ∃ tag body, sink' = sink.wrote [] (some (Markup.around tag body).render) ∧ s.Fits place (.around tag body)

/-- What has been written to an element that has been started: marks by which it suits a place as a type, and behind them
what fits the type. -/
def FittedInside (s : Schema) (place : Declarations) (name : String) (sink sink' : Sink) : Prop :=
  ∃ marks e runtime, StandsFor ⟨name, marks⟩ e ∧ (∀ a ∈ marks, a.1 ≠ "href") ∧
    (∀ attributes, s.Suits place { e with attributes } runtime) ∧
    Fitted s (s.Declares runtime) ((sink.started name).wrote marks none) sink'

variable {sink sink' sink'' : Sink} {name : String}

namespace Fitted

theorem refl (sink : Sink) : Fitted s place sink sink :=
  ⟨[], none, (wrote_nothing sink).symm, fun h => (h rfl).elim, nofun⟩

theorem piece (m : Markup) (hm : s.Fits place m) (sink : Sink) : Fitted s place sink (sink.wrote [] (some m.render)) := by
  refine ⟨[], some [m], ?_, fun h => (h rfl).elim, List.forall_mem_singleton.2 hm⟩
  simp [referring, Markup.renderAll]

/-- Behind a body, there is no tag left for references. -/
theorem trans (h : Fitted s place sink sink') (h' : Fitted s place sink' sink'') : Fitted s place sink sink'' := by
  obtain ⟨references, body, rfl, hwaiting, hbody⟩ := h
  obtain ⟨references', body', rfl, hwaiting', hbody'⟩ := h'
  cases body with
  | none =>
    refine ⟨references ++ references', body', ?_, fun hne => ?_, hbody'⟩
    · rw [Option.map_none, wrote_attributes, referring, referring, referring, List.map_append]
    · by_cases hnil : references = []
      · subst hnil
        have hsome := hwaiting' (by simpa using hne)
        simpa [wrote] using hsome
      · exact hwaiting hnil
  | some row =>
    obtain rfl : references' = [] := by
      cases references' with
      | nil => rfl
      | cons => cases hwaiting' (List.cons_ne_nil _ _)
    refine ⟨references, some (row ++ body'.getD []), ?_, hwaiting, ?_⟩
    · rw [Option.map_some, referring, List.map_nil, wrote_wrote]
      cases body' <;> simp [Option.merge]
    · exact fun m hm => (List.mem_append.1 hm).elim (hbody m) (hbody' m)

theorem text {t : String} (h : Sink.text t sink = .ok () sink') : Fitted s place sink sink' := by
  rw [text_eq h]
  exact piece (.text t) .text sink

theorem referred {reference : String} (h : addAttribute "href" reference sink = .ok () sink') :
    Fitted s place sink sink' :=
  ⟨[reference], none, addAttribute_eq h, fun _ => Gained.waiting_of_addAttribute h, nofun⟩

end Fitted

namespace FittedElement

/-- References stand behind the marks, and leave the element what it is. -/
theorem around (h : FittedInside s place name sink sink') (hend : endElement sink' = .ok () sink'') :
    FittedElement s place sink sink'' := by
  obtain ⟨marks, e, runtime, hstands, hkeys, hsuits, references, body, rfl, -, hbody⟩ := h
  rw [wrote_attributes] at hend
  refine ⟨⟨name, marks ++ referring references⟩, body, ?_, ?_⟩
  · rw [endElement_eq hend, Markup.render_around]
  · exact .around (Xml.mayStandFor_referring hstands hkeys references) (hsuits _) hbody

/-- An element that is marked nil suits every place. -/
theorem nil (hname : IsName name) {started marked : Sink} (hstart : startElement name sink = .ok () started)
    (hmark : markNil started = .ok () marked) (hend : endElement marked = .ok () sink') :
    FittedElement s place sink sink' := by
  refine ⟨⟨name, nilAttributes⟩, none, nil_eq hstart hmark hend, ?_⟩
  have hnil : Element.isNil ⟨name, none, [⟨some xsiNamespace, "nil", "true"⟩], none⟩ = true := by
    rfl
  exact .empty (standsFor_nil hname).mayStandFor (.inl hnil : s.Suits place _ (.xsd "string"))

end FittedElement
end Xml.Sink

/-! ### Work -/

namespace Encoding

open Xml.Sink (Fitted FittedElement FittedInside)

/-- Work that keeps to the schema, and what it adds to the document. -/
def Performs (s : Schema) (adds : Sink → Sink → Prop) (work : Encoding Unit) : Prop :=
  ∀ e e', e.registry.Over s → work e = .ok () e' → e'.registry.Over s ∧ adds e.sink e'.sink

namespace Performs

variable {adds adds' : Sink → Sink → Prop} {work next : Encoding Unit} {name : String}

theorem throw (fault : Error) : Performs s adds (throw fault) := nofun

theorem nothing : Performs s (Fitted s place) (pure ()) := by
  rintro e _ he ⟨⟩
  exact ⟨he, .refl _⟩

theorem onSink {work : Xml.Writing Unit} (h : ∀ sink sink', work sink = .ok () sink' → adds sink sink') :
    Performs s adds (Encoding.onSink work) := by
  intro e e' he hwork
  obtain ⟨sink, hsink, rfl⟩ := onSink_ok hwork
  exact ⟨he, h _ _ hsink⟩

theorem mono (h : Performs s adds work) (hadds : ∀ sink sink', adds sink sink' → adds' sink sink') : Performs s adds' work :=
  fun e e' he hwork => ⟨(h e e' he hwork).1, hadds _ _ (h e e' he hwork).2⟩

theorem comp (hw : Performs s adds work) (hn : Performs s adds' next) :
    Performs s (fun sink sink' => ∃ middle, adds sink middle ∧ adds' middle sink') (work >>= fun _ => next) := by
  intro e e' he hok
  obtain ⟨_, middle, hwork, hnext⟩ := bind_eq_ok.1 hok
  obtain ⟨hmiddle, hadds⟩ := hw e middle he hwork
  obtain ⟨hover, hadds'⟩ := hn middle e' hmiddle hnext
  exact ⟨hover, middle.sink, hadds, hadds'⟩

theorem andThen (hw : Performs s (Fitted s place) work) (hn : Performs s (Fitted s place) next) :
    Performs s (Fitted s place) (work >>= fun _ => next) :=
  (hw.comp hn).mono fun _ _ ⟨_, h, h'⟩ => h.trans h'

/-- The work may depend on the encoder. -/
theorem get {next : Encoder → Encoding Unit} (h : ∀ e, Performs s adds (next e)) :
    Performs s adds (MonadState.get >>= next) := fun e e' he hok => h e e e' he hok

/-- The work may depend on the descriptor of a type. -/
theorem descriptor {next : Descriptor → Encoding Unit}
    (h : ∀ d, Descriptor.compile s type = .ok d → Performs s adds (next d)) :
    Performs s adds (Encoding.descriptor type >>= next) := by
  intro e e' he hok
  obtain ⟨d, found, hdescriptor, hnext⟩ := bind_eq_ok.1 hok
  unfold Encoding.descriptor onRegistry at hdescriptor
  split at hdescriptor
  · next registry hregistry =>
    cases hdescriptor
    obtain ⟨hover, hd⟩ := Registry.ensures_descriptor s type _ _ _ he hregistry
    exact h d hd { e with registry } e' hover hnext
  · cases hdescriptor

/-- The work may depend on the subtype that a value is of. -/
theorem subtypeOf {next : Option Descriptor → Encoding Unit} (hnone : s.writtenAs d v = d → Performs s adds (next none))
    (hsome : ∀ runtime d', runtime ≠ d.name → runtime ∈ d.subtypes → Descriptor.compile s runtime = .ok d' →
      s.writtenAs d v = d' → Performs s adds (next (some d'))) :
    Performs s adds (Encoding.subtypeOf d v >>= next) := by
  unfold Encoding.subtypeOf
  unfold Schema.writtenAs at hnone hsome
  cases hobject : v.object? with
  | none =>
    rw [hobject] at hnone
    exact hnone rfl
  | some object =>
    rw [hobject] at hnone hsome
    dsimp only at hnone hsome ⊢
    split
    · next hsubtype =>
      rw [if_pos hsubtype] at hsome
      simp only [Bool.and_eq_true, bne_iff_ne, List.contains_eq_mem, decide_eq_true_eq] at hsubtype
      rw [bind_assoc]
      refine descriptor fun d' hd' => hsome _ d' hsubtype.1 hsubtype.2 hd' ?_
      rw [hd']
      rfl
    · next hsubtype =>
      rw [if_neg hsubtype] at hnone
      exact hnone rfl

/-- An element around the work. -/
theorem element (h : Performs s (fun sink sink' => ∀ start, sink = start.started name → FittedInside s place name start sink')
    work) : Performs s (FittedElement s place)
      (do Encoding.onSink (Sink.startElement name); work; Encoding.onSink Sink.endElement) := by
  intro e e' he hok
  obtain ⟨_, started, hstart, hok⟩ := bind_eq_ok.1 hok
  obtain ⟨_, inside, hwork, hend⟩ := bind_eq_ok.1 hok
  obtain ⟨sink, hstarted, rfl⟩ := onSink_ok hstart
  obtain ⟨hover, hinside⟩ := h { e with sink } inside he hwork
  obtain ⟨_, hended, rfl⟩ := onSink_ok hend
  exact ⟨hover, .around (hinside e.sink (Sink.startElement_eq hstarted)) hended⟩

end Performs

variable {files : Files} {b : Binary} {p : Property} {element name : String} {fields : Fields}

/-! ### Leaves -/

section
variable (hs : s.IsConsistent root)
include hs

section
variable (hreach : s.Reaches root owner) (hnests : Relation.ReflTransGen s.Nests owner type)
include hreach hnests

variable (hd : Descriptor.compile s type = .ok d)
include hd

end

end

end Encoding

end SoapBinding
