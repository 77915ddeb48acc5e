import SoapBinding.Proofs.Codec.Termination

/-!
# More steps change no answer

`Refines work work'` — from every state, `work` ends as `work'` does, unless it runs out of steps before. A reading in
few steps refines one in more (`refines_readContent`), since nothing but the bound is asked how many there are. Where the
bound of the reader is never met, its answer is therefore that of every higher bound (`readElement_eq`), and a
value may be read in as many steps as its size asks for.
-/

namespace SoapBinding.Decoding

open Outcome

variable {α β : Type} {s : Schema}

/-- The work ends as the other does, unless it runs out of steps. -/
def Refines (work work' : Decoding α) : Prop :=
  ∀ st, (∃ st', work st = .error .endless st') ∨ work st = work' st

namespace Refines

theorem refl (work : Decoding α) : Refines work work := fun _ => .inr rfl

/-- Where the work does not run out of steps, the other gives the same answer. -/
theorem eq_of_ends {work work' : Decoding α} {st : Decoder} (h : Refines work work')
    (hends : ∀ st', work st ≠ .error .endless st') : work st = work' st :=
  (h st).resolve_left (not_exists.2 hends)

theorem bind {work work' : Decoding α} {next next' : α → Decoding β} (hw : Refines work work')
    (hn : ∀ a, Refines (next a) (next' a)) : Refines (work >>= next) (work' >>= next') := by
  intro st
  rcases hw st with ⟨st', hendless⟩ | heq
  · exact .inl ⟨st', bind_error hendless⟩
  · cases hwork : work' st with
    | ok a st' =>
      rw [hwork] at heq
      rw [bind_ok heq, bind_ok hwork]
      exact hn a st'
    | error e st' =>
      rw [hwork] at heq
      rw [bind_error heq, bind_error hwork]
      exact .inr rfl

/-- Behind the same work in front. -/
theorem after (work : Decoding α) {next next' : α → Decoding β} (hn : ∀ a, Refines (next a) (next' a)) :
    Refines (work >>= next) (work >>= next') :=
  .bind (.refl work) hn

theorem ite {p : Prop} [Decidable p] {work work' other other' : Decoding α} (hw : Refines work work')
    (ho : Refines other other') : Refines (if p then work else other) (if p then work' else other') := by
  split
  · exact hw
  · exact ho

end Refines

section
variable {content content' : Descriptor → Decoding Value} (h : ∀ d, Refines (content d) (content' d))
include h

theorem refines_readWrapped (owner : TypeName) (nilable : Bool) (declared : Descriptor) :
    Refines (readWrapped content owner nilable declared) (readWrapped content' owner nilable declared) := by
  refine .after _ fun e => .ite (.refl _) (.after _ fun runtime => ?_)
  exact .bind (h runtime) fun _ => .refl _

theorem refines_readSingle (owner : TypeName) (p : Property) (nested : Descriptor) :
    Refines (readSingle content owner p nested) (readSingle content' owner p nested) := by
  have hwrapped := refines_readWrapped h owner p.nilable nested
  refine .ite (h nested) (.after _ fun next => ?_)
  cases next with
  | none => exact .refl _
  | some e => exact .ite (.ite hwrapped (h nested)) (.ite hwrapped (.refl _))

theorem refines_readItems (owner : TypeName) (p : Property) (nested : Descriptor) (limit : Nat) :
    Refines (readItems content owner p nested limit) (readItems content' owner p nested limit) := by
  induction limit with
  | zero => exact .refl _
  | succ limit ih =>
    refine .after _ fun next => .ite ?_ (.refl _)
    exact .bind (refines_readSingle h owner p nested) fun item => .bind ih fun _ => .refl _

theorem refines_readProperty (owner : TypeName) (p : Property) :
    Refines (readProperty content owner p) (readProperty content' owner p) := by
  refine .after _ fun nested => ?_
  have hsingle := refines_readSingle h owner p nested
  refine .ite (.after _ fun st => ?_) (.ite (.after _ fun next => .ite hsingle (.refl _)) hsingle)
  exact .bind (refines_readItems h owner p nested _) fun _ => .refl _

theorem refines_readProperties (owner : TypeName) (properties : List Property) :
    Refines (readProperties content owner properties) (readProperties content' owner properties) := by
  induction properties with
  | nil => exact .refl _
  | cons p rest ih => exact .bind (refines_readProperty h owner p) fun v => .bind ih fun _ => .refl _

theorem refines_readVariants (owner : TypeName) (element : String) (variants : List Variant) :
    Refines (readVariants content owner element variants) (readVariants content' owner element variants) := by
  induction variants with
  | nil => exact .refl _
  | cons v rest ih =>
    rw [readVariants, readVariants]
    refine .after _ fun nested => ?_
    cases v.dispatch with
    | element name => exact .ite (.bind (refines_readWrapped h owner true nested) fun _ => .refl _) ih
    | inline => exact .after _ fun begins => .ite (.bind (h nested) fun _ => .refl _) ih

theorem refines_readChoice (owner : TypeName) (variants : List Variant) :
    Refines (readChoice content owner variants) (readChoice content' owner variants) := by
  refine .after _ fun next => ?_
  cases next with
  | none => exact .refl _
  | some e => exact refines_readVariants h owner e.localName variants

end

/-- **More steps change no answer.** -/
theorem refines_readContent (context : Context) {steps steps' : Nat} (hle : steps ≤ steps') (d : Descriptor) :
    Refines (readContent context steps d) (readContent context steps' d) := by
  induction steps generalizing steps' d with
  | zero => exact fun st => .inl ⟨st, rfl⟩
  | succ steps ih =>
    obtain ⟨steps', rfl⟩ : ∃ n, steps' = n + 1 := ⟨steps' - 1, by omega⟩
    have hbelow (nested : Descriptor) := ih (by omega : steps ≤ steps') nested
    rw [readContent, readContent]
    cases d.shape with
    | simple primitive => exact .refl _
    | sequence properties subtypes isAbstract =>
      exact .ite (.refl _) (.bind (refines_readProperties hbelow d.name properties) fun _ => .refl _)
    | choice variants => exact refines_readChoice hbelow d.name variants

/-- Reads an element as `readElement` does, in other numbers of steps. -/
def readElementWithin (bound : Decoder → Nat) (context : Context) (element : String) (type : TypeName) :
    Decoding Value := do
  let declared ← descriptor type
  match ← onCursor Xml.Cursor.peekStart with
  | none => throw (.content (.missingElement element none))
  | some e =>
    if e.localName = element then
      readWrapped (readContent context (bound (← get))) type true declared
    else throw (.content (.wrongElement e.localName element none))

theorem refines_readElement {bound : Decoder → Nat} (h : ∀ st, depthBound st ≤ bound st) (context : Context)
    (element : String) (type : TypeName) :
    Refines (readElement context element type) (readElementWithin bound context element type) := by
  refine .after _ fun declared => .after _ fun next => ?_
  cases next with
  | none => exact .refl _
  | some e =>
    refine .ite (.after _ fun st => ?_) (.refl _)
    exact refines_readWrapped (refines_readContent context (h st)) type true declared

/-- Where reading ends, its answer is that of every higher bound. -/
theorem readElement_eq {bound : Decoder → Nat} (h : ∀ st, depthBound st ≤ bound st) {context : Context}
    {element : String} {type : TypeName} {st : Decoder}
    (hends : ∀ st', readElement context element type st ≠ .error .endless st') :
    readElement context element type st = readElementWithin bound context element type st :=
  (refines_readElement h context element type).eq_of_ends hends

end SoapBinding.Decoding
