/-!
# Outcomes of stateful work

Reading, writing and looking up types are work on a state that may fail (`EStateM`). Three views of a
piece of work carry the proofs about it:

* `Ensures inv work post` — whatever the work delivers satisfies `post`, and `inv` still holds behind
  it. It says nothing of failures, so it composes along `bind` with no knowledge of what the pieces do.
* `Triple pre work post fault` — started where `pre` holds, the work does not fail with a `fault`, and
  whatever it delivers satisfies `post` together with the state behind it.
* `work s = .ok a s'` — the work delivers `a`. `bind_eq_ok` takes a sequence apart, and `bind_ok` runs
  its first step.

`Follows P work work' R Q` compares two runs: whatever one work delivers, the other does in a state that
is linked to it, with a related result, unless the first has lost its way. `Respects link work` compares
two runs of one work, those that fail with those that deliver: it tells the same from states that are
linked.
-/

namespace SoapBinding.Outcome

variable {ε σ α β : Type}

/-! ### Sequences that deliver -/

/-- A sequence delivers exactly when both of its steps do. -/
theorem bind_eq_ok {work : EStateM ε σ α} {next : α → EStateM ε σ β} {s t : σ} {b : β} :
    (work >>= next) s = .ok b t ↔ ∃ a s', work s = .ok a s' ∧ next a s' = .ok b t := by
  show EStateM.bind work next s = _ ↔ _
  simp only [EStateM.bind]
  cases h : work s with
  | ok a s' =>
    constructor
    · intro hn
      exact ⟨a, s', rfl, hn⟩
    · rintro ⟨a', s'', ha, hn⟩
      cases ha
      exact hn
  | error e s' => simp

/-- So it is without a state. -/
theorem except_bind_eq_ok {work : Except ε α} {next : α → Except ε β} {b : β} :
    (work >>= next) = .ok b ↔ ∃ a, work = .ok a ∧ next a = .ok b := by
  cases work <;> simp [bind, Except.bind]

theorem except_map_eq_ok {work : Except ε α} {f : α → β} {b : β} : work.map f = .ok b ↔ ∃ a, work = .ok a ∧ f a = b := by
  cases work <;> simp [Except.map]

/-- A sequence goes on behind a first step that delivers. -/
theorem bind_ok {work : EStateM ε σ α} {next : α → EStateM ε σ β} {s s' : σ} {a : α}
    (h : work s = .ok a s') : (work >>= next) s = next a s' := by
  show EStateM.bind work next s = _
  simp only [EStateM.bind, h]

/-- A sequence fails as its first step does. -/
theorem bind_error {work : EStateM ε σ α} {next : α → EStateM ε σ β} {s s' : σ} {e : ε}
    (h : work s = .error e s') : (work >>= next) s = .error e s' := by
  show EStateM.bind work next s = _
  simp only [EStateM.bind, h]

/-- What is made of what is delivered is the same where the works do the same. -/
theorem map_eq_of_eq {work work' : EStateM ε σ α} {s s' : σ} (f : α → β) (h : work s = work' s') :
    (f <$> work) s = (f <$> work') s' := by
  show EStateM.map f work s = EStateM.map f work' s'
  simp only [EStateM.map, h]

@[simp] theorem pure_apply (a : α) (s : σ) : (pure a : EStateM ε σ α) s = .ok a s := rfl

@[simp] theorem throw_apply (e : ε) (s : σ) : (throw e : EStateM ε σ α) s = .error e s := rfl

@[simp] theorem get_apply (s : σ) : (get : EStateM ε σ σ) s = .ok s s := rfl

/-- The state that is left behind, whether or not there is something delivered. -/
def left : EStateM.Result ε σ α → σ
  | .ok _ s => s
  | .error _ s => s

@[simp] theorem left_ok (a : α) (s : σ) : left (.ok a s : EStateM.Result ε σ α) = s := rfl

@[simp] theorem left_error (e : ε) (s : σ) : left (.error e s : EStateM.Result ε σ α) = s := rfl

/-! ### Outcomes that are computed -/

/-- Whether something is delivered, and passes a test together with the state behind it. -/
def okWith (test : α → σ → Bool) : EStateM.Result ε σ α → Bool
  | .ok a s => test a s
  | .error .. => false

/-- Whether there is a failure, with an error that passes a test. -/
def errorWith (test : ε → Bool) : EStateM.Result ε σ α → Bool
  | .ok .. => false
  | .error e _ => test e

theorem exists_of_okWith {test : α → σ → Bool} {r : EStateM.Result ε σ α} (h : okWith test r = true) :
    ∃ a s, r = .ok a s ∧ test a s = true := by
  cases r with
  | ok a s => exact ⟨a, s, rfl, h⟩
  | error e s => cases h

theorem exists_of_errorWith {test : ε → Bool} {r : EStateM.Result ε σ α} (h : errorWith test r = true) :
    ∃ e s, r = .error e s ∧ test e = true := by
  cases r with
  | ok a s => cases h
  | error e s => exact ⟨e, s, rfl, h⟩

/-! ### What work ensures -/

/-- Whatever the work delivers from a state where `inv` holds satisfies `post`, and `inv` holds behind
it. -/
def Ensures (inv : σ → Prop) (work : EStateM ε σ α) (post : α → Prop) : Prop :=
  ∀ s a s', inv s → work s = .ok a s' → inv s' ∧ post a

namespace Ensures

variable {inv : σ → Prop} {work : EStateM ε σ α} {next : α → EStateM ε σ β} {P P' : α → Prop}
  {Q : β → Prop}

theorem bind (hw : Ensures inv work P) (hn : ∀ a, P a → Ensures inv (next a) Q) :
    Ensures inv (work >>= next) Q := by
  intro s b t hs hb
  obtain ⟨a, s', ha, hnext⟩ := bind_eq_ok.1 hb
  obtain ⟨hs', hP⟩ := hw s a s' hs ha
  exact hn a hP s' b t hs' hnext

theorem pure {a : α} (h : P a) : Ensures inv (Pure.pure a : EStateM ε σ α) P := by
  intro s b t hs hb
  cases hb
  exact ⟨hs, h⟩

theorem throw {e : ε} : Ensures inv (MonadExcept.throw e : EStateM ε σ α) P := by
  intro s b t _ hb
  cases hb

theorem get : Ensures inv (MonadState.get : EStateM ε σ σ) inv := by
  intro s b t hs hb
  cases hb
  exact ⟨hs, hs⟩

theorem mono (hw : Ensures inv work P) (h : ∀ a, P a → P' a) : Ensures inv work P' := by
  intro s a s' hs ha
  obtain ⟨hs', hP⟩ := hw s a s' hs ha
  exact ⟨hs', h a hP⟩

theorem and (hw : Ensures inv work P) (hw' : Ensures inv work P') : Ensures inv work fun a => P a ∧ P' a := by
  intro s a s' hs ha
  exact ⟨(hw s a s' hs ha).1, (hw s a s' hs ha).2, (hw' s a s' hs ha).2⟩

theorem ite {c : Prop} [Decidable c] {other : EStateM ε σ α} (ht : c → Ensures inv work P)
    (he : ¬c → Ensures inv other P) : Ensures inv (if c then work else other) P := by
  by_cases hc : c
  · rw [if_pos hc]
    exact ht hc
  · rw [if_neg hc]
    exact he hc

end Ensures

/-! ### Triples -/

/-- Started where `pre` holds, the work delivers what satisfies `post`, or it fails, but not with a
`fault`. -/
def Triple (pre : σ → Prop) (work : EStateM ε σ α) (post : α → σ → Prop) (fault : ε → Prop) : Prop :=
  ∀ s, pre s → (∀ a s', work s = .ok a s' → post a s') ∧ ∀ e s', work s = .error e s' → ¬fault e

namespace Triple

variable {pre pre' : σ → Prop} {work other : EStateM ε σ α} {next : α → EStateM ε σ β}
  {mid post post' : α → σ → Prop} {last : β → σ → Prop} {fault : ε → Prop}

/-- Work that has delivered has not failed. -/
theorem of_ok {a : α} {s : σ} (h : post a s) :
    (∀ b t, (.ok a s : EStateM.Result ε σ α) = .ok b t → post b t) ∧
      ∀ e t, (.ok a s : EStateM.Result ε σ α) = .error e t → ¬fault e := by
  constructor
  · rintro b t ⟨⟩
    exact h
  · rintro e t ⟨⟩

/-- Work that has failed has delivered nothing. -/
theorem of_error {e : ε} {s : σ} (h : ¬fault e) :
    (∀ b t, (.error e s : EStateM.Result ε σ α) = .ok b t → post b t) ∧
      ∀ e' t, (.error e s : EStateM.Result ε σ α) = .error e' t → ¬fault e' := by
  constructor
  · rintro b t ⟨⟩
  · rintro e' t ⟨⟩
    exact h

theorem bind (hw : Triple pre work mid fault) (hn : ∀ a, Triple (mid a) (next a) last fault) :
    Triple pre (work >>= next) last fault := by
  intro s hs
  obtain ⟨hok, herror⟩ := hw s hs
  cases h : work s with
  | ok a s' =>
    rw [bind_ok h]
    exact hn a s' (hok a s' h)
  | error e s' =>
    rw [bind_error h]
    exact of_error (herror e s' h)

theorem pure {a : α} (h : ∀ s, pre s → post a s) :
    Triple pre (Pure.pure a : EStateM ε σ α) post fault := by
  intro s hs
  exact of_ok (h s hs)

theorem throw {e : ε} (h : ¬fault e) :
    Triple pre (MonadExcept.throw e : EStateM ε σ α) post fault := by
  intro s _
  exact of_error h

theorem get : Triple pre (MonadState.get : EStateM ε σ σ) (fun a s => a = s ∧ pre s) fault := by
  intro s hs
  exact of_ok ⟨rfl, hs⟩

theorem mono (h : Triple pre work post fault) (hpre : ∀ s, pre' s → pre s)
    (hpost : ∀ a s, post a s → post' a s) : Triple pre' work post' fault :=
  fun s hs => ⟨fun a s' ha => hpost a s' ((h s (hpre s hs)).1 a s' ha), (h s (hpre s hs)).2⟩

theorem ite {c : Prop} [Decidable c] (ht : c → Triple pre work post fault)
    (he : ¬c → Triple pre other post fault) : Triple pre (if c then work else other) post fault := by
  by_cases hc : c
  · rw [if_pos hc]
    exact ht hc
  · rw [if_neg hc]
    exact he hc

/-- What is known beside the state may be used throughout. -/
theorem given {P : Prop} (h : P → Triple pre work post fault) :
    Triple (fun s => pre s ∧ P) work post fault :=
  fun s hs => h hs.2 s hs.1

/-- What the state is known to be like for some value may be used for a value that is named. -/
theorem obtain {ι : Type} {known : ι → σ → Prop} {P : ι → Prop} (hpre : ∀ s, pre s → ∃ i, known i s ∧ P i)
    (h : ∀ i, P i → Triple (known i) work post fault) : Triple pre work post fault := by
  intro s hs
  obtain ⟨i, hknown, hP⟩ := hpre s hs
  exact h i hP s hknown

/-- Work that fails with no error at all delivers. -/
theorem exists_ok {s : σ} (h : Triple pre work post fun _ => True) (hs : pre s) :
    ∃ a s', work s = .ok a s' ∧ post a s' := by
  obtain ⟨hok, herror⟩ := h s hs
  cases hwork : work s with
  | ok a s' => exact ⟨a, s', rfl, hok a s' hwork⟩
  | error e s' => exact absurd trivial (herror e s' hwork)

theorem ensures {inv : σ → Prop} {P : α → Prop}
    (h : Triple inv work (fun a s => inv s ∧ P a) fault) : Ensures inv work P :=
  fun s a s' hs ha => (h s hs).1 a s' ha

end Triple

/-! ### Two runs -/

/-- States of two runs that are linked, and states where the first run is lost. -/
structure Pairing (σ τ : Type) where
  /-- Both runs are at the same point. -/
  linked : σ → τ → Prop
  /-- Nothing is said of the second run any more. -/
  lost : σ → Prop

namespace Pairing

variable {τ : Type}

/-- The same link, where the first run is not lost. -/
def surely (P : Pairing σ τ) : Pairing σ τ := ⟨P.linked, fun _ => False⟩

/-- One pairing tells at least what another does. -/
structure Implies (P Q : Pairing σ τ) : Prop where
  linked : ∀ s s', P.linked s s' → Q.linked s s'
  lost : ∀ s, P.lost s → Q.lost s

theorem Implies.refl (P : Pairing σ τ) : P.Implies P := ⟨fun _ _ => id, fun _ => id⟩

theorem surely_implies (P : Pairing σ τ) : P.surely.Implies P := ⟨fun _ _ => id, fun _ => False.elim⟩

end Pairing

/-- Whatever the first work delivers, the second delivers something related by `R` in a linked state, and they are linked
behind it; or else the first is lost, and stays so. -/
structure Follows {τ : Type} (P : Pairing σ τ) (work : EStateM ε σ α) (work' : EStateM ε τ β)
    (R : α → β → Prop) (Q : Pairing σ τ) : Prop where
  stays : ∀ s a t, P.lost s → work s = .ok a t → Q.lost t ∧ ∃ b, R a b
  follows : ∀ s s' a t, P.linked s s' → work s = .ok a t →
    (Q.lost t ∧ ∃ b, R a b) ∨ ∃ b t', work' s' = .ok b t' ∧ R a b ∧ Q.linked t t'

namespace Follows

variable {τ α' β' : Type} {P Q Q' : Pairing σ τ} {work : EStateM ε σ α} {work' : EStateM ε τ β}
  {R R' : α → β → Prop} {S : α' → β' → Prop} {next : α → EStateM ε σ α'} {next' : β → EStateM ε τ β'}

theorem bind (hw : Follows P work work' R Q) (hn : ∀ a b, R a b → Follows Q (next a) (next' b) S Q') :
    Follows P (work >>= next) (work' >>= next') S Q' := by
  -- Lost behind the first step, the run stays lost, whether or not the second run goes on.
  have hlost {a : α} {t u : σ} {c : α'} (h : Q.lost t ∧ ∃ b, R a b) (hc : next a t = .ok c u) :
      Q'.lost u ∧ ∃ d, S c d := by
    obtain ⟨ht, b, hab⟩ := h
    exact (hn a b hab).stays t c u ht hc
  constructor
  · intro s c u hs hok
    obtain ⟨a, t, ha, hc⟩ := bind_eq_ok.1 hok
    exact hlost (hw.stays s a t hs ha) hc
  · intro s s' c u hlinked hok
    obtain ⟨a, t, ha, hc⟩ := bind_eq_ok.1 hok
    obtain hgone | ⟨b, t', hb, hab, hlinked'⟩ := hw.follows s s' a t hlinked ha
    · exact .inl (hlost hgone hc)
    · obtain hgone | ⟨d, u', hd, hS, hlinked''⟩ := (hn a b hab).follows t t' c u hlinked' hc
      · exact .inl hgone
      · exact .inr ⟨d, u', bind_eq_ok.2 ⟨b, t', hb, hd⟩, hS, hlinked''⟩

theorem pure {a : α} {b : β} (h : R a b) :
    Follows P (Pure.pure a : EStateM ε σ α) (Pure.pure b : EStateM ε τ β) R P := by
  constructor
  · rintro s _ _ hs ⟨⟩
    exact ⟨hs, b, h⟩
  · rintro s s' _ _ hlinked ⟨⟩
    exact .inr ⟨b, s', rfl, h, hlinked⟩

theorem throw {e : ε} : Follows P (MonadExcept.throw e : EStateM ε σ α) work' R Q := by
  constructor <;> intros <;> contradiction

theorem get {R : σ → τ → Prop} (hlost : ∀ s, P.lost s → ∃ s', R s s')
    (hlinked : ∀ s s', P.linked s s' → R s s') :
    Follows P (MonadState.get : EStateM ε σ σ) (MonadState.get : EStateM ε τ τ) R P := by
  constructor
  · rintro s _ _ hs ⟨⟩
    exact ⟨hs, hlost s hs⟩
  · rintro s s' _ _ hs ⟨⟩
    exact .inr ⟨s', s', rfl, hlinked s s' hs, hs⟩

theorem mono (h : Follows P work work' R Q) (hR : ∀ a b, R a b → R' a b) : Follows P work work' R' Q := by
  have hmore {a : α} : (∃ b, R a b) → ∃ b, R' a b := Exists.imp fun b => hR a b
  constructor
  · intro s a t hs ha
    exact (h.stays s a t hs ha).imp_right hmore
  · intro s s' a t hlinked ha
    obtain hgone | ⟨b, t', hb, hab, ht⟩ := h.follows s s' a t hlinked ha
    · exact .inl (hgone.imp_right hmore)
    · exact .inr ⟨b, t', hb, hR a b hab, ht⟩

/-- What is known in front may tell more, and behind it less. -/
theorem adapt {P' : Pairing σ τ} (h : Follows P work work' R Q) (hP : P'.Implies P) (hQ : Q.Implies Q') :
    Follows P' work work' R Q' := by
  constructor
  · intro s a t hs ha
    exact (h.stays s a t (hP.lost s hs) ha).imp_left (hQ.lost t)
  · intro s s' a t hlinked ha
    obtain hgone | ⟨b, t', hb, hab, ht⟩ := h.follows s s' a t (hP.linked s s' hlinked) ha
    · exact .inl (hgone.imp_left (hQ.lost t))
    · exact .inr ⟨b, t', hb, hab, hQ.linked t t' ht⟩

end Follows

/-! ### One work on linked states -/

/-- What work tells: what it delivers, or its failure. -/
def told : EStateM.Result ε σ α → Except ε α
  | .ok a _ => .ok a
  | .error e _ => .error e

/-- Two results tell the same, in states that are linked. -/
inductive Alike (link : σ → σ → Prop) : EStateM.Result ε σ α → EStateM.Result ε σ α → Prop where
  | ok {a : α} {s s' : σ} : link s s' → Alike link (.ok a s) (.ok a s')
  | error {e : ε} {s s' : σ} : link s s' → Alike link (.error e s) (.error e s')

theorem Alike.told_eq {link : σ → σ → Prop} {r r' : EStateM.Result ε σ α} (h : Alike link r r') :
    told r = told r' := by
  cases h <;> rfl

theorem Alike.left {link : σ → σ → Prop} {r r' : EStateM.Result ε σ α} (h : Alike link r r') :
    link (left r) (left r') := by
  cases h <;> assumption

/-- The work tells the same from states that are linked, whether or not it fails, and leaves them linked. -/
def Respects (link : σ → σ → Prop) (work : EStateM ε σ α) : Prop :=
  ∀ s s', link s s' → Alike link (work s) (work s')

namespace Respects

variable {link : σ → σ → Prop} {work other : EStateM ε σ α} {next : α → EStateM ε σ β}

theorem pure (a : α) : Respects link (Pure.pure a : EStateM ε σ α) := fun _ _ h => .ok h

theorem throw (e : ε) : Respects link (MonadExcept.throw e : EStateM ε σ α) := fun _ _ h => .error h

theorem bind (hw : Respects link work) (hn : ∀ a, Respects link (next a)) : Respects link (work >>= next) := by
  intro s s' h
  have halike := hw s s' h
  generalize hs : work s = r, hs' : work s' = r' at halike
  cases halike with
  | ok ht =>
    rw [bind_ok hs, bind_ok hs']
    exact hn _ _ _ ht
  | error ht =>
    rw [bind_error hs, bind_error hs']
    exact .error ht

/-- The state may be looked at, if what is looked at is the same in states that are linked. -/
theorem get {next : σ → EStateM ε σ β} (hsame : ∀ s s', link s s' → next s = next s')
    (hn : ∀ s, Respects link (next s)) : Respects link (MonadState.get >>= next) := by
  intro s s' h
  rw [bind_ok (get_apply s), bind_ok (get_apply s'), ← hsame s s' h]
  exact hn s s s' h

theorem ite {c : Prop} [Decidable c] (ht : Respects link work) (he : Respects link other) :
    Respects link (if c then work else other) := by
  split
  · exact ht
  · exact he

end Respects
end SoapBinding.Outcome
