import Uplift.Program

namespace Uplift.Grammar

set_option autoImplicit true

namespace Parse

variable {α β σ : Type} {P : α → Prop}

/-- Whatever a reader answers with has the property. -/
structure Yields (p : Parse α) (Q : α → Prop) : Prop where
  of_done : ∀ {c s a s'}, p c s = .done a s' → Q a

namespace Yields

theorem any (p : Parse α) : p.Yields fun _ => True := ⟨fun _ => trivial⟩

theorem mono {p : Parse α} (hp : p.Yields P) (h : ∀ a, P a → Q a) : p.Yields Q :=
  ⟨fun ha => h _ (hp.of_done ha)⟩

theorem pure {a : α} (h : Q a) : (pure a : Parse α).Yields Q := by
  constructor
  intro c s b s' hb
  cases hb
  exact h

theorem bind {p : Parse α} {f : α → Parse β} (hp : p.Yields P) (hf : ∀ a, P a → (f a).Yields Q) :
    (p >>= f).Yields Q := by
  constructor
  intro c s b s'' hb
  change Parse.bind p f c s = .done b s'' at hb
  rw [Parse.bind] at hb
  split at hb
  next a s' ha => exact (hf a (hp.of_done ha)).of_done hb
  next => cases hb

theorem skip {p : Parse α} {f : α → Parse β} (hf : ∀ a, (f a).Yields Q) : (p >>= f).Yields Q :=
  bind (any p) fun a _ => hf a

theorem map {p : Parse α} {f : α → β} (hp : p.Yields P) (h : ∀ a, P a → Q (f a)) :
    (f <$> p).Yields Q :=
  bind hp fun a ha => pure (h a ha)

theorem fail {Q : α → Prop} : (fail complaint).Yields Q := by
  constructor
  intro c s a s' ha
  unfold Parse.fail at ha
  split at ha <;> cases ha

theorem failAt {Q : α → Prop} : (failAt offset complaint).Yields Q := ⟨nofun⟩

theorem under {p : Parse α} (hp : p.Yields Q) : (under f p).Yields Q := ⟨fun ha => hp.of_done ha⟩

theorem node (h : ∀ span, Q (.mk k span cs)) : (node k lo cs).Yields Q := by
  constructor
  intro c s n s' hn
  cases hn
  exact h _

theorem leaf (h : ∀ span, Q (.mk k span [])) : (leaf k).Yields Q :=
  skip fun _ => skip fun _ => node h

theorem none : (Pure.pure none : Parse (Option α)).Yields fun r => ∀ a ∈ r, P a := pure nofun

theorem some {p : Parse α} (hp : p.Yields P) :
    (p >>= fun a => Pure.pure (some a)).Yields fun r => ∀ a ∈ r, P a :=
  bind hp fun _ ha => pure fun _ hb => Option.mem_some_iff.1 hb ▸ ha

theorem mapSome {p : Parse α} (hp : p.Yields P) :
    (Option.some <$> p).Yields fun r => ∀ a ∈ r, P a := some hp

theorem ite {p q : Parse α} [Decidable b] (hp : p.Yields Q) (hq : q.Yields Q) :
    (if b then p else q).Yields Q := by
  split
  next => exact hp
  next => exact hq

theorem optionally {p : Parse Unit} {f : Unit → Parse β} [Decidable b] (hf : ∀ a, (f a).Yields Q) :
    (if b then p >>= f else f ()).Yields Q := ite (skip hf) (hf ())

theorem optionally_two {p : Parse α} {q : α → Parse Unit} {f : Unit → Parse β} [Decidable b]
    (hf : ∀ a, (f a).Yields Q) : (if b then p >>= fun a => q a >>= f else f ()).Yields Q :=
  ite (skip fun _ => skip hf) (hf ())

theorem otherwise {p : Parse Unit} {f : Unit → Parse β} [Decidable b] (hf : ∀ a, (f a).Yields Q) :
    (if b then f () else p >>= f).Yields Q := ite (hf ()) (skip hf)

theorem either {p q : Parse α} {f : α → Parse β} [Decidable b] (hp : p.Yields P) (hq : q.Yields P)
    (hf : ∀ a, P a → (f a).Yields Q) : (if b then p >>= f else q >>= f).Yields Q :=
  ite (bind hp hf) (bind hq hf)

theorem found {p : Parse (Option α)} {f : Option α → Parse β} (hp : p.Yields fun r => ∀ a ∈ r, P a)
    (hsome : ∀ a, P a → (f (Option.some a)).Yields Q) (hnone : (f Option.none).Yields Q) :
    (p >>= f).Yields Q := by
  apply bind hp
  intro r hr
  cases r with
  | none => exact hnone
  | some a => exact hsome a (hr a rfl)

theorem attempt {p : Parse (Option α)} (hp : p.Yields fun r => ∀ a ∈ r, P a) :
    (attempt p).Yields fun r => ∀ a ∈ r, P a := by
  constructor
  intro c s r s' hr
  unfold Parse.attempt at hr
  split at hr
  next hdone =>
    cases hr
    exact hp.of_done hdone
  next =>
    cases hr
    nofun
  next =>
    cases hr
    nofun

theorem recover {p : Parse α} (hp : p.Yields Q) (h : Q a) : (recover p a).Yields Q := by
  constructor
  intro c s b s' hb
  unfold Parse.recover at hb
  split at hb
  next hdone =>
    cases hb
    exact hp.of_done hdone
  next => exact (skip fun _ => pure h).of_done hb

theorem rescue {p : Parse α} (hp : p.Yields Q) (h : ∀ fault, (instead fault).Yields Q) :
    (rescue p test instead).Yields Q := by
  constructor
  intro c s a s' ha
  unfold Parse.rescue at ha
  split at ha
  next hdone =>
    cases ha
    exact hp.of_done hdone
  next fault _ _ =>
    split at ha
    next => exact (h fault).of_done ha
    next => cases ha

theorem manyFrom {p : Parse (Option α)} (hp : p.Yields fun r => ∀ a ∈ r, P a) (n : Nat)
    (done : List α) (hdone : ∀ a ∈ done, P a) :
    (manyFrom p n done).Yields fun as => ∀ a ∈ as, P a := by
  induction n generalizing done with
  | zero => exact fail
  | succ n ih =>
    apply bind hp
    intro r hr
    cases r with
    | none => exact pure (by simpa using hdone)
    | some a => exact ih (a :: done) (by simpa using ⟨hr a rfl, hdone⟩)

theorem many {p : Parse (Option α)} (hp : p.Yields fun r => ∀ a ∈ r, P a) :
    (many p).Yields fun as => ∀ a ∈ as, P a :=
  ⟨fun ha => (manyFrom hp _ [] nofun).of_done ha⟩

theorem loopFrom {I : σ → Prop} {step : σ → Parse (σ ⊕ β)}
    (hstep : ∀ a, I a → (step a).Yields (Sum.elim I Q)) (n : Nat) (a : σ) (ha : I a) :
    (loopFrom step n a).Yields Q := by
  induction n generalizing a with
  | zero => exact fail
  | succ n ih =>
    apply bind (hstep a ha)
    intro r hr
    cases r with
    | inl a => exact ih a hr
    | inr b => exact pure hr

/-- A loop whose steps keep an invariant ends with what its last step yields. -/
theorem loop (I : σ → Prop) {step : σ → Parse (σ ⊕ β)} (ha : I a)
    (hstep : ∀ a, I a → (step a).Yields (Sum.elim I Q)) : (loop step a).Yields Q :=
  ⟨fun hb => (loopFrom hstep _ a ha).of_done hb⟩

end Yields

end Parse

end Uplift.Grammar
