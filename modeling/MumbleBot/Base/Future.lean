import MumbleBot.Base.Loop
import MumbleBot.Base.Machine

/-!
# Futures

A future is polled until it is ready or has failed, and is gone then. What polls work on, sockets,
channels and timers, is a world that all futures of a program share and that changes between polls
as well; what a poll finds there is all the nondeterminism there is.

A contract of a future says what a poll starts from, what holds while it is waiting, what it leaves
when it is done or panics, and how it changes the world. Sequencing needs that the first future
leaves what the second one starts from; two futures that run side by side need that neither breaks
what the other one relies on.

## Main definitions

* `Polled`, `Future` — how a poll ends, and a future
* `Future.andThen`, `Future.mapErr`, `Future.carry`, `Future.join`, `Future.fold`, `Future.loopFn` —
  the combinators
* `Future.onPart` — a future that works on a part of the world
* `Future.Polls`, `Future.Meets` — a future keeps a contract, and does not panic
* `Future.task` — a future that is polled while the world changes

## Main results

* `Future.Polls.andThen`, `Future.Polls.join`, `Future.Polls.fold`, `Future.Polls.loopFn`,
  `Future.Polls.onPart` — the rules for the combinators
* `Future.Polls.run`, `Future.Meets.run` — what a contract says about a whole run
-/

namespace MumbleBot

/-- How a poll of a future ends: it has to be polled again, from its new state, or it is done. -/
inductive Polled (σ α ε : Type) where
  | notReady (s : σ)
  | ready (a : α)
  | failed (e : ε)
  deriving DecidableEq, Repr

/-- A future with states `σ` over a world `ω`. -/
structure Future (ω σ α ε : Type) where
  poll : σ → ω → Outcome (Polled σ α ε × ω)

namespace Polled

variable {σ τ α ε ω : Type}

/-- The state of a future as a part of a larger one. -/
def mapState (f : σ → τ) : Polled σ α ε → Polled τ α ε
  | notReady s => notReady (f s)
  | ready a => ready a
  | failed e => failed e

/-- What holds of the end of a poll and the world it leaves. -/
def Satisfies (I : σ → ω → Prop) (Q : α → ω → Prop) (E : ε → ω → Prop) (w : ω) :
    Polled σ α ε → Prop
  | notReady s => I s w
  | ready a => Q a w
  | failed e => E e w

theorem satisfies_mapState {I : τ → ω → Prop} {Q : α → ω → Prop} {E : ε → ω → Prop} {w : ω}
    {f : σ → τ} {r : Polled σ α ε} :
    (r.mapState f).Satisfies I Q E w ↔ r.Satisfies (fun s => I (f s)) Q E w := by
  cases r <;> exact Iff.rfl

theorem Satisfies.mono {I I' : σ → ω → Prop} {Q Q' : α → ω → Prop} {E E' : ε → ω → Prop} {w w' : ω}
    {r : Polled σ α ε} (h : r.Satisfies I Q E w) (hI : ∀ s, I s w → I' s w')
    (hQ : ∀ a, Q a w → Q' a w') (hE : ∀ e, E e w → E' e w') : r.Satisfies I' Q' E' w' := by
  cases r with
  | notReady s => exact hI s h
  | ready a => exact hQ a h
  | failed e => exact hE e h

end Polled

namespace Future

variable {ω σ τ α β ε ε' : Type}

/-! ### Effects on the world -/

/-- A relation between worlds, as one poll after another gives it. -/
structure Steps (R : ω → ω → Prop) : Prop where
  refl : ∀ w, R w w
  trans : ∀ {w w' w''}, R w w' → R w' w'' → R w w''

theorem steps_true : Steps fun _ _ : ω => True := ⟨fun _ => trivial, fun _ _ => trivial⟩

/-- A property of worlds that the steps of others do not break. -/
def Stable (R : ω → ω → Prop) (P : ω → Prop) : Prop := ∀ w w', R w w' → P w → P w'

theorem Stable.mono {R R' : ω → ω → Prop} {P : ω → Prop} (h : Stable R P)
    (hR : ∀ w w', R' w w' → R w w') : Stable R' P :=
  fun w w' hstep => h w w' (hR w w' hstep)

/-- From the world `w` some code comes to a world that `R` allows: with a value, and `Q` holds, or
with a panic, and `B` holds there. -/
def EndsFrom (R : ω → ω → Prop) (B : ω → Prop) (w : ω) (Q : α → ω → Prop)
    (x : Outcome (α × ω)) : Prop :=
  x.Ends (∃ w', R w w' ∧ B w') fun aw => R w aw.2 ∧ Q aw.1 aw.2

section EndsFrom

variable {R : ω → ω → Prop} {B : ω → Prop} {w : ω}

theorem EndsFrom.bind (hR : Steps R) {P : α → ω → Prop} {Q : β → ω → Prop}
    {x : Outcome (α × ω)} {f : α × ω → Outcome (β × ω)} (hx : EndsFrom R B w P x)
    (hf : ∀ a w', P a w' → EndsFrom R B w' Q (f (a, w'))) : EndsFrom R B w Q (x >>= f) := by
  refine Outcome.Ends.bind hx ?_
  rintro ⟨a, w'⟩ ⟨hstep, ha⟩
  refine (hf a w' ha).mono ?_ ?_
  · rintro ⟨w'', hstep', hw''⟩
    exact ⟨w'', hR.trans hstep hstep', hw''⟩
  · rintro ⟨b, w''⟩ ⟨hstep', hb⟩
    exact ⟨hR.trans hstep hstep', hb⟩

/-- The same after some code that does not touch the world. -/
theorem EndsFrom.bind_left (hR : Steps R) {P : α → Prop} {Q : β → ω → Prop} {x : Outcome α}
    {f : α → Outcome (β × ω)} (hx : x.Ends (B w) P) (hf : ∀ a, P a → EndsFrom R B w Q (f a)) :
    EndsFrom R B w Q (x >>= f) :=
  (hx.mono (fun h => ⟨w, hR.refl w, h⟩) fun _ h => h).bind hf

theorem EndsFrom.mono {R' : ω → ω → Prop} {B' : ω → Prop} {Q Q' : α → ω → Prop}
    {x : Outcome (α × ω)} (h : EndsFrom R B w Q x) (hR : ∀ w', R w w' → R' w w')
    (hB : ∀ w', B w' → B' w') (hQ : ∀ a w', R w w' → Q a w' → Q' a w') :
    EndsFrom R' B' w Q' x := by
  refine Outcome.Ends.mono h ?_ ?_
  · rintro ⟨w', hstep, hw'⟩
    exact ⟨w', hR w' hstep, hB w' hw'⟩
  · rintro ⟨a, w'⟩ ⟨hstep, ha⟩
    exact ⟨hR w' hstep, hQ a w' hstep ha⟩

/-- A loop over a world, whose turns change it as `R` allows. -/
theorem EndsFrom.run (hR : Steps R) {l : Loop (σ × ω) (β × ω)} {I : σ → ω → Prop}
    {Q : β → ω → Prop} (hbody : ∀ s w, I s w → (l.body (s, w)).Ends (∃ w', R w w' ∧ B w')
      (Turn.Satisfies (fun sw => R w sw.2 ∧ I sw.1 sw.2) fun bw => R w bw.2 ∧ Q bw.1 bw.2))
    {s : σ} (hs : I s w) : EndsFrom R B w Q (l.run (s, w)) := by
  refine l.run_ends (I := fun sw => R w sw.2 ∧ I sw.1 sw.2) ?_ ⟨hR.refl w, hs⟩
  rintro ⟨s, w₁⟩ ⟨hstep, hs⟩
  refine (hbody s w₁ hs).mono ?_ ?_
  · rintro ⟨w₂, hstep', hw₂⟩
    exact ⟨w₂, hR.trans hstep hstep', hw₂⟩
  · rintro (⟨s', w₂⟩ | ⟨b, w₂⟩) ⟨hstep', h⟩
    · exact ⟨hR.trans hstep hstep', h⟩
    · exact ⟨hR.trans hstep hstep', h⟩

end EndsFrom

/-! ### Contracts -/

/-- `F.Polls B R P I Q E`: from a state in which `P` holds a poll changes the world as `R` allows,
and then `I` holds, or the future is ready and `Q` holds, or it has failed and `E` holds, or the
poll has panicked and `B` holds. -/
def Polls (F : Future ω σ α ε) (B : ω → Prop) (R : ω → ω → Prop) (P I : σ → ω → Prop)
    (Q : α → ω → Prop) (E : ε → ω → Prop) : Prop :=
  ∀ s w, P s w → EndsFrom R B w (fun r w' => r.Satisfies I Q E w') (F.poll s w)

/-- `F.Meets R I Q E`: from a state in which `I` holds a poll does not panic, it changes the world
as `R` allows, and then `I` holds again, or the future is ready and `Q` holds, or it has failed and
`E` holds. -/
def Meets (F : Future ω σ α ε) (R : ω → ω → Prop) (I : σ → ω → Prop) (Q : α → ω → Prop)
    (E : ε → ω → Prop) : Prop :=
  ∀ s w, I s w → ∃ r w', F.poll s w = .returned (r, w') ∧ R w w' ∧ r.Satisfies I Q E w'

theorem meets_iff {F : Future ω σ α ε} {R : ω → ω → Prop} {I : σ → ω → Prop} {Q : α → ω → Prop}
    {E : ε → ω → Prop} : F.Meets R I Q E ↔ F.Polls (fun _ => False) R I I Q E := by
  have hend : ∀ (w : ω) (x : Outcome (Polled σ α ε × ω)),
      (∃ r w', x = .returned (r, w') ∧ R w w' ∧ r.Satisfies I Q E w') ↔
        EndsFrom R (fun _ => False) w (fun r w' => r.Satisfies I Q E w') x := by
    rintro w (⟨r, w'⟩ | _) <;> simp [EndsFrom, Outcome.Ends]
  exact forall₂_congr fun s w => imp_congr_right fun _ => hend w _

/-- A contract that asks for more and promises less. -/
theorem Polls.mono {F : Future ω σ α ε} {B B' : ω → Prop} {R R' : ω → ω → Prop}
    {P P' I I' : σ → ω → Prop} {Q Q' : α → ω → Prop} {E E' : ε → ω → Prop}
    (h : F.Polls B R P I Q E) (hB : ∀ w, B w → B' w) (hR : ∀ w w', R w w' → R' w w')
    (hP : ∀ s w, P' s w → P s w) (hI : ∀ s w, I s w → I' s w) (hQ : ∀ a w, Q a w → Q' a w)
    (hE : ∀ e w, E e w → E' e w) : F.Polls B' R' P' I' Q' E' :=
  fun s w hs => (h s w (hP s w hs)).mono (hR w) hB fun _ w' _ hr =>
    hr.mono (hI · w') (hQ · w') (hE · w')

/-- A contract that promises less. -/
theorem Meets.mono {F : Future ω σ α ε} {R R' : ω → ω → Prop} {I : σ → ω → Prop}
    {Q Q' : α → ω → Prop} {E E' : ε → ω → Prop} (h : F.Meets R I Q E)
    (hR : ∀ w w', R w w' → R' w w') (hQ : ∀ a w, Q a w → Q' a w) (hE : ∀ e w, E e w → E' e w) :
    F.Meets R' I Q' E' :=
  meets_iff.mpr ((meets_iff.mp h).mono (fun _ h => h) hR (fun _ _ h => h) (fun _ _ h => h) hQ hE)

/-- A contract for each of some parameters is a contract that hides them. -/
theorem Polls.exists {X : Type} {F : Future ω σ α ε} {B : X → ω → Prop} {R : ω → ω → Prop}
    {P I : X → σ → ω → Prop} {Q : X → α → ω → Prop} {E : X → ε → ω → Prop}
    (h : ∀ x, F.Polls (B x) R (P x) (I x) (Q x) (E x)) :
    F.Polls (fun w => ∃ x, B x w) R (fun s w => ∃ x, P x s w) (fun s w => ∃ x, I x s w)
      (fun a w => ∃ x, Q x a w) fun e w => ∃ x, E x e w := by
  rintro s w ⟨x, hs⟩
  exact (h x s w hs).mono (fun _ h => h) (fun _ h => ⟨x, h⟩) fun r w' _ hr =>
    hr.mono (fun _ h => ⟨x, h⟩) (fun _ h => ⟨x, h⟩) fun _ h => ⟨x, h⟩

/-- What all steps keep holds on all sides of a contract. -/
theorem Polls.frame {F : Future ω σ α ε} {B : ω → Prop} {R : ω → ω → Prop} {P I : σ → ω → Prop}
    {Q : α → ω → Prop} {E : ε → ω → Prop} (h : F.Polls B R P I Q E) {X : ω → Prop}
    (hX : Stable R X) :
    F.Polls (fun w => B w ∧ X w) R (fun s w => P s w ∧ X w) (fun s w => I s w ∧ X w)
      (fun a w => Q a w ∧ X w) fun e w => E e w ∧ X w := by
  rintro s w ⟨hs, hw⟩
  refine Outcome.Ends.mono (h s w hs) ?_ ?_
  · rintro ⟨w', hstep, hw'⟩
    exact ⟨w', hstep, hw', hX w w' hstep hw⟩
  · rintro ⟨r, w'⟩ ⟨hstep, hr⟩
    have hw' := hX w w' hstep hw
    exact ⟨hstep, hr.mono (fun _ h => ⟨h, hw'⟩) (fun _ h => ⟨h, hw'⟩) fun _ h => ⟨h, hw'⟩⟩

theorem Meets.frame {F : Future ω σ α ε} {R : ω → ω → Prop} {I : σ → ω → Prop} {Q : α → ω → Prop}
    {E : ε → ω → Prop} (h : F.Meets R I Q E) {X : ω → Prop} (hX : Stable R X) :
    F.Meets R (fun s w => I s w ∧ X w) (fun a w => Q a w ∧ X w) fun e w => E e w ∧ X w :=
  meets_iff.mpr (((meets_iff.mp h).frame hX).mono (fun _ h => h.1) (fun _ _ h => h)
    (fun _ _ h => h) (fun _ _ h => h) (fun _ _ h => h) fun _ _ h => h)

theorem Meets.exists {X : Type} {F : Future ω σ α ε} {R : ω → ω → Prop} {I : X → σ → ω → Prop}
    {Q : X → α → ω → Prop} {E : X → ε → ω → Prop} (h : ∀ x, F.Meets R (I x) (Q x) (E x)) :
    F.Meets R (fun s w => ∃ x, I x s w) (fun a w => ∃ x, Q x a w) (fun e w => ∃ x, E x e w) :=
  meets_iff.mpr ((Polls.exists fun x => meets_iff.mp (h x)).mono (fun _ ⟨_, h⟩ => h)
    (fun _ _ h => h) (fun _ _ h => h) (fun _ _ h => h) (fun _ _ h => h) fun _ _ h => h)

/-! ### One after the other -/

/-- `and_then`: when the first future is ready, the closure makes the second one, and that is polled
at once. -/
def andThen (F : Future ω σ α ε) (f : α → Outcome τ) (G : Future ω τ β ε) :
    Future ω (σ ⊕ τ) β ε where
  poll
    | .inl s, w => do
      let (r, w) ← F.poll s w
      match r with
      | .notReady s => return (.notReady (.inl s), w)
      | .failed e => return (.failed e, w)
      | .ready a => do
        let t ← f a
        let (r, w) ← G.poll t w
        return (r.mapState .inr, w)
    | .inr t, w => do
      let (r, w) ← G.poll t w
      return (r.mapState .inr, w)

/-- **Sequencing**: the first future leaves what the closure and the second one start from. -/
theorem Polls.andThen {F : Future ω σ α ε} {f : α → Outcome τ} {G : Future ω τ β ε} {B : ω → Prop}
    {R : ω → ω → Prop} (hR : Steps R) {P I : σ → ω → Prop} {P' J : τ → ω → Prop} {M : α → ω → Prop}
    {Q : β → ω → Prop} {E : ε → ω → Prop} (hF : F.Polls B R P I M E) (hG : G.Polls B R P' J Q E)
    (hf : ∀ a w, M a w → (f a).Ends (B w) fun t => P' t w) :
    (F.andThen f G).Polls B R (Sum.elim P P') (Sum.elim I J) Q E := by
  have hsecond : ∀ t w, P' t w → EndsFrom R B w (fun r w' => r.Satisfies (Sum.elim I J) Q E w')
      (do
        let (r, w) ← G.poll t w
        return (r.mapState .inr, w) : Outcome (Polled (σ ⊕ τ) β ε × ω)) := by
    intro t w ht
    refine (hG t w ht).bind hR fun r w' hr => ⟨hR.refl w', ?_⟩
    exact Polled.satisfies_mapState.mpr hr
  rintro (s | t) w hs
  · refine (hF s w hs).bind hR fun r w' hr => ?_
    cases r with
    | notReady s' => exact ⟨hR.refl w', hr⟩
    | failed e => exact ⟨hR.refl w', hr⟩
    | ready a => exact EndsFrom.bind_left hR (hf a w' hr) fun t ht => hsecond t w' ht
  · exact hsecond t w hs

theorem Meets.andThen {F : Future ω σ α ε} {f : α → Outcome τ} {G : Future ω τ β ε}
    {R : ω → ω → Prop} (hR : Steps R) {I : σ → ω → Prop} {J : τ → ω → Prop} {M : α → ω → Prop}
    {Q : β → ω → Prop} {E : ε → ω → Prop} (hF : F.Meets R I M E) (hG : G.Meets R J Q E)
    (hf : ∀ a w, M a w → ∃ t, f a = .returned t ∧ J t w) :
    (F.andThen f G).Meets R (Sum.elim I J) Q E :=
  meets_iff.mpr ((meets_iff.mp hF).andThen hR (meets_iff.mp hG) fun a w ha =>
    Outcome.ends_false_iff.mpr (hf a w ha))

/-- `map_err`. -/
def mapErr (F : Future ω σ α ε) (f : ε → ε') : Future ω σ α ε' where
  poll s w := do
    let (r, w) ← F.poll s w
    match r with
    | .notReady s => return (.notReady s, w)
    | .ready a => return (.ready a, w)
    | .failed e => return (.failed (f e), w)

theorem Polls.mapErr {F : Future ω σ α ε} {f : ε → ε'} {B : ω → Prop} {R : ω → ω → Prop}
    {P I : σ → ω → Prop} {Q : α → ω → Prop} {E : ε' → ω → Prop}
    (hF : F.Polls B R P I Q fun e => E (f e)) : (F.mapErr f).Polls B R P I Q E := by
  intro s w hs
  refine Outcome.Ends.bind (hF s w hs) ?_
  rintro ⟨r, w'⟩ ⟨hstep, hr⟩
  cases r with
  | notReady s' => exact ⟨hstep, hr⟩
  | ready a => exact ⟨hstep, hr⟩
  | failed e => exact ⟨hstep, hr⟩

theorem Meets.mapErr {F : Future ω σ α ε} {f : ε → ε'} {R : ω → ω → Prop} {I : σ → ω → Prop}
    {Q : α → ω → Prop} {E : ε' → ω → Prop} (hF : F.Meets R I Q fun e => E (f e)) :
    (F.mapErr f).Meets R I Q E :=
  meets_iff.mpr (meets_iff.mp hF).mapErr

/-- A value that is there before the future is made and handed on with what it is ready with, as by
`and_then(move |a| ok((k, a)))`. -/
def carry (κ : Type) (F : Future ω σ α ε) : Future ω (κ × σ) (κ × α) ε where
  poll ks w := do
    let (r, w) ← F.poll ks.2 w
    match r with
    | .notReady s => return (.notReady (ks.1, s), w)
    | .ready a => return (.ready (ks.1, a), w)
    | .failed e => return (.failed e, w)

theorem Polls.carry {κ : Type} {F : Future ω σ α ε} {B : ω → Prop} {R : ω → ω → Prop}
    {P I : κ → σ → ω → Prop} {Q : κ → α → ω → Prop} {E : ε → ω → Prop}
    (hF : ∀ k, F.Polls B R (P k) (I k) (Q k) E) :
    (F.carry κ).Polls B R (fun ks => P ks.1 ks.2) (fun ks => I ks.1 ks.2) (fun ka => Q ka.1 ka.2)
      E := by
  rintro ⟨k, s⟩ w hs
  refine Outcome.Ends.bind (hF k s w hs) ?_
  rintro ⟨r, w'⟩ ⟨hstep, hr⟩
  cases r with
  | notReady s' => exact ⟨hstep, hr⟩
  | ready a => exact ⟨hstep, hr⟩
  | failed e => exact ⟨hstep, hr⟩

/-! ### Side by side -/

/-- A future of a `join`, or what it was ready with: `MaybeDone`. -/
def pollMaybeDone (F : Future ω σ α ε) : σ ⊕ α → ω → Outcome (Except ε (σ ⊕ α) × ω)
  | .inl s, w => do
    let (r, w) ← F.poll s w
    match r with
    | .notReady s => return (.ok (.inl s), w)
    | .ready a => return (.ok (.inr a), w)
    | .failed e => return (.error e, w)
  | .inr a, w => return (.ok (.inr a), w)

/-- `join`: both are polled, in this order, until both are ready; the first failure ends it. -/
def join (F : Future ω σ α ε) (G : Future ω τ β ε) :
    Future ω ((σ ⊕ α) × (τ ⊕ β)) (α × β) ε where
  poll st w := do
    let (x, w) ← F.pollMaybeDone st.1 w
    match x with
    | .error e => return (.failed e, w)
    | .ok x => do
      let (y, w) ← G.pollMaybeDone st.2 w
      match x, y with
      | _, .error e => return (.failed e, w)
      | .inr a, .ok (.inr b) => return (.ready (a, b), w)
      | x, .ok y => return (.notReady (x, y), w)

/-- What holds after the poll of one of the two. -/
def MaybeDone (I : σ → ω → Prop) (Q : α → ω → Prop) (E : ε → ω → Prop) :
    Except ε (σ ⊕ α) → ω → Prop
  | .ok x, w => Sum.elim I Q x w
  | .error e, w => E e w

theorem Polls.pollMaybeDone {F : Future ω σ α ε} {B : ω → Prop} {R : ω → ω → Prop} (hR : Steps R)
    {P I : σ → ω → Prop} {Q : α → ω → Prop} {E : ε → ω → Prop} (hF : F.Polls B R P I Q E)
    {x : σ ⊕ α} {w : ω} (hx : Sum.elim P Q x w) :
    EndsFrom R B w (MaybeDone I Q E) (F.pollMaybeDone x w) := by
  rcases x with s | a
  · refine (hF s w hx).bind hR fun r w' hr => ?_
    cases r with
    | notReady s' => exact ⟨hR.refl w', hr⟩
    | ready a => exact ⟨hR.refl w', hr⟩
    | failed e => exact ⟨hR.refl w', hr⟩
  · exact ⟨hR.refl w, hx⟩

/-- **Parallel composition**: neither of the two futures breaks what the other one relies on. When
one of them fails or panics, the other one is where its contract has it. -/
theorem Polls.join {F : Future ω σ α ε} {G : Future ω τ β ε} {B₁ B₂ B : ω → Prop}
    {R R₁ R₂ : ω → ω → Prop} (hR : Steps R) (hR₁ : Steps R₁) (hR₂ : Steps R₂)
    (h₁ : ∀ w w', R₁ w w' → R w w') (h₂ : ∀ w w', R₂ w w' → R w w') {P I : σ → ω → Prop}
    {P' J : τ → ω → Prop} {Q : α → ω → Prop} {Q' : β → ω → Prop} {E₁ E₂ E : ε → ω → Prop}
    (hF : F.Polls B₁ R₁ P I Q E₁) (hG : G.Polls B₂ R₂ P' J Q' E₂)
    (hx : ∀ x, Stable R₂ (Sum.elim I Q x)) (hy : ∀ y, Stable R₁ (Sum.elim P' Q' y))
    (hE₁ : ∀ e y w, E₁ e w → Sum.elim P' Q' y w → E e w)
    (hE₂ : ∀ e x w, E₂ e w → Sum.elim I Q x w → E e w)
    (hB₁ : ∀ y w, B₁ w → Sum.elim P' Q' y w → B w)
    (hB₂ : ∀ x w, B₂ w → Sum.elim I Q x w → B w) :
    (F.join G).Polls B R (fun st w => Sum.elim P Q st.1 w ∧ Sum.elim P' Q' st.2 w)
      (fun st w => Sum.elim I Q st.1 w ∧ Sum.elim J Q' st.2 w) (fun ab w => Q ab.1 w ∧ Q' ab.2 w)
      E := by
  rintro ⟨x, y⟩ w ⟨hxw, hyw⟩
  have hfirst : EndsFrom R B w (fun r w' => MaybeDone I Q E₁ r w' ∧ Sum.elim P' Q' y w')
      (F.pollMaybeDone x w) := by
    refine Outcome.Ends.mono (hF.pollMaybeDone hR₁ hxw) ?_ ?_
    · rintro ⟨w', hstep, hw'⟩
      exact ⟨w', h₁ _ _ hstep, hB₁ y w' hw' (hy y _ _ hstep hyw)⟩
    · rintro ⟨r, w'⟩ ⟨hstep, hr⟩
      exact ⟨h₁ _ _ hstep, hr, hy y _ _ hstep hyw⟩
  refine hfirst.bind hR ?_
  rintro (e | x') w₁ ⟨hr, hyw₁⟩
  · exact ⟨hR.refl w₁, hE₁ e y w₁ hr hyw₁⟩
  have hsecond : EndsFrom R B w₁ (fun r w' => MaybeDone J Q' E₂ r w' ∧ Sum.elim I Q x' w')
      (G.pollMaybeDone y w₁) := by
    refine Outcome.Ends.mono (hG.pollMaybeDone hR₂ hyw₁) ?_ ?_
    · rintro ⟨w', hstep, hw'⟩
      exact ⟨w', h₂ _ _ hstep, hB₂ x' w' hw' (hx x' _ _ hstep hr)⟩
    · rintro ⟨r, w'⟩ ⟨hstep, hr'⟩
      exact ⟨h₂ _ _ hstep, hr', hx x' _ _ hstep hr⟩
  refine hsecond.bind hR ?_
  rintro (e | t | b) w₂ ⟨hr', hxw₂⟩
  · exact ⟨hR.refl w₂, hE₂ e x' w₂ hr' hxw₂⟩
  · exact ⟨hR.refl w₂, hxw₂, hr'⟩
  · rcases x' with s | a
    · exact ⟨hR.refl w₂, hxw₂, hr'⟩
    · exact ⟨hR.refl w₂, hxw₂, hr'⟩

/-- Two futures of which neither is ready. -/
def Both (I : σ → ω → Prop) (J : τ → ω → Prop) : (σ ⊕ α) × (τ ⊕ β) → ω → Prop
  | (.inl s, .inl t), w => I s w ∧ J t w
  | _, _ => False

theorem Both.mono {I I' : σ → ω → Prop} {J J' : τ → ω → Prop} {st : (σ ⊕ α) × (τ ⊕ β)} {w w' : ω}
    (h : Both I J st w) (hI : ∀ s, I s w → I' s w') (hJ : ∀ t, J t w → J' t w') :
    Both I' J' st w' := by
  rcases st with ⟨s | _, t | _⟩
  · exact ⟨hI s h.1, hJ t h.2⟩
  all_goals exact h.elim

theorem Both.left {I : σ → ω → Prop} {J : τ → ω → Prop} {st : (σ ⊕ α) × (τ ⊕ β)} {w : ω}
    (h : Both I J st w) : ∃ s, I s w := by
  rcases st with ⟨s | _, t | _⟩
  · exact ⟨s, h.1⟩
  all_goals exact h.elim

theorem Both.right {I : σ → ω → Prop} {J : τ → ω → Prop} {st : (σ ⊕ α) × (τ ⊕ β)} {w : ω}
    (h : Both I J st w) : ∃ t, J t w := by
  rcases st with ⟨s | _, t | _⟩
  · exact ⟨t, h.2⟩
  all_goals exact h.elim

theorem stable_both {R : ω → ω → Prop} {I : σ → ω → Prop} {J : τ → ω → Prop}
    (hI : ∀ s, Stable R (I s)) (hJ : ∀ t, Stable R (J t)) (st : (σ ⊕ α) × (τ ⊕ β)) :
    Stable R (Both I J st) :=
  fun w w' hstep h => h.mono (fun s => hI s w w' hstep) fun t => hJ t w w' hstep

theorem both_iff {I : σ → ω → Prop} {J : τ → ω → Prop} {st : (σ ⊕ α) × (τ ⊕ β)} {w : ω} :
    Both I J st w ↔
      Sum.elim I (fun _ _ => False) st.1 w ∧ Sum.elim J (fun _ _ => False) st.2 w := by
  rcases st with ⟨s | _, t | _⟩ <;> simp [Both]

theorem stable_elim {R : ω → ω → Prop} {I : σ → ω → Prop} (hI : ∀ s, Stable R (I s))
    (x : σ ⊕ α) : Stable R (Sum.elim I (fun _ _ => False) x) := by
  rcases x with s | _
  · exact hI s
  · exact fun _ _ _ h => h

/-- Two futures that are never ready are never both ready. -/
theorem Polls.join_forever {F : Future ω σ α ε} {G : Future ω τ β ε} {B₁ B₂ B : ω → Prop}
    {R R₁ R₂ : ω → ω → Prop} (hR : Steps R) (hR₁ : Steps R₁) (hR₂ : Steps R₂)
    (h₁ : ∀ w w', R₁ w w' → R w w') (h₂ : ∀ w w', R₂ w w' → R w w') {P I : σ → ω → Prop}
    {P' J : τ → ω → Prop} {E₁ E₂ E : ε → ω → Prop} (hF : F.Polls B₁ R₁ P I (fun _ _ => False) E₁)
    (hG : G.Polls B₂ R₂ P' J (fun _ _ => False) E₂) (hI : ∀ s, Stable R₂ (I s))
    (hJ : ∀ t, Stable R₁ (P' t)) (hE₁ : ∀ e t w, E₁ e w → P' t w → E e w)
    (hE₂ : ∀ e s w, E₂ e w → I s w → E e w) (hB₁ : ∀ t w, B₁ w → P' t w → B w)
    (hB₂ : ∀ s w, B₂ w → I s w → B w) :
    (F.join G).Polls B R (Both P P') (Both I J) (fun _ _ => False) E := by
  have hjoin := Polls.join hR hR₁ hR₂ h₁ h₂ hF hG (E := E) (B := B) (stable_elim hI)
    (stable_elim hJ)
    (by
      rintro e (t | _) w h hw
      · exact hE₁ e t w h hw
      · exact hw.elim)
    (by
      rintro e (s | _) w h hw
      · exact hE₂ e s w h hw
      · exact hw.elim)
    (by
      rintro (t | _) w h hw
      · exact hB₁ t w h hw
      · exact hw.elim)
    (by
      rintro (s | _) w h hw
      · exact hB₂ s w h hw
      · exact hw.elim)
  exact hjoin.mono (fun _ h => h) (fun _ _ h => h) (fun _ _ h => both_iff.mp h)
    (fun _ _ h => both_iff.mpr h) (fun _ _ h => h.1) fun _ _ h => h

theorem Meets.join_forever {F : Future ω σ α ε} {G : Future ω τ β ε} {R R₁ R₂ : ω → ω → Prop}
    (hR : Steps R) (hR₁ : Steps R₁) (hR₂ : Steps R₂) (h₁ : ∀ w w', R₁ w w' → R w w')
    (h₂ : ∀ w w', R₂ w w' → R w w') {I : σ → ω → Prop} {J : τ → ω → Prop} {E₁ E₂ E : ε → ω → Prop}
    (hF : F.Meets R₁ I (fun _ _ => False) E₁) (hG : G.Meets R₂ J (fun _ _ => False) E₂)
    (hI : ∀ s, Stable R₂ (I s)) (hJ : ∀ t, Stable R₁ (J t))
    (hE₁ : ∀ e t w, E₁ e w → J t w → E e w) (hE₂ : ∀ e s w, E₂ e w → I s w → E e w) :
    (F.join G).Meets R (Both I J) (fun _ _ => False) E :=
  meets_iff.mpr ((meets_iff.mp hF).join_forever hR hR₁ hR₂ h₁ h₂ (meets_iff.mp hG) hI hJ hE₁ hE₂
    (fun _ _ h _ => h) fun _ _ h _ => h)

/-! ### One item after the other -/

/-- What a stream answers to a poll. -/
inductive Next (β ε : Type) where
  | item (b : β)
  | finished
  | notReady
  | failed (e : ε)
  deriving DecidableEq, Repr

/-- A stream that lives in the world. What it can hand out before something is added to it is
bounded. -/
structure Source (ω β ε : Type) where
  next : ω → Outcome (Next β ε × ω)
  left : ω → ℕ
  next_lt : ∀ w b w', next w = .returned (.item b, w') → left w' < left w

/-- One turn of `Fold::poll`: from the accumulator the next item is asked for, and the future that
is made of it is polled until it is ready with the next accumulator. -/
def foldTurn (src : Source ω β ε) (f : α → β → Outcome σ) (F : Future ω σ α ε) :
    (α ⊕ σ) × ω → Outcome (Turn ((α ⊕ σ) × ω) (Polled (α ⊕ σ) α ε × ω))
  | (.inl a, w) => do
    let (next, w) ← src.next w
    match next with
    | .item b => do
      let s ← f a b
      return .continue_ (.inr s, w)
    | .finished => return .break_ (.ready a, w)
    | .notReady => return .break_ (.notReady (.inl a), w)
    | .failed e => return .break_ (.failed e, w)
  | (.inr s, w) => do
    let (r, w) ← F.poll s w
    match r with
    | .ready a => return .continue_ (.inl a, w)
    | .notReady s => return .break_ (.notReady (.inr s), w)
    | .failed e => return .break_ (.failed e, w)

/-- A future that adds nothing to a stream. -/
def Keeps (F : Future ω σ α ε) (left : ω → ℕ) : Prop :=
  ∀ s w r w', F.poll s w = .returned (r, w') → left w' ≤ left w

/-- The loop of `Fold::poll`. -/
def foldLoop (src : Source ω β ε) (f : α → β → Outcome σ) (F : Future ω σ α ε)
    (hF : F.Keeps src.left) : Loop ((α ⊕ σ) × ω) (Polled (α ⊕ σ) α ε × ω) where
  body := foldTurn src f F
  left sw := 2 * src.left sw.2 + if sw.1.isRight then 1 else 0
  left_lt := by
    rintro ⟨a | s, w⟩ ⟨st, w'⟩ h
    · obtain ⟨⟨next, w₁⟩, hnext, h⟩ := Outcome.bind_eq_returned.mp h
      cases next with
      | item b =>
        have hlt := src.next_lt w b w₁ hnext
        simp only [Outcome.bind_eq_returned, Outcome.pure_eq, Outcome.returned.injEq,
          Turn.continue_.injEq, Prod.mk.injEq] at h
        obtain ⟨s, -, rfl, rfl⟩ := h
        simp only [Sum.isRight_inr, Sum.isRight_inl, if_true, Bool.false_eq_true, if_false]
        omega
      | finished => simp at h
      | notReady => simp at h
      | failed e => simp at h
    · obtain ⟨⟨r, w₁⟩, hpoll, h⟩ := Outcome.bind_eq_returned.mp h
      have hle := hF s w r w₁ hpoll
      cases r with
      | ready a =>
        obtain ⟨rfl, rfl⟩ : Sum.inl a = st ∧ w₁ = w' := by simpa using h
        simp only [Sum.isRight_inr, Sum.isRight_inl, if_true, Bool.false_eq_true, if_false]
        omega
      | notReady s' => simp at h
      | failed e => simp at h

/-- `fold` of a stream. -/
def fold (src : Source ω β ε) (f : α → β → Outcome σ) (F : Future ω σ α ε)
    (hF : F.Keeps src.left) : Future ω (α ⊕ σ) α ε where
  poll st w := (foldLoop src f F hF).run (st, w)

/-- What a fold relies on in what a stream answers: an item starts a future, or the closure panics,
and otherwise the accumulator is what it was. -/
def Next.Satisfies (f : α → β → Outcome σ) (B : ω → Prop) (I : α → ω → Prop) (P' : σ → ω → Prop)
    (Q : α → ω → Prop) (E : ε → ω → Prop) (a : α) : Next β ε → ω → Prop
  | .item b, w => (f a b).Ends (B w) fun s => P' s w
  | .finished, w => Q a w
  | .notReady, w => I a w
  | .failed e, w => E e w

/-- **Iteration**: `P` holds between the items, and `P'` when work on one of them goes on. -/
theorem Polls.fold {src : Source ω β ε} {f : α → β → Outcome σ} {F : Future ω σ α ε}
    (hleft : F.Keeps src.left) {B : ω → Prop} {R : ω → ω → Prop} (hR : Steps R)
    {P I : α → ω → Prop} {P' J : σ → ω → Prop} {Q : α → ω → Prop} {E : ε → ω → Prop}
    (hF : F.Polls B R P' J P E)
    (hnext : ∀ a w, P a w → EndsFrom R B w (Next.Satisfies f B I P' Q E a) (src.next w)) :
    (fold src f F hleft).Polls B R (Sum.elim P P') (Sum.elim I J) Q E := by
  intro st w hst
  refine EndsFrom.run hR (I := Sum.elim P P') ?_ hst
  rintro (a | s) w hs
  · refine Outcome.Ends.bind (hnext a w hs) ?_
    rintro ⟨next, w'⟩ ⟨hstep, hr⟩
    cases next with
    | item b =>
      refine Outcome.Ends.bind (hr.mono (fun h => ⟨w', hstep, h⟩) fun _ h => h) fun s hs => ?_
      exact ⟨hstep, hs⟩
    | finished => exact ⟨hstep, hr⟩
    | notReady => exact ⟨hstep, hr⟩
    | failed e => exact ⟨hstep, hr⟩
  · refine Outcome.Ends.bind (hF s w hs) ?_
    rintro ⟨r, w'⟩ ⟨hstep, hr⟩
    cases r with
    | ready a => exact ⟨hstep, hr⟩
    | notReady s' => exact ⟨hstep, hr⟩
    | failed e => exact ⟨hstep, hr⟩

theorem Meets.fold {src : Source ω β ε} {f : α → β → Outcome σ} {F : Future ω σ α ε}
    (hleft : F.Keeps src.left) {R : ω → ω → Prop} (hR : Steps R) {I : α → ω → Prop}
    {J : σ → ω → Prop} {Q : α → ω → Prop} {E : ε → ω → Prop} (hF : F.Meets R J I E)
    (hnext : ∀ a w, I a w → EndsFrom R (fun _ => False) w
      (Next.Satisfies f (fun _ => False) I J Q E a) (src.next w)) :
    (Future.fold src f F hleft).Meets R (Sum.elim I J) Q E :=
  meets_iff.mpr ((meets_iff.mp hF).fold hleft hR hnext)

/-! ### Over and over -/

/-- One turn of `LoopFn::poll`: the future of the loop is polled, and if it says so, the closure
makes the next one. -/
def loopTurn {ρ : Type} (F : Future ω σ (Turn ρ β) ε) (func : ρ → Outcome σ) :
    σ × ω → Outcome (Turn (σ × ω) (Polled σ β ε × ω))
  | (s, w) => do
    let (r, w) ← F.poll s w
    match r with
    | .ready (.continue_ x) => do
      let s ← func x
      return .continue_ (s, w)
    | .ready (.break_ b) => return .break_ (.ready b, w)
    | .notReady s => return .break_ (.notReady s, w)
    | .failed e => return .break_ (.failed e, w)

/-- Each turn of a loop lowers a measure. -/
def Lowers {ρ : Type} (F : Future ω σ (Turn ρ β) ε) (func : ρ → Outcome σ) (left : σ → ω → ℕ) :
    Prop :=
  ∀ s w x w' s', F.poll s w = .returned (.ready (.continue_ x), w') → func x = .returned s' →
    left s' w' < left s w

/-- `loop_fn`. -/
def loopFn {ρ : Type} (F : Future ω σ (Turn ρ β) ε) (func : ρ → Outcome σ) (left : σ → ω → ℕ)
    (hleft : F.Lowers func left) : Future ω σ β ε where
  poll s w := Loop.run
    { body := loopTurn F func
      left := fun sw => left sw.1 sw.2
      left_lt := by
        rintro ⟨s, w⟩ ⟨s', w'⟩ h
        obtain ⟨⟨r, w₁⟩, hpoll, h⟩ := Outcome.bind_eq_returned.mp h
        rcases r with s₁ | (x | b) | e
        · simp at h
        · simp only [Outcome.bind_eq_returned, Outcome.pure_eq, Outcome.returned.injEq,
            Turn.continue_.injEq, Prod.mk.injEq] at h
          obtain ⟨s₁, hfunc, rfl, rfl⟩ := h
          exact hleft s w x w₁ s₁ hpoll hfunc
        · simp at h
        · simp at h } (s, w)

/-- **Repetition**: each turn leaves what the next one starts from. -/
theorem Polls.loopFn {ρ : Type} {F : Future ω σ (Turn ρ β) ε} {func : ρ → Outcome σ}
    {left : σ → ω → ℕ} (hleft : F.Lowers func left) {B : ω → Prop} {R : ω → ω → Prop}
    (hR : Steps R) {P I : σ → ω → Prop} {Q : β → ω → Prop} {E : ε → ω → Prop}
    (hF : F.Polls B R P I (fun t w => t.Satisfies
      (fun x => (func x).Ends (B w) fun s => P s w) fun b => Q b w) E) :
    (Future.loopFn F func left hleft).Polls B R P I Q E := by
  intro s w hs
  refine EndsFrom.run hR (I := P) ?_ hs
  intro s w hs
  refine Outcome.Ends.bind (hF s w hs) ?_
  rintro ⟨r, w'⟩ ⟨hstep, hr⟩
  rcases r with s' | (x | b) | e
  · exact ⟨hstep, hr⟩
  · refine Outcome.Ends.bind (Outcome.Ends.mono hr (fun h => ⟨w', hstep, h⟩) fun _ h => h)
      fun s hs => ?_
    exact ⟨hstep, hs⟩
  · exact ⟨hstep, hr⟩
  · exact ⟨hstep, hr⟩

/-! ### A part of the world -/

section Part

variable {π : Type} (get : ω → π) (set : ω → π → ω)

/-- A future that works on a part of the world. -/
def onPart (F : Future π σ α ε) : Future ω σ α ε where
  poll s w := do
    let (r, p) ← F.poll s (get w)
    return (r, set w p)

variable {get set}

theorem Polls.onPart (hget : ∀ w p, get (set w p) = p) {F : Future π σ α ε} {B : π → Prop}
    {R : π → π → Prop} {P I : σ → π → Prop} {Q : α → π → Prop} {E : ε → π → Prop}
    (hF : F.Polls B R P I Q E) :
    (F.onPart get set).Polls (fun w => B (get w)) (fun w w' => ∃ p, R (get w) p ∧ w' = set w p)
      (fun s w => P s (get w)) (fun s w => I s (get w)) (fun a w => Q a (get w))
      (fun e w => E e (get w)) := by
  intro s w hs
  refine Outcome.Ends.bind (Outcome.Ends.mono (hF s (get w) hs) ?_ fun _ h => h) ?_
  · rintro ⟨p, hstep, hp⟩
    refine ⟨set w p, ⟨p, hstep, rfl⟩, ?_⟩
    show B (get (set w p))
    rwa [hget]
  · rintro ⟨r, p⟩ ⟨hstep, hr⟩
    refine ⟨⟨p, hstep, rfl⟩, ?_⟩
    exact hr.mono (fun _ h => by rwa [hget]) (fun _ h => by rwa [hget]) fun _ h => by rwa [hget]

end Part

/-! ### Whole runs -/

/-- What happens to a task: it is polled, or the world changes. -/
inductive TaskEvent (κ : Type) where
  | poll
  | change (k : κ)
  deriving DecidableEq, Repr

/-- The change of an event, if it is one. -/
def TaskEvent.change? {κ : Type} : TaskEvent κ → Option κ
  | .poll => none
  | .change k => some k

/-- A future that is run: it is polled until it is done, and the world changes between the polls. -/
def task {κ : Type} (F : Future ω σ α ε) (change : κ → ω → ω) :
    Machine (Polled σ α ε × ω) (TaskEvent κ) Unit where
  step
    | (.notReady s, w), .poll => do
      let r ← F.poll s w
      return (r, ())
    | (r, w), .poll => return ((r, w), ())
    | (r, w), .change k => return ((r, change k w), ())

theorem step_poll_of_returned {κ : Type} {F : Future ω σ α ε} {change : κ → ω → ω} {s : σ} {w : ω}
    {rw : Polled σ α ε × ω} (h : F.poll s w = .returned rw) :
    (F.task change).step (.notReady s, w) .poll = .returned (rw, ()) := by
  simp only [task, h, Outcome.returned_bind, Outcome.pure_eq]

theorem step_poll_of_panicked {κ : Type} {F : Future ω σ α ε} {change : κ → ω → ω} {s : σ} {w : ω}
    (h : F.poll s w = .panicked) :
    (F.task change).step (.notReady s, w) .poll = .panicked := by
  simp only [task, h, Outcome.panicked_bind]

section Run

variable {κ : Type} {F : Future ω σ α ε} {change : κ → ω → ω} {R : ω → ω → Prop}
  {B : List κ → ω → Prop} {P I : List κ → σ → ω → Prop} {Q : List κ → α → ω → Prop}
  {E : List κ → ε → ω → Prop}

/-- The rest of a run, after the changes `ks`. -/
theorem Polls.run_from (hF : ∀ ks, F.Polls (B ks) R (P ks) (I ks) (Q ks) (E ks))
    (hI : ∀ ks s w, I ks s w → P ks s w) {es : List (TaskEvent κ)}
    (hchange : ∀ ks k, .change k ∈ es → ∀ (r : Polled σ α ε) (w : ω),
      r.Satisfies (P ks) (Q ks) (E ks) w →
        r.Satisfies (P (ks ++ [k])) (Q (ks ++ [k])) (E (ks ++ [k])) (change k w))
    {ks : List κ} {r : Polled σ α ε} {w : ω} (h : r.Satisfies (P ks) (Q ks) (E ks) w) :
    ((F.task change).run (r, w) es).Ends
      (∃ w' ks', ks' <+: es.filterMap TaskEvent.change? ∧ B (ks ++ ks') w')
      fun rw =>
        let ks' := ks ++ es.filterMap TaskEvent.change?
        rw.1.Satisfies (P ks') (Q ks') (E ks') rw.2 := by
  induction es generalizing r w ks with
  | nil => exact (List.append_nil ks).symm ▸ h
  | cons e es ih =>
    have ih := @ih fun ks k hk => hchange ks k (List.mem_cons_of_mem _ hk)
    cases e with
    | change k =>
      have hstep : (F.task change).step (r, w) (.change k) = .returned ((r, change k w), ()) := by
        cases r <;> rfl
      rw [Machine.run_cons_of_returned hstep es]
      refine (ih (hchange ks k List.mem_cons_self r w h)).mono ?_ ?_
      · rintro ⟨w', ks', hks', hw'⟩
        refine ⟨w', k :: ks', (List.prefix_cons_inj k).mpr hks', ?_⟩
        rwa [List.append_assoc] at hw'
      · intro rw' hr'
        rwa [List.append_assoc] at hr'
    | poll =>
      cases r with
      | notReady s =>
        have hpolled := hF ks s w h
        cases hF₁ : F.poll s w with
        | panicked =>
          rw [hF₁] at hpolled
          obtain ⟨w', -, hw'⟩ := hpolled
          rw [Machine.run_cons_of_panicked (step_poll_of_panicked hF₁) es]
          exact ⟨w', [], List.nil_prefix, (List.append_nil ks).symm ▸ hw'⟩
        | returned rw₁ =>
          rw [hF₁] at hpolled
          rw [Machine.run_cons_of_returned (step_poll_of_returned hF₁) es]
          exact ih (hpolled.2.mono (hI ks · _) (fun _ h => h) fun _ h => h)
      | ready a =>
        have hstep : (F.task change).step (.ready a, w) .poll = .returned ((.ready a, w), ()) := rfl
        rw [Machine.run_cons_of_returned hstep es]
        exact ih h
      | failed e =>
        have hstep : (F.task change).step (.failed e, w) .poll = .returned ((.failed e, w), ()) :=
          rfl
        rw [Machine.run_cons_of_returned hstep es]
        exact ih h

/-- **What a contract says about a whole run**: what it promises holds after every step, or a poll
has panicked. There is a contract for every list of changes that may have happened, and a change
takes what one of them promises to what the next one promises. -/
theorem Polls.run (hF : ∀ ks, F.Polls (B ks) R (P ks) (I ks) (Q ks) (E ks))
    (hI : ∀ ks s w, I ks s w → P ks s w) {es : List (TaskEvent κ)}
    (hchange : ∀ ks k, .change k ∈ es → ∀ (r : Polled σ α ε) (w : ω),
      r.Satisfies (P ks) (Q ks) (E ks) w →
        r.Satisfies (P (ks ++ [k])) (Q (ks ++ [k])) (E (ks ++ [k])) (change k w))
    {r : Polled σ α ε} {w : ω} (h : r.Satisfies (P []) (Q []) (E []) w) :
    ((F.task change).run (r, w) es).Ends
      (∃ w' ks, ks <+: es.filterMap TaskEvent.change? ∧ B ks w')
      fun rw =>
        let ks := es.filterMap TaskEvent.change?
        rw.1.Satisfies (P ks) (Q ks) (E ks) rw.2 :=
  Polls.run_from hF hI hchange h

/-- The same without panics. -/
theorem Meets.run (hF : ∀ ks, F.Meets R (I ks) (Q ks) (E ks)) {es : List (TaskEvent κ)}
    (hchange : ∀ ks k, .change k ∈ es → ∀ (r : Polled σ α ε) (w : ω),
      r.Satisfies (I ks) (Q ks) (E ks) w →
        r.Satisfies (I (ks ++ [k])) (Q (ks ++ [k])) (E (ks ++ [k])) (change k w))
    {r : Polled σ α ε} {w : ω} (h : r.Satisfies (I []) (Q []) (E []) w) :
    ∃ r' w', (F.task change).run (r, w) es = .returned (r', w') ∧
      r'.Satisfies (I (es.filterMap TaskEvent.change?)) (Q (es.filterMap TaskEvent.change?))
        (E (es.filterMap TaskEvent.change?)) w' := by
  have hrun := Polls.run (fun ks => meets_iff.mp (hF ks)) (fun _ _ _ h => h) hchange h
  obtain ⟨⟨r', w'⟩, hrun, hr'⟩ := Outcome.ends_false_iff.mp
    (hrun.mono (fun ⟨_, _, _, h⟩ => h) fun _ h => h)
  exact ⟨r', w', hrun, hr'⟩

end Run

end Future

end MumbleBot
