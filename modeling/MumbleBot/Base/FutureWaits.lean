import MumbleBot.Base.Future

/-!
# What a future waits for

A poll that is not ready has tried everything: it returns when there is nothing left that it could
work on. `F.Waits R I` says what is not there then, whatever was there before; it is a contract that
asks for nothing and that promises something only of the polls that are not ready.

When two futures run side by side, what the first one waits for must not be brought by the second
one, which is polled after it. What the second one waits for may be brought by the first one.

## Main definitions

* `Future.Waits` — what a poll leaves when it is not ready

## Main results

* `Future.Waits.andThen`, `Future.Waits.join`, `Future.Waits.fold`, `Future.Waits.loopFn` — the
  rules for the combinators
* `Future.Waits.run_poll` — what a whole run leaves that ends with a poll
-/

namespace MumbleBot

namespace Future

variable {ω σ τ α β ε ε' : Type}

/-- `F.Waits R I`: a poll changes the world as `R` allows, and if it is not ready, `I` holds. -/
def Waits (F : Future ω σ α ε) (R : ω → ω → Prop) (I : σ → ω → Prop) : Prop :=
  F.Polls (fun _ => True) R (fun _ _ => True) I (fun _ _ => True) fun _ _ => True

theorem waits_iff {F : Future ω σ α ε} {R : ω → ω → Prop} (hR : Steps R) {I : σ → ω → Prop} :
    F.Waits R I ↔ ∀ s w r w', F.poll s w = .returned (r, w') →
      R w w' ∧ r.Satisfies I (fun _ _ => True) (fun _ _ => True) w' := by
  constructor
  · intro h s w r w' hpoll
    have hpolled := h s w trivial
    rwa [hpoll] at hpolled
  · intro h s w _
    cases hpoll : F.poll s w with
    | panicked => exact ⟨w, hR.refl w, trivial⟩
    | returned rw => exact h s w rw.1 rw.2 hpoll

/-- A future that has to do with less, and waits for less. -/
theorem Waits.mono {F : Future ω σ α ε} {R R' : ω → ω → Prop} {I I' : σ → ω → Prop}
    (h : F.Waits R I) (hR : ∀ w w', R w w' → R' w w') (hI : ∀ s w, I s w → I' s w) :
    F.Waits R' I' :=
  Polls.mono h (fun _ h => h) hR (fun _ _ h => h) hI (fun _ _ h => h) fun _ _ h => h

/-- What is known of a future from what its polls do to the world. -/
theorem waits_of_steps {F : Future ω σ α ε} {R : ω → ω → Prop} (hR : Steps R)
    (h : ∀ s w r w', F.poll s w = .returned (r, w') → R w w') : F.Waits R fun _ _ => True :=
  (waits_iff hR).mpr fun s w r w' hpoll => ⟨h s w r w' hpoll, by cases r <;> exact trivial⟩

/-- What leaves alone what `f` shows of the world. -/
def Fixes {γ : Type} (f : ω → γ) (w w' : ω) : Prop := f w' = f w

theorem Fixes.comp {γ δ : Type} {f : ω → γ} {w w' : ω} (h : Fixes f w w') (g : γ → δ) :
    g (f w') = g (f w) :=
  congrArg g h

theorem steps_fixes {γ : Type} (f : ω → γ) : Steps (Fixes f) where
  refl _ := rfl
  trans h h' := Eq.trans h' h

theorem elim_true (s : σ ⊕ τ) (w : ω) : Sum.elim (fun _ _ => True) (fun _ _ => True) s w := by
  cases s <;> exact trivial

theorem ends_true (x : Outcome α) : x.Ends True fun _ => True := by
  cases x <;> exact trivial

theorem Waits.andThen {F : Future ω σ α ε} {f : α → Outcome τ} {G : Future ω τ β ε}
    {R : ω → ω → Prop} (hR : Steps R) {I : σ → ω → Prop} {J : τ → ω → Prop} (hF : F.Waits R I)
    (hG : G.Waits R J) : (F.andThen f G).Waits R (Sum.elim I J) :=
  (Polls.andThen hR hF hG fun a _ _ => ends_true (f a)).mono (fun _ h => h) (fun _ _ h => h)
    (fun s w _ => elim_true s w) (fun _ _ h => h) (fun _ _ h => h) fun _ _ h => h

theorem Waits.mapErr {F : Future ω σ α ε} {f : ε → ε'} {R : ω → ω → Prop} {I : σ → ω → Prop}
    (hF : F.Waits R I) : (F.mapErr f).Waits R I :=
  Polls.mapErr hF

theorem Waits.carry {κ : Type} {F : Future ω σ α ε} {R : ω → ω → Prop} {I : σ → ω → Prop}
    (hF : F.Waits R I) : (F.carry κ).Waits R fun ks => I ks.2 :=
  Polls.carry fun _ => hF

/-- What the two futures of a `join` wait for, each as long as it is not ready. -/
def JoinWaits (I : σ → ω → Prop) (J : τ → ω → Prop) (st : (σ ⊕ α) × (τ ⊕ β)) (w : ω) : Prop :=
  Sum.elim I (fun _ _ => True) st.1 w ∧ Sum.elim J (fun _ _ => True) st.2 w

/-- If neither of the two is ready, both wait. -/
theorem Both.joinWaits {I I' : σ → ω → Prop} {J J' : τ → ω → Prop} {st : (σ ⊕ α) × (τ ⊕ β)}
    {w : ω} (h : Both I J st w) (h' : JoinWaits I' J' st w) :
    ∃ s t, st = (.inl s, .inl t) ∧ (I s w ∧ I' s w) ∧ J t w ∧ J' t w := by
  rcases st with ⟨s | _, t | _⟩
  · exact ⟨s, t, rfl, ⟨h.1, h'.1⟩, h.2, h'.2⟩
  all_goals exact h.elim

theorem stable_joinWaits {R : ω → ω → Prop} {I : σ → ω → Prop} {J : τ → ω → Prop}
    (hI : ∀ s, Stable R (I s)) (hJ : ∀ t, Stable R (J t)) (st : (σ ⊕ α) × (τ ⊕ β)) :
    Stable R (JoinWaits I J st) := by
  obtain ⟨x, y⟩ := st
  rintro w w' hstep ⟨hx, hy⟩
  constructor
  · rcases x with s | a
    · exact hI s w w' hstep hx
    · exact trivial
  · rcases y with t | b
    · exact hJ t w w' hstep hy
    · exact trivial

/-- The second future is polled after the first one, and must not bring what that waits for. -/
theorem Waits.join {F : Future ω σ α ε} {G : Future ω τ β ε} {R R₁ R₂ : ω → ω → Prop}
    (hR : Steps R) (hR₁ : Steps R₁) (hR₂ : Steps R₂) (h₁ : ∀ w w', R₁ w w' → R w w')
    (h₂ : ∀ w w', R₂ w w' → R w w') {I : σ → ω → Prop} {J : τ → ω → Prop} (hF : F.Waits R₁ I)
    (hG : G.Waits R₂ J) (hI : ∀ s, Stable R₂ (I s)) :
    (F.join G).Waits R (JoinWaits I J) := by
  refine (Polls.join hR hR₁ hR₂ h₁ h₂ hF hG ?_ ?_ (fun _ _ _ _ _ => trivial)
    (fun _ _ _ _ _ => trivial) (fun _ _ _ _ => trivial) fun _ _ _ _ => trivial).mono
    (fun _ h => h) (fun _ _ h => h) (fun st w _ => ⟨elim_true st.1 w, elim_true st.2 w⟩)
    (fun _ _ h => h) (fun _ _ _ => trivial) fun _ _ h => h
  · rintro (s | _)
    · exact hI s
    · exact fun _ _ _ _ => trivial
  · exact fun y w w' _ _ => elim_true y w'

/-- Between two items a fold waits for a stream that has none. -/
theorem Waits.fold {src : Source ω β ε} {f : α → β → Outcome σ} {F : Future ω σ α ε}
    (hleft : F.Keeps src.left) {R : ω → ω → Prop} (hR : Steps R) {I : ω → Prop} {J : σ → ω → Prop}
    (hF : F.Waits R J) (hnext : ∀ w x w', src.next w = .returned (x, w') →
      R w w' ∧ (x = .notReady → I w')) :
    (Future.fold src f F hleft).Waits R (Sum.elim (fun _ => I) J) := by
  refine (Polls.fold hleft hR hF (I := fun _ => I) fun a w _ => ?_).mono (fun _ h => h)
    (fun _ _ h => h) (fun s w _ => elim_true s w) (fun _ _ h => h) (fun _ _ h => h)
    fun _ _ h => h
  cases hsrc : src.next w with
  | panicked => exact ⟨w, hR.refl w, trivial⟩
  | returned xw =>
    obtain ⟨x, w'⟩ := xw
    obtain ⟨hstep, hI⟩ := hnext w x w' hsrc
    refine ⟨hstep, ?_⟩
    cases x with
    | item b => exact ends_true (f a b)
    | notReady => exact hI rfl
    | _ => exact trivial

theorem Waits.loopFn {ρ : Type} {F : Future ω σ (Turn ρ β) ε} {func : ρ → Outcome σ}
    {left : σ → ω → ℕ} (hleft : F.Lowers func left) {R : ω → ω → Prop} (hR : Steps R)
    {I : σ → ω → Prop} (hF : F.Waits R I) : (Future.loopFn F func left hleft).Waits R I := by
  refine Polls.loopFn hleft hR (Polls.mono hF (fun _ h => h) (fun _ _ h => h) (fun _ _ h => h)
    (fun _ _ h => h) ?_ fun _ _ h => h)
  rintro (x | b) w _
  · exact ends_true (func x)
  · exact trivial

theorem Waits.onPart {π : Type} {get : ω → π} {set : ω → π → ω} (hget : ∀ w p, get (set w p) = p)
    {F : Future π σ α ε} {R : π → π → Prop} {I : σ → π → Prop} (hF : F.Waits R I) :
    (F.onPart get set).Waits (fun w w' => ∃ p, R (get w) p ∧ w' = set w p)
      fun s w => I s (get w) :=
  Polls.onPart hget hF

/-- **After a run that ends with a poll** the future is done, or what it waits for is not there. -/
theorem Waits.run_poll {κ : Type} {F : Future ω σ α ε} {R : ω → ω → Prop} {I : σ → ω → Prop}
    (hF : F.Waits R I) (change : κ → ω → ω) (rw : Polled σ α ε × ω) (es : List (TaskEvent κ)) :
    ((F.task change).run rw (es ++ [.poll])).Ends True fun rw =>
      ∀ s, rw.1 = .notReady s → I s rw.2 := by
  cases h : (F.task change).run rw es with
  | panicked =>
    rw [Machine.run_append_of_panicked h]
    exact trivial
  | returned rw' =>
    rw [Machine.run_append h]
    obtain ⟨r, w⟩ := rw'
    cases r with
    | notReady s =>
      have hpolled := hF s w trivial
      cases hpoll : F.poll s w with
      | panicked =>
        rw [Machine.run_cons_of_panicked (step_poll_of_panicked hpoll)]
        exact trivial
      | returned rw₁ =>
        rw [hpoll] at hpolled
        rw [Machine.run_cons_of_returned (step_poll_of_returned hpoll)]
        intro s' hs'
        have hI := hpolled.2
        rwa [hs'] at hI
    | ready a => exact fun s hs => by cases hs
    | failed e => exact fun s hs => by cases hs

end Future

end MumbleBot
