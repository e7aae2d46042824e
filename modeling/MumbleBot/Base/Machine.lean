import MumbleBot.Base.Outcome
import Mathlib.Data.List.Basic

/-!
# Machines that may panic, and their runs

A machine takes events one at a time; each step returns the next state with an output, or
panics, and a panic ends the run. `trace` lists the steps that were taken, each with the state
before it, its event, its output and the state after it, so that a property of a run is a
property of the members of a list.

The induction over runs is done here, once for each shape a statement about runs takes: an
invariant, a quantity that no step changes, a register that each event overwrites or leaves alone,
a part of the state that is a machine of its own, another machine that follows step by step, and the
exact condition under which nothing panics.

## Main definitions

* `Machine`, `Machine.run` — one step, and the state after a list of events
* `Step`, `Machine.trace` — the steps of a run up to the first panic
* `Machine.IsView` — a part of the state that is a machine of its own
* `Machine.Follows` — a machine that goes along with the steps that concern it
* `Machine.Logs` — the events of a run with their outputs

## Main results

* `Machine.trace_invariant` — what each step keeps, every state of a run has
* `Machine.trace_invariant_iff` — an invariant holds exactly when each step does its part
* `Machine.register_iff`, `Machine.run_register` — the last writer wins
* `Machine.run_collects` — what no step takes away piles up
* `Machine.trace_view`, `Machine.run_view` — what is seen of a run is a run of a smaller machine
* `Machine.Follows.run` — what is followed of a run is a run of the machine that follows
* `Machine.returns_run_iff` — no event panics, exactly when each meets its condition
* `Machine.trace_eq_append_cons` — a run cut at one of its steps
* `Machine.Logs.snoc` — a log of a run, one step longer
-/

namespace MumbleBot

/-- A deterministic machine over states `σ`, events `ε` and outputs `ο`. -/
structure Machine (σ ε ο : Type) where
  /-- What one event does. -/
  step : σ → ε → Outcome (σ × ο)

/-- One step of a run. -/
structure Step (σ ε ο : Type) where
  /-- The state before the step. -/
  pre : σ
  event : ε
  output : ο
  /-- The state after the step. -/
  post : σ

/-- What is of no interest at the end of a list is not noticed. -/
theorem filterMap_snoc_of_none {α β : Type} {f : α → Option β} {x : α} (h : f x = none)
    (xs : List α) : (xs ++ [x]).filterMap f = xs.filterMap f := by
  rw [List.filterMap_append, List.filterMap_cons_none h, List.filterMap_nil, List.append_nil]

namespace Machine

variable {σ ε ο τ ι κ : Type} (m : Machine σ ε ο)

/-- The state after the events `es`. -/
def run (s : σ) : List ε → Outcome σ
  | [] => .returned s
  | e :: es => do
    let (s', _) ← m.step s e
    run s' es

/-- The steps taken on the events `es`, up to the first panic. -/
def trace (s : σ) : List ε → List (Step σ ε ο)
  | [] => []
  | e :: es =>
    match m.step s e with
    | .returned (s', o) => ⟨s, e, o, s'⟩ :: trace s' es
    | .panicked => []

variable {m}

@[simp] theorem run_nil (s : σ) : m.run s [] = .returned s := rfl

theorem run_cons_of_returned {s s' : σ} {e : ε} {o : ο} (h : m.step s e = .returned (s', o))
    (es : List ε) : m.run s (e :: es) = m.run s' es := by
  rw [run, h]
  rfl

theorem run_cons_of_panicked {s : σ} {e : ε} (h : m.step s e = .panicked) (es : List ε) :
    m.run s (e :: es) = .panicked := by
  rw [run, h]
  rfl

theorem run_cons_eq_returned {s s'' : σ} {e : ε} {es : List ε} :
    m.run s (e :: es) = .returned s'' ↔
      ∃ s' o, m.step s e = .returned (s', o) ∧ m.run s' es = .returned s'' := by
  simp only [run, Outcome.bind_eq_returned, Prod.exists]

@[simp] theorem trace_nil (s : σ) : m.trace s [] = [] := rfl

theorem trace_cons_of_returned {s s' : σ} {e : ε} {o : ο} (h : m.step s e = .returned (s', o))
    (es : List ε) : m.trace s (e :: es) = ⟨s, e, o, s'⟩ :: m.trace s' es := by
  rw [trace, h]

theorem trace_cons_of_panicked {s : σ} {e : ε} (h : m.step s e = .panicked) (es : List ε) :
    m.trace s (e :: es) = [] := by
  rw [trace, h]

/-! ### Invariants -/

/-- What holds at the start and is kept by each step holds before and after every step. -/
theorem trace_invariant {I : σ → Prop}
    (hstep : ∀ s e s' o, I s → m.step s e = .returned (s', o) → I s') {s : σ} (hs : I s)
    (es : List ε) :
    ∀ t ∈ m.trace s es, m.step t.pre t.event = .returned (t.post, t.output) ∧ I t.pre ∧
      I t.post := by
  induction es generalizing s with
  | nil => simp
  | cons e es ih =>
    cases h : m.step s e with
    | panicked => simp [trace_cons_of_panicked h]
    | returned p =>
      have hp : I p.1 := hstep s e p.1 p.2 hs h
      rw [trace_cons_of_returned h]
      intro t ht
      rcases List.mem_cons.mp ht with rfl | ht
      · exact ⟨h, hs, hp⟩
      · exact ih hp t ht

theorem step_of_mem_trace {s : σ} {es : List ε} {t : Step σ ε ο} (h : t ∈ m.trace s es) :
    m.step t.pre t.event = .returned (t.post, t.output) :=
  (trace_invariant (I := fun _ => True) (fun _ _ _ _ _ _ => trivial) trivial es t h).1

/-- The same for the state at the end of a run. -/
theorem run_invariant {I : σ → Prop}
    (hstep : ∀ s e s' o, I s → m.step s e = .returned (s', o) → I s') {s s' : σ} (hs : I s)
    {es : List ε} (h : m.run s es = .returned s') : I s' := by
  induction es generalizing s with
  | nil => rwa [← Outcome.returned.inj h]
  | cons e es ih =>
    obtain ⟨s₁, o, h₁, hrest⟩ := run_cons_eq_returned.mp h
    exact ih (hstep s e s₁ o hs h₁) hrest

/-- If, from a state of the invariant, a step keeps it exactly when the step meets a condition, the
invariant holds throughout a run exactly when all of the steps meet the condition. -/
theorem trace_invariant_iff {I : σ → Prop} {C : Step σ ε ο → Prop}
    (hstep : ∀ t, m.step t.pre t.event = .returned (t.post, t.output) → I t.pre →
      (I t.post ↔ C t)) {s : σ} (hs : I s) (es : List ε) :
    (∀ t ∈ m.trace s es, I t.post) ↔ ∀ t ∈ m.trace s es, C t := by
  induction es generalizing s with
  | nil => simp
  | cons e es ih =>
    cases h : m.step s e with
    | panicked => simp [trace_cons_of_panicked h]
    | returned p =>
      have hiff := hstep ⟨s, e, p.2, p.1⟩ h hs
      rw [trace_cons_of_returned h, List.forall_mem_cons, List.forall_mem_cons, hiff]
      exact and_congr_right fun hC => ih (hiff.mpr hC)

/-- A run that returns has taken a step on each of its events. -/
theorem map_event_trace {s s' : σ} {es : List ε} (h : m.run s es = .returned s') :
    (m.trace s es).map Step.event = es := by
  induction es generalizing s with
  | nil => rfl
  | cons e es ih =>
    obtain ⟨s₁, o, h₁, hrest⟩ := run_cons_eq_returned.mp h
    rw [trace_cons_of_returned h₁, List.map_cons, ih hrest]

/-! ### Registers

A register is a part of the state that each event overwrites or leaves alone. -/

/-- What the last event that writes to a register has put there, or its first value `t`. -/
def lastWritten (w : ε → Option τ) (t : τ) (es : List ε) : τ := ((es.filterMap w).getLast?).getD t

@[simp] theorem lastWritten_nil (w : ε → Option τ) (t : τ) : lastWritten w t [] = t := rfl

@[simp] theorem lastWritten_cons (w : ε → Option τ) (t : τ) (e : ε) (es : List ε) :
    lastWritten w t (e :: es) = lastWritten w ((w e).getD t) es := by
  rw [lastWritten, lastWritten, List.filterMap_cons]
  cases hw : w e with
  | none => rfl
  | some t' => simp [List.getLast?_cons]

/-- **The last writer wins** in every state of a run, exactly when each step of the run treats the
register as one. -/
theorem register_iff (f : σ → τ) (w : ε → Option τ) (s : σ) (es : List ε) :
    (∀ before after s', es = before ++ after → m.run s before = .returned s' →
        f s' = lastWritten w (f s) before) ↔
      ∀ t ∈ m.trace s es, f t.post = (w t.event).getD (f t.pre) := by
  induction es generalizing s with
  | nil =>
    refine iff_of_true ?_ (by simp)
    intro before after s' h hrun
    obtain ⟨rfl, -⟩ := List.append_eq_nil_iff.mp h.symm
    rw [← Outcome.returned.inj hrun, lastWritten_nil]
  | cons e es ih =>
    cases hstep : m.step s e with
    | panicked =>
      rw [trace_cons_of_panicked hstep]
      refine iff_of_true ?_ (by simp)
      rintro (_ | ⟨e', before⟩) after s' h hrun
      · rw [← Outcome.returned.inj hrun, lastWritten_nil]
      · obtain ⟨rfl, -⟩ := List.cons.inj h
        rw [run_cons_of_panicked hstep] at hrun
        cases hrun
    | returned p =>
      rw [trace_cons_of_returned hstep, List.forall_mem_cons, ← ih]
      constructor
      · intro h
        have hp : f p.1 = (w e).getD (f s) := by
          have hrun : m.run s [e] = .returned p.1 := run_cons_of_returned hstep []
          simpa using h [e] es p.1 rfl hrun
        refine ⟨hp, ?_⟩
        rintro before after s' rfl hrun
        have hlast := h (e :: before) after s' rfl ((run_cons_of_returned hstep before).trans hrun)
        rw [hlast, lastWritten_cons, hp]
      · rintro ⟨hp, h⟩ (_ | ⟨e', before⟩) after s' heq hrun
        · rw [← Outcome.returned.inj hrun, lastWritten_nil]
        · obtain ⟨rfl, rfl⟩ := List.cons.inj heq
          rw [run_cons_of_returned hstep] at hrun
          rw [h before after s' rfl hrun, hp, lastWritten_cons]

/-- A register holds what was written to it last. -/
theorem run_register {f : σ → τ} {w : ε → Option τ}
    (hstep : ∀ s e s' o, m.step s e = .returned (s', o) → f s' = (w e).getD (f s)) {s s' : σ}
    {es : List ε} (h : m.run s es = .returned s') : f s' = lastWritten w (f s) es :=
  (register_iff f w s es).mpr (fun _ ht => hstep _ _ _ _ (step_of_mem_trace ht)) es [] s'
    (List.append_nil es).symm h

/-- What each step may add to and none takes away from is, at the end of a run, what was there and
what the steps have added. -/
theorem run_collects {α : Type} {P : σ → α → Prop} {w : Step σ ε ο → Option α}
    (hstep : ∀ t, m.step t.pre t.event = .returned (t.post, t.output) →
      ∀ a, P t.post a ↔ P t.pre a ∨ w t = some a) {s s' : σ} {es : List ε}
    (h : m.run s es = .returned s') (a : α) :
    P s' a ↔ P s a ∨ a ∈ (m.trace s es).filterMap w := by
  induction es generalizing s with
  | nil =>
    rw [← Outcome.returned.inj h]
    simp
  | cons e es ih =>
    obtain ⟨s₁, o, h₁, hrest⟩ := run_cons_eq_returned.mp h
    rw [ih hrest, hstep ⟨s, e, o, s₁⟩ h₁ a, trace_cons_of_returned h₁, or_assoc]
    simp only [List.mem_filterMap, List.mem_cons, or_and_right, exists_or, exists_eq_left]

/-! ### Views

A view is a part of the state that is a machine of its own: some of the steps are steps of the
small machine, and the others leave the view alone. -/

/-- Each step of the large machine is a step of the small one, with the input and the output that
`w` sees in it, or leaves the view `f` alone. -/
def IsView (m : Machine σ ε ο) (g : Machine τ ι κ) (f : σ → τ) (w : Step σ ε ο → Option (ι × κ)) :
    Prop :=
  ∀ t, m.step t.pre t.event = .returned (t.post, t.output) →
    (∀ i k, w t = some (i, k) → g.step (f t.pre) i = .returned (f t.post, k)) ∧
      (w t = none → f t.post = f t.pre)

/-- **What is seen of a run is a run of the small machine.** It starts from the view of the first
state and depends on nothing else but the inputs that are seen. -/
theorem trace_view {g : Machine τ ι κ} {f : σ → τ} {w : Step σ ε ο → Option (ι × κ)}
    (h : m.IsView g f w) (s : σ) (es : List ε) :
    (g.trace (f s) (((m.trace s es).filterMap w).map Prod.fst)).map Step.output
      = ((m.trace s es).filterMap w).map Prod.snd := by
  induction es generalizing s with
  | nil => rfl
  | cons e es ih =>
    cases hstep : m.step s e with
    | panicked => rw [trace_cons_of_panicked hstep]; rfl
    | returned p =>
      obtain ⟨hsome, hnone⟩ := h ⟨s, e, p.2, p.1⟩ hstep
      rw [trace_cons_of_returned hstep, List.filterMap_cons]
      cases hw : w ⟨s, e, p.2, p.1⟩ with
      | none => simpa only [hnone hw] using ih p.1
      | some ik =>
        rw [List.map_cons, List.map_cons, trace_cons_of_returned (hsome ik.1 ik.2 hw),
          List.map_cons, ih p.1]

/-- The view at the end of a run is where the small machine ends. -/
theorem run_view {g : Machine τ ι κ} {f : σ → τ} {w : Step σ ε ο → Option (ι × κ)}
    (h : m.IsView g f w) {s s' : σ} {es : List ε} (hrun : m.run s es = .returned s') :
    g.run (f s) (((m.trace s es).filterMap w).map Prod.fst) = .returned (f s') := by
  induction es generalizing s with
  | nil =>
    rw [← Outcome.returned.inj hrun]
    rfl
  | cons e es ih =>
    obtain ⟨s₁, o, hstep, hrest⟩ := run_cons_eq_returned.mp hrun
    obtain ⟨hsome, hnone⟩ := h ⟨s, e, o, s₁⟩ hstep
    rw [trace_cons_of_returned hstep, List.filterMap_cons]
    cases hw : w ⟨s, e, o, s₁⟩ with
    | none => simpa only [hnone hw] using ih hrest
    | some ik => rw [List.map_cons, run_cons_of_returned (hsome ik.1 ik.2 hw), ih hrest]

/-! ### Machines that follow

A machine can go along with another one to whose state its own is related, without being a function
of it: some of the events concern it, and at these it takes a step as well.
-/

/-- `g` follows `m`: if `i` sees an input in an event of `m`, then `g` takes a step with this input,
and `o` sees something in the step of `m` that `S` relates to it; if not, `o` sees nothing. Each way
the states stay in the relation `R`. -/
def Follows {υ : Type} (g : Machine τ ι κ) (m : Machine σ ε ο) (R : σ → τ → Prop)
    (i : ε → Option ι) (o : Step σ ε ο → Option υ) (S : Step τ ι κ → υ → Prop) : Prop :=
  ∀ t : Step σ ε ο, m.step t.pre t.event = .returned (t.post, t.output) → ∀ u, R t.pre u →
    (∀ x, i t.event = some x → ∃ k u' y, g.step u x = .returned (u', k) ∧ R t.post u' ∧
      o t = some y ∧ S ⟨u, x, k, u'⟩ y) ∧
    (i t.event = none → R t.post u ∧ o t = none)

/-- **A run is followed by a run.** It has the inputs that are seen, and its steps are related, one
by one, to what is seen in the steps of the other. -/
theorem Follows.run {υ : Type} {g : Machine τ ι κ} {R : σ → τ → Prop} {i : ε → Option ι}
    {o : Step σ ε ο → Option υ} {S : Step τ ι κ → υ → Prop} (h : g.Follows m R i o S) {s s' : σ}
    {u : τ} (hu : R s u) {es : List ε} (hrun : m.run s es = .returned s') :
    ∃ u', g.run u (es.filterMap i) = .returned u' ∧ R s' u' ∧
      List.Forall₂ S (g.trace u (es.filterMap i)) ((m.trace s es).filterMap o) := by
  induction es generalizing s u with
  | nil => exact ⟨u, rfl, Outcome.returned.inj hrun ▸ hu, .nil⟩
  | cons e es ih =>
    obtain ⟨s₁, out, hstep, hrest⟩ := run_cons_eq_returned.mp hrun
    obtain ⟨hsome, hnone⟩ := h ⟨s, e, out, s₁⟩ hstep u hu
    rw [trace_cons_of_returned hstep]
    cases hi : i e with
    | none =>
      obtain ⟨hu₁, ho⟩ := hnone hi
      rw [List.filterMap_cons_none hi, List.filterMap_cons_none ho]
      exact ih hu₁ hrest
    | some x =>
      obtain ⟨k, u₁, y, hg, hu₁, ho, hS⟩ := hsome x hi
      obtain ⟨u', hrun', hu', hall⟩ := ih hu₁ hrest
      rw [List.filterMap_cons_some hi, List.filterMap_cons_some ho, run_cons_of_returned hg,
        trace_cons_of_returned hg]
      exact ⟨u', hrun', hu', .cons hS hall⟩

/-! ### Panics -/

/-- If an event panics exactly when it fails a condition, whatever the state, a run returns
exactly when all of its events meet the condition. -/
theorem returns_run_iff {c : ε → Prop} (hc : ∀ s e, (m.step s e).Returns ↔ c e) (s : σ)
    (es : List ε) : (m.run s es).Returns ↔ ∀ e ∈ es, c e := by
  induction es generalizing s with
  | nil => simp
  | cons e es ih =>
    rw [run, Outcome.returns_bind, List.forall_mem_cons, ← hc s e]
    constructor
    · rintro ⟨p, hp, hrest⟩
      exact ⟨⟨p, hp⟩, (ih p.1).mp hrest⟩
    · rintro ⟨⟨p, hp⟩, hrest⟩
      exact ⟨p, hp, (ih p.1).mpr hrest⟩

/-! ### Cutting a run at a step -/

/-- A step of a run: the events before it lead to the state it starts from, and the steps after
it are those of the rest of the events from the state it ends in. -/
theorem trace_eq_append_cons {s : σ} {es : List ε} {a b : List (Step σ ε ο)} {t : Step σ ε ο}
    (h : m.trace s es = a ++ t :: b) :
    ∃ es₁ es₂, es = es₁ ++ t.event :: es₂ ∧ m.run s es₁ = .returned t.pre ∧
      m.trace s es₁ = a ∧ m.trace t.post es₂ = b := by
  induction es generalizing s a with
  | nil => simp at h
  | cons e es ih =>
    cases hstep : m.step s e with
    | panicked => simp [trace_cons_of_panicked hstep] at h
    | returned p =>
      rw [trace_cons_of_returned hstep] at h
      cases a with
      | nil =>
        obtain ⟨rfl, rfl⟩ := List.cons.inj h
        exact ⟨[], es, rfl, rfl, rfl, rfl⟩
      | cons u a =>
        obtain ⟨rfl, htail⟩ := List.cons.inj h
        obtain ⟨es₁, es₂, rfl, hrun, ha, hb⟩ := ih htail
        refine ⟨e :: es₁, es₂, rfl, ?_, ?_, hb⟩
        · rw [run_cons_of_returned hstep, hrun]
        · rw [trace_cons_of_returned hstep, ha]

/-- A quantity that none of the first steps of a run changes has its first value in them. -/
theorem trace_const {f : σ → τ} {s : σ} {es : List ε} {w b : List (Step σ ε ο)}
    (h : m.trace s es = w ++ b) (hw : ∀ t ∈ w, f t.post = f t.pre) :
    ∀ t ∈ w, f t.pre = f s := by
  induction es generalizing s w with
  | nil =>
    obtain ⟨rfl, -⟩ := List.append_eq_nil_iff.mp h.symm
    simp
  | cons e es ih =>
    cases hstep : m.step s e with
    | panicked =>
      rw [trace_cons_of_panicked hstep] at h
      obtain ⟨rfl, -⟩ := List.append_eq_nil_iff.mp h.symm
      simp
    | returned p =>
      rw [trace_cons_of_returned hstep] at h
      cases w with
      | nil => simp
      | cons t w =>
        obtain ⟨rfl, htail⟩ := List.cons.inj h
        rw [List.forall_mem_cons] at hw
        refine List.forall_mem_cons.mpr ⟨rfl, fun t ht => ?_⟩
        exact (ih htail hw.2 t ht).trans hw.1

/-- The same for a stretch of steps anywhere in a run. -/
theorem exists_const_of_segment {f : σ → τ} {s : σ} {es : List ε} {a w b : List (Step σ ε ο)}
    (h : m.trace s es = a ++ (w ++ b)) (hw : ∀ t ∈ w, f t.post = f t.pre) :
    ∃ x, ∀ t ∈ w, f t.pre = x := by
  cases w with
  | nil => exact ⟨f s, by simp⟩
  | cons t w =>
    obtain ⟨es₁, es₂, -, -, -, htrace⟩ := trace_eq_append_cons h
    rw [List.forall_mem_cons] at hw
    refine ⟨f t.pre, List.forall_mem_cons.mpr ⟨rfl, fun u hu => ?_⟩⟩
    exact (trace_const htrace hw.2 u hu).trans hw.1

/-! ### Logs -/

theorem run_append {s s' : σ} {es : List ε} (h : m.run s es = .returned s') (es' : List ε) :
    m.run s (es ++ es') = m.run s' es' := by
  induction es generalizing s with
  | nil => rw [← Outcome.returned.inj h, List.nil_append]
  | cons e es ih =>
    obtain ⟨s₁, o, h₁, hrest⟩ := run_cons_eq_returned.mp h
    rw [List.cons_append, run_cons_of_returned h₁, ih hrest]

theorem run_append_of_panicked {s : σ} {es : List ε} (h : m.run s es = .panicked) (es' : List ε) :
    m.run s (es ++ es') = .panicked := by
  induction es generalizing s with
  | nil => cases h
  | cons e es ih =>
    cases hstep : m.step s e with
    | panicked => exact run_cons_of_panicked hstep _
    | returned p =>
      rw [run_cons_of_returned hstep] at h
      rw [List.cons_append, run_cons_of_returned hstep, ih h]

theorem trace_append {s s' : σ} {es : List ε} (h : m.run s es = .returned s') (es' : List ε) :
    m.trace s (es ++ es') = m.trace s es ++ m.trace s' es' := by
  induction es generalizing s with
  | nil => rw [← Outcome.returned.inj h, List.nil_append, trace_nil, List.nil_append]
  | cons e es ih =>
    obtain ⟨s₁, o, h₁, hrest⟩ := run_cons_eq_returned.mp h
    rw [List.cons_append, trace_cons_of_returned h₁, trace_cons_of_returned h₁, ih hrest,
      List.cons_append]

/-- The events of a run from `s` to `s'`, each with the output of its step. -/
def Logs (m : Machine σ ε ο) (s : σ) (log : List (ε × ο)) (s' : σ) : Prop :=
  m.run s (log.map Prod.fst) = .returned s' ∧
    (m.trace s (log.map Prod.fst)).map Step.output = log.map Prod.snd

theorem logs_nil (s : σ) : m.Logs s [] s := ⟨rfl, rfl⟩

/-- One step more. -/
theorem Logs.snoc {s s' s'' : σ} {log : List (ε × ο)} (h : m.Logs s log s') {e : ε} {o : ο}
    (hstep : m.step s' e = .returned (s'', o)) : m.Logs s (log ++ [(e, o)]) s'' := by
  obtain ⟨hrun, htrace⟩ := h
  rw [Logs, List.map_append, List.map_append, run_append hrun, trace_append hrun, List.map_append,
    htrace, List.map_singleton, List.map_singleton, run_cons_of_returned hstep,
    trace_cons_of_returned hstep]
  exact ⟨rfl, rfl⟩

/-- One step more, which panics. -/
theorem Logs.run_panicked {s s' : σ} {log : List (ε × ο)} (h : m.Logs s log s') {e : ε}
    (hstep : m.step s' e = .panicked) : m.run s (log.map Prod.fst ++ [e]) = .panicked := by
  rw [run_append h.1, run_cons_of_panicked hstep]

end Machine

end MumbleBot
