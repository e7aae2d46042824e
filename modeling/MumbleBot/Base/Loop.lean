import MumbleBot.Base.Outcome

/-!
# Loops

The body of a loop goes on with new values of its variables, breaks with a result, or panics. A
`Loop` carries a measure that every turn lowers, so that it can be run with fuel and be executed,
while proofs use the three equations of a turn, in which no fuel is left.

## Main definitions

* `Turn`, `Turn.Satisfies` — how a turn of a loop ends, and what holds then
* `Loop`, `Loop.run` — a loop that ends, and its result

## Main results

* `Loop.run_of_continue`, `Loop.run_of_break`, `Loop.run_of_panicked` — the loop, turn by turn
* `Loop.run_spec`, `Loop.run_ends` — the rules for an invariant and a postcondition, without panics
  and with them
-/

namespace MumbleBot

/-- How a turn of a loop ends: it goes on from new values, or it breaks with a result. -/
inductive Turn (σ β : Type) where
  | continue_ (s : σ)
  | break_ (b : β)
  deriving DecidableEq, Repr

/-- What holds of the new values, or of the result. -/
def Turn.Satisfies {σ β : Type} (I : σ → Prop) (Q : β → Prop) : Turn σ β → Prop
  | continue_ s => I s
  | break_ b => Q b

/-- A loop over the variables `σ` with result `β`. -/
structure Loop (σ β : Type) where
  /-- One turn. -/
  body : σ → Outcome (Turn σ β)
  /-- What each turn that goes on lowers. -/
  left : σ → ℕ
  left_lt : ∀ s s', body s = .returned (.continue_ s') → left s' < left s

namespace Loop

variable {σ β : Type} (l : Loop σ β)

/-- At most `fuel` turns. -/
def turns : ℕ → σ → Outcome β
  | 0, _ => .panicked
  | fuel + 1, s => do
    match ← l.body s with
    | .continue_ s' => turns fuel s'
    | .break_ b => return b

/-- The loop from the values `s`. -/
def run (s : σ) : Outcome β := l.turns (l.left s + 1) s

/-- More fuel than the measure is enough. -/
theorem turns_eq_of_lt {fuel : ℕ} {s : σ} (h : l.left s < fuel) : l.turns fuel s = l.run s := by
  suffices haux : ∀ (n m : ℕ) (s : σ), l.left s < n → l.left s < m →
      l.turns n s = l.turns m s from
    haux _ _ s h (Nat.lt_succ_self _)
  intro n
  induction n with
  | zero => intro m s hn; omega
  | succ n ih =>
    intro m s hn hm
    obtain ⟨m, rfl⟩ : ∃ k, m = k + 1 := ⟨m - 1, by omega⟩
    rw [turns, turns]
    cases hbody : l.body s with
    | panicked => rfl
    | returned t =>
      cases t with
      | break_ b => rfl
      | continue_ s' =>
        have hlt := l.left_lt s s' hbody
        exact ih m s' (by omega) (by omega)

theorem run_of_continue {s s' : σ} (h : l.body s = .returned (.continue_ s')) :
    l.run s = l.run s' := by
  rw [run, turns, h]
  exact l.turns_eq_of_lt (l.left_lt s s' h)

theorem run_of_break {s : σ} {b : β} (h : l.body s = .returned (.break_ b)) :
    l.run s = .returned b := by
  rw [run, turns, h]
  rfl

theorem run_of_panicked {s : σ} (h : l.body s = .panicked) : l.run s = .panicked := by
  rw [run, turns, h]
  rfl

/-- What holds on entry, is kept by each turn that goes on, and gives the postcondition on a
break, proves the postcondition of a loop whose body does not panic. -/
theorem run_spec {I : σ → Prop} {Q : β → Prop}
    (hbody : ∀ s, I s → (∃ s', l.body s = .returned (.continue_ s') ∧ I s') ∨
      ∃ b, l.body s = .returned (.break_ b) ∧ Q b) {s : σ} (hs : I s) :
    ∃ b, l.run s = .returned b ∧ Q b := by
  induction hn : l.left s using Nat.strongRecOn generalizing s with
  | ind n ih =>
    rcases hbody s hs with ⟨s', h, hs'⟩ | ⟨b, h, hb⟩
    · rw [l.run_of_continue h]
      exact ih _ (hn ▸ l.left_lt s s' h) hs' rfl
    · exact ⟨b, l.run_of_break h, hb⟩

/-- The same for a body that may panic; `B` holds when it does. -/
theorem run_ends {I : σ → Prop} {B : Prop} {Q : β → Prop}
    (hbody : ∀ s, I s → (l.body s).Ends B (Turn.Satisfies I Q)) {s : σ} (hs : I s) :
    (l.run s).Ends B Q := by
  induction hn : l.left s using Nat.strongRecOn generalizing s with
  | ind n ih =>
    have hturn := hbody s hs
    cases h : l.body s with
    | panicked =>
      rw [h] at hturn
      rw [l.run_of_panicked h]
      exact hturn
    | returned t =>
      rw [h] at hturn
      cases t with
      | continue_ s' =>
        rw [l.run_of_continue h]
        exact ih _ (hn ▸ l.left_lt s s' h) hturn rfl
      | break_ b =>
        rw [l.run_of_break h]
        exact hturn

end Loop

end MumbleBot
