import Mathlib.Algebra.Group.Nat.Defs
import Mathlib.Order.Basic
import Mathlib.Data.Nat.Notation
import Mathlib.Tactic.SplitIfs

/-!
# Computations that return or panic

`Outcome α` is the result of running a piece of code that either returns a value of `α` or
unwinds. Panics carry no state: an unwinding task takes its program down with it, so nothing
after a panic can be observed.

A recoverable error is not a panic. It is an ordinary value, so fallible code returns
`Outcome (Except ε α)` and `unwrap` is the place where the one becomes the other.

## Main definitions

* `Outcome` — return or panic, a monad
* `Outcome.Returns` — the computation does not panic
* `Outcome.Ends` — what holds of the value, or of the panic
* `Outcome.unwrap`, `Outcome.get` — turning an error or a missing value into a panic
* `Outcome.usizeSub`, `Outcome.u32Add`, `Outcome.u64Add` — arithmetic that panics where it
  overflows

## Main results

* `Outcome.bind_eq_returned`, `Outcome.returns_bind` — a sequence returns exactly when each part
  does
-/

namespace MumbleBot

/-- The result of running code: it returns a value, or it panics. -/
inductive Outcome (α : Type) where
  | returned (a : α)
  | panicked
  deriving DecidableEq, Repr

namespace Outcome

variable {α β ε : Type}

/-- Run `x` and hand its value to `f`; a panic in `x` is a panic of the whole. -/
protected def bind (x : Outcome α) (f : α → Outcome β) : Outcome β :=
  match x with
  | returned a => f a
  | panicked => panicked

instance : Monad Outcome where
  pure := returned
  bind := Outcome.bind

@[simp] theorem pure_eq (a : α) : (pure a : Outcome α) = returned a := rfl

@[simp] theorem returned_bind (a : α) (f : α → Outcome β) : (returned a >>= f) = f a := rfl

@[simp] theorem panicked_bind (f : α → Outcome β) : (panicked >>= f) = panicked := rfl

@[simp] theorem map_returned (f : α → β) (a : α) : f <$> returned a = returned (f a) := rfl

@[simp] theorem map_panicked (f : α → β) : f <$> (panicked : Outcome α) = panicked := rfl

instance : LawfulMonad Outcome :=
  LawfulMonad.mk' Outcome (fun x => by cases x <;> rfl) (fun _ _ => rfl)
    (fun x _ _ => by cases x <;> rfl)

/-- What a sequence returned, it returned through both of its parts. -/
theorem bind_eq_returned {x : Outcome α} {f : α → Outcome β} {b : β} :
    (x >>= f) = returned b ↔ ∃ a, x = returned a ∧ f a = returned b := by
  cases x with
  | returned a => simp
  | panicked => simp

theorem map_eq_returned {x : Outcome α} {f : α → β} {b : β} :
    f <$> x = returned b ↔ ∃ a, x = returned a ∧ f a = b := by
  cases x <;> simp

/-! ### Returning -/

/-- The computation does not panic. -/
def Returns (x : Outcome α) : Prop := ∃ a, x = returned a

@[simp] theorem returns_returned (a : α) : (returned a).Returns := ⟨a, rfl⟩

@[simp] theorem not_returns_panicked : ¬ (panicked : Outcome α).Returns := by
  rintro ⟨a, h⟩
  cases h

theorem returns_iff_ne_panicked {x : Outcome α} : x.Returns ↔ x ≠ panicked := by
  cases x <;> simp

theorem returns_bind {x : Outcome α} {f : α → Outcome β} :
    (x >>= f).Returns ↔ ∃ a, x = returned a ∧ (f a).Returns := by
  cases x <;> simp

theorem returns_map {x : Outcome α} {f : α → β} : (f <$> x).Returns ↔ x.Returns := by
  cases x <;> simp

instance (x : Outcome α) : Decidable x.Returns :=
  match x with
  | returned a => isTrue ⟨a, rfl⟩
  | panicked => isFalse not_returns_panicked

/-! ### What holds at the end -/

/-- `Q` holds of the value, or there is a panic and `B` holds. -/
def Ends (B : Prop) (Q : α → Prop) : Outcome α → Prop
  | returned a => Q a
  | panicked => B

theorem Ends.mono {B B' : Prop} {Q Q' : α → Prop} {x : Outcome α} (h : x.Ends B Q)
    (hB : B → B') (hQ : ∀ a, Q a → Q' a) : x.Ends B' Q' := by
  cases x with
  | returned a => exact hQ a h
  | panicked => exact hB h

/-- A sequence ends as its second part does, from where the first one has ended. -/
theorem Ends.bind {B : Prop} {P : α → Prop} {Q : β → Prop} {x : Outcome α} {f : α → Outcome β}
    (hx : x.Ends B P) (hf : ∀ a, P a → (f a).Ends B Q) : (x >>= f).Ends B Q := by
  cases x with
  | returned a => exact hf a hx
  | panicked => exact hx

theorem Ends.and {B B' : Prop} {Q Q' : α → Prop} {x : Outcome α} (h : x.Ends B Q)
    (h' : x.Ends B' Q') : x.Ends (B ∧ B') fun a => Q a ∧ Q' a := by
  cases x with
  | returned a => exact ⟨h, h'⟩
  | panicked => exact ⟨h, h'⟩

theorem ends_false_iff {Q : α → Prop} {x : Outcome α} :
    x.Ends False Q ↔ ∃ a, x = returned a ∧ Q a := by
  cases x <;> simp [Ends]

/-! ### Unwrapping -/

/-- `Result::unwrap`: an error becomes a panic. -/
def unwrap : Except ε α → Outcome α
  | .ok a => returned a
  | .error _ => panicked

/-- `Option::unwrap` and indexing: a missing value becomes a panic. -/
def get : Option α → Outcome α
  | some a => returned a
  | none => panicked

@[simp] theorem unwrap_ok (a : α) : unwrap (.ok a : Except ε α) = returned a := rfl

@[simp] theorem unwrap_error (e : ε) : unwrap (.error e : Except ε α) = panicked := rfl

@[simp] theorem get_some (a : α) : get (some a) = returned a := rfl

@[simp] theorem get_none : get (none : Option α) = panicked := rfl

theorem unwrap_eq_returned {x : Except ε α} {a : α} : unwrap x = returned a ↔ x = .ok a := by
  cases x <;> simp

/-! ### Checked arithmetic -/

/-- `a - b` on `usize`. An underflow panics; without overflow checks it would wrap to a length no
buffer can have. -/
def usizeSub (a b : ℕ) : Outcome ℕ := if b ≤ a then returned (a - b) else panicked

/-- `a + b` on `u64`, with overflow checks. -/
def u64Add (a b : UInt64) : Outcome UInt64 :=
  if a.toNat + b.toNat < 2 ^ 64 then returned (a + b) else panicked

/-- `a + b` on `u32`, with overflow checks. -/
def u32Add (a b : UInt32) : Outcome UInt32 :=
  if a.toNat + b.toNat < 2 ^ 32 then returned (a + b) else panicked

theorem usizeSub_of_le {a b : ℕ} (h : b ≤ a) : usizeSub a b = returned (a - b) := if_pos h

theorem usizeSub_of_lt {a b : ℕ} (h : a < b) : usizeSub a b = panicked :=
  if_neg (Nat.not_le.mpr h)

theorem u64Add_eq_returned {a b c : UInt64} :
    u64Add a b = returned c ↔ a.toNat + b.toNat < 2 ^ 64 ∧ c = a + b := by
  rw [u64Add]
  split_ifs with h
  · simp only [h, true_and, returned.injEq]
    exact eq_comm
  · simp only [h, false_and]

theorem u32Add_of_lt {a b : UInt32} (h : a.toNat + b.toNat < 2 ^ 32) :
    u32Add a b = returned (a + b) := if_pos h

end Outcome

end MumbleBot
