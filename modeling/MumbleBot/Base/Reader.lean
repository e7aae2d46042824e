import MumbleBot.Base.Outcome

/-!
# Reading bytes from a cursor

A `Reader α` reads from the bytes that are left in a cursor. It ends in one of three ways: with
a value, with an I/O error, or with a panic; in the first two the cursor is left somewhere, and
that position is part of the result.

`read_exact` says nothing about the cursor after it failed. `FailedRead` is that freedom: any
position between the one the read started at and the end of the buffer.

## Main definitions

* `ReadResult`, `Reader` — the monad; bind is the `?` operator
* `readU8`, `readExact` — one byte, and a given number of bytes
* `ReadResult.unwrap` — an error becomes a panic
-/

namespace MumbleBot

/-- A byte string. -/
abbrev Bytes := List UInt8

/-- The errors of `std::io` that the code makes or meets. -/
inductive IoError where
  | unexpectedEof
  | writeZero
  | other (message : String)
  deriving DecidableEq, Repr

/-- How a read from a cursor ended, and the bytes it left unread. -/
inductive ReadResult (α : Type) where
  | ok (value : α) (rest : Bytes)
  | err (error : IoError) (rest : Bytes)
  | panic
  deriving DecidableEq, Repr

/-- Code that reads from the bytes left in a cursor. -/
def Reader (α : Type) := Bytes → ReadResult α

namespace Reader

variable {α β : Type}

/-- `?`: an error ends the whole read where it happened. -/
protected def bind (x : Reader α) (f : α → Reader β) : Reader β := fun bs =>
  match x bs with
  | .ok a rest => f a rest
  | .err e rest => .err e rest
  | .panic => .panic

instance : Monad Reader where
  pure a := fun bs => .ok a bs
  bind := Reader.bind

@[simp] theorem pure_apply (a : α) (bs : Bytes) : (pure a : Reader α) bs = .ok a bs := rfl

theorem bind_apply (x : Reader α) (f : α → Reader β) (bs : Bytes) :
    (x >>= f) bs = match x bs with
      | .ok a rest => f a rest
      | .err e rest => .err e rest
      | .panic => .panic := rfl

theorem bind_of_ok {x : Reader α} {a : α} {bs rest : Bytes} (h : x bs = .ok a rest)
    (f : α → Reader β) : (x >>= f) bs = f a rest := by
  rw [bind_apply, h]

end Reader

namespace ReadResult

variable {α : Type}

/-- `Result::unwrap` on the result of a read: the value and the cursor, or a panic. -/
def unwrap : ReadResult α → Outcome (α × Bytes)
  | ok a rest => .returned (a, rest)
  | err _ _ => .panicked
  | panic => .panicked

@[simp] theorem unwrap_ok (a : α) (rest : Bytes) :
    (ok a rest).unwrap = .returned (a, rest) := rfl

@[simp] theorem unwrap_err (e : IoError) (rest : Bytes) :
    (err e rest : ReadResult α).unwrap = .panicked := rfl

@[simp] theorem unwrap_panic : (panic : ReadResult α).unwrap = .panicked := rfl

theorem unwrap_eq_returned {r : ReadResult α} {a : α} {rest : Bytes} :
    r.unwrap = .returned (a, rest) ↔ r = ok a rest := by
  cases r <;> simp

end ReadResult

/-! ### One byte -/

/-- `read_u8`. At the end of the buffer there is no position to leave the cursor at but the
end. -/
def readU8 : Reader UInt8
  | [] => .err .unexpectedEof []
  | b :: rest => .ok b rest

@[simp] theorem readU8_nil : readU8 [] = .err .unexpectedEof [] := rfl

@[simp] theorem readU8_cons (b : UInt8) (rest : Bytes) : readU8 (b :: rest) = .ok b rest := rfl

/-! ### A number of bytes -/

/-- Where a failed `read_exact` leaves the cursor: how many of the bytes it has consumed, given
the bytes there were and the number asked for. -/
structure FailedRead where
  /-- The bytes a failed read has consumed. -/
  consumed : Bytes → ℕ → ℕ
  /-- The cursor does not move past the end of the buffer. -/
  consumed_le : ∀ bs n, consumed bs n ≤ bs.length

/-- A failed read leaves the cursor where it was. -/
def FailedRead.stay : FailedRead := ⟨fun _ _ => 0, fun _ _ => Nat.zero_le _⟩

/-- A failed read consumes all there was. -/
def FailedRead.drain : FailedRead := ⟨fun bs _ => bs.length, fun _ _ => Nat.le_refl _⟩

/-- `read_exact` into a buffer of `n` bytes. -/
def readExact (fr : FailedRead) (n : ℕ) : Reader Bytes := fun bs =>
  if n ≤ bs.length then .ok (bs.take n) (bs.drop n)
  else .err .unexpectedEof (bs.drop (fr.consumed bs n))

end MumbleBot
