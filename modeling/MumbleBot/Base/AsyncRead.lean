import MumbleBot.Base.Future
import MumbleBot.Base.Reader

/-!
# Reading from a source that may have to wait

A read from an asynchronous source hands out a first part of what is there, up to a number of bytes,
or would have to wait, or fails; no bytes at all are the end of the stream. `read_exact` goes on
from what it has got, over as many polls as it needs.

## Main definitions

* `AsyncRead` — the source, as a part of the world
* `ReadExact`, `AsyncRead.readExact` — `tokio_io::io::read_exact`

## Main results

* `AsyncRead.readExact_polls` — what each read keeps holds of what has been got, after every poll
-/

namespace MumbleBot

/-- What a read answers. -/
inductive ReadAnswer where
  | data (bs : Bytes)
  | wouldBlock
  | failed (e : IoError)
  deriving DecidableEq, Repr

/-- The bytes that a read has handed out. -/
def ReadAnswer.bytes : ReadAnswer → Bytes
  | data bs => bs
  | _ => []

/-- A source in the world `ω`. -/
class AsyncRead (ω : Type) where
  /-- A read of at most so many bytes. -/
  read : ω → ℕ → ReadAnswer × ω
  length_le : ∀ {w w' : ω} {n : ℕ} {bs : Bytes}, read w n = (.data bs, w') → bs.length ≤ n

/-- The state of a `ReadExact`: how many bytes there shall be, and those that have been read. -/
structure ReadExact where
  want : ℕ
  got : Bytes
  length_le : got.length ≤ want
  deriving DecidableEq, Repr

/-- `read_exact` into a buffer of `n` bytes. -/
def ReadExact.new (n : ℕ) : ReadExact := ⟨n, [], Nat.zero_le n⟩

variable {ω : Type} [AsyncRead ω]

/-- One turn of `while *pos < buf.len()` in `ReadExact::poll`. -/
def readExactTurn :
    ReadExact × ω → Outcome (Turn (ReadExact × ω) (Polled ReadExact Bytes IoError × ω))
  | (s, w) =>
    if s.got.length < s.want then
      match h : AsyncRead.read w (s.want - s.got.length) with
      | (.data bs, w) =>
        if bs.length = 0 then .returned (.break_ (.failed .unexpectedEof, w))
        else
          have hgot : (s.got ++ bs).length ≤ s.want := by
            have hle := AsyncRead.length_le h
            have hgot := s.length_le
            rw [List.length_append]
            omega
          .returned (.continue_ (⟨s.want, s.got ++ bs, hgot⟩, w))
      | (.wouldBlock, w) => .returned (.break_ (.notReady s, w))
      | (.failed e, w) => .returned (.break_ (.failed e, w))
    else .returned (.break_ (.ready s.got, w))

/-- What one turn does: it goes on with more bytes, or it ends the poll. -/
theorem readExactTurn_ends {B : Prop} {I : ReadExact → ω → Prop}
    {Q : Polled ReadExact Bytes IoError → ω → Prop} {s : ReadExact} {w : ω}
    (hdata : ∀ bs w' s', AsyncRead.read w (s.want - s.got.length) = (.data bs, w') →
      s.got.length < s.want → bs ≠ [] → s'.want = s.want → s'.got = s.got ++ bs → I s' w')
    (heof : ∀ w', AsyncRead.read w (s.want - s.got.length) = (.data [], w') →
      s.got.length < s.want → Q (.failed .unexpectedEof) w')
    (hblock : ∀ w', AsyncRead.read w (s.want - s.got.length) = (.wouldBlock, w') →
      s.got.length < s.want → Q (.notReady s) w')
    (hfailed : ∀ e w', AsyncRead.read w (s.want - s.got.length) = (.failed e, w') →
      s.got.length < s.want → Q (.failed e) w')
    (hready : s.got.length = s.want → Q (.ready s.got) w) :
    (readExactTurn (s, w)).Ends B
      (Turn.Satisfies (fun sw => I sw.1 sw.2) fun rw => Q rw.1 rw.2) := by
  rw [readExactTurn]
  split_ifs with hlt
  · split
    · rename_i bs w' hanswer
      split_ifs with hnil
      · obtain rfl := List.length_eq_zero_iff.mp hnil
        exact heof w' hanswer hlt
      · exact hdata bs w' _ hanswer hlt (fun h => hnil (congrArg List.length h)) rfl rfl
    · rename_i w' hanswer
      exact hblock w' hanswer hlt
    · rename_i e w' hanswer
      exact hfailed e w' hanswer hlt
  · exact hready (Nat.le_antisymm s.length_le (Nat.le_of_not_lt hlt))

/-- The loop of `ReadExact::poll`. -/
def readExactLoop : Loop (ReadExact × ω) (Polled ReadExact Bytes IoError × ω) where
  body := readExactTurn
  left sw := sw.1.want - sw.1.got.length
  left_lt := by
    rintro ⟨s, w⟩ ⟨s', w'⟩ h
    have hturn := readExactTurn_ends (B := True) (s := s) (w := w)
      (I := fun s' _ => s'.want - s'.got.length < s.want - s.got.length) (Q := fun _ _ => True)
      (by
        intro bs _ s' _ hlt hne hwant hgot
        have hpos := List.length_pos_iff.mpr hne
        rw [hwant, hgot, List.length_append]
        omega)
      (fun _ _ _ => trivial) (fun _ _ _ => trivial) (fun _ _ _ _ => trivial) fun _ => trivial
    rw [h] at hturn
    exact hturn

/-- `tokio_io::io::read_exact`, as a future; the source it is ready with is left out, since nobody
but its owner looks at it. -/
def AsyncRead.readExact : Future ω ReadExact Bytes IoError where
  poll s w := readExactLoop.run (s, w)

/-- **What each read keeps**, of the number of bytes that are wanted, those that have been got and
the world, holds after every poll. A poll that is not ready has not got all of the bytes, and `J` is
what is known when the source has none. -/
theorem AsyncRead.readExact_polls {B : ω → Prop} {R : ω → ω → Prop} (hR : Future.Steps R)
    (hread : ∀ (w : ω) (n : ℕ), R w (AsyncRead.read w n).2) {P J : ℕ → Bytes → ω → Prop}
    (hdata : ∀ {n k got bs} {w w' : ω}, P n got w → AsyncRead.read w k = (.data bs, w') → bs ≠ [] →
      P n (got ++ bs) w')
    (hblock : ∀ {n k got} {w w' : ω}, P n got w → AsyncRead.read w k = (.wouldBlock, w') →
      J n got w')
    {E : IoError → ω → Prop}
    (heof : ∀ {n k got} {w w' : ω}, P n got w → AsyncRead.read w k = (.data [], w') →
      got.length < n → E .unexpectedEof w')
    (hfailed : ∀ {n k got e} {w w' : ω}, P n got w → AsyncRead.read w k = (.failed e, w') →
      got.length < n → E e w') :
    (AsyncRead.readExact : Future ω ReadExact Bytes IoError).Polls B R
      (fun s w => P s.want s.got w) (fun s w => s.got.length < s.want ∧ J s.want s.got w)
      (fun buf => P buf.length buf) E := by
  intro s w hs
  refine Future.EndsFrom.run hR (l := readExactLoop) (I := fun s w => P s.want s.got w) ?_ hs
  intro s w hs
  have hstep : ∀ {n : ℕ} {answer : ReadAnswer} {w' : ω}, AsyncRead.read w n = (answer, w') →
      R w w' := by
    intro n answer w' hanswer
    have hstep := hread w n
    rwa [hanswer] at hstep
  refine readExactTurn_ends (I := fun s' w' => R w w' ∧ P s'.want s'.got w')
    (Q := fun r w' => R w w' ∧ r.Satisfies (fun s w => s.got.length < s.want ∧ J s.want s.got w)
      (fun buf => P buf.length buf) E w') ?_ ?_ ?_ ?_ ?_
  · intro bs w' s' hanswer _ hne hwant hgot
    rw [hwant, hgot]
    exact ⟨hstep hanswer, hdata hs hanswer hne⟩
  · exact fun w' hanswer hlt => ⟨hstep hanswer, heof hs hanswer hlt⟩
  · exact fun w' hanswer hlt => ⟨hstep hanswer, hlt, hblock hs hanswer⟩
  · exact fun e w' hanswer hlt => ⟨hstep hanswer, hfailed hs hanswer hlt⟩
  · intro heq
    refine ⟨hR.refl w, ?_⟩
    show P s.got.length s.got w
    rwa [heq]

end MumbleBot
