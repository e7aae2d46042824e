import MumbleBot.Base.Future
import MumbleBot.Base.Reader

/-!
# `connector.rs`: the TLS handshake

`connect_async` starts a handshake and hands out a future. If the handshake could not be finished at
once, each poll goes on with it once, until the engine has a stream or an error.

The engine, OpenSSL, is not part of the repository: it is a part of the world that answers.

## Main definitions

* `HandshakeError`, `SslError` — what the engine answers if not with a stream
* `MidHandshake.poll` — `Future::poll` of `MidHandshake`, which takes the handshake out of itself
* `connectAsync` — the same as a future that is not polled any more when it is done

## Main results

* `connectAsync_meets` — the contract of the future
* `handshakePolls_outputs` — what comes of any number of polls
-/

namespace MumbleBot

/-- `openssl::ssl::Error`. -/
inductive SslError where
  | zeroReturn
  | wantRead
  | wantWrite
  | wantX509Lookup
  | stream (e : IoError)
  | ssl (stack : String)
  deriving DecidableEq, Repr

/-- `openssl::ssl::HandshakeError`. -/
inductive HandshakeError where
  | failure (e : SslError)
  | setupFailure (stack : String)
  | interrupted
  deriving DecidableEq, Repr

/-- What a handshake comes to. The stream is a part of the world, so that there is nothing to say
about it here. -/
abbrev Handshake := Except HandshakeError Unit

/-- The engine, as a part of the world: `MidHandshakeSslStream::handshake`. -/
class TlsEngine (ω : Type) where
  handshake : ω → Handshake × ω

/-- `MidHandshake`: its field `inner`. -/
abbrev MidHandshake := Option Handshake

variable {ω : Type} [TlsEngine ω]

/-- `MidHandshake::poll`; `none` in an `Ok` is `Async::NotReady`. -/
def MidHandshake.poll (inner : MidHandshake) (w : ω) :
    Outcome (Except SslError (Option Unit) × MidHandshake × ω) :=
  match inner with
  | none => .panicked
  | some (.ok stream) => .returned (.ok (some stream), none, w)
  | some (.error (.failure e)) => .returned (.error e, none, w)
  | some (.error (.setupFailure stack)) => .returned (.error (.ssl stack), none, w)
  | some (.error .interrupted) =>
    match TlsEngine.handshake w with
    | (.ok stream, w) => .returned (.ok (some stream), none, w)
    | (.error (.failure e), w) => .returned (.error e, none, w)
    | (.error (.setupFailure stack), w) => .returned (.error (.ssl stack), none, w)
    | (.error .interrupted, w) => .returned (.ok none, some (.error .interrupted), w)

/-- `ConnectAsync`, which hands its polls on. -/
def connectAsync : Future ω MidHandshake Unit SslError where
  poll inner w := do
    let (r, inner, w) ← inner.poll w
    match r with
    | .ok (some stream) => return (.ready stream, w)
    | .ok none => return (.notReady inner, w)
    | .error e => return (.failed e, w)

/-- The handshake is never polled again when it is over, so that its future does not panic; `P` is
what the engine does not change. -/
theorem connectAsync_meets {R : ω → ω → Prop} (hR : Future.Steps R)
    (hengine : ∀ w : ω, R w (TlsEngine.handshake w).2) {P : ω → Prop} (hP : Future.Stable R P) :
    (connectAsync : Future ω MidHandshake Unit SslError).Meets R
      (fun inner w => inner ≠ none ∧ P w) (fun _ => P) (fun _ => P) := by
  rintro (_ | (_ | _ | _) | _) w ⟨hinner, hw⟩
  · exact absurd rfl hinner
  · exact ⟨_, w, rfl, hR.refl w, hw⟩
  · exact ⟨_, w, rfl, hR.refl w, hw⟩
  · have hstep := hengine w
    have hw' := hP _ _ hstep hw
    simp only [connectAsync, MidHandshake.poll]
    rcases hanswer : TlsEngine.handshake w with ⟨(_ | _ | _) | _, w'⟩ <;>
      rw [hanswer] at hstep hw'
    · exact ⟨_, w', rfl, hstep, hw'⟩
    · exact ⟨_, w', rfl, hstep, hw'⟩
    · exact ⟨_, w', rfl, hstep, by simp, hw'⟩
    · exact ⟨_, w', rfl, hstep, hw'⟩
  · exact ⟨_, w, rfl, hR.refl w, hw⟩

/-- A handshake that the engine does not get to a stream is not ready, however often it is polled;
`P` says this of the engine. -/
theorem connectAsync_meets_of_unfinished {P : ω → Prop}
    (hengine : ∀ w, P w → (TlsEngine.handshake w).1 ≠ .ok () ∧ P (TlsEngine.handshake w).2) :
    (connectAsync : Future ω MidHandshake Unit SslError).Meets (fun _ _ => True)
      (fun inner w => inner ≠ none ∧ inner ≠ some (.ok ()) ∧ P w) (fun _ _ => False)
      (fun _ => P) := by
  rintro (_ | (_ | _ | _) | _) w ⟨hinner, hok, hw⟩
  · exact absurd rfl hinner
  · exact ⟨_, w, rfl, trivial, hw⟩
  · exact ⟨_, w, rfl, trivial, hw⟩
  · obtain ⟨hne, hw'⟩ := hengine w hw
    simp only [connectAsync, MidHandshake.poll]
    rcases hanswer : TlsEngine.handshake w with ⟨(_ | _ | _) | _, w'⟩ <;>
      rw [hanswer] at hne hw'
    · exact ⟨_, w', rfl, trivial, hw'⟩
    · exact ⟨_, w', rfl, trivial, hw'⟩
    · exact ⟨_, w', rfl, trivial, by simp, by simp, hw'⟩
    · exact absurd rfl hne
  · exact absurd rfl hok

/-! ### Any number of polls -/

/-- What is reported of an attempt. -/
def Handshake.report : Handshake → Except SslError (Option Unit)
  | .ok stream => .ok (some stream)
  | .error (.failure e) => .error e
  | .error (.setupFailure stack) => .error (.ssl stack)
  | .error .interrupted => .ok none

/-- What is left of the handshake after an attempt. -/
def Handshake.inner : Handshake → MidHandshake
  | .error .interrupted => some (.error .interrupted)
  | _ => none

/-- The attempts up to the first one that is not interrupted. -/
def untilDone : List Handshake → List Handshake
  | [] => []
  | .error .interrupted :: hs => .error .interrupted :: untilDone hs
  | h :: _ => [h]

/-- What the engine answers when it is asked so many times. -/
def TlsEngine.answers : ℕ → ω → List Handshake
  | 0, _ => []
  | n + 1, w => (TlsEngine.handshake w).1 :: answers n (TlsEngine.handshake w).2

/-- The engine after so many attempts. -/
def TlsEngine.asked : ℕ → ω → ω
  | 0, w => w
  | n + 1, w => asked n (TlsEngine.handshake w).2

/-- The attempts that polls report on: the one that `connect` has made, and if that was interrupted
one for each poll. -/
def attempts (first : Handshake) (w : ω) (polls : ℕ) : List Handshake :=
  if first = .error .interrupted then TlsEngine.answers polls w else List.replicate polls first

/-- The future under polls, whatever they report. -/
def handshakePolls : Machine (MidHandshake × ω) Unit (Except SslError (Option Unit)) where
  step s _ := do
    let (r, inner, w) ← s.1.poll s.2
    return ((inner, w), r)

/-- A poll of an interrupted handshake reports on the next attempt, and keeps what is left of it. -/
theorem step_interrupted (w : ω) : handshakePolls.step (some (.error .interrupted), w) ()
    = .returned (((TlsEngine.handshake w).1.inner, (TlsEngine.handshake w).2),
        (TlsEngine.handshake w).1.report) := by
  simp only [handshakePolls, MidHandshake.poll]
  rcases TlsEngine.handshake w with ⟨(_ | _ | _) | _, w'⟩ <;> rfl

/-- A poll of a handshake that is over reports on it, and takes it away. -/
theorem step_done {h : Handshake} (hdone : h ≠ .error .interrupted) (w : ω) :
    handshakePolls.step (some h, w) () = .returned ((none, w), h.report) := by
  rcases h with (_ | _ | _) | _
  · rfl
  · rfl
  · exact absurd rfl hdone
  · rfl

theorem step_taken (w : ω) : handshakePolls.step (none, w) () = .panicked := rfl

theorem untilDone_cons_of_ne {h : Handshake} (hdone : h ≠ .error .interrupted)
    (hs : List Handshake) : untilDone (h :: hs) = [h] := by
  rcases h with (_ | _ | _) | _
  · rfl
  · rfl
  · exact absurd rfl hdone
  · rfl

theorem Handshake.inner_of_ne {h : Handshake} (hdone : h ≠ .error .interrupted) :
    h.inner = none := by
  rcases h with (_ | _ | _) | _
  · rfl
  · rfl
  · exact absurd rfl hdone
  · rfl

theorem trace_taken (w : ω) (polls : ℕ) :
    handshakePolls.trace (none, w) (List.replicate polls ()) = [] := by
  cases polls with
  | zero => rfl
  | succ n => exact Machine.trace_cons_of_panicked (step_taken w) _

/-- While the handshake is interrupted, each poll makes one attempt. -/
theorem trace_interrupted (w : ω) (polls : ℕ) :
    (handshakePolls.trace (some (.error .interrupted), w) (List.replicate polls ())).map
        Step.output
      = (untilDone (TlsEngine.answers polls w)).map Handshake.report := by
  induction polls generalizing w with
  | zero => rfl
  | succ n ih =>
    rw [List.replicate_succ, Machine.trace_cons_of_returned (step_interrupted w), List.map_cons,
      TlsEngine.answers]
    by_cases hdone : (TlsEngine.handshake w).1 = .error .interrupted
    · rw [hdone]
      exact congrArg _ (ih _)
    · rw [untilDone_cons_of_ne hdone, Handshake.inner_of_ne hdone, trace_taken]
      rfl

/-- And the engine has been asked once for each of them. -/
theorem engine_interrupted (w : ω) (polls : ℕ) :
    (handshakePolls.trace (some (.error .interrupted), w) (List.replicate polls ())).map
        (fun t => t.post.2)
      = (List.range (handshakePolls.trace (some (.error .interrupted), w)
          (List.replicate polls ())).length).map fun n => TlsEngine.asked (n + 1) w := by
  induction polls generalizing w with
  | zero => rfl
  | succ n ih =>
    rw [List.replicate_succ, Machine.trace_cons_of_returned (step_interrupted w), List.map_cons,
      List.length_cons, List.range_succ_eq_map, List.map_cons, List.map_map]
    refine congrArg _ ?_
    by_cases hdone : (TlsEngine.handshake w).1 = .error .interrupted
    · rw [hdone]
      exact ih _
    · rw [Handshake.inner_of_ne hdone, trace_taken]
      rfl

/-- **What comes of any number of polls**: they report on one attempt after another, up to the first
one that is not interrupted, and the poll after that panics. No attempt is reported twice, and none
is made that is not reported: after each poll the engine has been asked as often as that, or never
if the handshake was over from the start. -/
theorem handshakePolls_outputs (first : Handshake) (w : ω) (polls : ℕ) :
    let ts := handshakePolls.trace (some first, w) (List.replicate polls ())
    ts.map Step.output = (untilDone (attempts first w polls)).map Handshake.report ∧
      ts.map (fun t => t.post.2) = (List.range ts.length).map fun n =>
        if first = .error .interrupted then TlsEngine.asked (n + 1) w else w := by
  by_cases hfirst : first = .error .interrupted
  · rw [attempts, if_pos hfirst, hfirst]
    refine ⟨trace_interrupted w polls, ?_⟩
    simp only [if_true]
    exact engine_interrupted w polls
  · rw [attempts, if_neg hfirst]
    simp only [if_neg hfirst]
    cases polls with
    | zero => exact ⟨rfl, rfl⟩
    | succ n =>
      rw [List.replicate_succ, List.replicate_succ, untilDone_cons_of_ne hfirst,
        Machine.trace_cons_of_returned (step_done hfirst w), trace_taken]
      exact ⟨rfl, rfl⟩

end MumbleBot
