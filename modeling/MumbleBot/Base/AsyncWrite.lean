import MumbleBot.Base.Future
import MumbleBot.Base.Reader

/-!
# Writing to a sink that may have to wait

A write to an asynchronous sink takes a first part of the buffer, or would have to wait, or fails;
only in the first case has it taken anything. `write_all` goes on from where the last write has
stopped, over as many polls as it needs.

## Main definitions

* `AsyncWrite` — the sink, as a part of the world
* `WriteAll`, `writeAll` — `tokio_io::io::write_all`

## Main results

* `writeAll_meets` — what is in the sink is what was there and the part of the buffer that has been
  written, after every poll
* `writeAll_blocked` — it waits for the sink only
-/

namespace MumbleBot

/-- What a write answers. -/
inductive Written where
  | wrote (n : ℕ)
  | wouldBlock
  | failed (e : IoError)
  deriving DecidableEq, Repr

/-- A sink in the world `ω`. -/
class AsyncWrite (ω : Type) where
  write : ω → Bytes → Written × ω
  /-- The bytes the sink has taken. -/
  sent : ω → Bytes
  write_wrote : ∀ {w w' : ω} {buf : Bytes} {n : ℕ}, write w buf = (.wrote n, w') →
    n ≤ buf.length ∧ sent w' = sent w ++ buf.take n
  write_wouldBlock : ∀ {w w' : ω} {buf : Bytes}, write w buf = (.wouldBlock, w') →
    sent w' = sent w
  write_failed : ∀ {w w' : ω} {buf : Bytes} {e : IoError}, write w buf = (.failed e, w') →
    sent w' = sent w

/-- The state of a `WriteAll`: a buffer and how much of it has been written. -/
structure WriteAll where
  buf : Bytes
  pos : ℕ
  deriving DecidableEq, Repr

/-- `write_all`. -/
def WriteAll.new (buf : Bytes) : WriteAll := ⟨buf, 0⟩

variable {ω : Type} [AsyncWrite ω]

/-- One turn of `while *pos < buf.len()` in `WriteAll::poll`. -/
def writeAllTurn : WriteAll × ω → Outcome (Turn (WriteAll × ω) (Polled WriteAll Unit IoError × ω))
  | (s, w) =>
    if s.pos < s.buf.length then
      match AsyncWrite.write w (s.buf.drop s.pos) with
      | (.wrote n, w) =>
        if n = 0 then .returned (.break_ (.failed .writeZero, w))
        else .returned (.continue_ ({ s with pos := s.pos + n }, w))
      | (.wouldBlock, w) => .returned (.break_ (.notReady s, w))
      | (.failed e, w) => .returned (.break_ (.failed e, w))
    else .returned (.break_ (.ready (), w))

/-- The loop of `WriteAll::poll`. -/
def writeAllLoop : Loop (WriteAll × ω) (Polled WriteAll Unit IoError × ω) where
  body := writeAllTurn
  left sw := sw.1.buf.length - sw.1.pos
  left_lt := by
    rintro ⟨s, w⟩ ⟨s', w'⟩ h
    rw [writeAllTurn] at h
    split_ifs at h with hpos
    · rcases hwrite : AsyncWrite.write w (s.buf.drop s.pos) with ⟨n | _ | e, w₁⟩
      · rw [hwrite] at h
        dsimp only at h
        split_ifs at h with hn
        · simp at h
        · obtain ⟨rfl, rfl⟩ : { s with pos := s.pos + n } = s' ∧ w₁ = w' := by simpa using h
          dsimp only
          omega
      · simp [hwrite] at h
      · simp [hwrite] at h
    · simp at h

/-- `tokio_io::io::write_all`, as a future; the sink and the buffer it is ready with are left
out, since nobody but the sink's owner looks at them. -/
def writeAll : Future ω WriteAll Unit IoError where
  poll s w := writeAllLoop.run (s, w)

/-- While a buffer is written, the sink holds what it held and the first part of the buffer; `P` is
what no write changes. -/
structure WriteAll.Writing (P : ω → Prop) (held buf : Bytes) (s : WriteAll) (w : ω) : Prop where
  keeps : P w
  buf_eq : s.buf = buf
  pos_le : s.pos ≤ buf.length
  sent_eq : AsyncWrite.sent w = held ++ buf.take s.pos

/-- A buffer whose write has failed is in the sink up to some point. -/
def WriteAll.Broken (P : ω → Prop) (held buf : Bytes) (w : ω) : Prop :=
  P w ∧ ∃ n, AsyncWrite.sent w = held ++ buf.take n

/-- A turn goes on with a longer part of the buffer in the sink, or it ends the poll. -/
theorem writeAllTurn_spec {R : ω → ω → Prop} (hwrite : ∀ w (buf : Bytes), R w
    (AsyncWrite.write w buf).2) {P : ω → Prop} (hP : Future.Stable R P) {held buf : Bytes}
    {s : WriteAll} {w : ω} (h : s.Writing P held buf w) (hR : R w w) :
    (∃ s' w', writeAllTurn (s, w) = .returned (.continue_ (s', w')) ∧ R w w' ∧
        s'.Writing P held buf w') ∨
      ∃ r w', writeAllTurn (s, w) = .returned (.break_ (r, w')) ∧ R w w' ∧
        r.Satisfies (WriteAll.Writing P held buf) (fun _ w => P w ∧ AsyncWrite.sent w = held ++ buf)
          (fun _ => WriteAll.Broken P held buf) w' := by
  obtain ⟨b, pos⟩ := s
  obtain ⟨hPw, hbuf, hle, hsent⟩ := h
  obtain rfl : buf = b := hbuf.symm
  rw [writeAllTurn]
  dsimp only at hle hsent ⊢
  split_ifs with hpos
  · have hstep := hwrite w (buf.drop pos)
    rcases hw : AsyncWrite.write w (buf.drop pos) with ⟨n | _ | e, w'⟩ <;> rw [hw] at hstep
    all_goals have hPw' := hP w w' hstep hPw
    · obtain ⟨hn, hsent'⟩ := AsyncWrite.write_wrote hw
      rw [List.length_drop] at hn
      dsimp only
      split_ifs with hzero
      · refine .inr ⟨_, w', rfl, hstep, hPw', pos, ?_⟩
        rw [hsent', hsent, hzero, List.take_zero, List.append_nil]
      · refine .inl ⟨_, w', rfl, hstep, hPw', rfl, ?_, ?_⟩
        · dsimp only
          omega
        · rw [hsent', hsent, List.append_assoc, List.take_add]
    · refine .inr ⟨_, w', rfl, hstep, hPw', rfl, hle, ?_⟩
      rw [AsyncWrite.write_wouldBlock hw, hsent]
    · refine .inr ⟨_, w', rfl, hstep, hPw', pos, ?_⟩
      rw [AsyncWrite.write_failed hw, hsent]
  · refine .inr ⟨_, w, rfl, hR, hPw, ?_⟩
    rw [hsent, List.take_of_length_le (Nat.le_of_not_lt hpos)]

/-- **After every poll the sink holds what it held and the part of the buffer that has been
written**, whatever the writes answer. -/
theorem writeAll_meets {R : ω → ω → Prop} (hR : Future.Steps R) (hwrite : ∀ w (buf : Bytes), R w
    (AsyncWrite.write w buf).2) {P : ω → Prop} (hP : Future.Stable R P) (held buf : Bytes) :
    (writeAll : Future ω WriteAll Unit IoError).Meets R (WriteAll.Writing P held buf)
      (fun _ w => P w ∧ AsyncWrite.sent w = held ++ buf)
      (fun _ => WriteAll.Broken P held buf) := by
  intro s₀ w₀ h₀
  have hbody : ∀ sw : WriteAll × ω, R w₀ sw.2 ∧ sw.1.Writing P held buf sw.2 →
      (∃ sw', writeAllTurn sw = .returned (.continue_ sw') ∧ R w₀ sw'.2 ∧
        sw'.1.Writing P held buf sw'.2) ∨
      ∃ r, writeAllTurn sw = .returned (.break_ r) ∧ R w₀ r.2 ∧
        r.1.Satisfies (WriteAll.Writing P held buf)
          (fun _ w => P w ∧ AsyncWrite.sent w = held ++ buf)
          (fun _ => WriteAll.Broken P held buf) r.2 := by
    rintro ⟨s, w⟩ ⟨hstep, hs⟩
    rcases writeAllTurn_spec hwrite hP hs (hR.refl w) with
      ⟨s', w', hturn, hstep', hs'⟩ | ⟨r, w', hturn, hstep', hr⟩
    · exact .inl ⟨(s', w'), hturn, hR.trans hstep hstep', hs'⟩
    · exact .inr ⟨(r, w'), hturn, hR.trans hstep hstep', hr⟩
  obtain ⟨⟨r, w⟩, hrun, hstep, hr⟩ :=
    writeAllLoop.run_spec hbody (s := (s₀, w₀)) ⟨hR.refl w₀, h₀⟩
  exact ⟨r, w, hrun, hstep, hr⟩

/-- A poll does to the world what its writes do, and it waits for the sink only: something is left
to be written, and the last write has been refused. -/
theorem writeAll_blocked {R : ω → ω → Prop} (hR : Future.Steps R) (hwrite : ∀ w (buf : Bytes), R w
    (AsyncWrite.write w buf).2) {P : ω → Prop}
    (hblock : ∀ w (buf : Bytes) w', AsyncWrite.write w buf = (.wouldBlock, w') → P w')
    {s : WriteAll} {w w' : ω} {r : Polled WriteAll Unit IoError}
    (h : writeAll.poll s w = .returned (r, w')) :
    R w w' ∧ r.Satisfies (fun s w => s.pos < s.buf.length ∧ P w) (fun _ _ => True)
      (fun _ _ => True) w' := by
  have hbody : ∀ sw : WriteAll × ω, R w sw.2 →
      (∃ sw', writeAllTurn sw = .returned (.continue_ sw') ∧ R w sw'.2) ∨
      ∃ r, writeAllTurn sw = .returned (.break_ r) ∧ R w r.2 ∧
        r.1.Satisfies (fun s w => s.pos < s.buf.length ∧ P w) (fun _ _ => True)
          (fun _ _ => True) r.2 := by
    rintro ⟨s, w₁⟩ hstep
    rw [writeAllTurn]
    have hone := hR.trans hstep (hwrite w₁ (s.buf.drop s.pos))
    split_ifs with hpos
    · rcases hw : AsyncWrite.write w₁ (s.buf.drop s.pos) with ⟨n | _ | e, w₂⟩ <;> rw [hw] at hone
      · dsimp only
        split_ifs
        · exact .inr ⟨_, rfl, hone, trivial⟩
        · exact .inl ⟨_, rfl, hone⟩
      · exact .inr ⟨_, rfl, hone, hpos, hblock _ _ _ hw⟩
      · exact .inr ⟨_, rfl, hone, trivial⟩
    · exact .inr ⟨_, rfl, hstep, trivial⟩
  obtain ⟨r', hrun, hr'⟩ := writeAllLoop.run_spec hbody (s := (s, w)) (hR.refl w)
  obtain rfl := Outcome.returned.inj (hrun.symm.trans h)
  exact hr'

theorem writeAll_steps {R : ω → ω → Prop} (hR : Future.Steps R) (hwrite : ∀ w (buf : Bytes), R w
    (AsyncWrite.write w buf).2) {s : WriteAll} {w w' : ω} {r : Polled WriteAll Unit IoError}
    (h : writeAll.poll s w = .returned (r, w')) : R w w' :=
  (writeAll_blocked hR hwrite (P := fun _ => True) (fun _ _ _ _ => trivial) h).1

end MumbleBot
