import MumbleBot.Base.AsyncWrite
import MumbleBot.Connector
import MumbleBot.RecordFrames

/-!
# `lib.rs`: the connection

`run` chains its steps into one future: the handshake, the Version step, the Authenticate step, and
then six tasks side by side. Two of them meet on the TCP stream: `tcp_ping` puts a ping into a
channel for every tick of a timer, and the writer takes messages out of the channel, which other
holders of its sending end fill as well, and writes them one after another. The stream takes of a
write as much as it likes.

`Net` is the world these futures work on. What the engine, the stream and the timer will answer is
in it, and changes between polls in any way. The other four tasks have no part in it but that they
may fail at any time; that one of them panics is left out here.

## Main definitions

* `Net`, `NetChange` — the world, and what happens in it
* `tcpPing`, `tcpWriter`, `greet`, `comm` — the futures
* `Net.Safe` — nothing is lost, doubled or out of order
* `CommInv` — what holds of the connection, step by step

## Main results

* `comm_meets` — the contract of the connection
* `comm_run` — what holds after any run
* `comm_readBack` — what is sent can be read
* `comm_silent` — nothing is sent before the handshake is over
-/

namespace MumbleBot

/-! ### The world -/

/-- The tasks of `run` that have no part in what is sent over TCP. -/
inductive OtherTask where
  | udpPing
  | recvTasks
  | udpWriter
  deriving DecidableEq, Repr

/-- What the futures of `run` work on. -/
structure Net where
  /-- What the engine will answer. -/
  handshakes : List Handshake
  /-- What the stream will answer to writes; `wrote n` is room for `n` bytes. -/
  writes : List Written
  /-- What the stream has taken. -/
  sent : Bytes
  /-- What the stream has answered to the last write. This is only a record. -/
  answered : Option Written
  /-- The messages in the channel of `tcp_tx` and `tcp_rx`. -/
  tcpRx : List Bytes
  /-- All messages that have ever been put into the channel. This is only a record. -/
  submitted : List Bytes
  /-- Whether the channel takes a message of `tcp_ping`. -/
  room : Bool
  /-- The ticks of the timer that are due, each with the time on the clock, and its errors. -/
  ticks : List (Except String UInt64)
  /-- With what another task has ended. -/
  stopped : OtherTask → Option IoError

namespace Net

instance : TlsEngine Net where
  handshake w :=
    match w.handshakes with
    | [] => (.error .interrupted, w)
    | h :: hs => (h, { w with handshakes := hs })

/-- A write to the stream. -/
def write (w : Net) (buf : Bytes) : Written × Net :=
  match w.writes with
  | [] => (.wouldBlock, { w with answered := some .wouldBlock })
  | .wrote n :: as =>
    (.wrote (min n buf.length),
      { w with
        writes := as
        sent := w.sent ++ buf.take (min n buf.length)
        answered := some (.wrote (min n buf.length)) })
  | .wouldBlock :: as => (.wouldBlock, { w with writes := as, answered := some .wouldBlock })
  | .failed e :: as => (.failed e, { w with writes := as, answered := some (.failed e) })

/-- What a write answers is recorded. -/
theorem answered_write (w : Net) (buf : Bytes) :
    (w.write buf).2.answered = some (w.write buf).1 := by
  rw [write]
  split <;> rfl

instance : AsyncWrite Net where
  write := write
  sent w := w.sent
  write_wrote {w w' buf n} h := by
    rw [write] at h
    split at h <;> cases h
    exact ⟨Nat.min_le_right .., rfl⟩
  write_wouldBlock {w w' buf} h := by
    rw [write] at h
    split at h <;> cases h <;> rfl
  write_failed {w w' buf e} h := by
    rw [write] at h
    split at h <;> cases h
    rfl

end Net

/-- What happens in the world. -/
inductive NetChange where
  /-- The engine can go on, and will answer this. -/
  | handshake (h : Handshake)
  /-- The stream can take one more write, and will answer this. -/
  | write (answer : Written)
  /-- Another holder of `tcp_tx` sends a message. -/
  | send (msg : Bytes)
  /-- Whether `tcp_tx` has room. -/
  | room (b : Bool)
  /-- A tick of the timer of `tcp_ping` is due. -/
  | tick (t : Except String UInt64)
  /-- Another task ends. -/
  | stop (task : OtherTask) (e : IoError)

/-- The world after a change. -/
def Net.change : NetChange → Net → Net
  | .handshake h, w => { w with handshakes := w.handshakes ++ [h] }
  | .write answer, w => { w with writes := w.writes ++ [answer] }
  | .send msg, w => { w with tcpRx := w.tcpRx ++ [msg], submitted := w.submitted ++ [msg] }
  | .room b, w => { w with room := b }
  | .tick t, w => { w with ticks := w.ticks ++ [t] }
  | .stop task e, w => { w with stopped := Function.update w.stopped task (some e) }

/-! ### The tasks -/

/-- The ticks of `Timer::default().interval(..)`. -/
def interval : Future.Source Net UInt64 String where
  next w :=
    match w.ticks with
    | [] => .returned (.notReady, w)
    | .ok t :: ts => .returned (.item t, { w with ticks := ts })
    | .error e :: ts => .returned (.failed e, { w with ticks := ts })
  left w := w.ticks.length
  next_lt w t w' h := by
    split at h <;> cases h
    rename_i ts hticks
    simp [hticks]

/-- `tcp_rx`, whose sending end outlives it. -/
def tcpRx : Future.Source Net Bytes Unit where
  next w :=
    match w.tcpRx with
    | [] => .returned (.notReady, w)
    | msg :: msgs => .returned (.item msg, { w with tcpRx := msgs })
  left w := w.tcpRx.length
  next_lt w msg w' h := by
    split at h <;> cases h
    rename_i msgs hmsgs
    simp [hmsgs]

/-- `tx.send(msg)`: it waits while there is no room. The receiving end is not dropped before the
future is. -/
def send : Future Net Bytes Unit String where
  poll msg w :=
    if w.room then
      .returned (.ready (), { w with tcpRx := w.tcpRx ++ [msg], submitted := w.submitted ++ [msg] })
    else .returned (.notReady msg, w)

theorem send_keeps : send.Keeps interval.left := by
  intro msg w r w' h
  simp only [send] at h
  split_ifs at h <;> cases h <;> exact Nat.le_refl _

/-- `tcp_ping`. -/
def tcpPing : Future Net (Unit ⊕ Bytes) Unit IoError :=
  (Future.fold interval (fun _ timestamp => pingFrame timestamp) send send_keeps).mapErr .other

/-- What a write leaves alone. -/
structure Net.Writes (w w' : Net) : Prop where
  tcpRx : w'.tcpRx = w.tcpRx
  submitted : w'.submitted = w.submitted
  ticks : w'.ticks = w.ticks

theorem Net.steps_writes : Future.Steps Net.Writes where
  refl _ := ⟨rfl, rfl, rfl⟩
  trans h h' := ⟨h'.tcpRx.trans h.tcpRx, h'.submitted.trans h.submitted, h'.ticks.trans h.ticks⟩

theorem Net.writes_write (w : Net) (buf : Bytes) : w.Writes (AsyncWrite.write w buf).2 := by
  change w.Writes (w.write buf).2
  rw [Net.write]
  split <;> exact ⟨rfl, rfl, rfl⟩

/-- `write_all` of the writer, whose error is dropped. -/
def writeMsg : Future Net WriteAll Unit Unit := writeAll.mapErr fun _ => ()

/-- A poll of it does to the world what its writes do. -/
theorem writeMsg_steps {R : Net → Net → Prop} (hR : Future.Steps R)
    (hwrite : ∀ w (buf : Bytes), R w (AsyncWrite.write w buf).2) {s : WriteAll} {w w' : Net}
    {r : Polled WriteAll Unit Unit} (h : writeMsg.poll s w = .returned (r, w')) : R w w' := by
  obtain ⟨⟨r₁, w₁⟩, hpoll, h⟩ := Outcome.bind_eq_returned.mp h
  have hstep := writeAll_steps hR hwrite hpoll
  have hw : w₁ = w' := by
    cases r₁ <;> exact (Prod.mk.inj (Outcome.returned.inj h)).2
  rwa [← hw]

theorem writeMsg_keeps : writeMsg.Keeps tcpRx.left := fun _ _ _ _ h =>
  Nat.le_of_eq (congrArg List.length (writeMsg_steps Net.steps_writes Net.writes_write h).tcpRx)

/-- `tcp_writer`. -/
def tcpWriter : Future Net (Unit ⊕ WriteAll) Unit IoError :=
  (Future.fold tcpRx (fun _ msg => .returned (WriteAll.new msg)) writeMsg writeMsg_keeps).mapErr
    fun _ => .other "writing to tcp"

/-- A task of `run` that has no part in what is sent over TCP. It ends only with an error. -/
def otherTask (task : OtherTask) : Future Net Unit Unit IoError where
  poll _ w :=
    match w.stopped task with
    | some e => .returned (.failed e, w)
    | none => .returned (.notReady (), w)

/-- `join3(ping_tasks, recv_tasks, send_tasks)`. -/
def tasks :=
  (tcpPing.join (otherTask .udpPing)).join
    ((otherTask .recvTasks).join (tcpWriter.join (otherTask .udpWriter)))

/-- The state of `ping_tasks`: of each of the two, or what it was ready with. -/
abbrev PingState := ((Unit ⊕ Bytes) ⊕ Unit) × (Unit ⊕ Unit)

/-- The state of `send_tasks`. -/
abbrev SendState := ((Unit ⊕ WriteAll) ⊕ Unit) × (Unit ⊕ Unit)

/-- The state of `recv_tasks` and `send_tasks`. -/
abbrev RestState := (Unit ⊕ Unit) × (SendState ⊕ Unit × Unit)

/-- The state of all tasks. -/
abbrev TasksState := (PingState ⊕ Unit × Unit) × (RestState ⊕ Unit × Unit × Unit)

/-- The tasks before their first poll. -/
def startTasks : TasksState :=
  (.inl (.inl (.inl ()), .inl ()), .inl (.inl (), .inl (.inl (.inl ()), .inl ())))

/-- The state of the steps before the tasks: of the step that they are in. -/
abbrev GreetState := (MidHandshake ⊕ WriteAll) ⊕ WriteAll

/-- The handshake, the Version step and the Authenticate step; `text` is what an error of the
handshake is printed as, and `random` what `rand::random` gives. -/
def greet (text : SslError → String) (random : UInt16) : Future Net GreetState Unit IoError :=
  ((connectAsync.mapErr fun e => IoError.other (text e)).andThen
    (fun _ => WriteAll.new <$> versionFrame) writeAll).andThen
    (fun _ => WriteAll.new <$> authenticateFrame random) writeAll

/-- The state of `comm`: of the step that it is in. -/
abbrev CommState := GreetState ⊕ TasksState

/-- `comm`, from the handshake on. -/
def comm (text : SslError → String) (random : UInt16) :=
  (greet text random).andThen (fun _ => .returned startTasks) tasks

/-! ### The contract -/

/-- The frames that come before all others. -/
def greeting (random : UInt16) : List Frame :=
  [(0, messageBytes sentVersion), (2, messageBytes (sentAuthenticate random))]

namespace Net

/-- Nothing is lost, doubled or out of order: what the stream has taken is the greeting and then a
first part of what has been submitted. -/
def Safe (random : UInt16) (w : Net) : Prop :=
  w.sent <+: (greeting random).flatMap frameBytes ++ w.submitted.flatten

/-- Nothing has been taken out of the channel. -/
def Quiet (w : Net) : Prop := w.submitted = w.tcpRx

/-- Between two messages: those that are not in the channel any more have been sent. -/
def Between (random : UInt16) (w : Net) : Prop :=
  ∃ done, w.submitted = done ++ w.tcpRx ∧
    w.sent = (greeting random).flatMap frameBytes ++ done.flatten

/-- In the middle of a message. -/
def Within (random : UInt16) (s : WriteAll) (w : Net) : Prop :=
  ∃ done : List Bytes × Bytes, s.Writing (fun w => w.submitted = done.1 ++ done.2 :: w.tcpRx)
    ((greeting random).flatMap frameBytes ++ done.1.flatten) done.2 w

/-- What other tasks and other holders of `tcp_tx` change: what they put into the channel comes
behind what is there. -/
def Enqueues (w w' : Net) : Prop :=
  w'.sent = w.sent ∧ ∃ msgs : List Bytes, w'.tcpRx = w.tcpRx ++ msgs ∧
    w'.submitted = w.submitted ++ msgs

theorem steps_enqueues : Future.Steps Enqueues where
  refl w := ⟨rfl, [], by simp⟩
  trans := by
    rintro w w' w'' ⟨hsent, msgs, htcp, hsub⟩ ⟨hsent', msgs', htcp', hsub'⟩
    exact ⟨hsent'.trans hsent, msgs ++ msgs', by rw [htcp', htcp, List.append_assoc],
      by rw [hsub', hsub, List.append_assoc]⟩

theorem stable_safe (random : UInt16) : Future.Stable Enqueues (Safe random) := by
  rintro w w' ⟨hsent, msgs, -, hsub⟩ h
  rw [Safe, hsent, hsub, List.flatten_append, ← List.append_assoc]
  exact h.trans (List.prefix_append _ _)

theorem stable_quiet : Future.Stable Enqueues Quiet := by
  rintro w w' ⟨-, msgs, htcp, hsub⟩ h
  rw [Quiet, htcp, hsub, h]

theorem stable_between (random : UInt16) : Future.Stable Enqueues (Between random) := by
  rintro w w' ⟨hsent, msgs, htcp, hsub⟩ ⟨done, hdone, h⟩
  exact ⟨done, by rw [hsub, hdone, htcp, List.append_assoc], hsent.trans h⟩

theorem stable_within (random : UInt16) (s : WriteAll) :
    Future.Stable Enqueues (Within random s) := by
  rintro w w' ⟨hsent, msgs, htcp, hsub⟩ ⟨done, hkeeps, hbuf, hle, h⟩
  exact ⟨done, by rw [hsub, hkeeps, htcp, List.append_assoc, List.cons_append], hbuf, hle,
    hsent.trans h⟩

theorem stable_writing {held buf : Bytes} (s : WriteAll) :
    Future.Stable Enqueues (s.Writing Quiet held buf) := by
  rintro w w' h ⟨hkeeps, hbuf, hle, hsent⟩
  exact ⟨stable_quiet w w' h hkeeps, hbuf, hle, h.1.trans hsent⟩

theorem Between.safe {random : UInt16} {w : Net} (h : w.Between random) : w.Safe random := by
  obtain ⟨done, hsub, hsent⟩ := h
  rw [Safe, hsent, hsub, List.flatten_append, ← List.append_assoc]
  exact List.prefix_append _ _

theorem safe_of_take {random : UInt16} {w : Net} {done : List Bytes × Bytes} {n : ℕ}
    (hsub : w.submitted = done.1 ++ done.2 :: w.tcpRx)
    (hsent : w.sent = (greeting random).flatMap frameBytes ++ done.1.flatten ++ done.2.take n) :
    w.Safe random := by
  rw [Safe, hsent, hsub, List.flatten_append, List.flatten_cons, List.append_assoc]
  refine (List.prefix_append_right_inj _).mpr ((List.prefix_append_right_inj _).mpr ?_)
  exact (List.take_prefix n _).trans (List.prefix_append _ _)

theorem Within.safe {random : UInt16} {s : WriteAll} {w : Net} (h : w.Within random s) :
    w.Safe random := by
  obtain ⟨done, h⟩ := h
  exact safe_of_take h.keeps h.sent_eq

/-- What the writer leaves alone. -/
structure Submits (w w' : Net) : Prop where
  submitted : w'.submitted = w.submitted
  ticks : w'.ticks = w.ticks

theorem steps_submits : Future.Steps Submits where
  refl _ := ⟨rfl, rfl⟩
  trans h h' := ⟨h'.submitted.trans h.submitted, h'.ticks.trans h.ticks⟩

theorem Writes.submits {w w' : Net} (h : w.Writes w') : w.Submits w' := ⟨h.submitted, h.ticks⟩

theorem submits_of_eq {w w' : Net} (h : w' = w) : w.Submits w' := by
  rw [h]
  exact steps_submits.refl w

theorem enqueues_of_eq {w w' : Net} (h : w' = w) : w.Enqueues w' := by
  rw [h]
  exact steps_enqueues.refl w

end Net

open Net

theorem steps_eq : Future.Steps (fun w w' : Net => w' = w) where
  refl _ := rfl
  trans h h' := h'.trans h

theorem stable_eq (P : Net → Prop) : Future.Stable (fun w w' => w' = w) P := by
  rintro w _ rfl h
  exact h

/-- A task that has no part in it leaves everything as it is, and is never ready. -/
theorem otherTask_meets (task : OtherTask) : (otherTask task).Meets (fun w w' => w' = w)
    (fun _ _ => True) (fun _ _ => False) (fun _ _ => True) := by
  intro s w _
  rw [otherTask]
  dsimp only
  cases w.stopped task with
  | none => exact ⟨_, w, rfl, rfl, trivial⟩
  | some e => exact ⟨_, w, rfl, rfl, trivial⟩

/-! ### What is put into the channel -/

/-- A message that has been put into the channel, and by whom. -/
inductive Submission where
  | ping (timestamp : UInt64)
  | outside (msg : Bytes)

namespace Submission

/-- The message. -/
def bytes : Submission → Bytes
  | ping timestamp => frameBytes (3, messageBytes (sentPing timestamp))
  | outside msg => msg

/-- The time of a ping. -/
def ping? : Submission → Option UInt64
  | ping timestamp => some timestamp
  | outside _ => none

/-- The message, if it is not a ping. -/
def outside? : Submission → Option Bytes
  | ping _ => none
  | outside msg => some msg

end Submission

/-- The messages that are sent from outside. -/
def NetChange.send? : NetChange → Option Bytes
  | .send msg => some msg
  | _ => none

/-- The ticks of the timer. -/
def NetChange.tick? : NetChange → Option (Except String UInt64)
  | .tick t => some t
  | _ => none

namespace Net

/-- What has been put into the channel after the changes `ks`: the messages from outside, in their
order, and in its order a ping for every tick that has been taken, but for those in `waiting`. -/
def Pinged (ks : List NetChange) (waiting : List (Except String UInt64)) (w : Net) : Prop :=
  ∃ log : List Submission, w.submitted = log.map Submission.bytes ∧
    log.filterMap Submission.outside? = ks.filterMap NetChange.send? ∧
    ks.filterMap NetChange.tick? = (log.filterMap Submission.ping?).map .ok ++ waiting ++ w.ticks

/-- The same wherever `tcp_ping` is: there is one tick at most of which it has not made a ping. -/
def Logged (ks : List NetChange) (w : Net) : Prop :=
  ∃ waiting, waiting.length ≤ 1 ∧ w.Pinged ks waiting

variable {ks : List NetChange} {waiting : List (Except String UInt64)} {w w' : Net}

theorem Submits.pinged (hstep : w.Submits w') (h : w.Pinged ks waiting) : w'.Pinged ks waiting := by
  obtain ⟨log, hlog, hsends, hticks⟩ := h
  exact ⟨log, hstep.submitted.trans hlog, hsends, by rw [hstep.ticks, hticks]⟩

/-- What happens in the world adds to the changes what it adds to the channel and to the ticks. -/
theorem Pinged.change (h : w.Pinged ks waiting) (k : NetChange) :
    (Net.change k w).Pinged (ks ++ [k]) waiting := by
  obtain ⟨log, hlog, hsends, hticks⟩ := h
  cases k with
  | send msg =>
    refine ⟨log ++ [.outside msg], ?_, ?_, ?_⟩
    · simp only [Net.change, hlog, List.map_append]
      rfl
    · rw [List.filterMap_append, List.filterMap_append, hsends]
      rfl
    · rw [filterMap_snoc_of_none rfl, filterMap_snoc_of_none rfl]
      exact hticks
  | tick t =>
    refine ⟨log, hlog, ?_, ?_⟩
    · rwa [filterMap_snoc_of_none rfl]
    · rw [List.filterMap_append, hticks, List.append_assoc]
      rfl
  | _ =>
    refine ⟨log, hlog, ?_, ?_⟩
    · rwa [filterMap_snoc_of_none rfl]
    · rwa [filterMap_snoc_of_none rfl]

end Net

/-- What holds of `tcp_ping`: it waits for a tick, or with the ping of a tick that it has taken. -/
def TcpPingInv (ks : List NetChange) : Unit ⊕ Bytes → Net → Prop :=
  Sum.elim (fun _ => Pinged ks []) fun msg w =>
    ∃ timestamp, msg = (Submission.ping timestamp).bytes ∧ w.Pinged ks [.ok timestamp]

theorem TcpPingInv.logged {ks : List NetChange} {s : Unit ⊕ Bytes} {w : Net}
    (h : TcpPingInv ks s w) : w.Logged ks := by
  rcases s with _ | msg
  · exact ⟨[], Nat.zero_le 1, h⟩
  · obtain ⟨timestamp, -, h⟩ := h
    exact ⟨[.ok timestamp], Nat.le_refl 1, h⟩

theorem stable_tcpPingInv {ks : List NetChange} (s : Unit ⊕ Bytes) :
    Future.Stable Submits (TcpPingInv ks s) := by
  rcases s with _ | msg
  · exact fun w w' hstep h => hstep.pinged h
  · rintro w w' hstep ⟨timestamp, rfl, h⟩
    exact ⟨timestamp, rfl, hstep.pinged h⟩

theorem TcpPingInv.change {ks : List NetChange} {s : Unit ⊕ Bytes} {w : Net}
    (h : TcpPingInv ks s w) (k : NetChange) : TcpPingInv (ks ++ [k]) s (Net.change k w) := by
  rcases s with _ | msg
  · exact Pinged.change h k
  · obtain ⟨timestamp, rfl, h⟩ := h
    exact ⟨timestamp, rfl, h.change k⟩

/-- `tcp_ping` puts a ping into the channel for every tick, and does nothing else. -/
theorem tcpPing_meets (ks : List NetChange) :
    tcpPing.Meets Enqueues (TcpPingInv ks) (fun _ _ => False) (fun _ => Logged ks) := by
  refine Future.Meets.mapErr (Future.Meets.fold send_keeps steps_enqueues ?_ ?_)
  · rintro _ w ⟨timestamp, rfl, log, hlog, hsends, hticks⟩
    simp only [send]
    split_ifs
    · refine ⟨_, _, rfl, ⟨rfl, [_], rfl, rfl⟩, log ++ [.ping timestamp], ?_, ?_, ?_⟩
      · simp only [hlog, List.map_append]
        rfl
      · simp [hsends, Submission.outside?]
      · simp [hticks, Submission.ping?]
    · exact ⟨_, w, rfl, steps_enqueues.refl w, timestamp, rfl, log, hlog, hsends, hticks⟩
  · rintro _ w ⟨log, hlog, hsends, hticks⟩
    simp only [interval]
    rcases hdue : w.ticks with _ | ⟨e | timestamp, ts⟩
    · exact ⟨steps_enqueues.refl w, log, hlog, hsends, hticks⟩
    · exact ⟨⟨rfl, [], by simp⟩, [.error e], Nat.le_refl 1, log, hlog, hsends,
        by simp [hticks, hdue]⟩
    · refine ⟨⟨rfl, [], by simp⟩, Outcome.ends_false_iff.mpr ⟨_, pingFrame_eq timestamp, ?_⟩⟩
      exact ⟨timestamp, rfl, log, hlog, hsends, by simp [hticks, hdue]⟩

/-- The writer writes a message whole before it takes the next one. -/
theorem writeMsg_meets (random : UInt16) : writeMsg.Meets Submits (Within random)
    (fun _ => Between random) (fun _ => Safe random) := by
  refine Future.Meets.mapErr ((Future.Meets.exists fun done : List Bytes × Bytes =>
    writeAll_meets steps_writes writes_write
      (P := fun w => w.submitted = done.1 ++ done.2 :: w.tcpRx) ?_
      ((greeting random).flatMap frameBytes ++ done.1.flatten) done.2).mono ?_ ?_ ?_)
  · intro w w' hstep h
    rw [hstep.submitted, h, hstep.tcpRx]
  · exact fun _ _ h => h.submits
  · rintro _ w ⟨done, hsub, hsent⟩
    refine ⟨done.1 ++ [done.2], by simpa using hsub, ?_⟩
    rw [List.flatten_append, List.flatten_singleton, ← List.append_assoc]
    exact hsent
  · rintro _ w ⟨done, hsub, n, hsent⟩
    exact safe_of_take hsub hsent

theorem tcpWriter_meets (random : UInt16) : tcpWriter.Meets Submits
    (Sum.elim (fun _ => Between random) (Within random)) (fun _ _ => False)
    (fun _ => Safe random) := by
  refine Future.Meets.mapErr
    (Future.Meets.fold writeMsg_keeps steps_submits (writeMsg_meets random) ?_)
  rintro _ w ⟨done, hsub, hsent⟩
  simp only [tcpRx]
  cases hmsgs : w.tcpRx with
  | nil => exact ⟨⟨rfl, rfl⟩, done, by rw [hsub], hsent⟩
  | cons msg msgs =>
    rw [hmsgs] at hsub
    exact ⟨⟨rfl, rfl⟩, (done, msg), hsub, rfl, Nat.zero_le _, hsent.trans (List.append_nil _).symm⟩

/-- What holds of the writer. -/
def WriterInv (random : UInt16) : Unit ⊕ WriteAll → Net → Prop :=
  Sum.elim (fun _ => Between random) (Within random)

theorem WriterInv.safe {random : UInt16} {s : Unit ⊕ WriteAll} {w : Net}
    (h : WriterInv random s w) : w.Safe random := by
  rcases s with _ | s
  · exact Between.safe h
  · exact Within.safe h

theorem stable_writerInv (random : UInt16) (s : Unit ⊕ WriteAll) :
    Future.Stable Enqueues (WriterInv random s) := by
  rcases s with _ | s
  · exact stable_between random
  · exact stable_within random s

theorem stable_true {R : Net → Net → Prop} : Future.Stable R fun _ => True :=
  fun _ _ _ _ => trivial

/-- What holds of `ping_tasks`. -/
def PingInv (ks : List NetChange) : PingState → Net → Prop :=
  Future.Both (TcpPingInv ks) fun _ _ => True

/-- What holds of `send_tasks`: what holds of the writer. -/
def SendInv (random : UInt16) : SendState → Net → Prop :=
  Future.Both (WriterInv random) fun _ _ => True

/-- What holds of `recv_tasks` and `send_tasks`. -/
def RestInv (random : UInt16) : RestState → Net → Prop :=
  Future.Both (fun _ _ => True) (SendInv random)

/-- What holds of all tasks. -/
def TasksInv (random : UInt16) (ks : List NetChange) : TasksState → Net → Prop :=
  Future.Both (PingInv ks) (RestInv random)

theorem PingInv.logged {ks : List NetChange} {s : PingState} {w : Net} (h : PingInv ks s w) :
    w.Logged ks := by
  obtain ⟨t, ht⟩ := Future.Both.left h
  exact ht.logged

theorem SendInv.safe {random : UInt16} {s : SendState} {w : Net} (h : SendInv random s w) :
    w.Safe random := by
  rcases s with ⟨s | _, t | _⟩
  · exact WriterInv.safe h.1
  all_goals exact h.elim

theorem RestInv.safe {random : UInt16} {s : RestState} {w : Net} (h : RestInv random s w) :
    w.Safe random := by
  obtain ⟨t, ht⟩ := Future.Both.right h
  exact SendInv.safe ht

theorem TasksInv.safe {random : UInt16} {ks : List NetChange} {s : TasksState} {w : Net}
    (h : TasksInv random ks s w) : w.Safe random := by
  obtain ⟨t, ht⟩ := Future.Both.right h
  exact RestInv.safe ht

theorem TasksInv.logged {random : UInt16} {ks : List NetChange} {s : TasksState} {w : Net}
    (h : TasksInv random ks s w) : w.Logged ks := by
  obtain ⟨t, ht⟩ := Future.Both.left h
  exact PingInv.logged ht

theorem stable_pingInv {ks : List NetChange} (s : PingState) :
    Future.Stable Submits (PingInv ks s) :=
  Future.stable_both stable_tcpPingInv (fun _ => stable_true) s

theorem stable_restInv (random : UInt16) (s : RestState) :
    Future.Stable Enqueues (RestInv random s) :=
  Future.stable_both (fun _ => stable_true)
    (Future.stable_both (stable_writerInv random) fun _ => stable_true) s

/-- The tasks side by side: `tcp_ping` and the writer go on from where they were, whatever the
others do. -/
theorem tasks_meets (random : UInt16) (ks : List NetChange) :
    tasks.Meets (fun _ _ => True) (TasksInv random ks) (fun _ _ => False)
      (fun _ w => w.Safe random ∧ w.Logged ks) := by
  have hping : (tcpPing.join (otherTask .udpPing)).Meets Enqueues (PingInv ks) (fun _ _ => False)
      fun _ => Logged ks :=
    Future.Meets.join_forever steps_enqueues steps_enqueues steps_eq (fun _ _ h => h)
      (fun _ _ => enqueues_of_eq) (tcpPing_meets ks) (otherTask_meets .udpPing)
      (fun _ => stable_eq _) (fun _ => stable_true) (fun _ _ _ h _ => h)
      fun _ _ _ _ h => h.logged
  have hsend : (tcpWriter.join (otherTask .udpWriter)).Meets Submits (SendInv random)
      (fun _ _ => False) fun _ => Safe random :=
    Future.Meets.join_forever steps_submits steps_submits steps_eq (fun _ _ h => h)
      (fun _ _ => submits_of_eq) (tcpWriter_meets random)
      (otherTask_meets .udpWriter) (fun _ => stable_eq _) (fun _ => stable_true)
      (fun _ _ _ h _ => h) fun _ _ _ _ h => WriterInv.safe h
  have hrest : ((otherTask .recvTasks).join (tcpWriter.join (otherTask .udpWriter))).Meets Submits
      (RestInv random) (fun _ _ => False) fun _ => Safe random :=
    Future.Meets.join_forever steps_submits steps_eq steps_submits
      (fun _ _ => submits_of_eq) (fun _ _ h => h) (otherTask_meets .recvTasks) hsend
      (fun _ => stable_true) (fun _ => stable_eq _) (fun _ _ _ _ h => SendInv.safe h)
      fun _ _ _ h _ => h
  exact Future.Meets.join_forever Future.steps_true steps_enqueues steps_submits
    (fun _ _ _ => trivial) (fun _ _ _ => trivial) hping hrest stable_pingInv
    (stable_restInv random) (fun _ _ _ h ht => ⟨RestInv.safe ht, h⟩)
    fun _ _ _ h hs => ⟨h, PingInv.logged hs⟩

/-! ### One step after the other -/

/-- The handshake: nothing has been sent. -/
def ConnectInv (inner : MidHandshake) (w : Net) : Prop := inner ≠ none ∧ w.Quiet ∧ w.sent = []

/-- The Version step. -/
def VersionInv : WriteAll → Net → Prop :=
  WriteAll.Writing Quiet [] (frameBytes (0, messageBytes sentVersion))

/-- The Authenticate step. -/
def AuthenticateInv (random : UInt16) : WriteAll → Net → Prop :=
  WriteAll.Writing Quiet (frameBytes (0, messageBytes sentVersion))
    (frameBytes (2, messageBytes (sentAuthenticate random)))

/-- What holds before the tasks, step by step. -/
def GreetInv (random : UInt16) : GreetState → Net → Prop :=
  Sum.elim (Sum.elim ConnectInv VersionInv) (AuthenticateInv random)

/-- What holds of `comm`. -/
def CommInv (random : UInt16) (ks : List NetChange) : CommState → Net → Prop :=
  Sum.elim (fun s w => GreetInv random s w ∧ w.Pinged ks []) (TasksInv random ks)

theorem flatMap_greeting (random : UInt16) : (greeting random).flatMap frameBytes
    = frameBytes (0, messageBytes sentVersion)
      ++ frameBytes (2, messageBytes (sentAuthenticate random)) := by
  simp [greeting]

/-- What has been sent before the tasks is a part of the greeting. -/
theorem safe_of_prefix {random : UInt16} {w : Net}
    (h : w.sent <+: (greeting random).flatMap frameBytes) : w.Safe random :=
  h.trans (List.prefix_append _ _)

theorem versionBroken_safe {random : UInt16} {w : Net}
    (h : WriteAll.Broken Quiet [] (frameBytes (0, messageBytes sentVersion)) w) :
    w.Safe random := by
  obtain ⟨-, n, hsent⟩ := h
  change w.sent = _ at hsent
  refine safe_of_prefix ?_
  rw [flatMap_greeting, hsent, List.nil_append]
  exact (List.take_prefix n _).trans (List.prefix_append _ _)

theorem authenticateBroken_safe {random : UInt16} {w : Net}
    (h : WriteAll.Broken Quiet (frameBytes (0, messageBytes sentVersion))
      (frameBytes (2, messageBytes (sentAuthenticate random))) w) : w.Safe random := by
  obtain ⟨-, n, hsent⟩ := h
  change w.sent = _ at hsent
  refine safe_of_prefix ?_
  rw [flatMap_greeting, hsent]
  exact (List.prefix_append_right_inj _).mpr (List.take_prefix n _)

theorem Writing.broken {held buf : Bytes} {s : WriteAll} {w : Net}
    (h : s.Writing Quiet held buf w) : WriteAll.Broken Quiet held buf w :=
  ⟨h.keeps, s.pos, h.sent_eq⟩

theorem GreetInv.safe {random : UInt16} {s : GreetState} {w : Net} (h : GreetInv random s w) :
    w.Safe random := by
  rcases s with (s | s) | s
  · exact safe_of_prefix (h.2.2 ▸ List.nil_prefix)
  · exact versionBroken_safe (Writing.broken h)
  · exact authenticateBroken_safe (Writing.broken h)

theorem CommInv.safe {random : UInt16} {ks : List NetChange} {s : CommState} {w : Net}
    (h : CommInv random ks s w) : w.Safe random := by
  rcases s with s | s
  · exact GreetInv.safe h.1
  · exact TasksInv.safe h

theorem CommInv.logged {random : UInt16} {ks : List NetChange} {s : CommState} {w : Net}
    (h : CommInv random ks s w) : w.Logged ks := by
  rcases s with s | s
  · exact ⟨[], Nat.zero_le 1, h.2⟩
  · exact TasksInv.logged h

theorem stable_greetInv (random : UInt16) (s : GreetState) :
    Future.Stable Enqueues (GreetInv random s) := by
  rcases s with (s | s) | s
  · rintro w w' hstep ⟨hinner, hquiet, hsent⟩
    exact ⟨hinner, stable_quiet w w' hstep hquiet, hstep.1.trans hsent⟩
  · exact stable_writing s
  · exact stable_writing s

/-- What the engine changes. -/
def Handshakes (w w' : Net) : Prop := w.Writes w' ∧ w'.sent = w.sent

theorem steps_handshakes : Future.Steps Handshakes where
  refl w := ⟨steps_writes.refl w, rfl⟩
  trans h h' := ⟨steps_writes.trans h.1 h'.1, h'.2.trans h.2⟩

theorem handshakes_handshake (w : Net) : Handshakes w (TlsEngine.handshake w).2 := by
  simp only [TlsEngine.handshake]
  rcases w.handshakes with _ | ⟨h, hs⟩ <;> exact ⟨⟨rfl, rfl, rfl⟩, rfl⟩

/-- **The contract of the steps before the tasks**: when they are done, the greeting has been
sent. -/
theorem greet_meets (text : SslError → String) (random : UInt16) :
    (greet text random).Meets Submits (GreetInv random) (fun _ => Between random)
      (fun _ => Safe random) := by
  have hconnect : (connectAsync.mapErr fun e => IoError.other (text e)).Meets Submits
      ConnectInv (fun _ w => w.Quiet ∧ w.sent = []) (fun _ => Safe random) := by
    refine Future.Meets.mapErr ((connectAsync_meets (P := fun w : Net => w.Quiet ∧ w.sent = [])
      steps_handshakes handshakes_handshake ?_).mono ?_ (fun _ _ h => h) ?_)
    · rintro w w' ⟨hstep, hsent⟩ ⟨hquiet, hnil⟩
      exact ⟨by rw [Quiet, hstep.tcpRx, hstep.submitted, hquiet], hsent.trans hnil⟩
    · exact fun w w' h => h.1.submits
    · exact fun _ w h => safe_of_prefix (h.2 ▸ List.nil_prefix)
  have hwrites : ∀ held buf, (writeAll : Future Net WriteAll Unit IoError).Meets Submits
      (WriteAll.Writing Quiet held buf) (fun _ w => w.Quiet ∧ w.sent = held ++ buf)
      (fun _ => WriteAll.Broken Quiet held buf) := by
    intro held buf
    refine (writeAll_meets steps_writes writes_write ?_ held buf).mono
      (fun _ _ h => h.submits) (fun _ _ h => h) fun _ _ h => h
    intro w w' hstep hquiet
    rw [Quiet, hstep.tcpRx, hstep.submitted, hquiet]
  have hversion := hconnect.andThen steps_submits (f := fun _ => WriteAll.new <$> versionFrame)
    ((hwrites [] (frameBytes (0, messageBytes sentVersion))).mono (fun _ _ h => h)
      (fun _ _ h => h) fun _ _ h => versionBroken_safe h) (by
        rintro _ w ⟨hquiet, hsent⟩
        refine ⟨.new (frameBytes (0, messageBytes sentVersion)), ?_, hquiet, rfl, Nat.zero_le _,
          hsent⟩
        rw [versionFrame_eq]
        rfl)
  have hauthenticate := hversion.andThen steps_submits
    (f := fun _ => WriteAll.new <$> authenticateFrame random)
    ((hwrites (frameBytes (0, messageBytes sentVersion))
      (frameBytes (2, messageBytes (sentAuthenticate random)))).mono (fun _ _ h => h)
      (fun _ _ h => h) fun _ _ h => authenticateBroken_safe h) (by
        rintro _ w ⟨hquiet, hsent⟩
        refine ⟨.new (frameBytes (2, messageBytes (sentAuthenticate random))), ?_, hquiet, rfl,
          Nat.zero_le _, hsent.trans (List.append_nil _).symm⟩
        rw [authenticateFrame_eq]
        rfl)
  refine hauthenticate.mono (fun _ _ h => h) ?_ fun _ _ h => h
  rintro _ w ⟨hquiet, hsent⟩
  refine ⟨[], hquiet, ?_⟩
  rw [hsent, flatMap_greeting, List.flatten_nil, List.append_nil]

/-- **The contract of the connection**, for every list of changes that may have happened. -/
theorem comm_meets (text : SslError → String) (random : UInt16) (ks : List NetChange) :
    (comm text random).Meets (fun _ _ => True) (CommInv random ks) (fun _ _ => False)
      (fun _ w => w.Safe random ∧ w.Logged ks) := by
  have hgreet : (greet text random).Meets (fun _ _ => True)
      (fun s w => GreetInv random s w ∧ w.Pinged ks [])
      (fun _ w => w.Between random ∧ w.Pinged ks []) fun _ w => w.Safe random ∧ w.Logged ks :=
    ((greet_meets text random).frame fun _ _ hstep h => hstep.pinged h).mono
      (fun _ _ _ => trivial) (fun _ _ h => h) fun _ _ h => ⟨h.1, [], Nat.zero_le 1, h.2⟩
  refine hgreet.andThen Future.steps_true (tasks_meets random ks) ?_
  rintro _ w ⟨hbetween, hpinged⟩
  exact ⟨startTasks, rfl, ⟨hpinged, trivial⟩, trivial, hbetween, trivial⟩

/-! ### Whole runs -/

/-- The world before anything has happened. -/
def Net.start : Net := ⟨[], [], [], none, [], [], true, [], fun _ => none⟩

/-- `comm` before its first poll; `first` is what `connect` has made of the handshake. -/
def startComm (first : Handshake) : CommState := .inl (.inl (.inl (some first)))

theorem change_send_mem {es : List (Future.TaskEvent NetChange)} {msg : Bytes}
    (h : msg ∈ (es.filterMap Future.TaskEvent.change?).filterMap NetChange.send?) :
    .change (.send msg) ∈ es := by
  obtain ⟨k, hk, hsend⟩ := List.mem_filterMap.mp h
  obtain ⟨e, he, hchange⟩ := List.mem_filterMap.mp hk
  cases e with
  | poll => cases hchange
  | change k' =>
    obtain rfl := Option.some.inj hchange
    cases k' with
    | send msg' =>
      obtain rfl := Option.some.inj hsend
      exact he
    | _ => cases hsend

/-- Whatever happens in the world, the other holders of `tcp_tx` are the only ones to touch what the
writer is about. -/
theorem enqueues_change (k : NetChange) (w : Net) : Enqueues w (Net.change k w) := by
  cases k with
  | send msg => exact ⟨rfl, [msg], rfl, rfl⟩
  | _ => exact ⟨rfl, [], (List.append_nil _).symm, (List.append_nil _).symm⟩

theorem Net.Logged.change {ks : List NetChange} {w : Net} (h : w.Logged ks) (k : NetChange) :
    (Net.change k w).Logged (ks ++ [k]) := by
  obtain ⟨waiting, hle, h⟩ := h
  exact ⟨waiting, hle, h.change k⟩

theorem CommInv.change {random : UInt16} {ks : List NetChange} {s : CommState} {w : Net}
    (h : CommInv random ks s w) (k : NetChange) :
    CommInv random (ks ++ [k]) s (Net.change k w) := by
  have hstep := enqueues_change k w
  rcases s with s | s
  · exact ⟨stable_greetInv random s _ _ hstep h.1, h.2.change k⟩
  · exact Future.Both.mono h
      (fun _ hping => Future.Both.mono hping (fun _ hs => hs.change k) fun _ _ => trivial)
      fun t => stable_restInv random t _ _ hstep

/-- What has been promised after some changes is promised after one more. -/
theorem satisfies_change {α : Type} {random : UInt16} (ks : List NetChange) (k : NetChange)
    (r : Polled CommState α IoError) (w : Net)
    (h : r.Satisfies (CommInv random ks) (fun _ _ => False)
      (fun _ w => w.Safe random ∧ w.Logged ks) w) :
    r.Satisfies (CommInv random (ks ++ [k])) (fun _ _ => False)
      (fun _ w => w.Safe random ∧ w.Logged (ks ++ [k])) (Net.change k w) :=
  h.mono (fun _ hs => hs.change k) (fun _ h => h) fun _ h =>
    ⟨stable_safe random _ _ (enqueues_change k w) h.1, h.2.change k⟩

/-- What holds at the end of a run. -/
theorem comm_task (text : SslError → String) (random : UInt16) (first : Handshake)
    (es : List (Future.TaskEvent NetChange)) :
    ∃ r w, ((comm text random).task Net.change).run (.notReady (startComm first), .start) es
        = .returned (r, w) ∧
      r.Satisfies (CommInv random (es.filterMap Future.TaskEvent.change?)) (fun _ _ => False)
        (fun _ w => w.Safe random ∧ w.Logged (es.filterMap Future.TaskEvent.change?)) w := by
  have hstart : CommInv random [] (startComm first) .start :=
    ⟨⟨nofun, rfl, rfl⟩, [], rfl, rfl, rfl⟩
  exact Future.Meets.run (comm_meets text random) (fun ks k _ => satisfies_change ks k)
    (r := .notReady (startComm first)) hstart

theorem safe_logged_of_satisfies {α : Type} {random : UInt16} {ks : List NetChange}
    {r : Polled CommState α IoError} {w : Net}
    (h : r.Satisfies (CommInv random ks) (fun _ _ => False)
      (fun _ w => w.Safe random ∧ w.Logged ks) w) : w.Safe random ∧ w.Logged ks := by
  cases r with
  | notReady s => exact ⟨CommInv.safe h, CommInv.logged h⟩
  | ready a => exact h.elim
  | failed e => exact h

/-- **The connection over any run**, however polls and changes follow each other, whatever the
handshake, the stream, the timer and the other tasks do, and whoever else sends messages. It does
not panic and never ends well. What has been submitted are the messages from outside and a ping for
every tick of the timer, each once and in order, but for the ticks that are still due and one at
most that has been taken; and what the stream has taken is the greeting and then a first part of
what has been submitted, byte by byte: nothing is lost, doubled, reordered or mixed. -/
theorem comm_run (text : SslError → String) (random : UInt16) (first : Handshake)
    (es : List (Future.TaskEvent NetChange)) :
    ∃ r w, ((comm text random).task Net.change).run (.notReady (startComm first), .start) es
        = .returned (r, w) ∧
      (∀ a, r ≠ .ready a) ∧
      w.Logged (es.filterMap Future.TaskEvent.change?) ∧
      w.sent <+: (greeting random).flatMap frameBytes ++ w.submitted.flatten := by
  obtain ⟨r, w, hrun, hr⟩ := comm_task text random first es
  obtain ⟨hsafe, hlogged⟩ := safe_logged_of_satisfies hr
  refine ⟨r, w, hrun, ?_, hlogged, hsafe⟩
  rintro a rfl
  exact hr

/-! ### What is sent can be read -/

/-- A first part of a stream of frames is a stream of the first frames and part of one more. -/
theorem exists_frames_of_prefix {frames : List Frame} {bs : Bytes}
    (h : bs <+: frames.flatMap frameBytes) (hlen : ∀ frame ∈ frames, frame.2.length < 2 ^ 32) :
    ∃ done rest last part, frames = done ++ rest ∧ bs = done.flatMap frameBytes ++ part ∧
      (∀ next ∈ rest.head?, part.length < (frameBytes next).length) ∧
      last.2.length < 2 ^ 32 ∧ part <+: frameBytes last ∧ part ≠ frameBytes last := by
  induction frames generalizing bs with
  | nil =>
    obtain rfl := List.prefix_nil.mp h
    exact ⟨[], [], (0, []), [], rfl, rfl, nofun, by decide, List.nil_prefix, by decide⟩
  | cons frame frames ih =>
    rw [List.forall_mem_cons] at hlen
    rw [List.flatMap_cons] at h
    rcases Nat.lt_or_ge bs.length (frameBytes frame).length with hlt | hle
    · refine ⟨[], frame :: frames, frame, bs, rfl, rfl, ?_, hlen.1, ?_, ?_⟩
      · rintro next ⟨⟩
        exact hlt
      · exact List.prefix_of_prefix_length_le h (List.prefix_append _ _) (Nat.le_of_lt hlt)
      · rintro rfl
        exact Nat.lt_irrefl _ hlt
    · obtain ⟨q, rfl, hq⟩ := exists_eq_append_of_prefix h hle
      obtain ⟨done, rest, last, part, rfl, rfl, hlast⟩ := ih hq hlen.2
      exact ⟨frame :: done, rest, last, part, rfl, by simp, hlast⟩

/-- A frame that the client would read, and survive. -/
def Acceptable (pb : CodedInputStream) (frame : Frame) : Prop :=
  frame.2.length < 2 ^ 32 ∧ Accepted pb frame

variable {pb : CodedInputStream}

theorem acceptable_greeting (hpb : ReadsWireFormat pb) (random : UInt16) :
    ∀ frame ∈ greeting random, Acceptable pb frame := by
  have hversion : (messageBytes sentVersion).length < 2 ^ 32 := by
    rw [length_sentVersion]
    decide
  rw [greeting, List.forall_mem_cons, List.forall_mem_singleton]
  exact ⟨⟨hversion, parses_messageBytes hpb hversion fieldKinds_version⟩,
    Nat.lt_of_le_of_lt (length_sentAuthenticate_le random) (by decide), trivial⟩

theorem acceptable_ping (hpb : ReadsWireFormat pb) (timestamp : UInt64) :
    Acceptable pb (3, messageBytes (sentPing timestamp)) := by
  have hlen : (messageBytes (sentPing timestamp)).length < 2 ^ 32 :=
    Nat.lt_of_le_of_lt (length_sentPing_le timestamp) (by decide)
  exact ⟨hlen, parses_messageBytes hpb hlen fieldKinds_ping⟩

theorem exists_submission_frames (hpb : ReadsWireFormat pb) {log : List Submission}
    (h : ∀ msg ∈ log.filterMap Submission.outside?, ∃ frame, msg = frameBytes frame ∧
      Acceptable pb frame) :
    ∃ frames : List Frame, log.map Submission.bytes = frames.map frameBytes ∧
      ∀ frame ∈ frames, Acceptable pb frame := by
  induction log with
  | nil => exact ⟨[], rfl, by simp⟩
  | cons submission log ih =>
    cases submission with
    | ping timestamp =>
      obtain ⟨frames, hframes, hacc⟩ := ih h
      exact ⟨(3, messageBytes (sentPing timestamp)) :: frames, by simp [hframes, Submission.bytes],
        List.forall_mem_cons.mpr ⟨acceptable_ping hpb timestamp, hacc⟩⟩
    | outside msg =>
      have hlog : (Submission.outside msg :: log).filterMap Submission.outside?
          = msg :: log.filterMap Submission.outside? := rfl
      rw [hlog, List.forall_mem_cons] at h
      obtain ⟨⟨frame, rfl, hframe⟩, hrest⟩ := h
      obtain ⟨frames, hframes, hacc⟩ := ih hrest
      exact ⟨frame :: frames, by simp [hframes, Submission.bytes],
        List.forall_mem_cons.mpr ⟨hframe, hacc⟩⟩

variable {K M : Type} [HashMap M UInt64 Remote] [CryptState K]

/-- **What is sent can be read**, by the loop with which the client reads itself. If the messages
from outside are frames as well, then after any run what the stream has taken is a stream of frames,
the greeting first; however it is cut, the loop gets all of them that are whole, in order, and does
not panic. -/
theorem comm_readBack (hpb : ReadsWireFormat pb) (text : SslError → String) (random : UInt16)
    (first : Handshake) {es : List (Future.TaskEvent NetChange)}
    (hes : ∀ msg, .change (.send msg) ∈ es → ∃ frame, msg = frameBytes frame ∧
      Acceptable pb frame) :
    ∃ r w frames, ((comm text random).task Net.change).run (.notReady (startComm first), .start) es
        = .returned (r, w) ∧ w.submitted = frames.map frameBytes ∧
      ∀ (pieces : List Bytes) (s : Session M × K), pieces.flatten = w.sent →
        ∃ done rest part s', greeting random ++ frames = done ++ rest ∧
          w.sent = done.flatMap frameBytes ++ part ∧
          (∀ next ∈ rest.head?, part.length < (frameBytes next).length) ∧
          (tcpRecvLoop pb).run ⟨pieces, s.1, s.2, []⟩
            = .returned (.unexpectedEof, ⟨[], (s' : Session M × K).1, s'.2, done⟩) := by
  obtain ⟨r, w, hrun, hr⟩ := comm_task text random first es
  obtain ⟨hsafe, -, -, log, hlog, hsends, -⟩ := safe_logged_of_satisfies hr
  have houtside : ∀ msg ∈ log.filterMap Submission.outside?, ∃ frame, msg = frameBytes frame ∧
      Acceptable pb frame := by
    intro msg hmsg
    rw [hsends] at hmsg
    exact hes msg (change_send_mem hmsg)
  obtain ⟨frames, hframes, hacc⟩ := exists_submission_frames hpb houtside
  refine ⟨r, w, frames, hrun, hlog.trans hframes, fun pieces s hpieces => ?_⟩
  have hall : ∀ frame ∈ greeting random ++ frames, Acceptable pb frame := by
    rw [List.forall_mem_append]
    exact ⟨acceptable_greeting hpb random, hacc⟩
  have hsent : w.sent <+: (greeting random ++ frames).flatMap frameBytes := by
    rw [Safe, hlog, hframes] at hsafe
    rwa [List.flatMap_append, List.flatMap_def (f := frameBytes) (l := frames)]
  obtain ⟨done, rest, last, part, hdone, hpart, hnext, hlast, hprefix, hne⟩ :=
    exists_frames_of_prefix hsent fun frame hframe => (hall frame hframe).1
  have hdoneAcc : ∀ frame ∈ done, Acceptable pb frame := fun frame hframe =>
    hall frame (hdone ▸ List.mem_append_left _ hframe)
  have hreturns : ((dispatcher pb).run s done).Returns :=
    (Machine.returns_run_iff (fun s frame => returns_dispatcher_step_iff pb frame s) s done).mpr
      fun frame hframe => (hdoneAcc frame hframe).2
  obtain ⟨s', hs'⟩ := hreturns
  refine ⟨done, rest, part, s', hdone, hpart, hnext, ?_⟩
  have hlen : ∀ frame ∈ last :: done, frame.2.length < 2 ^ 32 :=
    List.forall_mem_cons.mpr ⟨hlast, fun frame hframe => (hdoneAcc frame hframe).1⟩
  rw [tcpRecvLoop_run pb hlen hprefix hne (hpieces.trans hpart), hs']
  rfl

/-- Somebody sends an empty ping before the handshake is over, and the stream takes ninety bytes. -/
theorem comm_readBack_one :
    ∃ r w frames, ((comm (fun _ => "ssl") 0).task Net.change).run
        (.notReady (startComm (.error .interrupted)), .start)
        [.change (.send [0, 3, 0, 0, 0, 0]), .poll, .change (.handshake (.ok ())),
          .change (.write (.wrote 90)), .poll]
        = .returned (r, w) ∧ w.submitted = frames.map frameBytes ∧
      ∀ (pieces : List Bytes) (s : Session (AssocMap UInt64 Remote) × TagCrypt),
        pieces.flatten = w.sent → ∃ done rest part s', greeting 0 ++ frames = done ++ rest ∧
          w.sent = done.flatMap frameBytes ++ part ∧
          (∀ next ∈ rest.head?, part.length < (frameBytes next).length) ∧
          (tcpRecvLoop wireFormat).run ⟨pieces, s.1, s.2, []⟩
            = .returned (.unexpectedEof,
                ⟨[], (s' : Session (AssocMap UInt64 Remote) × TagCrypt).1, s'.2, done⟩) := by
  refine comm_readBack readsWireFormat (fun _ => "ssl") 0 (.error .interrupted) fun msg hmsg => ?_
  obtain rfl : msg = [0, 3, 0, 0, 0, 0] := by simpa using hmsg
  exact ⟨(3, []), by decide, by decide, parses_nil _⟩

/-! ### Before the handshake is over -/

/-- The engine does not get to a stream, and nothing has been sent. -/
def Silent (w : Net) : Prop := .ok () ∉ w.handshakes ∧ w.sent = []

/-- The handshake is not over, and will not be. -/
def SilentInv : CommState → Net → Prop :=
  Sum.elim (Sum.elim (Sum.elim (fun inner w => inner ≠ none ∧ inner ≠ some (.ok ()) ∧ Silent w)
    fun _ _ => False) fun _ _ => False) fun _ _ => False

/-- A future of which there is nothing to say because it is never polled. -/
theorem meets_false {σ α ε : Type} {F : Future Net σ α ε} {R : Net → Net → Prop}
    {Q : α → Net → Prop} {E : ε → Net → Prop} : F.Meets R (fun _ _ => False) Q E :=
  fun _ _ h => h.elim

theorem comm_meets_silent (text : SslError → String) (random : UInt16) :
    (comm text random).Meets (fun _ _ => True) SilentInv (fun _ _ => False)
      (fun _ => Silent) := by
  have hconnect := connectAsync_meets_of_unfinished (P := Silent) (by
    rintro w ⟨hhandshakes, hsent⟩
    simp only [TlsEngine.handshake]
    rcases hhs : w.handshakes with _ | ⟨h, hs⟩
    · exact ⟨by simp, by simp [hhs], hsent⟩
    · rw [hhs, List.mem_cons, not_or] at hhandshakes
      exact ⟨fun h => hhandshakes.1 h.symm, hhandshakes.2, hsent⟩)
  have hmapped : (connectAsync.mapErr fun e => IoError.other (text e)).Meets (fun _ _ => True)
      (fun inner w => inner ≠ none ∧ inner ≠ some (.ok ()) ∧ Silent w) (fun _ _ => False)
      fun _ => Silent := Future.Meets.mapErr hconnect
  have hversion := hmapped.andThen Future.steps_true
    (f := fun _ => WriteAll.new <$> versionFrame) (G := writeAll) (Q := fun _ _ => False)
    meets_false fun _ _ => False.elim
  have hauthenticate := hversion.andThen Future.steps_true
    (f := fun _ => WriteAll.new <$> authenticateFrame random) (G := writeAll)
    (Q := fun _ _ => False) meets_false fun _ _ => False.elim
  exact hauthenticate.andThen Future.steps_true meets_false fun _ _ => False.elim

theorem silent_change {k : NetChange} (hk : k ≠ .handshake (.ok ())) {w : Net} (h : Silent w) :
    Silent (Net.change k w) := by
  cases k with
  | handshake h' =>
    refine ⟨fun hmem => ?_, h.2⟩
    rcases List.mem_append.mp hmem with hmem | hmem
    · exact h.1 hmem
    · exact hk (congrArg _ (List.mem_singleton.mp hmem).symm)
  | _ => exact h

/-- **Nothing is sent before the handshake is over.** In a run in which the engine never gets to a
stream, whatever else happens, and however many messages wait, the stream takes nothing. -/
theorem comm_silent (text : SslError → String) (random : UInt16) {first : Handshake}
    (hfirst : first ≠ .ok ()) {es : List (Future.TaskEvent NetChange)}
    (hes : .change (.handshake (.ok ())) ∉ es) :
    ∃ r w, ((comm text random).task Net.change).run (.notReady (startComm first), .start) es
        = .returned (r, w) ∧ w.sent = [] := by
  have hstart : SilentInv (startComm first) .start :=
    ⟨nofun, fun h => hfirst (Option.some.inj h), by simp [Net.start], rfl⟩
  have hchange : ∀ (_ : List NetChange) k, .change k ∈ es → ∀ r w, Polled.Satisfies SilentInv
      (fun (_ : (Unit × Unit) × Unit × Unit × Unit) _ => False) (fun (_ : IoError) => Silent) w r →
      r.Satisfies SilentInv (fun _ _ => False) (fun _ => Silent) (Net.change k w) := by
    intro _ k hk r w hr
    have hne : k ≠ .handshake (.ok ()) := by
      rintro rfl
      exact hes hk
    rcases r with (((s | s) | s) | s) | a | e
    · exact ⟨hr.1, hr.2.1, silent_change hne hr.2.2⟩
    · exact hr
    · exact hr
    · exact hr
    · exact hr
    · exact silent_change hne hr
  obtain ⟨r, w, hrun, hr⟩ := Future.Meets.run (fun _ => comm_meets_silent text random) hchange
    (r := .notReady (startComm first)) hstart
  refine ⟨r, w, hrun, ?_⟩
  rcases r with (((s | s) | s) | s) | a | e
  · exact hr.2.2.2
  · exact hr.elim
  · exact hr.elim
  · exact hr.elim
  · exact hr.elim
  · exact hr.2

/-- A handshake that fails at the second attempt, while a message waits and the stream is ready. -/
theorem comm_silent_failed :
    ∃ r w, ((comm (fun _ => "ssl") 0).task Net.change).run
        (.notReady (startComm (.error .interrupted)), .start)
        [.change (.send [0, 3, 0, 0, 0, 0]), .change (.write (.wrote 90)), .poll,
          .change (.handshake (.error (.setupFailure "stack"))), .poll]
        = .returned (r, w) ∧ w.sent = [] :=
  comm_silent (fun _ => "ssl") 0 (by decide) (by simp)

end MumbleBot
