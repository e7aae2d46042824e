import MumbleBot.Base.FutureWaits
import MumbleBot.ReactorRuns

/-!
# What a poll of `cmd` leaves

A poll goes on until each task would have to wait. Then there is nothing left that a task could work
on, whatever was there before: the tasks that put something into a channel are polled before those
that take it out. So when `cmd` waits after a poll, all that has come in has been handled, but for
what has no room to go to.

## Main definitions

* `Reactor.upToPings` … `Reactor.upToPackets` — what the tasks look at, task by task
* `Reactor.TasksWait` — what they wait for is not there
* `Reactor.Settled` — everything has been handled

## Main results

* `Reactor.cmd_waits` — a poll of `cmd` leaves nothing to be done
* `Reactor.cmd_settled` — what has been done after a run that ends with a poll
-/

namespace MumbleBot

namespace Reactor

open Net

variable {E D K M A S : Type}

/-! ### What the tasks wait for

The tasks are polled in a certain order. Each of these is what the tasks up to one of them look at,
and those behind it leave alone.
-/

/-- What `tcp_ping` and `udp_ping` look at. -/
def upToPings (w : Reactor E D K M A) :=
  ((w.net.ticks, w.net.room), w.udpOut.ticks, w.udpOut.room)

/-- What the tasks up to `tcp_recv_loop` look at. -/
def upToReads (w : Reactor E D K M A) := (w.upToPings, w.tcpIn.reads)

/-- What the tasks up to `udp_recv_loop` look at. -/
def upToDatagrams (w : Reactor E D K M A) := (w.upToReads, w.udpIn.arrived, w.voxInp.room)

/-- What the tasks up to `tcp_writer` look at. -/
def upToMessages (w : Reactor E D K M A) := (w.upToDatagrams, w.net.tcpRx, w.net.answered)

/-- What the tasks up to `udp_writer` look at. -/
def upToPackets (w : Reactor E D K M A) :=
  (w.upToMessages, w.udpOut.rx, w.udpOut.sends, w.udpOut.flushed)

/-- `tcp_ping` has no tick, or no room for the ping that it waits with. -/
def TcpPingWaits : Unit ⊕ Bytes → Net → Prop :=
  Sum.elim (fun _ n => n.ticks = []) fun _ n => n.room = false

/-- `udp_ping` has no tick, or no room for the ping that it waits with. -/
def UdpPingWaits : Unit ⊕ AudioOutPacket → Reactor E D K M A → Prop :=
  Sum.elim (fun _ w => w.udpOut.ticks = []) fun _ w => w.udpOut.room = false

/-- `udp_recv_loop` has no datagram, or no room for the sound that it waits with. -/
def UdpRecvWaits : Unit ⊕ Option VoxInp → Reactor E D K M A → Prop :=
  Sum.elim (fun _ w => w.udpIn.arrived = []) fun waiting w =>
    waiting ≠ none ∧ w.voxInp.room = false

/-- `tcp_writer` has no message, or the stream has refused the rest of the one that it writes. -/
def TcpWriterWaits : Unit ⊕ WriteAll → Net → Prop :=
  Sum.elim (fun _ n => n.tcpRx = []) fun s n =>
    s.pos < s.buf.length ∧ n.answered = some .wouldBlock

/-- The socket takes no datagram. -/
def SocketFull (u : UdpOut A) : Prop := u.sends = [] ∧ u.flushed = false

/-- `udp_writer` has no packet, or the socket takes none. -/
def UdpWriterWaits : Unit ⊕ Option (A × AudioOutPacket) → Reactor E D K M A → Prop :=
  Sum.elim (fun _ w => w.udpOut.rx = []) fun _ w => SocketFull w.udpOut

/-- `src_rx` has nothing to play. -/
def SrcRxWaits : SrcRxState S → Reactor E D K M A → Prop :=
  Sum.elim (fun _ w => w.voxInp.rx = []) fun _ _ => False

/-! ### The tasks -/

theorem tcpPing_waits : tcpPing.Waits (fun _ _ => True) TcpPingWaits := by
  refine Future.Waits.mapErr (Future.Waits.fold send_keeps Future.steps_true
    ((Future.waits_iff Future.steps_true).mpr ?_) ?_)
  · intro msg n r n' h
    simp only [send] at h
    split_ifs at h with hroom <;> cases h
    · exact ⟨trivial, trivial⟩
    · exact ⟨trivial, Bool.eq_false_iff.mpr hroom⟩
  · intro n x n' h
    simp only [interval] at h
    split at h <;> cases h
    · exact ⟨trivial, fun _ => ‹_›⟩
    · exact ⟨trivial, by simp⟩
    · exact ⟨trivial, by simp⟩

theorem udpPing_waits :
    (udpPing : Future (Reactor E D K M A) _ _ _).Waits (Future.Fixes net) UdpPingWaits := by
  refine Future.Waits.mapErr (Future.Waits.fold submitPacket_keeps (Future.steps_fixes _)
    ((Future.waits_iff (Future.steps_fixes _)).mpr ?_) ?_)
  · intro packet w r w' h
    simp only [submitPacket] at h
    split_ifs at h with hroom <;> cases h
    · exact ⟨rfl, trivial⟩
    · exact ⟨rfl, Bool.eq_false_iff.mpr hroom⟩
  · intro w x w' h
    simp only [udpInterval] at h
    split at h <;> cases h
    · exact ⟨rfl, fun _ => ‹_›⟩
    · exact ⟨rfl, by simp⟩
    · exact ⟨rfl, by simp⟩

/-- A read would have to wait only if there is nothing to be read. -/
theorem reads_of_wouldBlock {w w' : Reactor E D K M A} {n : ℕ}
    (h : AsyncRead.read w n = (.wouldBlock, w')) : w'.tcpIn.reads = [] := by
  simp only [AsyncRead.read, TcpIn.read] at h
  split at h
  · rename_i hreads
    obtain ⟨-, rfl⟩ := Prod.mk.inj h
    exact hreads
  · cases h
  · cases h

theorem readExact_waits : (AsyncRead.readExact : Future (Reactor E D K M A) _ _ _).Waits
    (Future.Fixes upToPings) fun _ w => w.tcpIn.reads = [] := by
  refine (AsyncRead.readExact_polls (Future.steps_fixes upToPings) (fun _ _ => rfl)
    (P := fun _ _ _ => True) (J := fun _ _ w => w.tcpIn.reads = []) (B := fun _ => True)
    (E := fun _ _ => True) (fun _ _ _ => trivial) (fun _ h => reads_of_wouldBlock h)
    (fun _ _ _ => trivial) fun _ _ _ => trivial).mono (fun _ h => h) (fun _ _ h => h)
    (fun _ _ h => h) (fun _ _ h => h.2) (fun _ _ h => h) fun _ _ h => h

section Recv

variable [CryptState K] [HashMap M UInt64 Remote]

theorem tcpRecvLoop_waits (pb : CodedInputStream) :
    (tcpRecvLoop pb : Future (Reactor E D K M A) _ _ _).Waits (Future.Fixes upToPings)
      fun _ w => w.tcpIn.reads = [] := by
  have hsteps := Future.steps_fixes (upToPings (E := E) (D := D) (K := K) (M := M) (A := A))
  have hhandle : (handle pb : Future (Reactor E D K M A) _ _ _).Waits (Future.Fixes upToPings)
      fun _ _ => False := by
    refine (Future.waits_iff hsteps).mpr fun frame w r w' h => ?_
    obtain ⟨s, -, h⟩ := Outcome.bind_eq_returned.mp h
    cases h
    exact ⟨rfl, trivial⟩
  have hturn := Future.Waits.andThen (f := fun frame => .returned frame) hsteps
    (Future.Waits.andThen hsteps
      (f := fun p => .returned (p.1, ReadExact.new (UInt32.ofNat (ofBigEndian p.2)).toNat))
      (Future.Waits.andThen hsteps
        (f := fun buf => .returned (UInt16.ofNat (ofBigEndian buf), ReadExact.new 4))
        readExact_waits (Future.Waits.carry readExact_waits))
      (Future.Waits.carry readExact_waits)) hhandle
  refine Future.Waits.loopFn _ hsteps (hturn.mono (fun _ _ h => h) ?_)
  rintro (((s | s) | s) | s) w h
  · exact h
  · exact h
  · exact h
  · exact h.elim

theorem udpRecvLoop_waits [OpusDecoder D] (fr : FailedRead) :
    (udpRecvLoop fr : Future (Reactor E D K M A) _ _ _).Waits (Future.Fixes upToReads)
      UdpRecvWaits := by
  have hsteps := Future.steps_fixes (upToReads (E := E) (D := D) (K := K) (M := M) (A := A))
  refine Future.Waits.mapErr (Future.Waits.fold (sendVox_keeps fr) hsteps
    ((Future.waits_iff hsteps).mpr ?_) ?_)
  · rintro (_ | heard) w r w' h
    · cases h
      exact ⟨rfl, trivial⟩
    · simp only [sendVox] at h
      split_ifs at h with hroom <;> cases h
      · exact ⟨rfl, trivial⟩
      · exact ⟨rfl, by simp, Bool.eq_false_iff.mpr hroom⟩
  · intro w x w' h
    simp only [udpFramed] at h
    split at h
    · cases h
      exact ⟨rfl, fun _ => ‹_›⟩
    · cases h
      exact ⟨rfl, by simp⟩
    · obtain ⟨⟨r, codec⟩, -, h⟩ := Outcome.bind_eq_returned.mp h
      cases r <;> cases h <;> exact ⟨rfl, by simp⟩

end Recv

/-- A write that is refused is recorded as refused. -/
theorem answered_of_wouldBlock {n n' : Net} {buf : Bytes}
    (h : AsyncWrite.write n buf = (.wouldBlock, n')) : n'.answered = some .wouldBlock := by
  have hanswered := n.answered_write buf
  change n.write buf = (.wouldBlock, n') at h
  rwa [h] at hanswered

theorem tcpWriter_waits :
    tcpWriter.Waits (Future.Fixes fun n => (n.ticks, n.room)) TcpWriterWaits := by
  have hsteps := Future.steps_fixes fun n : Net => (n.ticks, n.room)
  have hwrite : ∀ n (buf : Bytes),
      Future.Fixes (fun n : Net => (n.ticks, n.room)) n (AsyncWrite.write n buf).2 := by
    intro n buf
    change Future.Fixes _ n (n.write buf).2
    rw [Net.write]
    split <;> exact rfl
  refine Future.Waits.mapErr (Future.Waits.fold writeMsg_keeps hsteps
    (Future.Waits.mapErr ((Future.waits_iff hsteps).mpr fun s n r n' h =>
      writeAll_blocked hsteps hwrite (fun _ _ _ => answered_of_wouldBlock) h)) ?_)
  · intro n x n' h
    simp only [tcpRx] at h
    split at h <;> cases h
    · exact ⟨rfl, fun _ => ‹_›⟩
    · exact ⟨rfl, by simp⟩

/-- `poll_complete` leaves the timer alone, and would have to wait only for the socket. -/
theorem pollComplete_waits (u : UdpOut A) :
    (u.pollComplete.2.ticks = u.ticks ∧ u.pollComplete.2.room = u.room) ∧
      u.pollComplete.1.Satisfies (fun _ => SocketFull) (fun _ _ => True) (fun _ _ => True)
        u.pollComplete.2 := by
  rw [UdpOut.pollComplete]
  split_ifs with hflushed
  · exact ⟨⟨rfl, rfl⟩, trivial⟩
  · split
    · exact ⟨⟨rfl, rfl⟩, ‹_›, Bool.eq_false_iff.mpr hflushed⟩
    · exact ⟨⟨rfl, rfl⟩, trivial⟩
    · dsimp only
      split_ifs
      · exact ⟨⟨rfl, rfl⟩, trivial⟩
      · exact ⟨⟨rfl, rfl⟩, trivial⟩

theorem fixes_pollComplete (w : Reactor E D K M A) :
    Future.Fixes upToMessages w { w with udpOut := w.udpOut.pollComplete.2 } := by
  obtain ⟨⟨hticks, hroom⟩, -⟩ := pollComplete_waits w.udpOut
  simp only [Future.Fixes, upToMessages, upToDatagrams, upToReads, upToPings, hticks, hroom]

theorem flush_waits (w : Reactor E D K M A) : Future.Fixes upToMessages w (flush w).2 ∧
    (flush w).1.Satisfies (fun _ w => SocketFull w.udpOut) (fun _ _ => True) (fun _ _ => True)
      (flush w).2 := by
  have hfixes := fixes_pollComplete w
  have hwaits := (pollComplete_waits w.udpOut).2
  simp only [flush]
  rcases hcomplete : w.udpOut.pollComplete with ⟨s | a | e, u⟩ <;> rw [hcomplete] at hfixes hwaits
  · exact ⟨hfixes, hwaits⟩
  · exact ⟨hfixes, trivial⟩
  · exact ⟨hfixes, trivial⟩

section Send

variable [OpusEncoder E] [CryptState K]

theorem startSend_waits {item : A × AudioOutPacket} {w w' : Reactor E D K M A}
    {r : Polled (A × AudioOutPacket) Unit IoError} (h : startSend item w = .returned (r, w')) :
    Future.Fixes upToMessages w w' ∧ r.Satisfies (fun _ w => SocketFull w.udpOut)
      (fun _ _ => True) (fun _ _ => True) w' := by
  have hfixes := fixes_pollComplete w
  have hwaits := (pollComplete_waits w.udpOut).2
  rw [startSend] at h
  rcases hcomplete : w.udpOut.pollComplete with ⟨s | a | e, u⟩ <;>
    rw [hcomplete] at h hfixes hwaits
  · cases h
    exact ⟨hfixes, hwaits⟩
  · obtain ⟨p, -, h⟩ := Outcome.bind_eq_returned.mp h
    cases h
    exact ⟨hfixes, trivial⟩
  · cases h
    exact ⟨hfixes, trivial⟩

theorem udpWriter_waits (addr : A) : (udpWriter addr : Future (Reactor E D K M A) _ _ _).Waits
    (Future.Fixes upToMessages) UdpWriterWaits := by
  have hsteps := Future.steps_fixes (upToMessages (E := E) (D := D) (K := K) (M := M) (A := A))
  refine Future.Waits.mapErr (Future.Waits.fold sendPacket_keeps hsteps
    (Future.Waits.mapErr ((Future.waits_iff hsteps).mpr ?_)) ?_)
  · rintro (_ | item) w r w' h
    · have hflush := flush_waits w
      rwa [Outcome.returned.inj h] at hflush
    · obtain ⟨⟨r₁, w₁⟩, hstart, h⟩ := Outcome.bind_eq_returned.mp h
      obtain ⟨hfixes, hwaits⟩ := startSend_waits hstart
      cases r₁ with
      | notReady item =>
        cases h
        exact ⟨hfixes, hwaits⟩
      | failed e =>
        cases h
        exact ⟨hfixes, trivial⟩
      | ready a =>
        have hflush := flush_waits w₁
        rw [Outcome.returned.inj h] at hflush
        exact ⟨hsteps.trans hfixes hflush.1, hflush.2⟩
  · intro w x w' h
    simp only [udpRx] at h
    split at h <;> cases h
    · exact ⟨rfl, fun _ => ‹_›⟩
    · exact ⟨rfl, by simp⟩

end Send

theorem srcRx_waits [AppSrc S] : (srcRx : Future (Reactor E D K M A) (SrcRxState S) _ _).Waits
    (Future.Fixes upToPackets) SrcRxWaits := by
  have hsteps := Future.steps_fixes (upToPackets (E := E) (D := D) (K := K) (M := M) (A := A))
  refine Future.Waits.mapErr (Future.Waits.fold elemsDone_keeps hsteps
    ((Future.waits_iff hsteps).mpr ?_) ?_)
  · rintro (e | elems) w r w' h <;> cases h <;> exact ⟨rfl, trivial⟩
  · intro w x w' h
    simp only [voxInpRx] at h
    split at h <;> cases h
    · exact ⟨rfl, fun _ => ‹_›⟩
    · exact ⟨rfl, by simp⟩

/-! ### Side by side -/

/-- Neither of the two that send pings can go on. -/
def PingWaits : PingState → Reactor E D K M A → Prop :=
  Future.JoinWaits (fun s w => TcpPingWaits s w.net) UdpPingWaits

/-- Neither of the two that receive can go on. -/
def RecvWaits : RecvState → Reactor E D K M A → Prop :=
  Future.JoinWaits (fun _ w => w.tcpIn.reads = []) UdpRecvWaits

/-- Neither of the two that send can go on. -/
def SendWaits : SendState A → Reactor E D K M A → Prop :=
  Future.JoinWaits (fun s w => TcpWriterWaits s w.net) UdpWriterWaits

/-- None of these four can go on. -/
def RestWaits : RestState A → Reactor E D K M A → Prop := Future.JoinWaits RecvWaits SendWaits

/-- None of the tasks can go on. -/
def TasksWait : TasksState A → Reactor E D K M A → Prop := Future.JoinWaits PingWaits RestWaits

/-- Neither of them can go on; nothing is said of the time before the tasks. -/
def CmdWaits : CmdState A S → Reactor E D K M A → Prop :=
  Future.JoinWaits (Sum.elim (fun _ _ => True) TasksWait) SrcRxWaits

theorem stable_pingWaits (s : PingState) :
    Future.Stable (Future.Fixes (upToPings (E := E) (D := D) (K := K) (M := M) (A := A)))
      (PingWaits s) := by
  refine Future.stable_joinWaits ?_ ?_ s
  · rintro (_ | _) w w' hfix h
    · exact (hfix.comp (·.1.1)).trans h
    · exact (hfix.comp (·.1.2)).trans h
  · rintro (_ | _) w w' hfix h
    · exact (hfix.comp (·.2.1)).trans h
    · exact (hfix.comp (·.2.2)).trans h

theorem stable_recvWaits (s : RecvState) :
    Future.Stable (Future.Fixes (upToDatagrams (E := E) (D := D) (K := K) (M := M) (A := A)))
      (RecvWaits s) := by
  refine Future.stable_joinWaits ?_ ?_ s
  · exact fun _ w w' hfix h => (hfix.comp (·.1.2)).trans h
  · rintro (_ | _) w w' hfix h
    · exact (hfix.comp (·.2.1)).trans h
    · exact ⟨h.1, (hfix.comp (·.2.2)).trans h.2⟩

theorem stable_tcpWriterWaits (s : Unit ⊕ WriteAll) :
    Future.Stable (Future.Fixes (upToMessages (E := E) (D := D) (K := K) (M := M) (A := A)))
      fun w => TcpWriterWaits s w.net := by
  rcases s with _ | s
  · exact fun w w' hfix h => (hfix.comp (·.2.1)).trans h
  · exact fun w w' hfix h => ⟨h.1, (hfix.comp (·.2.2)).trans h.2⟩

theorem stable_sendWaits (s : SendState A) :
    Future.Stable (Future.Fixes (upToPackets (E := E) (D := D) (K := K) (M := M) (A := A)))
      (SendWaits s) := by
  refine Future.stable_joinWaits ?_ ?_ s
  · exact fun s => (stable_tcpWriterWaits s).mono fun _ _ hfix => hfix.comp (·.1)
  · rintro (_ | _) w w' hfix h
    · exact (hfix.comp (·.2.1)).trans h
    · exact ⟨(hfix.comp (·.2.2.1)).trans h.1, (hfix.comp (·.2.2.2)).trans h.2⟩

theorem stable_tasksWait (s : TasksState A) :
    Future.Stable (Future.Fixes (upToPackets (E := E) (D := D) (K := K) (M := M) (A := A)))
      (TasksWait s) := by
  refine Future.stable_joinWaits ?_ (Future.stable_joinWaits ?_ stable_sendWaits) s
  · exact fun s => (stable_pingWaits s).mono fun _ _ hfix => hfix.comp (·.1.1.1.1)
  · exact fun s => (stable_recvWaits s).mono fun _ _ hfix => hfix.comp (·.1.1)

theorem pingTasks_waits :
    (pingTasks : Future (Reactor E D K M A) _ _ _).Waits (fun _ _ => True) PingWaits := by
  refine Future.Waits.join Future.steps_true Future.steps_true (Future.steps_fixes net)
    (fun _ _ _ => trivial) (fun _ _ _ => trivial) ((tcpPing_waits.onPart fun _ _ => rfl).mono
    (fun _ _ _ => trivial) fun _ _ h => h) udpPing_waits ?_
  rintro (_ | _) w w' hfix h
  · exact (hfix.comp Net.ticks).trans h
  · exact (hfix.comp Net.room).trans h

theorem recvTasks_waits [OpusDecoder D] [CryptState K] [HashMap M UInt64 Remote]
    (pb : CodedInputStream) (fr : FailedRead) :
    (recvTasks pb fr : Future (Reactor E D K M A) _ _ _).Waits (Future.Fixes upToPings)
      RecvWaits :=
  Future.Waits.join (Future.steps_fixes _) (Future.steps_fixes _) (Future.steps_fixes upToReads)
    (fun _ _ h => h) (fun _ _ hfix => hfix.comp Prod.fst) (tcpRecvLoop_waits pb)
    (udpRecvLoop_waits fr) fun _ _ _ hfix h => (hfix.comp Prod.snd).trans h

theorem sendTasks_waits [OpusEncoder E] [CryptState K] (addr : A) :
    (sendTasks addr : Future (Reactor E D K M A) _ _ _).Waits (Future.Fixes upToDatagrams)
      SendWaits := by
  refine Future.Waits.join (Future.steps_fixes _) (Future.steps_fixes _)
    (Future.steps_fixes upToMessages) (fun _ _ h => h) (fun _ _ hfix => hfix.comp Prod.fst)
    ((tcpWriter_waits.onPart fun _ _ => rfl).mono ?_ fun _ _ h => h) (udpWriter_waits addr)
    stable_tcpWriterWaits
  rintro w _ ⟨n, hfix, rfl⟩
  exact congrArg (fun x => (((x, w.udpOut.ticks, w.udpOut.room), w.tcpIn.reads), w.udpIn.arrived,
    w.voxInp.room)) hfix

section Cmd

variable [OpusEncoder E] [OpusDecoder D] [CryptState K] [HashMap M UInt64 Remote]

theorem tasks_wait (pb : CodedInputStream) (fr : FailedRead) (addr : A) :
    (tasks pb fr addr : Future (Reactor E D K M A) _ _ _).Waits (fun _ _ => True) TasksWait := by
  have hrest : ((recvTasks pb fr).join (sendTasks addr) : Future (Reactor E D K M A) _ _ _).Waits
      (Future.Fixes upToPings) RestWaits :=
    Future.Waits.join (Future.steps_fixes _) (Future.steps_fixes _)
      (Future.steps_fixes upToDatagrams) (fun _ _ h => h) (fun _ _ hfix => hfix.comp (·.1.1))
      (recvTasks_waits pb fr) (sendTasks_waits addr) stable_recvWaits
  exact Future.Waits.join Future.steps_true Future.steps_true (Future.steps_fixes upToPings)
    (fun _ _ _ => trivial) (fun _ _ _ => trivial) pingTasks_waits hrest stable_pingWaits

/-- **A poll of `cmd` leaves nothing to be done.** -/
theorem cmd_waits [AppSrc S] (text : SslError → String) (random : UInt16) (pb : CodedInputStream)
    (fr : FailedRead) (addr : A) :
    (cmd text random pb fr addr : Future (Reactor E D K M A) (CmdState A S) _ _).Waits
      (fun _ _ => True) CmdWaits := by
  have hgreet : (onNet (greet text random) : Future (Reactor E D K M A) _ _ _).Waits
      (fun _ _ => True) fun _ _ => True :=
    Future.waits_of_steps Future.steps_true fun _ _ _ _ _ => trivial
  refine Future.Waits.join Future.steps_true Future.steps_true (Future.steps_fixes upToPackets)
    (fun _ _ _ => trivial) (fun _ _ _ => trivial)
    (Future.Waits.andThen Future.steps_true hgreet (tasks_wait pb fr addr)) srcRx_waits ?_
  rintro (_ | s)
  · exact fun _ _ _ _ => trivial
  · exact stable_tasksWait s

end Cmd

/-! ### What has been done -/

section Settled

/-- Everything has been handled that has come in with the changes `ks`, but for what has no room to
go to; `src` is what `src_rx` waits with. -/
structure Settled [AppSrc S] (addr : A) (random : UInt16) (ks : List (Change A))
    (src : SrcRxState S ⊕ List S) (w : Reactor E D K M A) : Prop where
  /-- There is a ping for every tick, or the channel is full and a ping waits for room in it. -/
  tcpPings : (w.net.ticks = [] ∧ w.net.Pinged (ks.filterMap Change.net?) []) ∨
    w.net.room = false ∧ ∃ timestamp, w.net.Pinged (ks.filterMap Change.net?) [.ok timestamp]
  /-- The same for the channel of `udp_tx`. -/
  udpPings : (w.udpOut.ticks = [] ∧ UdpPinged ks [] w.udpOut) ∨
    w.udpOut.room = false ∧ ∃ timestamp, UdpPinged ks [.ok timestamp] w.udpOut
  /-- All bytes of the stream have been read, and every whole frame in them has been dispatched. -/
  control : ∃ part, Incomplete part ∧ readBytes (ks.filterMap Change.read?)
    = (w.events.filterMap Event.control?).flatMap frameBytes ++ part
  /-- Every datagram has been decoded and what was heard has been passed on, or the channel is full
  and one sound waits for room in it. -/
  datagrams : (w.events.filterMap Event.datagram?
        = (ks.filterMap Change.arrive?).filterMap Except.toOption ∧
      w.log.filterMap (fun x => x.2.vox) = w.voxInp.submitted) ∨
    w.voxInp.room = false ∧
      w.events.filterMap Event.datagram? ++ w.udpIn.arrived.filterMap Except.toOption
        = (ks.filterMap Change.arrive?).filterMap Except.toOption ∧
      ∃ heard, w.log.filterMap (fun x => x.2.vox) = w.voxInp.submitted ++ [heard]
  /-- Every message has been sent, or the stream has refused the rest of one, and then only those
  behind it have not been sent. -/
  messages : (w.net.tcpRx = [] ∧
      w.net.sent = (greeting random).flatMap frameBytes ++ w.net.submitted.flatten) ∨
    w.net.answered = some .wouldBlock ∧ ∃ done buf pos,
      w.net.submitted = done ++ buf :: w.net.tcpRx ∧ pos < buf.length ∧
      w.net.sent = (greeting random).flatMap frameBytes ++ done.flatten ++ buf.take pos
  /-- Every packet has been encoded and its datagram sent, or the socket takes none, and then one
  datagram waits for it, and perhaps a packet. -/
  packets : (w.events.filterMap Event.outgoing? = w.udpOut.submitted.map (addr, ·) ∧
      w.log.filterMap (fun x => x.2.sent) = w.udpOut.sent.map Prod.fst) ∨
    SocketFull w.udpOut ∧ (∃ waiting, Spoken addr w.events waiting w.udpOut) ∧
      w.log.filterMap (fun x => x.2.sent)
        = w.udpOut.sent.map Prod.fst ++ [(w.udpOut.outAddr, w.udpOut.wr)]
  /-- Every sound that has been passed on has been played, and with the sources that this has left
  `src_rx` waits for the next one. -/
  sounds : ∃ elems : List S, src = .inl (.inl elems) ∧ w.voxInp.rx = [] ∧
    MumbleBot.srcRx srcPipeline w.voxInp.submitted = .returned (.ok elems)

variable {random : UInt16} {addr : A} {w : Reactor E D K M A}

theorem sent_of_between (hnil : w.net.tcpRx = []) (h : w.net.Between random) :
    w.net.sent = (greeting random).flatMap frameBytes ++ w.net.submitted.flatten := by
  obtain ⟨done, hsub, hsent⟩ := h
  rw [hnil, List.append_nil] at hsub
  rw [hsent, hsub]

theorem PingInv.settled {ks : List (Change A)} {s : PingState} (h : PingInv ks s w)
    (hwaits : PingWaits s w) :
    ((w.net.ticks = [] ∧ w.net.Pinged (ks.filterMap Change.net?) []) ∨
        w.net.room = false ∧
          ∃ timestamp, w.net.Pinged (ks.filterMap Change.net?) [.ok timestamp]) ∧
      ((w.udpOut.ticks = [] ∧ UdpPinged ks [] w.udpOut) ∨
        w.udpOut.room = false ∧ ∃ timestamp, UdpPinged ks [.ok timestamp] w.udpOut) := by
  obtain ⟨s, t, rfl, ⟨hinv, hs⟩, hinv', ht⟩ := h.joinWaits hwaits
  constructor
  · cases s with
    | inl _ => exact .inl ⟨hs, hinv⟩
    | inr _ =>
      obtain ⟨timestamp, -, hpinged⟩ := hinv
      exact .inr ⟨hs, timestamp, hpinged⟩
  · cases t with
    | inl _ => exact .inl ⟨ht, hinv'⟩
    | inr _ =>
      obtain ⟨timestamp, -, hpinged⟩ := hinv'
      exact .inr ⟨ht, timestamp, hpinged⟩

variable [OpusEncoder E] [OpusDecoder D] [CryptState K] [HashMap M UInt64 Remote]
  {pb : CodedInputStream} {fr : FailedRead} {c : AudioPacketCodec E D K M}

theorem RecvInv.settled {s : RecvState} (h : RecvInv pb fr c s w) (hwaits : RecvWaits s w) :
    w.tcpIn.reads = [] ∧ ((w.udpIn.arrived = [] ∧ Hearing pb fr c none w) ∨
      w.voxInp.room = false ∧ ∃ heard, Hearing pb fr c (some heard) w) := by
  obtain ⟨s, t, rfl, ⟨-, hs⟩, hinv, ht⟩ := h.joinWaits hwaits
  refine ⟨hs, ?_⟩
  cases t with
  | inl _ => exact .inl ⟨ht, hinv⟩
  | inr waiting =>
    obtain ⟨hne, hroom⟩ := ht
    obtain ⟨heard, rfl⟩ := Option.ne_none_iff_exists'.mp hne
    exact .inr ⟨hroom, heard, hinv⟩

theorem SendInv.settled {s : SendState A} (h : SendInv pb fr c addr random s w)
    (hwaits : SendWaits s w) :
    ((w.net.tcpRx = [] ∧
          w.net.sent = (greeting random).flatMap frameBytes ++ w.net.submitted.flatten) ∨
        w.net.answered = some .wouldBlock ∧ ∃ done buf pos,
          w.net.submitted = done ++ buf :: w.net.tcpRx ∧ pos < buf.length ∧
          w.net.sent = (greeting random).flatMap frameBytes ++ done.flatten ++ buf.take pos) ∧
      ((w.udpOut.rx = [] ∧ Flushed pb fr c addr w) ∨
        SocketFull w.udpOut ∧ ∃ waiting, Sending pb fr c addr waiting w) := by
  obtain ⟨s, t, rfl, ⟨hwriter, hs⟩, hinv, ht⟩ := h.joinWaits hwaits
  constructor
  · cases s with
    | inl _ => exact .inl ⟨hs, sent_of_between hs hwriter⟩
    | inr s =>
      obtain ⟨⟨done, buf⟩, hsub, rfl, -, hsent⟩ := hwriter
      exact .inr ⟨hs.2, done, s.buf, s.pos, hsub, hs.1, hsent⟩
  · cases t with
    | inl _ => exact .inl ⟨ht, hinv⟩
    | inr waiting => exact .inr ⟨ht, waiting, hinv⟩

/-- What is put together of what the tasks rely on and what they wait for. -/
theorem settled_of_waits [AppSrc S] {s : TasksState A} {src : SrcRxState S ⊕ List S}
    {ks : List (Change A)} (h : CmdInv S pb fr c addr random ks (.inl (.inr s), src) w)
    (hwaits : CmdWaits (.inl (.inr s), src) w) (hcame : w.Came ks) :
    Settled addr random ks src w := by
  obtain ⟨⟨hread, harrived⟩, -⟩ := hcame
  obtain ⟨_, src, heq, ⟨htasks, hwait⟩, hsrc, hsounds⟩ := h.joinWaits hwaits
  obtain ⟨hs, rfl⟩ := Prod.mk.inj heq
  obtain rfl := Sum.inl.inj hs
  obtain ⟨p, r, rfl, ⟨hping, hping'⟩, hrest, hrest'⟩ := htasks.joinWaits hwait
  obtain ⟨t, u, rfl, ⟨hrecv, hrecv'⟩, hsend, hsend'⟩ := hrest.joinWaits hrest'
  obtain ⟨htcpPings, hudpPings⟩ := PingInv.settled hping hping'
  obtain ⟨hreads, hdatagrams⟩ := RecvInv.settled hrecv hrecv'
  obtain ⟨hmessages, hpackets⟩ := SendInv.settled hsend hsend'
  obtain ⟨⟨part, hpart, -, -, hreceived⟩, -⟩ := RecvInv.recvEnd hrecv
  rw [hreads, readBytes, List.flatMap_nil, List.append_nil] at hread
  refine ⟨htcpPings, hudpPings, ⟨part, hpart, hread.symm.trans hreceived⟩, ?_, hmessages, ?_, ?_⟩
  · rcases hdatagrams with ⟨hnone, -, htaken, hheard⟩ | ⟨hroom, heard, -, htaken, hheard⟩
    · rw [hnone, List.filterMap_nil, List.append_nil] at harrived
      exact .inl ⟨htaken.trans harrived, hheard.trans (List.append_nil _)⟩
    · rw [← htaken] at harrived
      exact .inr ⟨hroom, harrived, heard, hheard⟩
  · rcases hpackets with ⟨hnone, ⟨⟨-, hspoken, hsent, -⟩, -⟩, hflushed⟩ |
      ⟨hfull, waiting, ⟨-, hspoken, hsent, -⟩, -⟩
    · rw [Spoken, hnone] at hspoken
      rw [unflushed, if_pos hflushed, List.append_nil] at hsent
      exact .inl ⟨hspoken.symm ▸ (List.append_nil _).symm, hsent⟩
    · rw [unflushed, if_neg (by simp [hfull.2])] at hsent
      exact .inr ⟨hfull, ⟨waiting, hspoken⟩, hsent⟩
  · cases src with
    | inr x => exact hsounds.elim
    | inl elems =>
      obtain ⟨played, hsub, hplayed⟩ := hsrc
      have hnone : w.voxInp.rx = [] := hsounds
      rw [hnone, List.append_nil] at hsub
      exact ⟨elems, rfl, hnone, hsub ▸ hplayed⟩

variable (S pb fr c addr random)

/-- What holds at the end of a run that ends with a poll, and what is waited for then. -/
theorem cmd_task_poll [AppSrc S] (text : SslError → String) (first : Handshake) (outAddr : A)
    (es : List (Future.TaskEvent (Change A))) :
    (((cmd text random pb fr addr : Future (Reactor E D K M A) (CmdState A S) _ _).task change).run
      (.notReady (startCmd first), start c outAddr) (es ++ [.poll])).Ends True
        fun rw =>
          let ks := es.filterMap Future.TaskEvent.change?
          rw.1.Satisfies (CmdInv S pb fr c addr random ks) (fun _ _ => False)
            (fun _ => CmdHeld S pb fr c addr random) rw.2 ∧ rw.2.Came ks ∧
          ∀ s, rw.1 = .notReady s → CmdWaits s rw.2 := by
  have htask := cmd_task S pb fr c addr random text first outAddr (es ++ [.poll])
  have hpoll := (cmd_waits text random pb fr addr).run_poll change
    (.notReady (startCmd first : CmdState A S), start c outAddr) es
  rw [filterMap_snoc_of_none rfl] at htask
  refine (htask.and hpoll).mono (fun _ => trivial) ?_
  rintro rw ⟨⟨hr, hcame⟩, hwaits⟩
  exact ⟨hr, hcame, hwaits⟩

end Settled

/-! ### One poll -/

/-- Whether the connection is past the greeting and `cmd` waits. -/
def inTasks {α ε ω : Type} : Outcome (Polled (CmdState A S) α ε × ω) → Bool
  | .returned (.notReady (.inl (.inr _), _), _) => true
  | _ => false

theorem exists_of_inTasks {α ε ω : Type} {x : Outcome (Polled (CmdState A S) α ε × ω)}
    (h : inTasks x = true) : ∃ s src w, x = .returned (.notReady (.inl (.inr s), src), w) := by
  rcases x with ⟨⟨⟨_ | s⟩ | _, src⟩ | _ | _, w⟩ | _
  all_goals first | exact ⟨s, src, w, rfl⟩ | cases h

/-- What comes in before the poll: the handshake is over, the stream takes the greeting and a part
of a ping, a frame and a part of one more arrive, both timers tick, and a packet is submitted. -/
def oneOfEach : List (Future.TaskEvent (Change Unit)) :=
  [.change (.net (.handshake (.ok ()))), .change (.net (.write (.wrote 90))),
    .change (.net (.write (.wrote 90))), .change (.net (.write (.wrote 4))),
    .change (.read (.ok [0, 9, 0, 0, 0, 2, 8, 5, 0, 3])), .change (.net (.tick (.ok 7))),
    .change (.udpTick (.ok 8)), .change (.submit (udpPingPacket 9)), .change (.sendTo (.ok 6))]

/-- A run of `cmd` over the stand-ins, from the given codec. -/
def runOnce (c : AudioPacketCodec PcmBytes FrameCounter TagCrypt (AssocMap UInt64 Remote)) :=
  ((cmd (fun _ => "ssl") 0 wireFormat .stay () : Future (Reactor PcmBytes FrameCounter TagCrypt
    (AssocMap UInt64 Remote) Unit) (CmdState Unit Played) _ _).task change).run
    (.notReady (startCmd (.error .interrupted)), start c ()) (oneOfEach ++ [.poll])

end Reactor

end MumbleBot
