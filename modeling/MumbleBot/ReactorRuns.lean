import MumbleBot.ReactorTasks

/-!
# Whole runs of `cmd`

The tasks side by side, and `src_rx` beside them: none of them breaks what another one relies on,
and neither does what happens in the world. So a run of `cmd`, however its polls and the changes of
the world follow each other, is a run of `client`. Its events are what has come in, each thing once
and in order, and what comes of it goes out.

## Main definitions

* `Reactor.Accounts` — some events are all that has come in, but for what has not been handled
* `Reactor.Delivers` — what has come of the events is on its way
* `Reactor.Came` — what the changes have brought is there

## Main results

* `Reactor.cmd_polls` — the contract of `cmd`
* `Reactor.cmd_run` — what holds after any run
-/

namespace MumbleBot

namespace Reactor

open Net

variable {E D K M A S : Type}

/-! ### What the changes bring -/

/-- What has come in with the changes `ks` has been taken or is still there, in its order. -/
structure Received (ks : List (Change A)) (w : Reactor E D K M A) : Prop where
  read : w.tcpIn.received ++ readBytes w.tcpIn.reads = readBytes (ks.filterMap Change.read?)
  arrived : w.udpIn.taken ++ w.udpIn.arrived.filterMap Except.toOption
    = (ks.filterMap Change.arrive?).filterMap Except.toOption

/-- What has been put into the channels of `tcp_tx` and `udp_tx` comes from the changes `ks`, from
outside or with the ticks of the timers. -/
structure Submitted (ks : List (Change A)) (w : Reactor E D K M A) : Prop where
  net : w.net.Logged (ks.filterMap Change.net?)
  udp : UdpLogged ks w.udpOut

/-- What the changes have brought has been taken or is still there, in its order. -/
structure Came (ks : List (Change A)) (w : Reactor E D K M A) : Prop extends
    Received ks w, Submitted ks w

/-- The world before anything has happened; `outAddr` is where a new `UdpFramed` would send to. -/
def start (c : AudioPacketCodec E D K M) (outAddr : A) : Reactor E D K M A where
  net := .start
  tcpIn := ⟨[], []⟩
  udpIn := ⟨[], []⟩
  udpOut := ⟨[], [], true, [], [], outAddr, true, [], []⟩
  voxInp := ⟨[], [], true⟩
  codec := c
  log := []

section Change

variable {ks : List (Change A)} {w : Reactor E D K M A}

theorem Received.change (h : w.Received ks) (k : Change A) :
    (Reactor.change k w).Received (ks ++ [k]) := by
  obtain ⟨hread, harrived⟩ := h
  cases k with
  | read answer =>
    refine ⟨?_, ?_⟩
    · rw [List.filterMap_append, readBytes_append, ← hread]
      show _ ++ readBytes (w.tcpIn.reads ++ [answer]) = _
      rw [readBytes_append, List.append_assoc]
      rfl
    · rwa [filterMap_snoc_of_none rfl]
  | arrive answer =>
    refine ⟨?_, ?_⟩
    · rwa [filterMap_snoc_of_none rfl]
    · rw [List.filterMap_append, List.filterMap_append, ← harrived]
      show _ ++ (w.udpIn.arrived ++ [answer]).filterMap _ = _
      rw [List.filterMap_append, List.append_assoc]
      rfl
  | _ =>
    refine ⟨?_, ?_⟩
    · rwa [filterMap_snoc_of_none rfl]
    · rwa [filterMap_snoc_of_none rfl]

/-- What is taken from the changes of the TCP side to one more of them is taken from the changes of
the world to one more. -/
theorem net_change {X : List NetChange → Net → Prop}
    (hX : ∀ ks n, X ks n → ∀ k, X (ks ++ [k]) (Net.change k n))
    (h : X (ks.filterMap Change.net?) w.net) (k : Change A) :
    X ((ks ++ [k]).filterMap Change.net?) (Reactor.change k w).net := by
  cases k with
  | net k =>
    rw [List.filterMap_append]
    exact hX _ _ h k
  | _ => rwa [filterMap_snoc_of_none rfl]

theorem UdpPinged.change {waiting : List (Except String UInt64)}
    (h : UdpPinged ks waiting w.udpOut) (k : Change A) :
    UdpPinged (ks ++ [k]) waiting (Reactor.change k w).udpOut := by
  obtain ⟨log, hlog, hsubmits, hticks⟩ := h
  cases k with
  | submit packet =>
    refine ⟨log ++ [.inr packet], ?_, ?_, ?_⟩
    · rw [List.map_append, ← hlog]
      rfl
    · rw [List.filterMap_append, List.filterMap_append, hsubmits]
      rfl
    · rw [filterMap_snoc_of_none rfl, filterMap_snoc_of_none rfl]
      exact hticks
  | udpTick t =>
    refine ⟨log, hlog, ?_, ?_⟩
    · rwa [filterMap_snoc_of_none rfl]
    · rw [List.filterMap_append, hticks, List.append_assoc]
      rfl
  | _ =>
    refine ⟨log, hlog, ?_, ?_⟩
    · rwa [filterMap_snoc_of_none rfl]
    · rwa [filterMap_snoc_of_none rfl]

theorem UdpPingInv.change {s : Unit ⊕ AudioOutPacket} (h : UdpPingInv ks s w) (k : Change A) :
    UdpPingInv (ks ++ [k]) s (Reactor.change k w) := by
  rcases s with _ | packet
  · exact UdpPinged.change h k
  · obtain ⟨timestamp, rfl, h⟩ := h
    exact ⟨timestamp, rfl, h.change k⟩

theorem Submitted.change (h : w.Submitted ks) (k : Change A) :
    (Reactor.change k w).Submitted (ks ++ [k]) := by
  obtain ⟨hnet, waiting, hle, hudp⟩ := h
  exact ⟨net_change (fun _ _ => Net.Logged.change) hnet k, waiting, hle, hudp.change k⟩

end Change

/-! ### What holds of the tasks alone -/

/-- What holds of `ping_tasks`. -/
def PingInv (ks : List (Change A)) : PingState → Reactor E D K M A → Prop :=
  Future.Both (fun s w => TcpPingInv (ks.filterMap Change.net?) s w.net) (UdpPingInv ks)

/-- Every tick that has been taken has become a ping. -/
structure AllPinged (ks : List (Change A)) (w : Reactor E D K M A) : Prop where
  net : w.net.Pinged (ks.filterMap Change.net?) []
  udp : UdpPinged ks [] w.udpOut

theorem AllPinged.submitted {ks : List (Change A)} {w : Reactor E D K M A} (h : AllPinged ks w) :
    w.Submitted ks :=
  ⟨⟨[], Nat.zero_le 1, h.net⟩, [], Nat.zero_le 1, h.udp⟩

theorem AllPinged.change {ks : List (Change A)} {w : Reactor E D K M A} (h : AllPinged ks w)
    (k : Change A) : AllPinged (ks ++ [k]) (Reactor.change k w) :=
  ⟨net_change (X := fun ks n => n.Pinged ks []) (fun _ _ => Pinged.change) h.net k, h.udp.change k⟩

theorem PingInv.submitted {ks : List (Change A)} {s : PingState} {w : Reactor E D K M A}
    (h : PingInv ks s w) : w.Submitted ks := by
  obtain ⟨s, hs⟩ := Future.Both.left h
  obtain ⟨t, ht⟩ := Future.Both.right h
  exact ⟨TcpPingInv.logged hs, UdpPingInv.logged ht⟩

theorem PingInv.change {ks : List (Change A)} {s : PingState} {w : Reactor E D K M A}
    (h : PingInv ks s w) (k : Change A) : PingInv (ks ++ [k]) s (Reactor.change k w) :=
  Future.Both.mono h
    (fun s hs => net_change (X := fun ks n => TcpPingInv ks s n) (fun _ _ => TcpPingInv.change)
      hs k)
    fun _ ht => ht.change k

theorem SrcRxInv.played [AppSrc S] {s : SrcRxState S} {w : Reactor E D K M A} (h : SrcRxInv s w) :
    ∃ x : Except Unit (List S), HasPlayed x w.voxInp := by
  rcases s with elems | x
  · exact ⟨_, h⟩
  · exact ⟨x, h⟩

variable [OpusEncoder E] [OpusDecoder D] [CryptState K] [HashMap M UInt64 Remote]

/-! ### What the others do not break -/

section Stable

variable {pb : CodedInputStream} {fr : FailedRead} {c : AudioPacketCodec E D K M} {addr : A}
  {N : Net → Net → Prop} {parts : List Part} {w w' : Reactor E D K M A}

theorem Moves.reading (hstep : Moves pb fr c N parts w w') (hparts : .framed ∉ parts)
    {part : Bytes} (h : Reading pb fr c part w) : Reading pb fr c part w' := by
  obtain ⟨hreceived, hcontrol⟩ := hstep.kept .framed hparts
  obtain ⟨hran, hshort, hpart⟩ := h
  refine ⟨hstep.ran hran, ?_, ?_⟩
  · rwa [hcontrol]
  · rw [hreceived, hcontrol, hpart]

theorem Moves.hearing (hstep : Moves pb fr c N parts w w') (hparts : .heard ∉ parts)
    {waiting : Option VoxInp} (h : Hearing pb fr c waiting w) : Hearing pb fr c waiting w' := by
  obtain ⟨htaken, hsub, hdatagrams, hvox⟩ := hstep.kept .heard hparts
  obtain ⟨hran, hall, hheard⟩ := h
  refine ⟨hstep.ran hran, ?_, ?_⟩
  · rw [hdatagrams, hall, htaken]
  · rw [Heard, hvox, hsub]
    exact hheard

theorem Moves.speaking (hstep : Moves pb fr c N parts w w') (hparts : .spoken ∉ parts)
    {waiting : Option (A × AudioOutPacket)} (h : Speaking pb fr c addr waiting w) :
    Speaking pb fr c addr waiting w' := by
  obtain ⟨⟨packets, hrx, hsub⟩, ⟨hsent, hwr, haddr, hflushed⟩, hout, hlog⟩ :=
    hstep.kept .spoken hparts
  obtain ⟨hran, hspoken, hall, hnil⟩ := h
  refine ⟨hstep.ran hran, ?_, ?_, ?_⟩
  · rw [Spoken, hsub, hrx, hout, List.map_append, List.map_append, hspoken, List.append_assoc,
      List.append_assoc]
  · rw [hlog, hall, hsent, unflushed, unflushed, hflushed, hwr, haddr]
  · rwa [hflushed, hwr]

theorem Moves.sending (hstep : Moves pb fr c N parts w w') (hparts : .spoken ∉ parts)
    {waiting : Option (A × AudioOutPacket)} (h : Sending pb fr c addr waiting w) :
    Sending pb fr c addr waiting w' := by
  refine ⟨hstep.speaking hparts h.1, ?_⟩
  obtain ⟨-, ⟨hsent, -⟩, -⟩ := hstep.kept .spoken hparts
  rw [Whole, hsent]
  exact h.2

theorem Moves.flushed (hstep : Moves pb fr c N parts w w') (hparts : .spoken ∉ parts)
    (h : Flushed pb fr c addr w) : Flushed pb fr c addr w' := by
  obtain ⟨-, ⟨-, -, -, hflushed⟩, -⟩ := hstep.kept .spoken hparts
  exact ⟨hstep.sending hparts h.1, hflushed.trans h.2⟩

theorem Moves.played [AppSrc S] (hstep : Moves pb fr c N parts w w') (hparts : .played ∉ parts)
    {x : Except Unit (List S)} (h : HasPlayed x w.voxInp) : HasPlayed x w'.voxInp := by
  obtain ⟨items, hrx, hsub⟩ := hstep.kept .played hparts
  obtain ⟨played, hall, hplayed⟩ := h
  exact ⟨played, by rw [hsub, hrx, hall, List.append_assoc], hplayed⟩

theorem Moves.udpPinged (hstep : Moves pb fr c N parts w w') (hparts : .pinged ∉ parts)
    {ks : List (Change A)} {waiting : List (Except String UInt64)}
    (h : UdpPinged ks waiting w.udpOut) : UdpPinged ks waiting w'.udpOut := by
  obtain ⟨hsub, hticks⟩ := hstep.kept .pinged hparts
  obtain ⟨log, hlog, hsubmits, hdue⟩ := h
  exact ⟨log, hsub.trans hlog, hsubmits, by rw [hticks, hdue]⟩

theorem stable_udpPingInv (hparts : .pinged ∉ parts) {ks : List (Change A)}
    (s : Unit ⊕ AudioOutPacket) :
    Future.Stable (Moves (A := A) pb fr c N parts) (UdpPingInv ks s) := by
  rcases s with _ | packet
  · exact fun w w' hstep h => hstep.udpPinged hparts h
  · rintro w w' hstep ⟨timestamp, rfl, h⟩
    exact ⟨timestamp, rfl, hstep.udpPinged hparts h⟩

theorem stable_tcpRecvInv (hparts : .framed ∉ parts) (s : TcpRecvState) :
    Future.Stable (Moves (A := A) pb fr c N parts) (TcpRecvInv pb fr c s) := by
  rcases s with ((s | s) | s) | s
  · rintro w w' hstep ⟨hlt, hwant, h⟩
    exact ⟨hlt, hwant, hstep.reading hparts h⟩
  · rintro w w' hstep ⟨hlt, hwant, h⟩
    exact ⟨hlt, hwant, hstep.reading hparts h⟩
  · rintro w w' hstep ⟨hlt, hwant, h⟩
    exact ⟨hlt, hwant, hstep.reading hparts h⟩
  · exact fun _ _ _ h => h

theorem stable_udpRecvInv (hparts : .heard ∉ parts) (s : Unit ⊕ Option VoxInp) :
    Future.Stable (Moves (A := A) pb fr c N parts) (UdpRecvInv pb fr c s) := by
  rcases s with _ | waiting
  · exact fun w w' hstep h => hstep.hearing hparts h
  · exact fun w w' hstep h => hstep.hearing hparts h

theorem stable_udpWriterInv (hparts : .spoken ∉ parts)
    (s : Unit ⊕ Option (A × AudioOutPacket)) :
    Future.Stable (Moves pb fr c N parts) (UdpWriterInv pb fr c addr s) := by
  rcases s with _ | waiting
  · exact fun w w' hstep h => hstep.flushed hparts h
  · exact fun w w' hstep h => hstep.sending hparts h

theorem stable_srcRxInv [AppSrc S] (hparts : .played ∉ parts) (s : SrcRxState S) :
    Future.Stable (Moves (A := A) pb fr c N parts) (SrcRxInv s) := by
  rcases s with elems | x
  · exact fun w w' hstep h => hstep.played hparts h
  · exact fun w w' hstep h => hstep.played hparts h

/-- What is stable for the TCP side is stable for the whole. -/
theorem stable_onNet {X : Net → Prop} (hX : Future.Stable N X) :
    Future.Stable (Moves (A := A) pb fr c N parts) fun w => X w.net :=
  fun w w' hstep h => hX w.net w'.net hstep.net h

theorem stable_pingInv (hN : ∀ n n', N n n' → Submits n n') (hparts : .pinged ∉ parts)
    {ks : List (Change A)} (s : PingState) :
    Future.Stable (Moves (A := A) pb fr c N parts) (PingInv ks s) :=
  Future.stable_both (fun s => stable_onNet ((stable_tcpPingInv s).mono hN))
    (stable_udpPingInv hparts) s

theorem stable_works {X : Reactor E D K M A → Prop} (hX : Future.Stable (Moves pb fr c N parts) X) :
    Future.Stable (Works pb fr c N parts) X :=
  fun w w' hstep h => hX w w' hstep.toMoves h

end Stable

/-! ### The tasks side by side -/

section Tasks

variable {pb : CodedInputStream} {fr : FailedRead} {c : AudioPacketCodec E D K M} {addr : A}
  {random : UInt16}

/-- A future of `Net` leaves the rest of the world alone. -/
theorem onNet_polls {σ α ε : Type} {F : Future Net σ α ε} {N : Net → Net → Prop}
    {I : σ → Net → Prop} {Q : α → Net → Prop} {X : ε → Net → Prop} (hF : F.Meets N I Q X) :
    (onNet F : Future (Reactor E D K M A) _ _ _).Polls (fun _ => False) (Works pb fr c N [])
      (fun s w => I s w.net) (fun s w => I s w.net) (fun a w => Q a w.net)
      fun e w => X e w.net := by
  refine ((Future.meets_iff.mp hF).onPart fun _ _ => rfl).mono (fun _ h => h) ?_ (fun _ _ h => h)
    (fun _ _ h => h) (fun _ _ h => h) fun _ _ h => h
  rintro w _ ⟨n, hstep, rfl⟩
  refine ⟨⟨hstep, ?_, fun h => h⟩, rfl, rfl⟩
  intro q _
  cases q with
  | framed => exact (steps_kept .framed).refl w
  | heard => exact (steps_kept .heard).refl w
  | spoken => exact (steps_kept .spoken).refl w
  | played => exact (steps_kept .played).refl w
  | pinged => exact (steps_kept .pinged).refl w

theorem pingTasks_polls (ks : List (Change A)) :
    (pingTasks : Future (Reactor E D K M A) _ _ _).Polls (fun _ => False)
      (Works pb fr c Enqueues [.pinged]) (PingInv ks) (PingInv ks) (fun _ _ => False)
      fun _ => Submitted ks := by
  refine Future.Polls.join_forever (steps_works steps_enqueues _) (steps_works steps_enqueues [])
    (steps_works steps_eq [.pinged]) (fun _ _ h => h.mono (fun _ _ h => h) (List.nil_subset _))
    (fun _ _ h => h.mono (fun _ _ => enqueues_of_eq) (List.Subset.refl _))
    (onNet_polls (tcpPing_meets _)) (udpPing_polls ks)
    (fun s => stable_works (stable_onNet (stable_eq _)))
    (fun s => stable_works (stable_udpPingInv List.not_mem_nil s)) ?_ ?_ (fun _ _ h _ => h)
    fun _ _ h _ => h
  · exact fun _ _ _ h ht => ⟨h, UdpPingInv.logged ht⟩
  · exact fun _ _ _ h hs => ⟨TcpPingInv.logged hs, h⟩

variable (pb fr c)

/-- What holds of `recv_tasks`. -/
def RecvInv : RecvState → Reactor E D K M A → Prop :=
  Future.Both (TcpRecvInv pb fr c) (UdpRecvInv pb fr c)

/-- What has come in has been handled, but for a part of a frame. -/
def RecvEnd (w : Reactor E D K M A) : Prop :=
  TcpEnd pb fr c w ∧ ∃ waiting, Hearing pb fr c waiting w

/-- The client panics on something that has come in. -/
def RecvBlame (w : Reactor E D K M A) : Prop :=
  (TcpBlame pb fr c w ∧ ∃ waiting, Hearing pb fr c waiting w) ∨
    (UdpBlame pb fr c w ∧ TcpEnd pb fr c w)

variable {pb fr c}

theorem UdpRecvInv.hearing {s : Unit ⊕ Option VoxInp} {w : Reactor E D K M A}
    (h : UdpRecvInv pb fr c s w) : ∃ waiting, Hearing pb fr c waiting w := by
  rcases s with _ | waiting
  · exact ⟨none, h⟩
  · exact ⟨waiting, h⟩

theorem RecvInv.recvEnd {s : RecvState} {w : Reactor E D K M A} (h : RecvInv pb fr c s w) :
    RecvEnd pb fr c w := by
  rcases s with ⟨s | _, t | _⟩
  · exact ⟨TcpRecvInv.tcpEnd h.1, UdpRecvInv.hearing h.2⟩
  all_goals exact h.elim

theorem recvTasks_polls : (recvTasks pb fr : Future (Reactor E D K M A) _ _ _).Polls
    (RecvBlame pb fr c) (Works pb fr c (fun n n' => n' = n) [.framed, .heard]) (RecvInv pb fr c)
    (RecvInv pb fr c) (fun _ _ => False) fun _ => RecvEnd pb fr c := by
  refine Future.Polls.join_forever (steps_works steps_eq _) (steps_works steps_eq _)
    (steps_works steps_eq _) (fun _ _ h => h.mono (fun _ _ h => h) (by decide))
    (fun _ _ h => h.mono (fun _ _ h => h) (by decide)) tcpRecvLoop_polls udpRecvLoop_polls
    (fun s => stable_works (stable_tcpRecvInv (by decide) s))
    (fun s => stable_works (stable_udpRecvInv (by decide) s)) ?_ ?_ ?_ ?_
  · exact fun _ _ _ h ht => ⟨h, UdpRecvInv.hearing ht⟩
  · exact fun _ _ _ h hs => ⟨TcpRecvInv.tcpEnd hs, h⟩
  · exact fun _ _ h ht => .inl ⟨h, UdpRecvInv.hearing ht⟩
  · exact fun _ _ h hs => .inr ⟨h, TcpRecvInv.tcpEnd hs⟩

variable (pb fr c random addr)

/-- What holds of `send_tasks`. -/
def SendInv : SendState A → Reactor E D K M A → Prop :=
  Future.Both (fun s w => WriterInv random s w.net) (UdpWriterInv pb fr c addr)

/-- What is to go out has gone out, but for what waits. -/
def SendEnd (w : Reactor E D K M A) : Prop :=
  w.net.Safe random ∧ ∃ waiting, Speaking pb fr c addr waiting w

/-- The client panics on a packet that is to go out. -/
def SendBlame (w : Reactor E D K M A) : Prop := SpeakBlame pb fr c addr w ∧ w.net.Safe random

variable {pb fr c random addr}

theorem UdpWriterInv.speaking {s : Unit ⊕ Option (A × AudioOutPacket)} {w : Reactor E D K M A}
    (h : UdpWriterInv pb fr c addr s w) : ∃ waiting, Speaking pb fr c addr waiting w := by
  rcases s with _ | waiting
  · exact ⟨none, h.1.1⟩
  · exact ⟨waiting, h.1⟩

theorem SendInv.sendEnd {s : SendState A} {w : Reactor E D K M A}
    (h : SendInv pb fr c addr random s w) : SendEnd pb fr c addr random w := by
  rcases s with ⟨s | _, t | _⟩
  · exact ⟨WriterInv.safe h.1, UdpWriterInv.speaking h.2⟩
  all_goals exact h.elim

theorem sendTasks_polls : (sendTasks addr : Future (Reactor E D K M A) _ _ _).Polls
    (SendBlame pb fr c addr random) (Works pb fr c Submits [.spoken])
    (SendInv pb fr c addr random) (SendInv pb fr c addr random) (fun _ _ => False)
    fun _ => SendEnd pb fr c addr random := by
  refine Future.Polls.join_forever (steps_works steps_submits _) (steps_works steps_submits _)
    (steps_works steps_eq _) (fun _ _ h => h.mono (fun _ _ h => h) (by decide))
    (fun _ _ h => h.mono (fun _ _ => submits_of_eq) (List.Subset.refl _))
    (onNet_polls (tcpWriter_meets random)) udpWriter_polls
    (fun s => stable_works (stable_onNet (stable_eq _)))
    (fun s => stable_works (stable_udpWriterInv (by decide) s)) ?_ ?_ ?_ ?_
  · exact fun _ _ _ h ht => ⟨h, UdpWriterInv.speaking ht⟩
  · exact fun _ _ _ h hs => ⟨WriterInv.safe hs, h⟩
  · exact fun _ _ h _ => h.elim
  · exact fun _ _ h hs => ⟨h, WriterInv.safe hs⟩

end Tasks

/-! ### What holds wherever the tasks are -/

/-- The events are what has come in, each thing once and in its order, but for the part of a frame,
and a packet that waits for the socket. -/
structure Accounts (addr : A) (es : List (Event A)) (w : Reactor E D K M A) : Prop where
  control : ∃ part, Incomplete part ∧ Framed es part w.tcpIn
  datagrams : es.filterMap Event.datagram? = w.udpIn.taken
  outgoing : ∃ waiting, Spoken addr es waiting w.udpOut

/-- What has come of the events is in the channel, or with the socket, but for a sound that waits
for room and a datagram that waits for the socket. -/
structure Delivers (w : Reactor E D K M A) : Prop where
  heard : ∃ waiting, Heard w.log waiting w.voxInp
  sent : Sent w.log w.udpOut

section Held

variable (pb : CodedInputStream) (fr : FailedRead) (c : AudioPacketCodec E D K M) (addr : A)
  (random : UInt16)

/-- What has been done is a run of the client on what has come in, and what came of it is on its
way. -/
structure Held (w : Reactor E D K M A) : Prop where
  ran : w.Ran pb fr c
  accounts : Accounts addr w.events w
  delivers : Delivers w
  safe : w.net.Safe random

/-- The same, but that the client panics on the last thing that has come in. -/
structure Blamed (w : Reactor E D K M A) : Prop where
  panics : ∃ event, Accounts addr (w.events ++ [event]) w ∧
    (client pb fr).run c (w.events ++ [event]) = .panicked
  ran : w.Ran pb fr c
  delivers : Delivers w
  safe : w.net.Safe random

variable {pb fr c addr random} {w : Reactor E D K M A}

theorem held_of_ends (hrecv : RecvEnd pb fr c w) (hsend : SendEnd pb fr c addr random w) :
    Held pb fr c addr random w := by
  obtain ⟨⟨part, hpart, hran, hframed⟩, heard, -, hdatagrams, hheard⟩ := hrecv
  obtain ⟨hsafe, waiting, -, hspoken, hsent⟩ := hsend
  exact ⟨hran, ⟨⟨part, hpart, hframed⟩, hdatagrams, waiting, hspoken⟩, ⟨⟨heard, hheard⟩, hsent⟩,
    hsafe⟩

theorem incomplete_nil : Incomplete [] := incomplete_of_length_lt (by decide)

theorem blamed_of_recvBlame (hrecv : RecvBlame pb fr c w)
    (hsend : SendEnd pb fr c addr random w) : Blamed pb fr c addr random w := by
  obtain ⟨hsafe, waiting, -, hspoken, hsent⟩ := hsend
  rcases hrecv with ⟨⟨frame, hran, hstep, hframed⟩, heard, -, hdatagrams, hheard⟩ |
    ⟨⟨addr', buf, hran, hstep, hdatagrams, hheard⟩, part, hpart, -, hframed⟩
  · refine ⟨⟨.control frame, ⟨⟨[], incomplete_nil, hframed⟩, ?_, waiting, ?_⟩,
      Machine.Logs.run_panicked hran hstep⟩, hran, ⟨⟨heard, hheard⟩, hsent⟩, hsafe⟩
    · rwa [filterMap_snoc_of_none rfl]
    · rwa [Spoken, filterMap_snoc_of_none rfl]
  · refine ⟨⟨.datagram addr' buf, ⟨⟨part, hpart, ?_⟩, hdatagrams, waiting, ?_⟩,
      Machine.Logs.run_panicked hran hstep⟩, hran, ⟨⟨none, hheard⟩, hsent⟩, hsafe⟩
    · rwa [Framed, filterMap_snoc_of_none rfl]
    · rwa [Spoken, filterMap_snoc_of_none rfl]

theorem blamed_of_sendBlame (hsend : SendBlame pb fr c addr random w)
    (hrecv : RecvEnd pb fr c w) : Blamed pb fr c addr random w := by
  obtain ⟨⟨part, hpart, -, hframed⟩, heard, -, hdatagrams, hheard⟩ := hrecv
  obtain ⟨⟨addr', packet, hran, hstep, hspoken, hsent⟩, hsafe⟩ := hsend
  refine ⟨⟨.outgoing addr' packet, ⟨⟨part, hpart, ?_⟩, ?_, none, hspoken⟩,
    Machine.Logs.run_panicked hran hstep⟩, hran, ⟨⟨heard, hheard⟩, hsent⟩, hsafe⟩
  · rwa [Framed, filterMap_snoc_of_none rfl]
  · rwa [filterMap_snoc_of_none rfl]

end Held

/-! ### One step after the other -/

section Comm

variable (pb : CodedInputStream) (fr : FailedRead) (c : AudioPacketCodec E D K M) (addr : A)
  (random : UInt16)

/-- What holds of `recv_tasks` and `send_tasks`. -/
def RestInv : RestState A → Reactor E D K M A → Prop :=
  Future.Both (RecvInv pb fr c) (SendInv pb fr c addr random)

/-- What holds of all tasks. -/
def TasksInv (ks : List (Change A)) : TasksState A → Reactor E D K M A → Prop :=
  Future.Both (PingInv ks) (RestInv pb fr c addr random)

/-- The tasks can start. -/
structure Idle (w : Reactor E D K M A) : Prop where
  turn : TcpRecvInv pb fr c startTurn w
  hearing : Hearing pb fr c none w
  flushed : Flushed pb fr c addr w

/-- What holds of `comm`. -/
def CommInv (ks : List (Change A)) : CommState A → Reactor E D K M A → Prop :=
  Sum.elim (fun s w => GreetInv random s w.net ∧ Idle pb fr c addr w ∧ AllPinged ks w)
    (TasksInv pb fr c addr random ks)

variable {pb fr c addr random} {N : Net → Net → Prop} {parts : List Part} {ks : List (Change A)}
  {w : Reactor E D K M A}

theorem RestInv.held {s : RestState A} (h : RestInv pb fr c addr random s w) :
    Held pb fr c addr random w := by
  rcases s with ⟨s | _, t | _⟩
  · exact held_of_ends (RecvInv.recvEnd h.1) (SendInv.sendEnd h.2)
  all_goals exact h.elim

theorem Idle.held (h : Idle pb fr c addr w) (hsafe : w.net.Safe random) :
    Held pb fr c addr random w :=
  held_of_ends ⟨h.turn.tcpEnd, none, h.hearing⟩ ⟨hsafe, none, h.flushed.1.1⟩

theorem CommInv.held {s : CommState A} (h : CommInv pb fr c addr random ks s w) :
    Held pb fr c addr random w := by
  rcases s with s | s
  · exact h.2.1.held (GreetInv.safe h.1)
  · obtain ⟨t, ht⟩ := Future.Both.right h
    exact RestInv.held ht

theorem CommInv.submitted {s : CommState A} (h : CommInv pb fr c addr random ks s w) :
    w.Submitted ks := by
  rcases s with s | s
  · exact h.2.2.submitted
  · obtain ⟨t, ht⟩ := Future.Both.left h
    exact PingInv.submitted ht

theorem stable_recvInv (hframed : .framed ∉ parts) (hheard : .heard ∉ parts) (s : RecvState) :
    Future.Stable (Moves (A := A) pb fr c N parts) (RecvInv pb fr c s) :=
  Future.stable_both (stable_tcpRecvInv hframed) (stable_udpRecvInv hheard) s

theorem stable_sendInv (hN : ∀ n n', N n n' → Enqueues n n') (hspoken : .spoken ∉ parts)
    (s : SendState A) : Future.Stable (Moves pb fr c N parts) (SendInv pb fr c addr random s) :=
  Future.stable_both (fun s => stable_onNet ((stable_writerInv random s).mono hN))
    (stable_udpWriterInv hspoken) s

theorem stable_restInv (hN : ∀ n n', N n n' → Enqueues n n') (hframed : .framed ∉ parts)
    (hheard : .heard ∉ parts) (hspoken : .spoken ∉ parts) (s : RestState A) :
    Future.Stable (Moves pb fr c N parts) (RestInv pb fr c addr random s) :=
  Future.stable_both (stable_recvInv hframed hheard) (stable_sendInv hN hspoken) s

theorem stable_idle (hframed : .framed ∉ parts) (hheard : .heard ∉ parts)
    (hspoken : .spoken ∉ parts) :
    Future.Stable (Moves pb fr c N parts) (Idle pb fr c addr) := by
  rintro w w' hstep ⟨hturn, hhearing, hflushed⟩
  exact ⟨stable_tcpRecvInv hframed _ w w' hstep hturn, hstep.hearing hheard hhearing,
    hstep.flushed hspoken hflushed⟩

theorem stable_allPinged (hN : ∀ n n', N n n' → Submits n n') (hpinged : .pinged ∉ parts) :
    Future.Stable (Moves (A := A) pb fr c N parts) (AllPinged ks) := by
  rintro w w' hstep ⟨hnet, hudp⟩
  exact ⟨(hN _ _ hstep.net).pinged hnet, hstep.udpPinged hpinged hudp⟩

/-- What is done beside the connection does not break what it relies on. -/
theorem stable_commInv (hN : ∀ n n', N n n' → n' = n) (hframed : .framed ∉ parts)
    (hheard : .heard ∉ parts) (hspoken : .spoken ∉ parts) (hpinged : .pinged ∉ parts)
    (s : CommState A) :
    Future.Stable (Moves pb fr c N parts) (CommInv pb fr c addr random ks s) := by
  have hsubmits : ∀ n n', N n n' → Submits n n' := fun n n' h => submits_of_eq (hN n n' h)
  have henqueues : ∀ n n', N n n' → Enqueues n n' := fun n n' h => enqueues_of_eq (hN n n' h)
  rcases s with s | s
  · rintro w w' hstep ⟨hgreet, hidle, hall⟩
    exact ⟨stable_greetInv random s _ _ (henqueues _ _ hstep.net) hgreet,
      stable_idle hframed hheard hspoken w w' hstep hidle,
      stable_allPinged hsubmits hpinged w w' hstep hall⟩
  · exact Future.stable_both (stable_pingInv hsubmits hpinged)
      (stable_restInv henqueues hframed hheard hspoken) s

theorem restTasks_polls :
    ((recvTasks pb fr).join (sendTasks addr) : Future (Reactor E D K M A) _ _ _).Polls
      (Blamed pb fr c addr random) (Works pb fr c Submits [.framed, .heard, .spoken])
      (RestInv pb fr c addr random) (RestInv pb fr c addr random) (fun _ _ => False)
      fun _ => Held pb fr c addr random := by
  refine Future.Polls.join_forever (steps_works steps_submits _) (steps_works steps_eq _)
    (steps_works steps_submits _)
    (fun _ _ h => h.mono (fun _ _ => submits_of_eq) (by decide))
    (fun _ _ h => h.mono (fun _ _ h => h) (by decide)) recvTasks_polls sendTasks_polls
    (fun s => stable_works (stable_recvInv (by decide) (by decide) s))
    (fun s => stable_works (stable_sendInv (fun _ _ => enqueues_of_eq) (by decide) s)) ?_ ?_ ?_ ?_
  · exact fun _ _ _ h hs => held_of_ends h (SendInv.sendEnd hs)
  · exact fun _ _ _ h hs => held_of_ends (RecvInv.recvEnd hs) h
  · exact fun _ _ h hs => blamed_of_recvBlame h (SendInv.sendEnd hs)
  · exact fun _ _ h hs => blamed_of_sendBlame h (RecvInv.recvEnd hs)

theorem tasks_polls (ks : List (Change A)) :
    (tasks pb fr addr : Future (Reactor E D K M A) _ _ _).Polls
      (fun w => Blamed pb fr c addr random w ∧ w.Submitted ks)
      (Works pb fr c (fun _ _ => True) [.framed, .heard, .spoken, .pinged])
      (TasksInv pb fr c addr random ks) (TasksInv pb fr c addr random ks) (fun _ _ => False)
      fun _ w => Held pb fr c addr random w ∧ w.Submitted ks := by
  refine Future.Polls.join_forever (steps_works Future.steps_true _)
    (steps_works steps_enqueues [.pinged]) (steps_works steps_submits [.framed, .heard, .spoken])
    (fun _ _ h => h.mono (fun _ _ _ => trivial) (by decide))
    (fun _ _ h => h.mono (fun _ _ _ => trivial) (by decide)) (pingTasks_polls ks) restTasks_polls
    (fun s => stable_works (stable_pingInv (fun _ _ h => h) (by decide) s))
    (fun s => stable_works (stable_restInv (fun _ _ h => h) (by decide) (by decide) (by decide) s))
    ?_ ?_ ?_ ?_
  · exact fun _ _ _ h ht => ⟨RestInv.held ht, h⟩
  · exact fun _ _ _ h hs => ⟨h, PingInv.submitted hs⟩
  · exact fun _ _ h _ => h.elim
  · exact fun _ _ h hs => ⟨h, PingInv.submitted hs⟩

/-- **The contract of the connection**, with all of its tasks. -/
theorem comm_polls (text : SslError → String) (ks : List (Change A)) :
    (comm text random pb fr addr : Future (Reactor E D K M A) _ _ _).Polls
      (fun w => Blamed pb fr c addr random w ∧ w.Submitted ks)
      (Works pb fr c (fun _ _ => True) [.framed, .heard, .spoken, .pinged])
      (CommInv pb fr c addr random ks) (CommInv pb fr c addr random ks) (fun _ _ => False)
      fun _ w => Held pb fr c addr random w ∧ w.Submitted ks := by
  have hidle : Future.Stable (Works pb fr c Submits [])
      fun w : Reactor E D K M A => Idle pb fr c addr w ∧ AllPinged ks w := by
    intro w w' hstep h
    exact ⟨stable_idle (by decide) (by decide) (by decide) w w' hstep.toMoves h.1,
      stable_allPinged (fun _ _ h => h) (by decide) w w' hstep.toMoves h.2⟩
  have hgreet : (onNet (greet text random) : Future (Reactor E D K M A) _ _ _).Polls
      (fun w => Blamed pb fr c addr random w ∧ w.Submitted ks)
      (Works pb fr c (fun _ _ => True) [.framed, .heard, .spoken, .pinged])
      (fun s w => GreetInv random s w.net ∧ Idle pb fr c addr w ∧ AllPinged ks w)
      (fun s w => GreetInv random s w.net ∧ Idle pb fr c addr w ∧ AllPinged ks w)
      (fun _ w => w.net.Between random ∧ Idle pb fr c addr w ∧ AllPinged ks w)
      fun _ w => Held pb fr c addr random w ∧ w.Submitted ks :=
    ((onNet_polls (greet_meets text random)).frame hidle).mono (fun _ h => h.1.elim)
      (fun _ _ h => h.mono (fun _ _ _ => trivial) (List.nil_subset _)) (fun _ _ h => h)
      (fun _ _ h => h) (fun _ _ h => h) fun _ _ h => ⟨h.2.1.held h.1, h.2.2.submitted⟩
  refine hgreet.andThen (steps_works Future.steps_true _) (tasks_polls ks) ?_
  rintro _ w ⟨hbetween, hidle, hall⟩
  exact ⟨⟨hall.net, hall.udp⟩, ⟨hidle.turn, hidle.hearing⟩, hbetween, hidle.flushed⟩

end Comm

/-! ### All of it -/

section Cmd

variable [AppSrc S]

variable (S) (pb : CodedInputStream) (fr : FailedRead) (c : AudioPacketCodec E D K M) (addr : A)
  (random : UInt16)

/-- What holds of `cmd`. -/
def CmdInv (ks : List (Change A)) : CmdState A S → Reactor E D K M A → Prop :=
  Future.Both (CommInv pb fr c addr random ks) SrcRxInv

/-- What holds of the world whatever `cmd` is waiting for. -/
def CmdHeld (w : Reactor E D K M A) : Prop :=
  Held pb fr c addr random w ∧ ∃ x : Except Unit (List S), HasPlayed x w.voxInp

/-- Either the client or `src_rx` panics on what it has got. -/
def CmdBlamed (w : Reactor E D K M A) : Prop :=
  (Blamed pb fr c addr random w ∧ ∃ x : Except Unit (List S), HasPlayed x w.voxInp) ∨
    (Held pb fr c addr random w ∧ PlayBlame S w)

variable {S pb fr c addr random} {ks : List (Change A)}

theorem CmdInv.held {s : CmdState A S} {w : Reactor E D K M A}
    (h : CmdInv S pb fr c addr random ks s w) : CmdHeld S pb fr c addr random w := by
  rcases s with ⟨s | _, t | _⟩
  · exact ⟨CommInv.held h.1, SrcRxInv.played h.2⟩
  all_goals exact h.elim

theorem CmdInv.submitted {s : CmdState A S} {w : Reactor E D K M A}
    (h : CmdInv S pb fr c addr random ks s w) : w.Submitted ks := by
  obtain ⟨s, hs⟩ := Future.Both.left h
  exact CommInv.submitted hs

/-- `src_rx` waits, or is about to say what it has made of what it has taken. -/
theorem CmdInv.srcRx {s : CmdState A S} {w : Reactor E D K M A}
    (h : CmdInv S pb fr c addr random ks s w) : ∃ src, s.2 = .inl src ∧ SrcRxInv src w := by
  rcases s with ⟨s | _, t | _⟩
  · exact ⟨t, rfl, h.2⟩
  all_goals exact h.elim

/-- **The contract of `cmd`**, for every list of changes that may have happened. -/
theorem cmd_polls (text : SslError → String) (ks : List (Change A)) :
    (cmd text random pb fr addr : Future (Reactor E D K M A) (CmdState A S) _ _).Polls
      (fun w => CmdBlamed S pb fr c addr random w ∧ w.Submitted ks)
      (Works pb fr c (fun _ _ => True) [.framed, .heard, .spoken, .pinged, .played])
      (CmdInv S pb fr c addr random ks) (CmdInv S pb fr c addr random ks) (fun _ _ => False)
      fun _ w => CmdHeld S pb fr c addr random w ∧ w.Submitted ks := by
  refine Future.Polls.join_forever (steps_works Future.steps_true _)
    (steps_works Future.steps_true [.framed, .heard, .spoken, .pinged])
    (steps_works steps_eq [.played]) (fun _ _ h => h.mono (fun _ _ h => h) (by decide))
    (fun _ _ h => h.mono (fun _ _ _ => trivial) (by decide)) (comm_polls text ks) srcRx_polls
    ?_ ?_ ?_ ?_ ?_ ?_
  · exact fun s => stable_works (stable_commInv (fun _ _ h => h) (by decide) (by decide)
      (by decide) (by decide) s)
  · exact fun s => stable_works (stable_srcRxInv (by decide) s)
  · exact fun _ _ _ h hs => ⟨⟨h.1, SrcRxInv.played hs⟩, h.2⟩
  · exact fun _ _ _ h hs => ⟨⟨CommInv.held hs, h⟩, CommInv.submitted hs⟩
  · exact fun _ _ h hs => ⟨.inl ⟨h.1, SrcRxInv.played hs⟩, h.2⟩
  · exact fun _ _ h hs => ⟨.inr ⟨CommInv.held hs, h⟩, CommInv.submitted hs⟩

end Cmd

/-! ### Whole runs -/

section Runs

variable [AppSrc S] {pb : CodedInputStream} {fr : FailedRead} {c : AudioPacketCodec E D K M}
  {addr : A} {random : UInt16}

/-- What happens in the world does not touch what has been done, and what is put into a channel
comes behind what is there. -/
theorem moves_change (k : Change A) (w : Reactor E D K M A) :
    Moves pb fr c Enqueues [.pinged] w (change k w) := by
  cases k with
  | net k =>
    refine ⟨enqueues_change k w.net, ?_, fun h => h⟩
    intro q hq
    cases q with
    | framed => exact (steps_kept .framed).refl w
    | heard => exact (steps_kept .heard).refl w
    | spoken => exact (steps_kept .spoken).refl w
    | played => exact (steps_kept .played).refl w
    | pinged => exact absurd List.mem_cons_self hq
  | submit packet =>
    refine ⟨steps_enqueues.refl _, ?_, fun h => h⟩
    intro q hq
    cases q with
    | framed => exact (steps_kept .framed).refl w
    | heard => exact (steps_kept .heard).refl w
    | spoken => exact ⟨⟨[packet], rfl, rfl⟩, ⟨rfl, rfl, rfl, rfl⟩, rfl, rfl⟩
    | played => exact (steps_kept .played).refl w
    | pinged => exact absurd List.mem_cons_self hq
  | _ =>
    refine ⟨steps_enqueues.refl _, ?_, fun h => h⟩
    intro q hq
    cases q with
    | framed => exact (steps_kept .framed).refl w
    | heard => exact (steps_kept .heard).refl w
    | spoken => exact (steps_kept .spoken).refl w
    | played => exact (steps_kept .played).refl w
    | pinged => exact absurd List.mem_cons_self hq

theorem Moves.held {N : Net → Net → Prop} {w w' : Reactor E D K M A}
    (hstep : Moves pb fr c N [.pinged] w w') (hsafe : w'.net.Safe random)
    (h : Held pb fr c addr random w) : Held pb fr c addr random w' := by
  obtain ⟨hran, ⟨⟨part, hpart, hframed⟩, hdatagrams, waiting, hspoken⟩, ⟨⟨heard, hheard⟩, hsent⟩, -⟩
    := h
  exact held_of_ends
    ⟨⟨part, hpart, hstep.reading (by decide) ⟨hran, hframed⟩⟩, heard,
      hstep.hearing (by decide) ⟨hran, hdatagrams, hheard⟩⟩
    ⟨hsafe, waiting, hstep.speaking (by decide) ⟨hran, hspoken, hsent⟩⟩

section Change

variable {ks : List (Change A)} {w : Reactor E D K M A}

theorem CommInv.change {s : CommState A} (h : CommInv pb fr c addr random ks s w) (k : Change A) :
    CommInv pb fr c addr random (ks ++ [k]) s (Reactor.change k w) := by
  have hstep : Moves pb fr c Enqueues [.pinged] w (Reactor.change k w) := moves_change k w
  rcases s with s | s
  · obtain ⟨hgreet, hidle, hall⟩ := h
    exact ⟨stable_greetInv random s _ _ hstep.net hgreet,
      stable_idle (by decide) (by decide) (by decide) w _ hstep hidle, hall.change k⟩
  · exact Future.Both.mono h (fun _ hs => PingInv.change hs k) fun t ht =>
      stable_restInv (fun _ _ h => h) (by decide) (by decide) (by decide) t w _ hstep ht

theorem CmdInv.change {s : CmdState A S} (h : CmdInv S pb fr c addr random ks s w)
    (k : Change A) : CmdInv S pb fr c addr random (ks ++ [k]) s (Reactor.change k w) := by
  have hstep : Moves pb fr c Enqueues [.pinged] w (Reactor.change k w) := moves_change k w
  exact Future.Both.mono h (fun _ hs => CommInv.change hs k) fun t ht =>
    stable_srcRxInv (by decide) t w _ hstep ht

theorem CmdHeld.change (h : CmdHeld S pb fr c addr random w) (k : Change A) :
    CmdHeld S pb fr c addr random (Reactor.change k w) := by
  have hstep : Moves pb fr c Enqueues [.pinged] w (Reactor.change k w) := moves_change k w
  obtain ⟨hheld, x, hplayed⟩ := h
  exact ⟨hstep.held (stable_safe random _ _ hstep.net hheld.safe) hheld, x,
    hstep.played (by decide) hplayed⟩

theorem stable_received {N : Net → Net → Prop} {parts : List Part} :
    Future.Stable (Works (A := A) pb fr c N parts) (Received ks) :=
  fun _ _ hstep h => ⟨hstep.reads.trans h.read, hstep.arrived.trans h.arrived⟩

end Change

variable (S pb fr c addr random)

/-- What holds at the end of a run. -/
theorem cmd_task (text : SslError → String) (first : Handshake) (outAddr : A)
    (es : List (Future.TaskEvent (Change A))) :
    (((cmd text random pb fr addr : Future (Reactor E D K M A) (CmdState A S) _ _).task change).run
      (.notReady (startCmd first), start c outAddr) es).Ends
        (∃ w ks, ks <+: es.filterMap Future.TaskEvent.change? ∧
          CmdBlamed S pb fr c addr random w ∧ w.Came ks)
        fun rw =>
          let ks := es.filterMap Future.TaskEvent.change?
          rw.1.Satisfies (CmdInv S pb fr c addr random ks) (fun _ _ => False)
            (fun _ => CmdHeld S pb fr c addr random) rw.2 ∧ rw.2.Came ks := by
  have hidle : Idle pb fr c addr (start c outAddr) :=
    ⟨⟨Nat.zero_lt_two, rfl, Machine.logs_nil c, nofun, rfl⟩, ⟨Machine.logs_nil c, rfl, rfl⟩,
      ⟨⟨Machine.logs_nil c, rfl, rfl, fun _ => rfl⟩, nofun⟩, rfl⟩
  have hstart : CmdInv S pb fr c addr random [] (startCmd first) (start c outAddr) ∧
      Received [] (start c outAddr) :=
    ⟨⟨⟨⟨nofun, rfl, rfl⟩, hidle, ⟨[], rfl, rfl, rfl⟩, [], rfl, rfl, rfl⟩, [], rfl, rfl⟩, rfl, rfl⟩
  refine (Future.Polls.run (r := .notReady (startCmd first))
    (fun ks => (cmd_polls text ks).frame (X := Received ks) stable_received) (fun _ _ _ h => h)
    (fun ks k _ r w h => ?_) hstart).mono ?_ ?_
  · exact h.mono (fun _ h => ⟨h.1.change k, h.2.change k⟩) (fun _ h => h.1.elim)
      fun _ h => ⟨⟨h.1.1.change k, h.1.2.change k⟩, h.2.change k⟩
  · rintro ⟨w, ks, hks, ⟨hblamed, hsubmitted⟩, hreceived⟩
    exact ⟨w, ks, hks, hblamed, hreceived, hsubmitted⟩
  · rintro ⟨r, w⟩ h
    cases r with
    | notReady s => exact ⟨h.1, h.2, h.1.submitted⟩
    | ready a => exact h.1.elim
    | failed e => exact ⟨h.1.1, h.2, h.1.2⟩

/-- **Any run of `cmd` is a run of the client**, however polls and changes of the world follow each
other, and wherever the reads, the datagrams and the writes are cut. It never ends well. The events
of the client are what has come in, each thing once and in its order, but for what waits to be
taken: the control frames in the bytes of the stream, the datagrams, and the packets in the channel
of `udp_tx`. What has come of them has been passed on, in order, but for what waits to be passed on,
and `src_rx` has played what it has taken, with the sources it works on as long as it waits. If the
run panics, then because the client panics on the last of the events, or `src_rx` on what was passed
on to it. -/
theorem cmd_run (text : SslError → String) (first : Handshake) (outAddr : A)
    (es : List (Future.TaskEvent (Change A))) :
    (((cmd text random pb fr addr : Future (Reactor E D K M A) (CmdState A S) _ _).task change).run
      (.notReady (startCmd first), start c outAddr) es).Ends
        (∃ w ks, ks <+: es.filterMap Future.TaskEvent.change? ∧
          CmdBlamed S pb fr c addr random w ∧ w.Came ks)
        fun rw => (∀ a, rw.1 ≠ .ready a) ∧ CmdHeld S pb fr c addr random rw.2 ∧
          (∀ s, rw.1 = .notReady s → ∃ src, s.2 = .inl src ∧ SrcRxInv src rw.2) ∧
          rw.2.Came (es.filterMap Future.TaskEvent.change?) := by
  refine (cmd_task S pb fr c addr random text first outAddr es).mono (fun h => h) ?_
  rintro ⟨r, w⟩ ⟨hr, hcame⟩
  cases r with
  | notReady s =>
    refine ⟨by simp, CmdInv.held hr, ?_, hcame⟩
    rintro _ ⟨⟩
    exact CmdInv.srcRx hr
  | ready a => exact hr.elim
  | failed e => exact ⟨by simp, hr, by simp, hcame⟩

end Runs

end Reactor

end MumbleBot
