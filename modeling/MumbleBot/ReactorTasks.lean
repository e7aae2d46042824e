import MumbleBot.Reactor

/-!
# What the tasks of the reactor rely on

Each task has a part of the world that it works on: what has come in and has not been handled is in
a buffer or a channel, and what has been handled has gone out or is about to. What a task does is
steps of `client`, and the others keep its part. `Part.Kept` says what that means for each part;
`Works` is what the tasks of some parts do to the whole.

The contracts are those of single tasks. When a poll panics, the client panics on the event that is
being handled.

## Main definitions

* `Reactor.Framed`, `Reactor.Heard`, `Reactor.Spoken`, `Reactor.Sent`, `Reactor.HasPlayed` — the
  parts
* `Reactor.Part.Kept`, `Reactor.Works` — what is kept
* `Reactor.Ran` — what has been done is a run of the client

## Main results

* `Reactor.tcpRecvLoop_polls`, `Reactor.udpRecvLoop_polls`, `Reactor.udpWriter_polls`,
  `Reactor.udpPing_polls`, `Reactor.srcRx_polls` — the contracts
-/

namespace MumbleBot

/-! ### Events by their kind -/

namespace Event

variable {A : Type}

/-- The frame, of a control frame. -/
def control? : Event A → Option Frame
  | control frame => some frame
  | _ => none

/-- The address and the bytes, of a datagram. -/
def datagram? : Event A → Option (A × Bytes)
  | datagram addr buf => some (addr, buf)
  | _ => none

/-- The address and the packet, of an outgoing one. -/
def outgoing? : Event A → Option (A × AudioOutPacket)
  | outgoing addr packet => some (addr, packet)
  | _ => none

theorem filterMap_control?_snoc (es : List (Event A)) (frame : Frame) :
    (es ++ [control frame]).filterMap control? = es.filterMap control? ++ [frame] := by
  rw [List.filterMap_append]
  rfl

theorem filterMap_datagram?_snoc (es : List (Event A)) (addr : A) (buf : Bytes) :
    (es ++ [datagram addr buf]).filterMap datagram? = es.filterMap datagram? ++ [(addr, buf)] := by
  rw [List.filterMap_append]
  rfl

theorem filterMap_outgoing?_snoc (es : List (Event A)) (addr : A) (packet : AudioOutPacket) :
    (es ++ [outgoing addr packet]).filterMap outgoing?
      = es.filterMap outgoing? ++ [(addr, packet)] := by
  rw [List.filterMap_append]
  rfl

end Event

namespace Reactor

variable {E D K M A S : Type}

/-- The events that have been handled. -/
def events (w : Reactor E D K M A) : List (Event A) := w.log.map Prod.fst

theorem events_handled (w : Reactor E D K M A) (event : Event A) (output : Output A)
    (codec : AudioPacketCodec E D K M) :
    (w.handled event output codec).events = w.events ++ [event] := by
  rw [events, handled, List.map_append]
  rfl

theorem log_handled (w : Reactor E D K M A) (event : Event A) (output : Output A)
    (codec : AudioPacketCodec E D K M) :
    (w.handled event output codec).log = w.log ++ [(event, output)] := rfl

/-! ### Where everything is -/

/-- The bytes that have been read from the stream are the control frames of some events, and `part`
behind them. -/
def Framed (es : List (Event A)) (part : Bytes) (t : TcpIn) : Prop :=
  (∀ frame ∈ es.filterMap Event.control?, frame.2.length < 2 ^ 32) ∧
    t.received = (es.filterMap Event.control?).flatMap frameBytes ++ part

/-- No frame is whole in these bytes. -/
def Incomplete (part : Bytes) : Prop :=
  ∀ (frame : Frame) (rest : Bytes), frame.2.length < 2 ^ 32 → part ≠ frameBytes frame ++ rest

/-- What has been heard is in the channel, but for what waits for room in it. -/
def Heard (log : List (Event A × Output A)) (waiting : Option VoxInp) (v : VoxInpChannel) : Prop :=
  log.filterMap (fun x => x.2.vox) = v.submitted ++ waiting.toList

/-- The packets that have been put into the channel have been encoded, but for one that waits for
the socket and those that are still in it. -/
def Spoken (addr : A) (es : List (Event A)) (waiting : Option (A × AudioOutPacket)) (u : UdpOut A) :
    Prop :=
  u.submitted.map (addr, ·) =
    es.filterMap Event.outgoing? ++ (waiting.toList ++ u.rx.map (addr, ·))

/-- The packets that have been taken, one that waits, and those in the channel. -/
theorem Spoken.submitted {es : List (Event A)} {waiting : Option (A × AudioOutPacket)}
    {u : UdpOut A} {addr : A} (h : Spoken addr es waiting u) :
    ∃ (taken : List AudioOutPacket) (waiting : Option AudioOutPacket),
      taken.map (addr, ·) = es.filterMap Event.outgoing? ∧
        u.submitted = taken ++ (waiting.toList ++ u.rx) := by
  obtain ⟨taken, rest, hsub, htaken, hrest⟩ := List.map_eq_append_iff.mp h
  obtain ⟨front, back, rfl, hfront, hback⟩ := List.map_eq_append_iff.mp hrest
  obtain rfl := List.map_injective_iff.mpr (Prod.mk_right_injective addr) hback
  cases waiting with
  | none =>
    obtain rfl := List.map_eq_nil_iff.mp hfront
    exact ⟨taken, none, htaken, hsub⟩
  | some item =>
    obtain ⟨packet, rfl, -⟩ := List.map_eq_singleton_iff.mp hfront
    exact ⟨taken, some packet, htaken, hsub⟩

/-- The datagram that has not been flushed. -/
def unflushed (u : UdpOut A) : List (A × Bytes) := if u.flushed then [] else [(u.outAddr, u.wr)]

/-- The datagrams that have been encoded have been given to the socket, but for one that has not
been flushed. -/
def Sent (log : List (Event A × Output A)) (u : UdpOut A) : Prop :=
  log.filterMap (fun x => x.2.sent) = u.sent.map Prod.fst ++ unflushed u ∧
    (u.flushed = true → u.wr = [])

/-- What has been put into the channel of `udp_tx` after the changes `ks`: the packets from outside,
in their order, and in its order a ping for every tick that has been taken, but for those in
`waiting`. -/
def UdpPinged (ks : List (Change A)) (waiting : List (Except String UInt64)) (u : UdpOut A) :
    Prop :=
  ∃ log : List (UInt64 ⊕ AudioOutPacket), u.submitted = log.map (Sum.elim udpPingPacket id) ∧
    log.filterMap Sum.getRight? = ks.filterMap Change.submit? ∧
    ks.filterMap Change.udpTick? = (log.filterMap Sum.getLeft?).map .ok ++ waiting ++ u.ticks

/-- The same wherever `udp_ping` is: there is one tick at most of which it has not made a ping. -/
def UdpLogged (ks : List (Change A)) (u : UdpOut A) : Prop :=
  ∃ waiting, waiting.length ≤ 1 ∧ UdpPinged ks waiting u

/-- What holds of `udp_ping`: it waits for a tick, or with the ping of a tick that it has taken. -/
def UdpPingInv (ks : List (Change A)) : Unit ⊕ AudioOutPacket → Reactor E D K M A → Prop :=
  Sum.elim (fun _ w => UdpPinged ks [] w.udpOut) fun packet w =>
    ∃ timestamp, packet = udpPingPacket timestamp ∧ UdpPinged ks [.ok timestamp] w.udpOut

theorem UdpPingInv.logged {ks : List (Change A)} {s : Unit ⊕ AudioOutPacket}
    {w : Reactor E D K M A} (h : UdpPingInv ks s w) : UdpLogged ks w.udpOut := by
  rcases s with _ | packet
  · exact ⟨[], Nat.zero_le 1, h⟩
  · obtain ⟨timestamp, -, h⟩ := h
    exact ⟨[.ok timestamp], Nat.le_refl 1, h⟩

/-- `src_rx` has played what is not in the channel any more, with the result `x`. -/
def HasPlayed [AppSrc S] (x : Except Unit (List S)) (v : VoxInpChannel) : Prop :=
  ∃ played, v.submitted = played ++ v.rx ∧ MumbleBot.srcRx srcPipeline played = .returned x

/-! ### What is kept -/

/-- A part of the world that one of the tasks works on, and the others keep. -/
inductive Part where
  /-- The stream of control frames and what has been made of it, of `tcp_recv_loop`. -/
  | framed
  /-- The datagrams and the sounds they become, of `udp_recv_loop`. -/
  | heard
  /-- The packets and the datagrams they become, of `UdpWriter`. -/
  | spoken
  /-- The sounds that are taken, of `src_rx`. -/
  | played
  /-- The pings over UDP and their ticks, of `udp_ping`. -/
  | pinged
  deriving DecidableEq, Repr

/-- What the task of a part relies on. What is put into a channel comes behind what is there. -/
def Part.Kept (w w' : Reactor E D K M A) : Part → Prop
  | framed =>
    w'.tcpIn.received = w.tcpIn.received ∧
      w'.events.filterMap Event.control? = w.events.filterMap Event.control?
  | heard =>
    w'.udpIn.taken = w.udpIn.taken ∧ w'.voxInp.submitted = w.voxInp.submitted ∧
      w'.events.filterMap Event.datagram? = w.events.filterMap Event.datagram? ∧
      w'.log.filterMap (fun x => x.2.vox) = w.log.filterMap fun x => x.2.vox
  | spoken =>
    (∃ packets, w'.udpOut.rx = w.udpOut.rx ++ packets ∧
        w'.udpOut.submitted = w.udpOut.submitted ++ packets) ∧
      (w'.udpOut.sent = w.udpOut.sent ∧ w'.udpOut.wr = w.udpOut.wr ∧
        w'.udpOut.outAddr = w.udpOut.outAddr ∧ w'.udpOut.flushed = w.udpOut.flushed) ∧
      w'.events.filterMap Event.outgoing? = w.events.filterMap Event.outgoing? ∧
      w'.log.filterMap (fun x => x.2.sent) = w.log.filterMap fun x => x.2.sent
  | played =>
    ∃ items, w'.voxInp.rx = w.voxInp.rx ++ items ∧
      w'.voxInp.submitted = w.voxInp.submitted ++ items
  | pinged => w'.udpOut.submitted = w.udpOut.submitted ∧ w'.udpOut.ticks = w.udpOut.ticks

theorem steps_kept (q : Part) : Future.Steps fun w w' : Reactor E D K M A => q.Kept w w' := by
  cases q with
  | framed =>
    exact ⟨fun w => ⟨rfl, rfl⟩, fun h h' => ⟨h'.1.trans h.1, h'.2.trans h.2⟩⟩
  | heard =>
    refine ⟨fun w => ⟨rfl, rfl, rfl, rfl⟩, ?_⟩
    rintro w w' w'' ⟨h₁, h₂, h₃, h₄⟩ ⟨h₁', h₂', h₃', h₄'⟩
    exact ⟨h₁'.trans h₁, h₂'.trans h₂, h₃'.trans h₃, h₄'.trans h₄⟩
  | spoken =>
    refine ⟨fun w => ⟨⟨[], by simp⟩, ⟨rfl, rfl, rfl, rfl⟩, rfl, rfl⟩, ?_⟩
    rintro w w' w'' ⟨⟨ps, hrx, hsub⟩, ⟨h₁, h₂, h₃, h₄⟩, h₅, h₆⟩
      ⟨⟨ps', hrx', hsub'⟩, ⟨h₁', h₂', h₃', h₄'⟩, h₅', h₆'⟩
    exact ⟨⟨ps ++ ps', by rw [hrx', hrx, List.append_assoc],
        by rw [hsub', hsub, List.append_assoc]⟩,
      ⟨h₁'.trans h₁, h₂'.trans h₂, h₃'.trans h₃, h₄'.trans h₄⟩, h₅'.trans h₅, h₆'.trans h₆⟩
  | played =>
    refine ⟨fun w => ⟨[], by simp⟩, ?_⟩
    rintro w w' w'' ⟨items, hrx, hsub⟩ ⟨items', hrx', hsub'⟩
    exact ⟨items ++ items', by rw [hrx', hrx, List.append_assoc],
      by rw [hsub', hsub, List.append_assoc]⟩
  | pinged =>
    exact ⟨fun _ => ⟨rfl, rfl⟩, fun h h' => ⟨h'.1.trans h.1, h'.2.trans h.2⟩⟩

section Handled

variable {w : Reactor E D K M A} {event : Event A} {output : Output A}
  {codec : AudioPacketCodec E D K M}

theorem framed_handled (h : event.control? = none) :
    Part.framed.Kept w (w.handled event output codec) := by
  refine ⟨rfl, ?_⟩
  rw [events_handled, filterMap_snoc_of_none h]

theorem heard_handled (h : event.datagram? = none) (hvox : output.vox = none) :
    Part.heard.Kept w (w.handled event output codec) := by
  refine ⟨rfl, rfl, ?_, ?_⟩
  · rw [events_handled, filterMap_snoc_of_none h]
  · exact filterMap_snoc_of_none (x := (event, output)) hvox w.log

theorem spoken_handled (h : event.outgoing? = none) (hsent : output.sent = none) :
    Part.spoken.Kept w (w.handled event output codec) := by
  refine ⟨⟨[], by simp [handled]⟩, ⟨rfl, rfl, rfl, rfl⟩, ?_, ?_⟩
  · rw [events_handled, filterMap_snoc_of_none h]
  · exact filterMap_snoc_of_none (x := (event, output)) hsent w.log

theorem played_handled : Part.played.Kept w (w.handled event output codec) :=
  ⟨[], by simp [handled]⟩

end Handled

/-- What has come in from outside has been taken or waits to be. -/
structure InputsKept (w w' : Reactor E D K M A) : Prop where
  reads : w'.tcpIn.received ++ readBytes w'.tcpIn.reads
    = w.tcpIn.received ++ readBytes w.tcpIn.reads
  arrived : w'.udpIn.taken ++ w'.udpIn.arrived.filterMap Except.toOption
    = w.udpIn.taken ++ w.udpIn.arrived.filterMap Except.toOption

theorem steps_inputsKept :
    Future.Steps (InputsKept (E := E) (D := D) (K := K) (M := M) (A := A)) where
  refl _ := ⟨rfl, rfl⟩
  trans h h' := ⟨h'.reads.trans h.reads, h'.arrived.trans h.arrived⟩

variable [OpusEncoder E] [OpusDecoder D] [CryptState K] [HashMap M UInt64 Remote]

section Moves

variable (pb : CodedInputStream) (fr : FailedRead) (c : AudioPacketCodec E D K M)

/-- The codec is what the client has made of it on the events so far, starting from `c`. -/
def Ran (w : Reactor E D K M A) : Prop :=
  (client pb fr).Logs c w.log w.codec

/-- What may happen to all but the parts `S`, if `N` is what happens to the TCP side. -/
structure Moves (N : Net → Net → Prop) (S : List Part) (w w' : Reactor E D K M A) : Prop where
  net : N w.net w'.net
  kept : ∀ q ∉ S, q.Kept w w'
  ran : w.Ran pb fr c → w'.Ran pb fr c

/-- What the tasks of the parts `S` do. -/
structure Works (N : Net → Net → Prop) (S : List Part) (w w' : Reactor E D K M A) : Prop extends
    Moves pb fr c N S w w', InputsKept w w'

variable {pb fr c}

theorem Works.mono {N N' : Net → Net → Prop} {S S' : List Part} {w w' : Reactor E D K M A}
    (h : Works pb fr c N S w w') (hN : ∀ n n', N n n' → N' n n') (hS : S ⊆ S') :
    Works pb fr c N' S' w w' :=
  ⟨⟨hN _ _ h.net, fun q hq => h.kept q fun hmem => hq (hS hmem), h.ran⟩, h.toInputsKept⟩

theorem steps_works {N : Net → Net → Prop} (hN : Future.Steps N) (S : List Part) :
    Future.Steps (Works (A := A) pb fr c N S) where
  refl w := ⟨⟨hN.refl _, fun q _ => (steps_kept q).refl w, fun h => h⟩, steps_inputsKept.refl w⟩
  trans h h' := ⟨⟨hN.trans h.net h'.net,
    fun q hq => (steps_kept q).trans (h.kept q hq) (h'.kept q hq), fun hran => h'.ran (h.ran hran)⟩,
    steps_inputsKept.trans h.toInputsKept h'.toInputsKept⟩

/-- An event that is handled is a step of the client. -/
theorem ran_handled {w : Reactor E D K M A} {event : Event A} {output : Output A}
    {codec : AudioPacketCodec E D K M} (h : w.Ran pb fr c)
    (hstep : (client pb fr).step w.codec event = .returned (codec, output)) :
    (w.handled event output codec).Ran pb fr c :=
  Machine.Logs.snoc h hstep

end Moves

/-! ### `tcp_recv_loop` -/

theorem length_frameBytes (frame : Frame) : (frameBytes frame).length = 6 + frame.2.length := by
  simp only [frameBytes, List.length_append, length_toBigEndian]
  omega

theorem incomplete_of_length_lt {part : Bytes} (h : part.length < 6) : Incomplete part := by
  rintro frame rest - rfl
  rw [List.length_append, length_frameBytes] at h
  omega

/-- A header and less than it says. -/
theorem incomplete_payload (mumType : UInt16) {n : ℕ} {got : Bytes} (hn : n < 2 ^ 32)
    (h : got.length < n) : Incomplete (toBigEndian 2 mumType.toNat ++ toBigEndian 4 n ++ got) := by
  rintro ⟨mumType', payload⟩ rest hpayload heq
  simp only [frameBytes, List.append_assoc] at heq
  obtain ⟨-, heq⟩ := List.append_inj heq (by simp)
  obtain ⟨hlength, rfl⟩ := List.append_inj heq (by simp)
  have hn' := congrArg ofBigEndian hlength
  rw [ofBigEndian_toBigEndian hn, ofBigEndian_toBigEndian hpayload] at hn'
  rw [List.length_append] at h
  omega

section TcpRecv

variable (pb : CodedInputStream) (fr : FailedRead) (c : AudioPacketCodec E D K M)

/-- What has been read of a frame. -/
def Reading (part : Bytes) (w : Reactor E D K M A) : Prop :=
  w.Ran pb fr c ∧ Framed w.events part w.tcpIn

/-- A part of a frame. -/
def TcpEnd (w : Reactor E D K M A) : Prop := ∃ part, Incomplete part ∧ Reading pb fr c part w

/-- A control frame that the client panics on. -/
def TcpBlame (w : Reactor E D K M A) : Prop :=
  ∃ frame, w.Ran pb fr c ∧ (client pb fr).step w.codec (.control frame : Event A) = .panicked ∧
    Framed (w.events ++ [.control frame]) [] w.tcpIn

/-- What `tcp_recv_loop` does. -/
abbrev TcpSteps : Reactor E D K M A → Reactor E D K M A → Prop :=
  Works pb fr c (fun n n' => n' = n) [.framed]

variable {pb fr c}

theorem works_read (w : Reactor E D K M A) (n : ℕ) :
    TcpSteps pb fr c w (AsyncRead.read w n).2 := by
  refine ⟨⟨rfl, ?_, fun h => h⟩, ?_, rfl⟩
  · intro q hq
    cases q with
    | framed => exact absurd List.mem_cons_self hq
    | heard => exact (steps_kept .heard).refl w
    | spoken => exact (steps_kept .spoken).refl w
    | played => exact (steps_kept .played).refl w
    | pinged => exact (steps_kept .pinged).refl w
  · show (w.tcpIn.read n).2.received ++ readBytes (w.tcpIn.read n).2.reads = _
    rw [w.tcpIn.received_read, List.append_assoc, ← w.tcpIn.readBytes_read]

/-- What a read hands out comes behind what has been read. -/
theorem Reading.read {part : Bytes} {w w' : Reactor E D K M A} {n : ℕ} {answer : ReadAnswer}
    (h : Reading pb fr c part w) (hanswer : AsyncRead.read w n = (answer, w')) :
    Reading pb fr c (part ++ answer.bytes) w' := by
  obtain ⟨hran, hshort, hreceived⟩ := h
  obtain ⟨rfl, rfl⟩ := Prod.mk.inj hanswer
  refine ⟨hran, hshort, ?_⟩
  show (w.tcpIn.read n).2.received = _
  rw [w.tcpIn.received_read, hreceived, List.append_assoc]
  rfl

/-- A frame that has been read whole is handled, or the client panics on it. -/
theorem handle_polls : (handle pb : Future (Reactor E D K M A) _ _ _).Polls (TcpBlame pb fr c)
    (TcpSteps pb fr c)
    (fun frame w => frame.2.length < 2 ^ 32 ∧ Reading pb fr c (frameBytes frame) w)
    (fun _ _ => False) (fun _ => Reading pb fr c []) (fun _ => TcpEnd pb fr c) := by
  rintro frame w ⟨hlt, hran, hshort, hreceived⟩
  have hshort' : ∀ frame' ∈ (w.events ++ [Event.control frame]).filterMap Event.control?,
      frame'.2.length < 2 ^ 32 := by
    rw [Event.filterMap_control?_snoc, List.forall_mem_append, List.forall_mem_singleton]
    exact ⟨hshort, hlt⟩
  have hreceived' : w.tcpIn.received =
      ((w.events ++ [Event.control frame]).filterMap Event.control?).flatMap frameBytes ++ [] := by
    rw [Event.filterMap_control?_snoc, List.flatMap_append, List.flatMap_singleton, hreceived,
      List.append_nil]
  have hstep : (client pb fr).step w.codec (.control frame : Event A)
      = (dispatch pb frame.1 frame.2 w.codec.session w.codec.crypt >>= fun s =>
        .returned ({ w.codec with session := s.1, crypt := s.2 }, ⟨none, none⟩)) := rfl
  simp only [handle]
  cases hdispatch : dispatch pb frame.1 frame.2 w.codec.session w.codec.crypt with
  | panicked =>
    rw [hdispatch] at hstep
    exact ⟨w, (steps_works steps_eq _).refl w, frame, hran, hstep,
      hshort', hreceived'⟩
  | returned s =>
    rw [hdispatch] at hstep
    refine ⟨⟨⟨rfl, ?_, fun _ => ran_handled hran hstep⟩, rfl, rfl⟩,
      ran_handled hran hstep, ?_, ?_⟩
    · intro q hq
      cases q with
      | framed => exact absurd List.mem_cons_self hq
      | heard => exact heard_handled rfl rfl
      | spoken => exact spoken_handled rfl rfl
      | played => exact played_handled
      | pinged => exact ⟨rfl, rfl⟩
    · rw [events_handled]
      exact hshort'
    · rw [events_handled]
      exact hreceived'

/-- One of the reads of a frame: `head` is what has been read before it, and says with `N` how many
bytes it wants. -/
theorem readExact_frame (pb : CodedInputStream) (fr : FailedRead) (c : AudioPacketCodec E D K M)
    (head : ℕ → Bytes) (N : ℕ → Prop)
    (hincomplete : ∀ n got, N n → got.length < n → Incomplete (head n ++ got)) :
    (AsyncRead.readExact : Future (Reactor E D K M A) _ _ _).Polls (TcpBlame pb fr c)
      (TcpSteps pb fr c) (fun s w => N s.want ∧ Reading pb fr c (head s.want ++ s.got) w)
      (fun s w => s.got.length < s.want ∧ N s.want ∧ Reading pb fr c (head s.want ++ s.got) w)
      (fun buf w => N buf.length ∧ Reading pb fr c (head buf.length ++ buf) w)
      (fun _ => TcpEnd pb fr c) := by
  refine AsyncRead.readExact_polls (steps_works steps_eq _) works_read
    (P := fun n got w => N n ∧ Reading pb fr c (head n ++ got) w)
    (J := fun n got w => N n ∧ Reading pb fr c (head n ++ got) w) ?_ ?_ ?_ ?_
  · rintro n k got bs w w' ⟨hn, h⟩ hanswer -
    refine ⟨hn, ?_⟩
    rw [← List.append_assoc]
    exact h.read hanswer
  · rintro n k got w w' ⟨hn, h⟩ hanswer
    exact ⟨hn, List.append_nil (head n ++ got) ▸ h.read hanswer⟩
  · rintro n k got w w' ⟨hn, h⟩ hanswer hlt
    exact ⟨_, hincomplete n got hn hlt, List.append_nil (head n ++ got) ▸ h.read hanswer⟩
  · rintro n k got e w w' ⟨hn, h⟩ hanswer hlt
    exact ⟨_, hincomplete n got hn hlt, List.append_nil (head n ++ got) ▸ h.read hanswer⟩

theorem toBigEndian_mumType {buf : Bytes} (h : buf.length = 2) :
    toBigEndian 2 (UInt16.ofNat (ofBigEndian buf)).toNat = buf := by
  have hlt : ofBigEndian buf < 2 ^ 16 := by
    have hlt := ofBigEndian_lt buf
    rwa [h] at hlt
  have hbuf := toBigEndian_ofBigEndian buf
  rwa [h, ← Nat.mod_eq_of_lt hlt, ← UInt16.toNat_ofNat'] at hbuf

theorem toBigEndian_mumLength {buf : Bytes} (h : buf.length = 4) :
    toBigEndian 4 (UInt32.ofNat (ofBigEndian buf)).toNat = buf := by
  have hlt : ofBigEndian buf < 2 ^ 32 := by
    have hlt := ofBigEndian_lt buf
    rwa [h] at hlt
  have hbuf := toBigEndian_ofBigEndian buf
  rwa [h, ← Nat.mod_eq_of_lt hlt, ← UInt32.toNat_ofNat'] at hbuf

/-- What has been read before the payload of a frame. -/
def frameHead (mumType : UInt16) (n : ℕ) : Bytes := toBigEndian 2 mumType.toNat ++ toBigEndian 4 n

variable (pb fr c)

/-- What holds of a turn of `tcp_recv_loop`, read by read. -/
def TcpRecvInv : TcpRecvState → Reactor E D K M A → Prop :=
  Sum.elim
    (Sum.elim
      (Sum.elim
        (fun s w => s.got.length < s.want ∧ s.want = 2 ∧ Reading pb fr c ([] ++ s.got) w)
        fun s w => s.2.got.length < s.2.want ∧ s.2.want = 4 ∧
          Reading pb fr c (toBigEndian 2 s.1.toNat ++ s.2.got) w)
      fun s w => s.2.got.length < s.2.want ∧ s.2.want < 2 ^ 32 ∧
        Reading pb fr c (frameHead s.1 s.2.want ++ s.2.got) w)
    fun _ _ => False

variable {pb fr c}

theorem TcpRecvInv.tcpEnd {s : TcpRecvState} {w : Reactor E D K M A}
    (h : TcpRecvInv pb fr c s w) : TcpEnd pb fr c w := by
  rcases s with ((s | s) | s) | s
  · obtain ⟨hlt, hwant, h⟩ := h
    refine ⟨_, incomplete_of_length_lt ?_, h⟩
    rw [List.nil_append]
    omega
  · obtain ⟨hlt, hwant, h⟩ := h
    refine ⟨_, incomplete_of_length_lt ?_, h⟩
    rw [List.length_append, length_toBigEndian]
    omega
  · obtain ⟨hlt, hwant, h⟩ := h
    exact ⟨_, incomplete_payload s.1 hwant hlt, h⟩
  · exact h.elim

/-- **The contract of `tcp_recv_loop`**: what it has read are whole frames, which have been handled,
and a part of one more. -/
theorem tcpRecvLoop_polls : (tcpRecvLoop pb : Future (Reactor E D K M A) _ _ _).Polls
    (TcpBlame pb fr c) (TcpSteps pb fr c) (TcpRecvInv pb fr c) (TcpRecvInv pb fr c)
    (fun _ _ => False) (fun _ => TcpEnd pb fr c) := by
  have hsteps : Future.Steps (TcpSteps (A := A) pb fr c) := steps_works steps_eq _
  have htype := readExact_frame (A := A) pb fr c (fun _ => []) (fun n => n = 2) (by
    rintro n got rfl hlt
    exact incomplete_of_length_lt (by rw [List.nil_append]; omega))
  have hlength := fun mumType : UInt16 => readExact_frame (A := A) pb fr c
    (fun _ => toBigEndian 2 mumType.toNat) (fun n => n = 4) (by
      rintro n got rfl hlt
      exact incomplete_of_length_lt (by rw [List.length_append, length_toBigEndian]; omega))
  have hpayload := fun mumType : UInt16 => readExact_frame (A := A) pb fr c
    (frameHead mumType) (fun n => n < 2 ^ 32) fun n got => incomplete_payload mumType
  have hturn := Future.Polls.andThen (f := fun frame => .returned frame) hsteps
    (Future.Polls.andThen hsteps
      (f := fun p => .returned (p.1, ReadExact.new (UInt32.ofNat (ofBigEndian p.2)).toNat))
      (Future.Polls.andThen hsteps
        (f := fun buf => .returned (UInt16.ofNat (ofBigEndian buf), ReadExact.new 4)) htype
        (Future.Polls.carry hlength) ?_)
      (Future.Polls.carry hpayload) ?_)
    handle_polls ?_
  · refine Future.Polls.loopFn _ hsteps (hturn.mono (fun _ h => h) (fun _ _ h => h) ?_ ?_ ?_
      fun _ _ h => h)
    · rintro (((s | s) | s) | s) w h
      · exact h.2
      · exact h.2
      · exact h.2
      · exact h.elim
    · exact fun _ _ h => h
    · rintro (x | b) w h
      · exact ⟨Nat.zero_lt_two, rfl, h⟩
      · exact b.elim
  · rintro buf w ⟨hwant, h⟩
    refine ⟨rfl, ?_⟩
    show Reading pb fr c (toBigEndian 2 _ ++ []) w
    rw [toBigEndian_mumType hwant, List.append_nil]
    exact h
  · rintro ⟨mumType, buf⟩ w ⟨hwant, h⟩
    refine ⟨UInt32.toNat_lt _, ?_⟩
    show Reading pb fr c
      (toBigEndian 2 _ ++ toBigEndian 4 (UInt32.ofNat (ofBigEndian buf)).toNat ++ []) w
    rw [toBigEndian_mumLength hwant, List.append_nil]
    exact h
  · rintro ⟨mumType, buf⟩ w ⟨hlt, h⟩
    refine ⟨hlt, ?_⟩
    rw [frameBytes, ← List.append_assoc]
    exact h

end TcpRecv

/-! ### `udp_recv_loop` -/

section UdpRecv

variable (pb : CodedInputStream) (fr : FailedRead) (c : AudioPacketCodec E D K M)

/-- The datagrams that have been received have been decoded, and what was heard is in the channel
but for what waits for room in it. -/
def Hearing (waiting : Option VoxInp) (w : Reactor E D K M A) : Prop :=
  w.Ran pb fr c ∧ w.events.filterMap Event.datagram? = w.udpIn.taken ∧
    Heard w.log waiting w.voxInp

/-- A datagram that the client panics on. -/
def UdpBlame (w : Reactor E D K M A) : Prop :=
  ∃ addr buf, w.Ran pb fr c ∧ (client pb fr).step w.codec (.datagram addr buf) = .panicked ∧
    (w.events ++ [Event.datagram addr buf]).filterMap Event.datagram? = w.udpIn.taken ∧
    Heard w.log none w.voxInp

/-- What `udp_recv_loop` does. -/
abbrev UdpSteps : Reactor E D K M A → Reactor E D K M A → Prop :=
  Works pb fr c (fun n n' => n' = n) [.heard]

variable {pb fr c}

variable (pb fr c) in
theorem works_receive {w : Reactor E D K M A} {datagram : A × Bytes}
    {answers : List (Except IoError (A × Bytes))} (h : w.udpIn.arrived = .ok datagram :: answers) :
    UdpSteps pb fr c w (w.receive datagram answers) := by
  refine ⟨⟨rfl, ?_, fun h => h⟩, rfl, ?_⟩
  · intro q hq
    cases q with
    | framed => exact (steps_kept .framed).refl w
    | heard => exact absurd List.mem_cons_self hq
    | spoken => exact (steps_kept .spoken).refl w
    | played => exact (steps_kept .played).refl w
    | pinged => exact (steps_kept .pinged).refl w
  · rw [h, receive, List.append_assoc]
    rfl

/-- Room in the channel is used for what waits. -/
theorem sendVox_polls : (sendVox : Future (Reactor E D K M A) _ _ _).Polls (UdpBlame pb fr c)
    (UdpSteps pb fr c) (Hearing pb fr c) (Hearing pb fr c) (fun _ => Hearing pb fr c none)
    (fun _ w => ∃ waiting, Hearing pb fr c waiting w) := by
  rintro (_ | heard) w ⟨hran, htaken, hheard⟩
  · exact ⟨(steps_works steps_eq _).refl w, hran, htaken, hheard⟩
  · simp only [sendVox]
    split_ifs
    · refine ⟨⟨⟨rfl, ?_, fun h => h⟩, rfl, rfl⟩, hran, htaken, ?_⟩
      · intro q hq
        cases q with
        | framed => exact (steps_kept .framed).refl w
        | heard => exact absurd List.mem_cons_self hq
        | spoken => exact (steps_kept .spoken).refl w
        | played => exact ⟨[heard], rfl, rfl⟩
        | pinged => exact (steps_kept .pinged).refl w
      · exact hheard.trans (List.append_nil _).symm
    · exact ⟨(steps_works steps_eq _).refl w, hran, htaken, hheard⟩

/-- A datagram that arrives is decoded. -/
theorem udpFramed_next {w : Reactor E D K M A} (h : Hearing pb fr c none w) :
    Future.EndsFrom (UdpSteps pb fr c) (UdpBlame pb fr c) w
      (Future.Next.Satisfies (fun _ item => .returned (udpRecv item.2)) (UdpBlame pb fr c)
        (fun _ => Hearing pb fr c none) (Hearing pb fr c) (fun _ _ => False)
        (fun _ w => ∃ waiting, Hearing pb fr c waiting w) ())
      ((udpFramed fr).next w) := by
  obtain ⟨hran, htaken, hheard⟩ := h
  simp only [udpFramed]
  rcases harrived : w.udpIn.arrived with _ | ⟨e | ⟨addr, buf⟩, answers⟩
  · exact ⟨(steps_works steps_eq _).refl w, hran, htaken, hheard⟩
  · refine ⟨⟨⟨rfl, ?_, fun h => h⟩, rfl, ?_⟩, none, hran, htaken, hheard⟩
    · exact fun q _ => (steps_kept q).refl w
    · rw [harrived]
      rfl
  · have hreceive := works_receive pb fr c harrived
    dsimp only
    cases hdecode : decode fr (w.receive (addr, buf) answers).codec addr buf with
    | panicked =>
      have hstep : (client pb fr).step (w.receive (addr, buf) answers).codec (.datagram addr buf)
          = .panicked := by
        simp only [client, hdecode, Outcome.panicked_bind]
      refine ⟨w.receive (addr, buf) answers, hreceive, addr, buf, hran, hstep, ?_, hheard⟩
      rw [Event.filterMap_datagram?_snoc]
      exact congrArg (· ++ [(addr, buf)]) htaken
    | returned r =>
      obtain ⟨r, codec⟩ := r
      obtain ⟨-, -, packet, rfl, -⟩ := decode_cases hdecode
      have hstep : (client pb fr).step (w.receive (addr, buf) answers).codec (.datagram addr buf)
          = .returned (codec, ⟨udpRecv packet, none⟩) := by
        simp only [client, hdecode, Outcome.returned_bind, Outcome.pure_eq]
      have hran' : (w.receive (addr, buf) answers).Ran pb fr c := hran
      have hhandled : UdpSteps pb fr c (w.receive (addr, buf) answers)
          ((w.receive (addr, buf) answers).handled (.datagram addr buf) ⟨udpRecv packet, none⟩
            codec) := by
        refine ⟨⟨rfl, ?_, fun _ => ran_handled hran' hstep⟩, rfl, rfl⟩
        intro q hq
        cases q with
        | framed => exact framed_handled rfl
        | heard => exact absurd List.mem_cons_self hq
        | spoken => exact spoken_handled rfl rfl
        | played => exact played_handled
        | pinged => exact ⟨rfl, rfl⟩
      refine ⟨(steps_works steps_eq _).trans hreceive hhandled, ran_handled hran' hstep, ?_, ?_⟩
      · dsimp only
        rw [events_handled, Event.filterMap_datagram?_snoc]
        exact congrArg (· ++ [(addr, buf)]) htaken
      · rw [Heard, Option.toList_none, List.append_nil] at hheard
        dsimp only
        rw [Heard, log_handled, List.filterMap_append]
        exact congrArg₂ _ hheard (by cases udpRecv packet <;> rfl)

variable (pb fr c)

/-- What holds of `udp_recv_loop`. -/
def UdpRecvInv : Unit ⊕ Option VoxInp → Reactor E D K M A → Prop :=
  Sum.elim (fun _ => Hearing pb fr c none) (Hearing pb fr c)

variable {pb fr c}

/-- **The contract of `udp_recv_loop`.** -/
theorem udpRecvLoop_polls : (udpRecvLoop fr : Future (Reactor E D K M A) _ _ _).Polls
    (UdpBlame pb fr c) (UdpSteps pb fr c) (UdpRecvInv pb fr c) (UdpRecvInv pb fr c)
    (fun _ _ => False) (fun _ w => ∃ waiting, Hearing pb fr c waiting w) :=
  Future.Polls.mapErr (Future.Polls.fold (sendVox_keeps fr) (steps_works steps_eq _) sendVox_polls
    fun _ _ => udpFramed_next)

end UdpRecv

/-! ### `udp_writer` and `udp_ping` -/

/-- Every datagram has been sent whole. -/
def Whole (u : UdpOut A) : Prop := ∀ x ∈ u.sent, x.2 = x.1.2.length

/-- `poll_complete` hands what has not been flushed to the socket, or leaves it where it is. -/
theorem pollComplete_spec (u : UdpOut A) :
    (u.pollComplete.2.rx = u.rx ∧ u.pollComplete.2.submitted = u.submitted ∧
        u.pollComplete.2.ticks = u.ticks) ∧
      u.pollComplete.2.sent.map Prod.fst ++ unflushed u.pollComplete.2
        = u.sent.map Prod.fst ++ unflushed u ∧
      ((u.flushed = true → u.wr = []) →
        u.pollComplete.2.flushed = true → u.pollComplete.2.wr = []) ∧
      (∀ a, u.pollComplete.1 = .ready a → u.pollComplete.2.flushed = true) ∧
      ((∀ e, u.pollComplete.1 ≠ .failed e) → Whole u → Whole u.pollComplete.2) := by
  rw [UdpOut.pollComplete]
  split_ifs with hflushed
  · exact ⟨⟨rfl, rfl, rfl⟩, rfl, fun h => h, fun _ _ => hflushed, fun _ h => h⟩
  · split
    · exact ⟨⟨rfl, rfl, rfl⟩, rfl, fun h => h, by rintro _ ⟨⟩, fun _ h => h⟩
    · exact ⟨⟨rfl, rfl, rfl⟩, rfl, fun h => h, by rintro _ ⟨⟩, fun _ h => h⟩
    · rename_i n answers _
      have hsent : (u.sent ++ [((u.outAddr, u.wr), n)]).map Prod.fst ++ []
          = u.sent.map Prod.fst ++ unflushed u := by
        rw [unflushed, if_neg hflushed, List.map_append, List.append_nil]
        rfl
      dsimp only
      split_ifs with hn
      · refine ⟨⟨rfl, rfl, rfl⟩, hsent, fun _ _ => rfl, fun _ _ => rfl, fun _ hwhole => ?_⟩
        intro x hx
        rcases List.mem_append.mp hx with hx | hx
        · exact hwhole x hx
        · obtain rfl := List.mem_singleton.mp hx
          exact hn
      · exact ⟨⟨rfl, rfl, rfl⟩, hsent, fun _ _ => rfl, fun _ _ => rfl,
          fun hne => absurd rfl (hne _)⟩

section UdpWriter

variable (pb : CodedInputStream) (fr : FailedRead) (c : AudioPacketCodec E D K M) (addr : A)

/-- The packets that have been put into the channel have been encoded, but for one that waits and
those in the channel, and what came of them has been given to the socket or waits to be flushed. -/
def Speaking (waiting : Option (A × AudioOutPacket)) (w : Reactor E D K M A) : Prop :=
  w.Ran pb fr c ∧ Spoken addr w.events waiting w.udpOut ∧ Sent w.log w.udpOut

/-- A packet that the client panics on. -/
def SpeakBlame (w : Reactor E D K M A) : Prop :=
  ∃ addr' packet, w.Ran pb fr c ∧
    (client pb fr).step w.codec (.outgoing addr' packet) = .panicked ∧
    Spoken addr (w.events ++ [.outgoing addr' packet]) none w.udpOut ∧ Sent w.log w.udpOut

/-- What `udp_writer` does. -/
abbrev SpeakSteps : Reactor E D K M A → Reactor E D K M A → Prop :=
  Works pb fr c (fun n n' => n' = n) [.spoken]

variable {pb fr c addr}

variable (pb fr c) in
/-- What is done to the sending half of the UDP socket alone. -/
theorem works_udpOut (w : Reactor E D K M A) {u : UdpOut A}
    (hsub : u.submitted = w.udpOut.submitted) (hticks : u.ticks = w.udpOut.ticks) :
    SpeakSteps pb fr c w { w with udpOut := u } := by
  refine ⟨⟨rfl, ?_, fun h => h⟩, rfl, rfl⟩
  intro q hq
  cases q with
  | framed => exact (steps_kept .framed).refl w
  | heard => exact (steps_kept .heard).refl w
  | spoken => exact absurd List.mem_cons_self hq
  | played => exact (steps_kept .played).refl w
  | pinged => exact ⟨hsub, hticks⟩

/-- What is encoded is in the buffer. -/
theorem works_encoded {w : Reactor E D K M A} {event : A × AudioOutPacket} {datagram : A × Bytes}
    {codec : AudioPacketCodec E D K M} (hran : w.Ran pb fr c)
    (hstep : (client pb fr).step w.codec (.outgoing event.1 event.2)
      = .returned (codec, ⟨none, some datagram⟩)) :
    SpeakSteps pb fr c w ((w.encoded datagram).handled (.outgoing event.1 event.2)
      ⟨none, some datagram⟩ codec) := by
  refine ⟨⟨rfl, ?_, fun _ => ran_handled (w := w.encoded datagram) hran hstep⟩, rfl, rfl⟩
  intro q hq
  cases q with
  | framed => exact framed_handled (w := w.encoded datagram) rfl
  | heard => exact heard_handled (w := w.encoded datagram) rfl rfl
  | spoken => exact absurd List.mem_cons_self hq
  | played => exact played_handled (w := w.encoded datagram)
  | pinged => exact ⟨rfl, rfl⟩

theorem Speaking.pollComplete {waiting : Option (A × AudioOutPacket)} {w : Reactor E D K M A}
    (h : Speaking pb fr c addr waiting w) :
    Speaking pb fr c addr waiting { w with udpOut := w.udpOut.pollComplete.2 } := by
  obtain ⟨hran, hspoken, hsent, hwr⟩ := h
  obtain ⟨⟨hrx, hsub, -⟩, hdatagrams, hflushed, -, -⟩ := pollComplete_spec w.udpOut
  refine ⟨hran, ?_, hsent.trans hdatagrams.symm, hflushed hwr⟩
  show w.udpOut.pollComplete.2.submitted.map (addr, ·) = _
  rw [hsub, hspoken]
  show _ = _ ++ (_ ++ w.udpOut.pollComplete.2.rx.map (addr, ·))
  rw [hrx]
  rfl

variable (pb fr c addr)

/-- What holds while the sink works. -/
def Sending (waiting : Option (A × AudioOutPacket)) (w : Reactor E D K M A) : Prop :=
  Speaking pb fr c addr waiting w ∧ Whole w.udpOut

/-- What holds between two packets. -/
def Flushed (w : Reactor E D K M A) : Prop :=
  Sending pb fr c addr none w ∧ w.udpOut.flushed = true

variable {pb fr c addr}

theorem flush_ends {w : Reactor E D K M A} (h : Sending pb fr c addr none w) :
    SpeakSteps pb fr c w (flush w).2 ∧
      (flush w).1.Satisfies (Sending pb fr c addr) (fun _ => Flushed pb fr c addr)
        (fun _ w => ∃ waiting, Speaking pb fr c addr waiting w) (flush w).2 := by
  obtain ⟨⟨-, hsub, hticks⟩, -, -, hflushed, hwhole⟩ := pollComplete_spec w.udpOut
  refine ⟨works_udpOut pb fr c w hsub hticks, ?_⟩
  have hspeaking := h.1.pollComplete
  simp only [flush]
  rcases hcomplete : w.udpOut.pollComplete with ⟨s | a | e, u⟩ <;>
    rw [hcomplete] at hspeaking hflushed hwhole
  · exact ⟨hspeaking, hwhole (by simp) h.2⟩
  · exact ⟨⟨hspeaking, hwhole (by simp) h.2⟩, hflushed a rfl⟩
  · exact ⟨none, hspeaking⟩

/-- The sink takes an item when it has been flushed, and encodes it then. -/
theorem startSend_ends {item : A × AudioOutPacket} {w : Reactor E D K M A}
    (h : Sending pb fr c addr (some item) w) :
    Future.EndsFrom (SpeakSteps pb fr c) (SpeakBlame pb fr c addr) w
      (fun r w' => r.Satisfies (fun item => Sending pb fr c addr (some item))
        (fun _ => Sending pb fr c addr none)
        (fun _ w => ∃ waiting, Speaking pb fr c addr waiting w) w')
      (startSend item w) := by
  obtain ⟨⟨-, hsub, hticks⟩, -, -, hflushed, hwhole⟩ := pollComplete_spec w.udpOut
  have hspeaking := h.1.pollComplete
  have hworks := works_udpOut pb fr c w hsub hticks
  simp only [startSend]
  rcases hcomplete : w.udpOut.pollComplete with ⟨s | a | e, u⟩ <;>
    rw [hcomplete] at hspeaking hwhole hflushed hworks
  · exact ⟨hworks, hspeaking, hwhole (by simp) h.2⟩
  · obtain ⟨hran, hspoken, hsent, hwr⟩ := hspeaking
    have hnil : u.wr = [] := hwr (hflushed a rfl)
    have hall : u.submitted.map (addr, ·)
        = (w.events ++ [Event.outgoing item.1 item.2]).filterMap Event.outgoing?
          ++ u.rx.map (addr, ·) := by
      rw [Event.filterMap_outgoing?_snoc, List.append_assoc]
      exact hspoken
    have hsent' : w.log.filterMap (fun x => x.2.sent) = u.sent.map Prod.fst := by
      rw [hsent, unflushed, if_pos (hflushed a rfl), List.append_nil]
    dsimp only
    rw [hnil]
    cases hencode : encode w.codec item.1 item.2 [] with
    | panicked =>
      have hstep : (client pb fr).step w.codec (.outgoing item.1 item.2) = .panicked := by
        simp only [client, hencode, Outcome.panicked_bind]
      exact ⟨_, hworks, item.1, item.2, hran, hstep, hall, hsent, hwr⟩
    | returned r =>
      obtain ⟨datagram, codec⟩ := r
      have hstep : (client pb fr).step w.codec (.outgoing item.1 item.2)
          = .returned (codec, ⟨none, some datagram⟩) := by
        simp only [client, hencode, Outcome.returned_bind, Outcome.pure_eq]
      refine ⟨(steps_works steps_eq _).trans hworks (works_encoded hran hstep), ⟨?_, ?_, ?_⟩,
        hwhole (by simp) h.2⟩
      · exact ran_handled (w := ({ w with udpOut := u } : Reactor E D K M A).encoded datagram) hran
          hstep
      · dsimp only
        rw [events_handled]
        exact hall
      · dsimp only
        rw [log_handled]
        refine ⟨?_, by simp [encoded, handled]⟩
        rw [List.filterMap_append]
        exact congrArg (· ++ [datagram]) hsent'
  · exact ⟨hworks, some item, hspeaking⟩

theorem sendPacket_polls :
    (sendPacket.mapErr fun _ => () : Future (Reactor E D K M A) _ _ _).Polls
      (SpeakBlame pb fr c addr) (SpeakSteps pb fr c) (Sending pb fr c addr)
      (Sending pb fr c addr) (fun _ => Flushed pb fr c addr)
      (fun _ w => ∃ waiting, Speaking pb fr c addr waiting w) := by
  refine Future.Polls.mapErr ?_
  rintro (_ | item) w h
  · exact flush_ends h
  · refine (startSend_ends h).bind (steps_works steps_eq _) fun r w' hr => ?_
    cases r with
    | notReady item => exact ⟨(steps_works steps_eq _).refl w', hr⟩
    | failed e => exact ⟨(steps_works steps_eq _).refl w', hr⟩
    | ready a => exact flush_ends hr

/-- A packet is taken out of the channel. -/
theorem udpRx_next {w : Reactor E D K M A} (h : Flushed pb fr c addr w) :
    Future.EndsFrom (SpeakSteps pb fr c) (SpeakBlame pb fr c addr) w
      (Future.Next.Satisfies (fun _ msg => .returned (some (addr, msg))) (SpeakBlame pb fr c addr)
        (fun _ => Flushed pb fr c addr) (Sending pb fr c addr) (fun _ _ => False)
        (fun _ w => ∃ waiting, Speaking pb fr c addr waiting w) ())
      (udpRx.next w) := by
  simp only [udpRx]
  cases hrx : w.udpOut.rx with
  | nil => exact ⟨(steps_works steps_eq _).refl w, h⟩
  | cons packet packets =>
    obtain ⟨⟨⟨hran, hspoken, hsent⟩, hwhole⟩, -⟩ := h
    refine ⟨works_udpOut pb fr c w rfl rfl, ⟨hran, ?_, hsent⟩, hwhole⟩
    rw [Spoken, hrx] at hspoken
    exact hspoken

variable (pb fr c addr)

/-- What holds of `udp_writer`. -/
def UdpWriterInv : Unit ⊕ Option (A × AudioOutPacket) → Reactor E D K M A → Prop :=
  Sum.elim (fun _ => Flushed pb fr c addr) (Sending pb fr c addr)

variable {pb fr c addr}

/-- **The contract of `udp_writer`.** -/
theorem udpWriter_polls : (udpWriter addr : Future (Reactor E D K M A) _ _ _).Polls
    (SpeakBlame pb fr c addr) (SpeakSteps pb fr c) (UdpWriterInv pb fr c addr)
    (UdpWriterInv pb fr c addr) (fun _ _ => False)
    (fun _ w => ∃ waiting, Speaking pb fr c addr waiting w) :=
  Future.Polls.mapErr (Future.Polls.fold sendPacket_keeps (steps_works steps_eq _)
    sendPacket_polls fun _ _ => udpRx_next)

end UdpWriter

section UdpPing

variable {pb : CodedInputStream} {fr : FailedRead} {c : AudioPacketCodec E D K M}

variable (pb fr c) in
/-- What is left alone by what `udp_ping` does. -/
theorem works_submit (w : Reactor E D K M A) (ticks : List (Except String UInt64))
    (packets : List AudioOutPacket) :
    Works pb fr c (fun n n' => n' = n) [.pinged] w { w with
      udpOut.ticks := ticks
      udpOut.rx := w.udpOut.rx ++ packets
      udpOut.submitted := w.udpOut.submitted ++ packets } := by
  refine ⟨⟨rfl, ?_, fun h => h⟩, rfl, rfl⟩
  intro q hq
  cases q with
  | framed => exact (steps_kept .framed).refl w
  | heard => exact (steps_kept .heard).refl w
  | spoken => exact ⟨⟨_, rfl, rfl⟩, ⟨rfl, rfl, rfl, rfl⟩, rfl, rfl⟩
  | played => exact (steps_kept .played).refl w
  | pinged => exact absurd List.mem_cons_self hq

/-- `udp_ping` puts a ping into the channel for every tick, and does nothing else. -/
theorem udpPing_polls (ks : List (Change A)) :
    (udpPing : Future (Reactor E D K M A) _ _ _).Polls (fun _ => False)
      (Works pb fr c (fun n n' => n' = n) [.pinged]) (UdpPingInv ks) (UdpPingInv ks)
      (fun _ _ => False) (fun _ w => UdpLogged ks w.udpOut) := by
  have hsteps : Future.Steps (Works (A := A) pb fr c (fun n n' => n' = n) [.pinged]) :=
    steps_works steps_eq _
  refine Future.Polls.mapErr (Future.Polls.fold submitPacket_keeps hsteps ?_ ?_)
  · rintro _ w ⟨timestamp, rfl, log, hlog, hsends, hticks⟩
    simp only [submitPacket]
    split_ifs
    · refine ⟨works_submit pb fr c w w.udpOut.ticks [udpPingPacket timestamp],
        log ++ [.inl timestamp], ?_, ?_, ?_⟩
      · simp [hlog]
      · simp [hsends]
      · simp [hticks]
    · exact ⟨hsteps.refl w, timestamp, rfl, log, hlog, hsends, hticks⟩
  · rintro _ w ⟨log, hlog, hsends, hticks⟩
    simp only [udpInterval]
    have htick := fun ts => works_submit pb fr c w ts []
    simp only [List.append_nil] at htick
    rcases hdue : w.udpOut.ticks with _ | ⟨e | timestamp, ts⟩
    · exact ⟨hsteps.refl w, log, hlog, hsends, hticks⟩
    · exact ⟨htick ts, [.error e], Nat.le_refl 1, log, hlog, hsends, by simp [hticks, hdue]⟩
    · exact ⟨htick ts, timestamp, rfl, log, hlog, hsends, by simp [hticks, hdue]⟩

end UdpPing

/-! ### `src_rx` -/

section SrcRx

variable [AppSrc S] {pb : CodedInputStream} {fr : FailedRead} {c : AudioPacketCodec E D K M}

theorem srcRx_snoc {elems elems' : List S} {items : List VoxInp}
    (h : MumbleBot.srcRx elems items = .returned (.ok elems')) (item : VoxInp) :
    MumbleBot.srcRx elems (items ++ [item]) = srcRxItem elems' item := by
  induction items generalizing elems with
  | nil =>
    obtain rfl := Except.ok.inj (Outcome.returned.inj h)
    rw [List.nil_append, MumbleBot.srcRx]
    rcases srcRxItem elems item with (_ | _) | _ <;> rfl
  | cons item' items ih =>
    rw [MumbleBot.srcRx] at h
    rw [List.cons_append, MumbleBot.srcRx]
    obtain ⟨r, hr, h⟩ := Outcome.bind_eq_returned.mp h
    rw [hr, Outcome.returned_bind]
    cases r with
    | ok elems₁ => exact ih h
    | error e => cases h

variable (S)

/-- An item that `src_rx` panics on. -/
def PlayBlame (w : Reactor E D K M A) : Prop :=
  ∃ played, w.voxInp.submitted = played ++ w.voxInp.rx ∧
    MumbleBot.srcRx (srcPipeline : List S) played = .panicked

variable {S}

/-- What holds of `src_rx`. -/
def SrcRxInv : SrcRxState S → Reactor E D K M A → Prop :=
  Sum.elim (fun elems w => HasPlayed (.ok elems) w.voxInp) fun x w => HasPlayed x w.voxInp

theorem works_voxInpRx (w : Reactor E D K M A) (items : List VoxInp) :
    Works pb fr c (fun n n' => n' = n) [.played] w { w with voxInp.rx := items } := by
  refine ⟨⟨rfl, ?_, fun h => h⟩, rfl, rfl⟩
  intro q hq
  cases q with
  | framed => exact (steps_kept .framed).refl w
  | heard => exact (steps_kept .heard).refl w
  | spoken => exact (steps_kept .spoken).refl w
  | played => exact absurd List.mem_cons_self hq
  | pinged => exact (steps_kept .pinged).refl w

/-- **The contract of `src_rx`.** -/
theorem srcRx_polls : (srcRx : Future (Reactor E D K M A) (SrcRxState S) _ _).Polls (PlayBlame S)
    (Works pb fr c (fun n n' => n' = n) [.played]) SrcRxInv SrcRxInv (fun _ _ => False)
    (fun _ w => ∃ x : Except Unit (List S), HasPlayed x w.voxInp) := by
  refine Future.Polls.mapErr (Future.Polls.fold elemsDone_keeps (steps_works steps_eq _) ?_ ?_)
  · rintro (e | elems) w h
    · exact ⟨(steps_works steps_eq _).refl w, _, h⟩
    · exact ⟨(steps_works steps_eq _).refl w, h⟩
  · rintro elems w ⟨played, hsub, hplayed⟩
    simp only [voxInpRx]
    cases hrx : w.voxInp.rx with
    | nil => exact ⟨(steps_works steps_eq _).refl w, played, hsub, hplayed⟩
    | cons item items =>
      have hsub' : w.voxInp.submitted = played ++ [item] ++ items := by
        rw [hsub, hrx, List.append_assoc]
        rfl
      have hsnoc := srcRx_snoc hplayed item
      refine ⟨works_voxInpRx w items, ?_⟩
      show (srcRxItem elems item).Ends _ _
      rw [← hsnoc]
      cases hx : MumbleBot.srcRx (srcPipeline : List S) (played ++ [item]) with
      | panicked => exact ⟨_, hsub', hx⟩
      | returned x => exact ⟨_, hsub', hx⟩

end SrcRx

end Reactor

end MumbleBot
