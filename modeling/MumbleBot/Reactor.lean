import MumbleBot.Base.AsyncRead
import MumbleBot.Client
import MumbleBot.Connection

/-!
# The tasks of the reactor

`cmd` hands one future to the reactor: the connection with its six tasks, and `src_rx` beside it.
Each poll reads what is there, from the TCP stream, the UDP socket and the channels, and goes on
until it would have to wait. `Reactor` is the world all of them work on. `Net` is a part of it, and
the futures of `Connection` work on that part.

A control frame, a datagram and a packet are each handled in one go, by whichever task is polled;
`log` records in which order. The kill switch is left out, since nothing is ever sent to it.

## Main definitions

* `Reactor`, `Reactor.Change` — the world, and what happens in it
* `Reactor.tcpRecvLoop`, `Reactor.udpRecvLoop`, `Reactor.udpWriter`, `Reactor.udpPing`,
  `Reactor.srcRx` — the futures
* `Reactor.comm`, `Reactor.cmd` — the connection, and all of it
-/

namespace MumbleBot

/-! ### The world -/

/-- The receiving half of the TCP stream. -/
structure TcpIn where
  /-- What the stream will answer to reads; no bytes are its end. -/
  reads : List (Except IoError Bytes)
  /-- All bytes that have been read. This is only a record. -/
  received : Bytes

/-- The receiving half of the UDP socket. -/
structure UdpIn (A : Type) where
  /-- What `recv_from` will answer. -/
  arrived : List (Except IoError (A × Bytes))
  /-- All datagrams that have been received. This is only a record. -/
  taken : List (A × Bytes)

/-- The sending half of the UDP socket, with the buffer of `UdpFramed` and the channel of `udp_tx`
and `udp_rx`. -/
structure UdpOut (A : Type) where
  /-- The packets in the channel. -/
  rx : List AudioOutPacket
  /-- All packets that have ever been put into the channel. This is only a record. -/
  submitted : List AudioOutPacket
  /-- Whether the channel takes a packet of `udp_ping`. -/
  room : Bool
  /-- The ticks of the timer of `udp_ping`, as in `Net`. -/
  ticks : List (Except String UInt64)
  wr : Bytes
  outAddr : A
  flushed : Bool
  /-- What `send_to` will answer. -/
  sends : List (Except IoError ℕ)
  /-- The datagrams the socket has been given, each with how much of it was sent. This is only a
  record. -/
  sent : List ((A × Bytes) × ℕ)

/-- The channel of `vox_inp_tx` and `vox_inp_rx`. -/
structure VoxInpChannel where
  rx : List VoxInp
  /-- All that has ever been put into the channel. This is only a record. -/
  submitted : List VoxInp
  /-- Whether the channel takes what `udp_recv_loop` has heard. -/
  room : Bool

variable {A : Type}

/-- A read from the TCP stream. -/
def TcpIn.read (t : TcpIn) (n : ℕ) : ReadAnswer × TcpIn :=
  match t.reads with
  | [] => (.wouldBlock, t)
  | .error e :: answers => (.failed e, { t with reads := answers })
  | .ok bs :: answers =>
    (.data (bs.take n),
      { reads := if bs.length ≤ n then answers else .ok (bs.drop n) :: answers,
        received := t.received ++ bs.take n })

/-- The bytes of some answers. -/
def readBytes (answers : List (Except IoError Bytes)) : Bytes :=
  answers.flatMap fun answer => answer.toOption.getD []

theorem readBytes_append (answers answers' : List (Except IoError Bytes)) :
    readBytes (answers ++ answers') = readBytes answers ++ readBytes answers' :=
  List.flatMap_append

/-- What is handed out is the front of what could be read. -/
theorem TcpIn.readBytes_read (t : TcpIn) (n : ℕ) :
    readBytes t.reads = (t.read n).1.bytes ++ readBytes (t.read n).2.reads := by
  rw [TcpIn.read]
  split
  · rfl
  · rename_i e answers hreads
    rw [hreads]
    rfl
  · rename_i bs answers hreads
    rw [hreads]
    dsimp only [ReadAnswer.bytes]
    split_ifs with hle
    · rw [List.take_of_length_le hle]
      rfl
    · show bs ++ readBytes answers = bs.take n ++ (bs.drop n ++ readBytes answers)
      rw [← List.append_assoc, List.take_append_drop]

theorem TcpIn.received_read (t : TcpIn) (n : ℕ) :
    (t.read n).2.received = t.received ++ (t.read n).1.bytes := by
  rw [TcpIn.read]
  split
  · exact (List.append_nil _).symm
  · exact (List.append_nil _).symm
  · rfl

/-- `UdpFramed::poll_complete`. -/
def UdpOut.pollComplete (u : UdpOut A) : Polled Unit Unit IoError × UdpOut A :=
  if u.flushed then (.ready (), u)
  else
    match u.sends with
    | [] => (.notReady (), u)
    | .error e :: answers => (.failed e, { u with sends := answers })
    | .ok n :: answers =>
      let u' := { u with
        sends := answers
        sent := u.sent ++ [((u.outAddr, u.wr), n)]
        wr := []
        flushed := true }
      if n = u.wr.length then (.ready (), u')
      else (.failed (.other "failed to write entire datagram to socket"), u')

theorem UdpOut.rx_pollComplete (u : UdpOut A) : u.pollComplete.2.rx = u.rx := by
  rw [pollComplete]
  split_ifs
  · rfl
  · split
    · rfl
    · rfl
    · dsimp only
      split_ifs <;> rfl

/-- What the futures of the program work on. The codec has the session and the crypt state in it,
which `tcp_recv_loop` shares. -/
structure Reactor (E D K M A : Type) where
  net : Net
  tcpIn : TcpIn
  udpIn : UdpIn A
  udpOut : UdpOut A
  voxInp : VoxInpChannel
  codec : AudioPacketCodec E D K M
  /-- What has been handled so far, and what came of it. This is only a record. -/
  log : List (Event A × Output A)

namespace Reactor

variable {E D K M S : Type}

/-- What happens in the world. -/
inductive Change (A : Type) where
  /-- A change of what sends over TCP. -/
  | net (k : NetChange)
  /-- Bytes come in over TCP, or an error. -/
  | read (answer : Except IoError Bytes)
  /-- A datagram comes in, or an error. -/
  | arrive (answer : Except IoError (A × Bytes))
  /-- The socket can take one more datagram, and will answer this. -/
  | sendTo (answer : Except IoError ℕ)
  /-- Another holder of `udp_tx` sends a packet. -/
  | submit (packet : AudioOutPacket)
  /-- Whether `udp_tx` has room. -/
  | udpRoom (b : Bool)
  /-- A tick of the timer of `udp_ping` is due. -/
  | udpTick (t : Except String UInt64)
  /-- Whether `vox_inp_tx` has room. -/
  | voxRoom (b : Bool)

namespace Change

/-- A change of the TCP side. -/
def net? : Change A → Option NetChange
  | net k => some k
  | _ => none

/-- What is added to the answers of the TCP stream. -/
def read? : Change A → Option (Except IoError Bytes)
  | read answer => some answer
  | _ => none

/-- What is added to the answers of the UDP socket. -/
def arrive? : Change A → Option (Except IoError (A × Bytes))
  | arrive answer => some answer
  | _ => none

/-- A packet from outside. -/
def submit? : Change A → Option AudioOutPacket
  | submit packet => some packet
  | _ => none

/-- A tick of the timer of `udp_ping`. -/
def udpTick? : Change A → Option (Except String UInt64)
  | udpTick t => some t
  | _ => none

end Change

/-- The world after a change. -/
def change : Change A → Reactor E D K M A → Reactor E D K M A
  | .net k, w => { w with net := Net.change k w.net }
  | .read answer, w => { w with tcpIn.reads := w.tcpIn.reads ++ [answer] }
  | .arrive answer, w => { w with udpIn.arrived := w.udpIn.arrived ++ [answer] }
  | .sendTo answer, w => { w with udpOut.sends := w.udpOut.sends ++ [answer] }
  | .submit packet, w =>
    { w with
      udpOut.rx := w.udpOut.rx ++ [packet]
      udpOut.submitted := w.udpOut.submitted ++ [packet] }
  | .udpRoom b, w => { w with udpOut.room := b }
  | .udpTick t, w => { w with udpOut.ticks := w.udpOut.ticks ++ [t] }
  | .voxRoom b, w => { w with voxInp.room := b }

/-- Something has been handled: the codec is what that has made of it. -/
def handled (w : Reactor E D K M A) (event : Event A) (output : Output A)
    (codec : AudioPacketCodec E D K M) : Reactor E D K M A :=
  { w with codec, log := w.log ++ [(event, output)] }

/-! ### `tcp_recv_loop` -/

instance : AsyncRead (Reactor E D K M A) where
  read w n := ((w.tcpIn.read n).1, { w with tcpIn := (w.tcpIn.read n).2 })
  length_le {w w' n bs} h := by
    simp only [TcpIn.read] at h
    split at h <;> cases h
    exact List.length_take_le _ _

/-- How many bytes can be read before something is added. -/
def unread (w : Reactor E D K M A) : ℕ := (readBytes w.tcpIn.reads).length

theorem unread_read {w w' : Reactor E D K M A} {n : ℕ} {answer : ReadAnswer}
    (h : AsyncRead.read w n = (answer, w')) : w.unread = answer.bytes.length + w'.unread := by
  obtain ⟨rfl, rfl⟩ := Prod.mk.inj h
  rw [unread, w.tcpIn.readBytes_read n, List.length_append]
  rfl

/-- What has been read stays below a bound that it is below, and comes below one that it is at. -/
theorem readExact_reads (N : ℕ) :
    (AsyncRead.readExact : Future (Reactor E D K M A) _ _ _).Polls (fun _ => True)
      (fun _ _ => True)
      (fun s w => w.unread ≤ N ∧ (s.want ≤ s.got.length → w.unread < N))
      (fun _ _ => True) (fun _ w => w.unread < N) fun _ _ => True := by
  have hsteps : Future.Steps fun _ _ : Reactor E D K M A => True := Future.steps_true
  have hpolls := AsyncRead.readExact_polls hsteps (fun _ _ => trivial)
    (P := fun n got w => w.unread ≤ N ∧ (n ≤ got.length → w.unread < N))
    (J := fun _ _ _ => True) (B := fun _ => True) (E := fun _ _ => True) ?_
    (fun _ _ => trivial) (fun _ _ _ => trivial) fun _ _ _ => trivial
  · exact hpolls.mono (fun _ _ => trivial) (fun _ _ _ => trivial) (fun _ _ h => h)
      (fun _ _ _ => trivial) (fun _ _ h => h.2 (Nat.le_refl _)) fun _ _ _ => trivial
  · rintro n k got bs w w' ⟨hle, -⟩ hanswer hne
    have hread := unread_read hanswer
    have hpos := List.length_pos_iff.mpr hne
    rw [ReadAnswer.bytes] at hread
    exact ⟨by omega, fun _ => by omega⟩

section TcpRecv

variable [HashMap M UInt64 Remote] [CryptState K] (pb : CodedInputStream)

/-- The `match` on `mum_type`, and `Loop::Continue`: the session and the crypt state are locked for
as long as a branch needs them. -/
def handle : Future (Reactor E D K M A) Frame (Turn Unit Empty) IoError where
  poll frame w := do
    let (session, crypt) ← dispatch pb frame.1 frame.2 w.codec.session w.codec.crypt
    return (.ready (.continue_ ()),
      w.handled (.control frame) ⟨none, none⟩ { w.codec with session, crypt })

/-- The state of a turn of `tcp_recv_loop`: of its three reads, or of its handler. -/
abbrev TcpRecvState := ((ReadExact ⊕ UInt16 × ReadExact) ⊕ UInt16 × ReadExact) ⊕ Frame

/-- The future that `tcp_recv_loop` makes for each frame. -/
def tcpRecvTurn : Future (Reactor E D K M A) TcpRecvState (Turn Unit Empty) IoError :=
  ((AsyncRead.readExact.andThen
      (fun buf => .returned (UInt16.ofNat (ofBigEndian buf), ReadExact.new 4))
      (AsyncRead.readExact.carry UInt16)).andThen
    (fun (mumType, buf) =>
      .returned (mumType, ReadExact.new (UInt32.ofNat (ofBigEndian buf)).toNat))
    (AsyncRead.readExact.carry UInt16)).andThen
    (fun frame => .returned frame) (handle pb)

/-- A turn before its first poll. -/
def startTurn : TcpRecvState := .inl (.inl (.inl (ReadExact.new 2)))

/-- What each turn lowers: the bytes that can be read, and one more if the first two of a frame have
been read. -/
def turnLeft (s : TcpRecvState) (w : Reactor E D K M A) : ℕ :=
  w.unread +
    match s with
    | .inl (.inl (.inl s)) => if s.got.length < s.want then 0 else 1
    | _ => 1

/-- A turn has read something when it is ready. -/
theorem tcpRecvTurn_reads (N : ℕ) :
    (tcpRecvTurn pb : Future (Reactor E D K M A) _ _ _).Polls (fun _ => True) (fun _ _ => True)
      (fun s w => turnLeft s w ≤ N) (fun _ _ => True) (fun _ w => w.unread < N)
      fun _ _ => True := by
  have hnext : (AsyncRead.readExact.carry UInt16 : Future (Reactor E D K M A) _ _ _).Polls
      (fun _ => True) (fun _ _ => True) (fun _ w => w.unread < N) (fun _ _ => True)
      (fun _ w => w.unread < N) fun _ _ => True :=
    Future.Polls.carry fun _ => (readExact_reads N).mono (fun _ h => h) (fun _ _ h => h)
      (fun _ _ h => ⟨Nat.le_of_lt h, fun _ => h⟩) (fun _ _ h => h) (fun _ _ h => h) fun _ _ h => h
  have hhandle : (handle pb : Future (Reactor E D K M A) _ _ _).Polls (fun _ => True)
      (fun _ _ => True) (fun _ w => w.unread < N) (fun _ _ => True)
      (fun _ w => w.unread < N) fun _ _ => True := by
    intro frame w hw
    refine Outcome.Ends.bind (P := fun _ => True) ?_ fun _ _ => ⟨trivial, hw⟩
    cases dispatch pb frame.1 frame.2 w.codec.session w.codec.crypt with
    | returned s => exact trivial
    | panicked => exact ⟨w, trivial, trivial⟩
  have hsteps : Future.Steps fun _ _ : Reactor E D K M A => True := Future.steps_true
  refine Future.Polls.mono (Future.Polls.andThen hsteps (Future.Polls.andThen hsteps
    (Future.Polls.andThen hsteps (readExact_reads N) hnext fun _ _ h => h) hnext
    fun _ _ h => h) hhandle fun _ _ h => h) (fun _ _ => trivial) (fun _ _ _ => trivial) ?_
    (fun _ _ _ => trivial) (fun _ _ h => h) fun _ _ _ => trivial
  rintro (((s | s) | s) | s) w h
  · simp only [turnLeft] at h
    refine ⟨Nat.le_trans (Nat.le_add_right _ _) h, fun hle => ?_⟩
    rw [if_neg (Nat.not_lt.mpr hle)] at h
    exact h
  · exact h
  · exact h
  · exact h

/-- The next turn starts with less to read. -/
theorem tcpRecvTurn_lowers : (tcpRecvTurn pb : Future (Reactor E D K M A) _ _ _).Lowers
    (fun _ => .returned startTurn) turnLeft := by
  intro s w x w' s' hpoll hfunc
  obtain rfl := Outcome.returned.inj hfunc
  have hlt := tcpRecvTurn_reads pb (turnLeft s w) s w (Nat.le_refl _)
  rw [hpoll] at hlt
  exact hlt.2

/-- `tcp_recv_loop`. -/
def tcpRecvLoop : Future (Reactor E D K M A) TcpRecvState Empty IoError :=
  Future.loopFn (tcpRecvTurn pb) (fun _ => .returned startTurn) turnLeft (tcpRecvTurn_lowers pb)

end TcpRecv

/-! ### `udp_recv_loop` -/

section UdpRecv

variable [OpusDecoder D] [CryptState K] [HashMap M UInt64 Remote] (fr : FailedRead)

/-- A datagram is received. -/
def receive (w : Reactor E D K M A) (datagram : A × Bytes)
    (answers : List (Except IoError (A × Bytes))) : Reactor E D K M A :=
  { w with udpIn := { arrived := answers, taken := w.udpIn.taken ++ [datagram] } }

/-- `UdpFramed` as a stream. Its buffer has room for every datagram. -/
def udpFramed : Future.Source (Reactor E D K M A) (A × AudioInPacket) IoError where
  next w :=
    match w.udpIn.arrived with
    | [] => .returned (.notReady, w)
    | .error e :: answers =>
      .returned (.failed e, { w with udpIn.arrived := answers })
    | .ok (addr, buf) :: answers => do
      let w := w.receive (addr, buf) answers
      let (r, codec) ← decode fr w.codec addr buf
      match r with
      | .ok (socket, packet) =>
        return (.item (socket, packet), w.handled (.datagram addr buf) ⟨udpRecv packet, none⟩ codec)
      | .error e => return (.failed e, w.handled (.datagram addr buf) ⟨none, none⟩ codec)
  left w := w.udpIn.arrived.length
  next_lt w item w' h := by
    split at h
    · cases h
    · cases h
    · rename_i addr buf answers harrived
      obtain ⟨⟨r, codec⟩, -, h⟩ := Outcome.bind_eq_returned.mp h
      cases r with
      | error e => cases h
      | ok p =>
        obtain ⟨-, rfl⟩ := Prod.mk.inj (Outcome.returned.inj h)
        rw [harrived]
        exact Nat.lt_succ_self _

/-- What `udp_recv_loop` makes of a packet: the `send` of what is heard, or `ok`. -/
def sendVox : Future (Reactor E D K M A) (Option VoxInp) Unit IoError where
  poll
    | none, w => .returned (.ready (), w)
    | some heard, w =>
      if w.voxInp.room then
        .returned (.ready (),
          { w with
            voxInp.rx := w.voxInp.rx ++ [heard]
            voxInp.submitted := w.voxInp.submitted ++ [heard] })
      else .returned (.notReady (some heard), w)

theorem sendVox_keeps : (sendVox : Future (Reactor E D K M A) _ _ _).Keeps (udpFramed fr).left := by
  rintro (_ | heard) w r w' h
  · cases h
    exact Nat.le_refl _
  · simp only [sendVox] at h
    split_ifs at h <;> cases h <;> exact Nat.le_refl _

/-- `udp_recv_loop`. -/
def udpRecvLoop : Future (Reactor E D K M A) (Unit ⊕ Option VoxInp) Unit IoError :=
  (Future.fold (udpFramed fr) (fun _ item => .returned (udpRecv item.2)) sendVox
    (sendVox_keeps fr)).mapErr fun _ => .other "udp_loop"

end UdpRecv

/-! ### `udp_writer` and `udp_ping` -/

section UdpWriter

variable [OpusEncoder E] [CryptState K]

/-- A datagram is put into the buffer. -/
def encoded (w : Reactor E D K M A) (datagram : A × Bytes) : Reactor E D K M A :=
  { w with
    udpOut.wr := datagram.2
    udpOut.outAddr := datagram.1
    udpOut.flushed := false }

/-- `UdpFramed::start_send`, which puts the item back if there is still something to be flushed. -/
def startSend (item : A × AudioOutPacket) (w : Reactor E D K M A) :
    Outcome (Polled (A × AudioOutPacket) Unit IoError × Reactor E D K M A) :=
  let (r, udpOut) := w.udpOut.pollComplete
  let w := { w with udpOut }
  match r with
  | .notReady _ => return (.notReady item, w)
  | .failed e => return (.failed e, w)
  | .ready _ => do
    let (datagram, codec) ← encode w.codec item.1 item.2 w.udpOut.wr
    return (.ready (),
      (w.encoded datagram).handled (.outgoing item.1 item.2) ⟨none, some datagram⟩ codec)

/-- The second half of `Send::poll`. -/
def flush (w : Reactor E D K M A) :
    Polled (Option (A × AudioOutPacket)) Unit IoError × Reactor E D K M A :=
  let (r, udpOut) := w.udpOut.pollComplete
  (r.mapState fun _ => none, { w with udpOut })

/-- `tx.send(item)`: the item is taken by the sink, and then the sink is flushed. -/
def sendPacket : Future (Reactor E D K M A) (Option (A × AudioOutPacket)) Unit IoError where
  poll
    | some item, w => do
      let (r, w) ← startSend item w
      match r with
      | .notReady item => return (.notReady (some item), w)
      | .failed e => return (.failed e, w)
      | .ready _ => return flush w
    | none, w => return flush w

end UdpWriter

/-- `udp_rx`, whose sending end outlives it. -/
def udpRx : Future.Source (Reactor E D K M A) AudioOutPacket Unit where
  next w :=
    match w.udpOut.rx with
    | [] => .returned (.notReady, w)
    | packet :: packets => .returned (.item packet, { w with udpOut.rx := packets })
  left w := w.udpOut.rx.length
  next_lt w packet w' h := by
    split at h <;> cases h
    rename_i packets hpackets
    simp [hpackets]

section UdpWriter

variable [OpusEncoder E] [CryptState K]

theorem rx_startSend {item : A × AudioOutPacket} {w w' : Reactor E D K M A}
    {r : Polled (A × AudioOutPacket) Unit IoError} (h : startSend item w = .returned (r, w')) :
    w'.udpOut.rx = w.udpOut.rx := by
  have hrx := w.udpOut.rx_pollComplete
  rw [startSend] at h
  rcases hcomplete : w.udpOut.pollComplete with ⟨_ | _ | _, udpOut⟩ <;> rw [hcomplete] at h hrx
  · cases h
    exact hrx
  · obtain ⟨_, -, h⟩ := Outcome.bind_eq_returned.mp h
    cases h
    exact hrx
  · cases h
    exact hrx

theorem sendPacket_keeps : ((sendPacket : Future (Reactor E D K M A) _ _ _).mapErr
    fun _ => ()).Keeps udpRx.left := by
  intro s w r w' h
  obtain ⟨⟨r₁, w₁⟩, hpoll, h⟩ := Outcome.bind_eq_returned.mp h
  have hw : w₁ = w' := by
    cases r₁ <;> exact (Prod.mk.inj (Outcome.returned.inj h)).2
  have hrx : w₁.udpOut.rx = w.udpOut.rx := by
    rcases s with _ | item
    · obtain ⟨-, rfl⟩ := Prod.mk.inj (Outcome.returned.inj hpoll)
      exact w.udpOut.rx_pollComplete
    · obtain ⟨⟨r₂, w₂⟩, hstart, hpoll⟩ := Outcome.bind_eq_returned.mp hpoll
      have hrx := rx_startSend hstart
      cases r₂ with
      | notReady item =>
        cases hpoll
        exact hrx
      | failed e =>
        cases hpoll
        exact hrx
      | ready _ =>
        obtain ⟨-, rfl⟩ := Prod.mk.inj (Outcome.returned.inj hpoll)
        exact w₂.udpOut.rx_pollComplete.trans hrx
  rw [← hw]
  exact Nat.le_of_eq (congrArg List.length hrx)

/-- `udp_writer`. -/
def udpWriter (udpServerAddr : A) :
    Future (Reactor E D K M A) (Unit ⊕ Option (A × AudioOutPacket)) Unit IoError :=
  (Future.fold udpRx (fun _ msg => .returned (some (udpServerAddr, msg)))
    (sendPacket.mapErr fun _ => ()) sendPacket_keeps).mapErr fun _ => .other "writing to udp"

end UdpWriter

/-- The ticks of `Timer::default().interval(..)` in `udp_ping`. -/
def udpInterval : Future.Source (Reactor E D K M A) UInt64 String where
  next w :=
    match w.udpOut.ticks with
    | [] => .returned (.notReady, w)
    | .ok t :: ts => .returned (.item t, { w with udpOut.ticks := ts })
    | .error e :: ts => .returned (.failed e, { w with udpOut.ticks := ts })
  left w := w.udpOut.ticks.length
  next_lt w t w' h := by
    split at h <;> cases h
    rename_i ts hticks
    simp [hticks]

/-- A ping, as `udp_ping` makes it. -/
def udpPingPacket (timestamp : UInt64) : AudioOutPacket :=
  { type_ := 0b001, target := 0, pcm := [], done := false, timestamp }

/-- `tx.send(packet)` in `udp_ping`. -/
def submitPacket : Future (Reactor E D K M A) AudioOutPacket Unit String where
  poll packet w :=
    if w.udpOut.room then
      .returned (.ready (),
        { w with
          udpOut.rx := w.udpOut.rx ++ [packet]
          udpOut.submitted := w.udpOut.submitted ++ [packet] })
    else .returned (.notReady packet, w)

theorem submitPacket_keeps :
    (submitPacket : Future (Reactor E D K M A) _ _ _).Keeps udpInterval.left := by
  intro packet w r w' h
  simp only [submitPacket] at h
  split_ifs at h <;> cases h <;> exact Nat.le_refl _

/-- `udp_ping`. -/
def udpPing : Future (Reactor E D K M A) (Unit ⊕ AudioOutPacket) Unit IoError :=
  (Future.fold udpInterval (fun _ timestamp => .returned (udpPingPacket timestamp)) submitPacket
    submitPacket_keeps).mapErr .other

/-! ### `src_rx` -/

/-- `vox_inp_rx`, whose sending end outlives it. -/
def voxInpRx : Future.Source (Reactor E D K M A) VoxInp Unit where
  next w :=
    match w.voxInp.rx with
    | [] => .returned (.notReady, w)
    | item :: items => .returned (.item item, { w with voxInp.rx := items })
  left w := w.voxInp.rx.length
  next_lt w item w' h := by
    split at h <;> cases h
    rename_i items hitems
    simp [hitems]

/-- `ok(elems)` or `err(())`. -/
def elemsDone : Future (Reactor E D K M A) (Except Unit (List S)) (List S) Unit where
  poll
    | .ok elems, w => .returned (.ready elems, w)
    | .error e, w => .returned (.failed e, w)

theorem elemsDone_keeps :
    (elemsDone : Future (Reactor E D K M A) (Except Unit (List S)) _ _).Keeps voxInpRx.left := by
  rintro (_ | elems) w r w' h <;> cases h <;> exact Nat.le_refl _

/-- `src_rx`. -/
def srcRx [AppSrc S] :
    Future (Reactor E D K M A) (List S ⊕ Except Unit (List S)) (List S) IoError :=
  (Future.fold voxInpRx srcRxItem elemsDone elemsDone_keeps).mapErr fun _ => .other "vox_inp_task"

/-! ### All of it -/

section Cmd

variable [OpusEncoder E] [OpusDecoder D] [CryptState K] [HashMap M UInt64 Remote] [AppSrc S]

/-- A future of `Net`. -/
def onNet {σ α ε : Type} (F : Future Net σ α ε) : Future (Reactor E D K M A) σ α ε :=
  F.onPart net fun w net => { w with net }

/-- The state of `ping_tasks`. -/
abbrev PingState := ((Unit ⊕ Bytes) ⊕ Unit) × ((Unit ⊕ AudioOutPacket) ⊕ Unit)

/-- The state of `recv_tasks`. -/
abbrev RecvState := (TcpRecvState ⊕ Empty) × ((Unit ⊕ Option VoxInp) ⊕ Unit)

/-- The state of `send_tasks`. -/
abbrev SendState (A : Type) :=
  ((Unit ⊕ WriteAll) ⊕ Unit) × ((Unit ⊕ Option (A × AudioOutPacket)) ⊕ Unit)

/-- The state of `recv_tasks` and `send_tasks`. -/
abbrev RestState (A : Type) := (RecvState ⊕ Empty × Unit) × (SendState A ⊕ Unit × Unit)

/-- The state of all tasks. -/
abbrev TasksState (A : Type) :=
  (PingState ⊕ Unit × Unit) × (RestState A ⊕ (Empty × Unit) × Unit × Unit)

/-- What all tasks would be ready with. -/
abbrev TasksDone := (Unit × Unit) × (Empty × Unit) × Unit × Unit

/-- The state of `comm`. -/
abbrev CommState (A : Type) := GreetState ⊕ TasksState A

/-- The state of `src_rx`. -/
abbrev SrcRxState (S : Type) := List S ⊕ Except Unit (List S)

/-- The state of `cmd`. -/
abbrev CmdState (A S : Type) := (CommState A ⊕ TasksDone) × (SrcRxState S ⊕ List S)

/-- `ping_tasks`. -/
def pingTasks : Future (Reactor E D K M A) PingState (Unit × Unit) IoError :=
  (onNet tcpPing).join udpPing

/-- `recv_tasks`. -/
def recvTasks (pb : CodedInputStream) (fr : FailedRead) :
    Future (Reactor E D K M A) RecvState (Empty × Unit) IoError :=
  (tcpRecvLoop pb).join (udpRecvLoop fr)

/-- `send_tasks`. -/
def sendTasks (udpServerAddr : A) :
    Future (Reactor E D K M A) (SendState A) (Unit × Unit) IoError :=
  (onNet tcpWriter).join (udpWriter udpServerAddr)

/-- `join3(ping_tasks, recv_tasks, send_tasks)`. -/
def tasks (pb : CodedInputStream) (fr : FailedRead) (udpServerAddr : A) :
    Future (Reactor E D K M A) (TasksState A) TasksDone IoError :=
  pingTasks.join ((recvTasks pb fr).join (sendTasks udpServerAddr))

/-- The tasks before their first poll. -/
def startTasks : TasksState A :=
  (.inl (.inl (.inl ()), .inl (.inl ())),
    .inl (.inl (.inl startTurn, .inl (.inl ())), .inl (.inl (.inl ()), .inl (.inl ()))))

/-- `comm`, from the handshake on. -/
def comm (text : SslError → String) (random : UInt16) (pb : CodedInputStream) (fr : FailedRead)
    (udpServerAddr : A) : Future (Reactor E D K M A) (CommState A) TasksDone IoError :=
  (onNet (greet text random)).andThen (fun _ => .returned startTasks) (tasks pb fr udpServerAddr)

/-- What `cmd` runs: the connection and `src_rx`. -/
def cmd (text : SslError → String) (random : UInt16) (pb : CodedInputStream) (fr : FailedRead)
    (udpServerAddr : A) : Future (Reactor E D K M A) (CmdState A S) (TasksDone × List S) IoError :=
  (comm text random pb fr udpServerAddr).join srcRx

/-- `cmd` before its first poll; `first` is what `connect` has made of the handshake. -/
def startCmd (first : Handshake) : CmdState A S :=
  (.inl (.inl (.inl (.inl (some first)))), .inl (.inl srcPipeline))

end Cmd

end Reactor

end MumbleBot
