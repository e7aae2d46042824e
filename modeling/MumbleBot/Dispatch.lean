import MumbleBot.Session
import MumbleBot.External
import MumbleBot.Messages
import MumbleBot.Base.Machine

/-!
# `tcp.rs`: what a control frame does

`tcp_recv_loop` parses each frame by its type and acts on it. Five types do something: `ServerSync`,
`UserRemove` and `UserState` change the session, `CryptSetup` changes the crypt state, and
`UDPTunnel` has its audio header looked at. Seven more are parsed and printed, and the rest is
passed over. Whatever does not parse panics.

`control` is what a frame says and `Control.apply` what that does; `dispatch_eq` splits the
handler into the two, and is the only place where its branches are looked at.

## Main definitions

* `dispatch` — the `match` on `mum_type`
* `Control`, `control`, `Control.apply` — a frame, parsed, and what it does
* `mumTypes`, `mumType_cases` — the types that the handler knows, and the cases they make
* `dispatcher` — the handler as a machine
* `Accepted` — the frames that do not panic

## Main results

* `dispatch_eq` — what the handler does, in two parts
* `returns_dispatch_iff` — exactly when it returns
* `accepted_nil_iff` — what happens to a frame without a payload
-/

namespace MumbleBot

/-- A frame: its type and its payload. -/
abbrev Frame := UInt16 × Bytes

variable {K M : Type} [HashMap M UInt64 Remote] [CryptState K]

/-- The handler in `tcp_recv_loop`: the `match` on `mum_type`. -/
def dispatch (pb : CodedInputStream) (mumType : UInt16) (buf : Bytes) (session : Session M)
    (crypt : K) : Outcome (Session M × K) :=
  match mumType with
  | 0 => do
    let _ ← received Version pb buf
    return (session, crypt)
  | 1 => do -- UDPTunnel
    let (audHeader, _) ← (readU8 buf).unwrap
    let audType := audHeader &&& 0b11100000
    match audType with
    | 128 => return (session, crypt) -- OPUS encoded voice data
    | 32 => return (session, crypt) -- Ping
    | _ => .panicked
  | 3 => do
    let _ ← received Ping pb buf
    return (session, crypt)
  | 5 => do
    let msg ← received ServerSync pb buf
    return ({ session with local_ := { id := msg.getSession.toUInt64 } }, crypt)
  | 7 => do
    let _ ← received ChannelState pb buf
    return (session, crypt)
  | 8 => do
    let msg ← received UserRemove pb buf
    let sessionId := msg.getSession.toUInt64
    return ({ session with remotes := HashMap.remove session.remotes sessionId }, crypt)
  | 9 => do
    let msg ← received UserState pb buf
    let sessionId := msg.getSession.toUInt64
    return ({ session with remotes :=
                HashMap.insert session.remotes sessionId { id := sessionId } }, crypt)
  | 11 => do
    let _ ← received TextMessage pb buf
    return (session, crypt)
  | 15 => do
    let msg ← received CryptSetup pb buf
    let cryptKey := msg.getKey
    let cryptClientNonce := msg.getClientNonce
    let cryptServerNonce := msg.getServerNonce
    return (session, CryptState.setKey crypt cryptKey cryptClientNonce cryptServerNonce)
  | 20 => do
    let _ ← received PermissionQuery pb buf
    return (session, crypt)
  | 21 => do
    let _ ← received CodecVersion pb buf
    return (session, crypt)
  | 24 => do
    let _ ← received ServerConfig pb buf
    return (session, crypt)
  | _ => return (session, crypt)

/-! ### What a frame says -/

/-- What a frame says to the client. -/
inductive Control where
  | serverSync (session : UInt64)
  | userRemove (session : UInt64)
  | userState (session : UInt64)
  | cryptSetup (msg : CryptSetup)
  /-- Nothing that changes anything. -/
  | other
  deriving DecidableEq, Repr

/-- The frame as the handler understands it, unless it panics. -/
def control (pb : CodedInputStream) (frame : Frame) : Outcome Control :=
  match frame.1 with
  | 0 => (fun _ => .other) <$> received Version pb frame.2
  | 1 => do
    let (audHeader, _) ← (readU8 frame.2).unwrap
    if audHeader &&& 0b11100000 = 128 ∨ audHeader &&& 0b11100000 = 32 then return .other
    else .panicked
  | 3 => (fun _ => .other) <$> received Ping pb frame.2
  | 5 => (fun msg => .serverSync msg.getSession.toUInt64) <$> received ServerSync pb frame.2
  | 7 => (fun _ => .other) <$> received ChannelState pb frame.2
  | 8 => (fun msg => .userRemove msg.getSession.toUInt64) <$> received UserRemove pb frame.2
  | 9 => (fun msg => .userState msg.getSession.toUInt64) <$> received UserState pb frame.2
  | 11 => (fun _ => .other) <$> received TextMessage pb frame.2
  | 15 => .cryptSetup <$> received CryptSetup pb frame.2
  | 20 => (fun _ => .other) <$> received PermissionQuery pb frame.2
  | 21 => (fun _ => .other) <$> received CodecVersion pb frame.2
  | 24 => (fun _ => .other) <$> received ServerConfig pb frame.2
  | _ => .returned .other

/-- What a message does to the session and the crypt state. -/
def Control.apply : Control → Session M × K → Session M × K
  | .serverSync id, (session, crypt) => ({ session with local_ := { id } }, crypt)
  | .userRemove id, (session, crypt) =>
    ({ session with remotes := HashMap.remove session.remotes id }, crypt)
  | .userState id, (session, crypt) =>
    ({ session with remotes := HashMap.insert session.remotes id { id } }, crypt)
  | .cryptSetup msg, (session, crypt) =>
    (session, CryptState.setKey crypt msg.getKey msg.getClientNonce msg.getServerNonce)
  | .other, s => s

/-- The type of the frames that say a thing; many types say nothing. -/
def Control.mumType : Control → Option UInt16
  | .serverSync _ => some 5
  | .userRemove _ => some 8
  | .userState _ => some 9
  | .cryptSetup _ => some 15
  | .other => none

/-! ### The types, one by one -/

/-- The types that the handler knows. -/
def mumTypes : List UInt16 := [0, 1, 3, 5, 7, 8, 9, 11, 15, 20, 21, 24]

theorem not_mem_mumTypes {mumType : UInt16} :
    mumType ∉ mumTypes ↔ mumType ≠ 0 ∧ mumType ≠ 1 ∧ mumType ≠ 3 ∧ mumType ≠ 5 ∧ mumType ≠ 7 ∧
      mumType ≠ 8 ∧ mumType ≠ 9 ∧ mumType ≠ 11 ∧ mumType ≠ 15 ∧ mumType ≠ 20 ∧ mumType ≠ 21 ∧
      mumType ≠ 24 := by
  simp [mumTypes]

/-- What holds of every type that the handler knows, and of the others, holds of every type. -/
@[elab_as_elim]
theorem mumType_cases {motive : UInt16 → Prop} (mumType : UInt16) (version : motive 0)
    (udpTunnel : motive 1) (ping : motive 3) (serverSync : motive 5) (channelState : motive 7)
    (userRemove : motive 8) (userState : motive 9) (textMessage : motive 11)
    (cryptSetup : motive 15) (permissionQuery : motive 20) (codecVersion : motive 21)
    (serverConfig : motive 24) (other : ∀ mumType ∉ mumTypes, motive mumType) :
    motive mumType := by
  by_cases h : mumType ∈ mumTypes
  · simp only [mumTypes, List.mem_cons, List.not_mem_nil, or_false] at h
    rcases h with rfl | rfl | rfl | rfl | rfl | rfl | rfl | rfl | rfl | rfl | rfl | rfl <;>
      assumption
  · exact other mumType h

/-- A frame of another type says nothing. -/
theorem control_other {pb : CodedInputStream} {mumType : UInt16} (h : mumType ∉ mumTypes)
    (buf : Bytes) : control pb (mumType, buf) = .returned .other := by
  simp [control, not_mem_mumTypes.mp h]

theorem mumType_of_control {pb : CodedInputStream} {frame : Frame} {msg : Control}
    (h : control pb frame = .returned msg) : ∀ t ∈ msg.mumType, frame.1 = t := by
  obtain ⟨mumType, buf⟩ := frame
  induction mumType using mumType_cases with
  | udpTunnel =>
    simp only [control, Outcome.bind_eq_returned, Prod.exists] at h
    obtain ⟨_, _, -, h⟩ := h
    split_ifs at h
    cases h
    simp [Control.mumType]
  | other mumType hother =>
    rw [control_other hother] at h
    cases h
    simp [Control.mumType]
  | _ =>
    obtain ⟨_, -, rfl⟩ := Outcome.map_eq_returned.mp h
    simp [Control.mumType]

/-- **The handler in two parts.** It panics where the frame does not parse, whatever the state,
and otherwise it does what the frame says. -/
theorem dispatch_eq (pb : CodedInputStream) (frame : Frame) (session : Session M) (crypt : K) :
    dispatch pb frame.1 frame.2 session crypt
      = (fun msg => Control.apply msg (session, crypt)) <$> control pb frame := by
  obtain ⟨mumType, buf⟩ := frame
  induction mumType using mumType_cases with
  | udpTunnel =>
    -- the two tests are a `match` in the handler and a disjunction in `control`
    cases buf with
    | nil => rfl
    | cons h rest =>
      simp only [dispatch, control, readU8_cons, ReadResult.unwrap_ok, Outcome.returned_bind]
      split
      · simp [*, Control.apply]
      · simp [*, Control.apply]
      · next h128 h32 =>
        rw [if_neg (not_or.mpr ⟨h128, h32⟩)]
        rfl
  | other mumType hother =>
    rw [control_other hother, Outcome.map_returned]
    simp [dispatch, not_mem_mumTypes.mp hother, Control.apply]
  | _ => simp [dispatch, control, map_eq_pure_bind, Control.apply]

/-- What the handler can do. -/
theorem dispatch_eq_returned {pb : CodedInputStream} {frame : Frame} {session : Session M}
    {crypt : K} {s' : Session M × K} :
    dispatch pb frame.1 frame.2 session crypt = .returned s' ↔
      ∃ msg, control pb frame = .returned msg ∧ s' = msg.apply (session, crypt) := by
  rw [dispatch_eq, Outcome.map_eq_returned]
  simp only [eq_comm]

/-! ### The frames that do not panic -/

/-- Protobuf accepts the payload, where the type has one that is parsed; a tunnelled audio packet
has a header byte, and it announces an OPUS packet or a ping. -/
def Accepted (pb : CodedInputStream) (frame : Frame) : Prop :=
  match frame.1 with
  | 0 => Parses Version pb frame.2
  | 1 => ∃ h rest, frame.2 = h :: rest ∧ (h &&& 0b11100000 = 128 ∨ h &&& 0b11100000 = 32)
  | 3 => Parses Ping pb frame.2
  | 5 => Parses ServerSync pb frame.2
  | 7 => Parses ChannelState pb frame.2
  | 8 => Parses UserRemove pb frame.2
  | 9 => Parses UserState pb frame.2
  | 11 => Parses TextMessage pb frame.2
  | 15 => Parses CryptSetup pb frame.2
  | 20 => Parses PermissionQuery pb frame.2
  | 21 => Parses CodecVersion pb frame.2
  | 24 => Parses ServerConfig pb frame.2
  | _ => True

theorem accepted_other (pb : CodedInputStream) {mumType : UInt16} (h : mumType ∉ mumTypes)
    (buf : Bytes) : Accepted pb (mumType, buf) := by
  simp [Accepted, not_mem_mumTypes.mp h]

theorem returns_control_iff {pb : CodedInputStream} {frame : Frame} :
    (control pb frame).Returns ↔ Accepted pb frame := by
  obtain ⟨mumType, buf⟩ := frame
  induction mumType using mumType_cases with
  | udpTunnel =>
    cases buf with
    | nil => simp [control, Accepted]
    | cons h rest =>
      simp only [control, Accepted, readU8_cons, ReadResult.unwrap_ok, Outcome.returned_bind]
      split_ifs with hh
      · simp [hh]
      · simp [hh]
  | other mumType hother =>
    exact iff_of_true ⟨_, control_other hother buf⟩ (accepted_other pb hother buf)
  | _ => simp [control, Accepted, Outcome.returns_map, returns_received]

/-- **Exactly when the handler returns.** -/
theorem returns_dispatch_iff (pb : CodedInputStream) (frame : Frame) (session : Session M)
    (crypt : K) :
    (dispatch pb frame.1 frame.2 session crypt).Returns ↔ Accepted pb frame := by
  rw [dispatch_eq, Outcome.returns_map, returns_control_iff]

/-- Of the frames without a payload, only the tunnel frame panics. -/
theorem accepted_nil_iff {pb : CodedInputStream} {mumType : UInt16} :
    Accepted pb (mumType, []) ↔ mumType ≠ 1 := by
  induction mumType using mumType_cases with
  | udpTunnel => simp [Accepted]
  | other mumType hother =>
    refine iff_of_true (accepted_other pb hother []) ?_
    rintro rfl
    exact hother (by decide)
  | _ => exact iff_of_true (parses_nil pb) (by decide)

/-! ### The handler as a machine -/

/-- The handler as a machine over the session and the crypt state. -/
def dispatcher (pb : CodedInputStream) : Machine (Session M × K) Frame Unit where
  step s frame := (fun s => (s, ())) <$> dispatch pb frame.1 frame.2 s.1 s.2

/-- What one step of the machine can do. -/
theorem dispatcher_step_eq_returned {pb : CodedInputStream} {frame : Frame}
    {s s' : Session M × K} {u : Unit} : (dispatcher pb).step s frame = .returned (s', u) ↔
      ∃ msg, control pb frame = .returned msg ∧ s' = msg.apply s := by
  simp [dispatcher, Outcome.map_eq_returned, dispatch_eq_returned]

theorem returns_dispatcher_step_iff (pb : CodedInputStream) (frame : Frame)
    (s : Session M × K) : ((dispatcher pb).step s frame).Returns ↔ Accepted pb frame := by
  rw [← returns_dispatch_iff pb frame s.1 s.2]
  exact Outcome.returns_map

end MumbleBot
