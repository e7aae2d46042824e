import MumbleBot.ProtobufWriter

/-!
# `mumble.rs`: the messages that are sent

The client sends a `Version`, an `Authenticate` and then a `Ping` every five seconds. Here are these
messages with all of their fields, as `mumble.rs` has them, and the frames in which `run` and
`tcp_ping` send them.

## Main definitions

* `Mumble.Version`, `Mumble.Authenticate`, `Mumble.Ping` — the messages
* `versionFrame`, `authenticateFrame`, `pingFrame` — the frames

## Main results

* `versionFrame_eq`, `authenticateFrame_eq`, `pingFrame_eq` — what the client sends are frames
-/

namespace MumbleBot

namespace Mumble

/-! ### `Version` -/

/-- The version of the client, and of what it runs on. -/
structure Version where
  version : Option UInt32
  release : Option String
  os : Option String
  osVersion : Option String
  deriving DecidableEq, Repr

instance : Message Version where
  new := ⟨none, none, none, none⟩
  fields
    | 1 => some ⟨.uint32, fun msg tmp => { msg with version := some tmp }⟩
    | 2 => some ⟨.string, fun msg tmp => { msg with release := some tmp }⟩
    | 3 => some ⟨.string, fun msg tmp => { msg with os := some tmp }⟩
    | 4 => some ⟨.string, fun msg tmp => { msg with osVersion := some tmp }⟩
    | _ => none

instance : GeneratedMessage Version where
  sizes msg := List.flatten [
    msg.version.toList.map fun v => valueSize 1 v.toUInt64,
    msg.release.toList.map (stringSize 2),
    msg.os.toList.map (stringSize 3),
    msg.osVersion.toList.map (stringSize 4)]
  written msg := List.flatten [
    msg.version.toList.map (writeUint32 1),
    msg.release.toList.map (writeString 2),
    msg.os.toList.map (writeString 3),
    msg.osVersion.toList.map (writeString 4)]
  sizes_eq msg := by simp [Function.comp_def]
  merge m msg := ⟨msg.version.or m.version, msg.release.or m.release, msg.os.or m.os,
    msg.osVersion.or m.osVersion⟩
  merges_written _ msg :=
    .flatten_cons (.optional (fun m o => { m with version := o.or m.version }) (fun _ => rfl)
      (fun _ v => .singleton rfl (interpret_writeUint32 1 _ v) rfl) msg.version) <|
    .flatten_cons (.optional (fun m o => { m with release := o.or m.release }) (fun _ => rfl)
      (fun _ v => .singleton rfl (interpret_writeString 2 _ v) rfl) msg.release) <|
    .flatten_cons (.optional (fun m o => { m with os := o.or m.os }) (fun _ => rfl)
      (fun _ v => .singleton rfl (interpret_writeString 3 _ v) rfl) msg.os) <|
    .flatten_cons (.optional (fun m o => { m with osVersion := o.or m.osVersion }) (fun _ => rfl)
      (fun _ v => .singleton rfl (interpret_writeString 4 _ v) rfl) msg.osVersion) <|
    .flatten_nil _
  merge_new msg := by simp only [Message.new, Option.or_none]

/-! ### `Authenticate` -/

/-- Who the client is, and which codecs it speaks. -/
structure Authenticate where
  username : Option String
  password : Option String
  tokens : List String
  celtVersions : List Int32
  opus : Option Bool
  deriving DecidableEq, Repr

/-- The runtime reads a repeated string as it reads a single one, and a repeated `int32` as a
repeated `uint32` of the same bits. -/
instance : Message Authenticate where
  new := ⟨none, none, [], [], none⟩
  fields
    | 1 => some ⟨.string, fun msg tmp => { msg with username := some tmp }⟩
    | 2 => some ⟨.string, fun msg tmp => { msg with password := some tmp }⟩
    | 3 => some ⟨.string, fun msg tmp => { msg with tokens := msg.tokens ++ [tmp] }⟩
    | 4 => some ⟨.repeatedUint32, fun msg tmp =>
        { msg with celtVersions := msg.celtVersions ++ tmp.map UInt32.toInt32 }⟩
    | 5 => some ⟨.bool, fun msg tmp => { msg with opus := some tmp }⟩
    | _ => none

instance : GeneratedMessage Authenticate where
  sizes msg := List.flatten [
    msg.username.toList.map (stringSize 1),
    msg.password.toList.map (stringSize 2),
    msg.tokens.map (stringSize 3),
    msg.celtVersions.map fun v => valueSize 4 (int32Bits v),
    msg.opus.toList.map fun _ => 2]
  written msg := List.flatten [
    msg.username.toList.map (writeString 1),
    msg.password.toList.map (writeString 2),
    msg.tokens.map (writeString 3),
    msg.celtVersions.map (writeInt32 4),
    msg.opus.toList.map (writeBool 5)]
  sizes_eq msg := by simp [Function.comp_def, tagSize_of_lt]
  merge m msg := ⟨msg.username.or m.username, msg.password.or m.password, m.tokens ++ msg.tokens,
    m.celtVersions ++ msg.celtVersions, msg.opus.or m.opus⟩
  merges_written _ msg :=
    .flatten_cons (.optional (fun m o => { m with username := o.or m.username }) (fun _ => rfl)
      (fun _ v => .singleton rfl (interpret_writeString 1 _ v) rfl) msg.username) <|
    .flatten_cons (.optional (fun m o => { m with password := o.or m.password }) (fun _ => rfl)
      (fun _ v => .singleton rfl (interpret_writeString 2 _ v) rfl) msg.password) <|
    .flatten_cons (.repeated (fun m as => { m with tokens := m.tokens ++ as }) (by simp) (by simp)
      (fun _ v => .singleton rfl (interpret_writeString 3 _ v) rfl) msg.tokens) <|
    .flatten_cons (.repeated (fun m as => { m with celtVersions := m.celtVersions ++ as })
      (by simp) (by simp) (fun _ v => .singleton rfl (interpret_writeInt32 4 _ v) (by simp))
      msg.celtVersions) <|
    .flatten_cons (.optional (fun m o => { m with opus := o.or m.opus }) (fun _ => rfl)
      (fun _ v => .singleton rfl (interpret_writeBool 5 _ v) rfl) msg.opus) <|
    .flatten_nil _
  merge_new msg := by simp only [Message.new, Option.or_none, List.nil_append]

/-! ### `Ping` -/

/-- The four averages and variances are the bits of an `f32`. -/
structure Ping where
  timestamp : Option UInt64
  good : Option UInt32
  late : Option UInt32
  lost : Option UInt32
  resync : Option UInt32
  udpPackets : Option UInt32
  tcpPackets : Option UInt32
  udpPingAvg : Option UInt32
  udpPingVar : Option UInt32
  tcpPingAvg : Option UInt32
  tcpPingVar : Option UInt32
  deriving DecidableEq, Repr

instance : Message Ping where
  new := ⟨none, none, none, none, none, none, none, none, none, none, none⟩
  fields
    | 1 => some ⟨.uint64, fun msg tmp => { msg with timestamp := some tmp }⟩
    | 2 => some ⟨.uint32, fun msg tmp => { msg with good := some tmp }⟩
    | 3 => some ⟨.uint32, fun msg tmp => { msg with late := some tmp }⟩
    | 4 => some ⟨.uint32, fun msg tmp => { msg with lost := some tmp }⟩
    | 5 => some ⟨.uint32, fun msg tmp => { msg with resync := some tmp }⟩
    | 6 => some ⟨.uint32, fun msg tmp => { msg with udpPackets := some tmp }⟩
    | 7 => some ⟨.uint32, fun msg tmp => { msg with tcpPackets := some tmp }⟩
    | 8 => some ⟨.float, fun msg tmp => { msg with udpPingAvg := some tmp }⟩
    | 9 => some ⟨.float, fun msg tmp => { msg with udpPingVar := some tmp }⟩
    | 10 => some ⟨.float, fun msg tmp => { msg with tcpPingAvg := some tmp }⟩
    | 11 => some ⟨.float, fun msg tmp => { msg with tcpPingVar := some tmp }⟩
    | _ => none

instance : GeneratedMessage Ping where
  sizes msg := List.flatten [
    msg.timestamp.toList.map (valueSize 1),
    msg.good.toList.map fun v => valueSize 2 v.toUInt64,
    msg.late.toList.map fun v => valueSize 3 v.toUInt64,
    msg.lost.toList.map fun v => valueSize 4 v.toUInt64,
    msg.resync.toList.map fun v => valueSize 5 v.toUInt64,
    msg.udpPackets.toList.map fun v => valueSize 6 v.toUInt64,
    msg.tcpPackets.toList.map fun v => valueSize 7 v.toUInt64,
    msg.udpPingAvg.toList.map fun _ => 5,
    msg.udpPingVar.toList.map fun _ => 5,
    msg.tcpPingAvg.toList.map fun _ => 5,
    msg.tcpPingVar.toList.map fun _ => 5]
  written msg := List.flatten [
    msg.timestamp.toList.map (writeUint64 1),
    msg.good.toList.map (writeUint32 2),
    msg.late.toList.map (writeUint32 3),
    msg.lost.toList.map (writeUint32 4),
    msg.resync.toList.map (writeUint32 5),
    msg.udpPackets.toList.map (writeUint32 6),
    msg.tcpPackets.toList.map (writeUint32 7),
    msg.udpPingAvg.toList.map (writeFloat 8),
    msg.udpPingVar.toList.map (writeFloat 9),
    msg.tcpPingAvg.toList.map (writeFloat 10),
    msg.tcpPingVar.toList.map (writeFloat 11)]
  sizes_eq msg := by simp [Function.comp_def, tagSize_of_lt]
  merge m msg := ⟨msg.timestamp.or m.timestamp, msg.good.or m.good, msg.late.or m.late,
    msg.lost.or m.lost, msg.resync.or m.resync, msg.udpPackets.or m.udpPackets,
    msg.tcpPackets.or m.tcpPackets, msg.udpPingAvg.or m.udpPingAvg,
    msg.udpPingVar.or m.udpPingVar, msg.tcpPingAvg.or m.tcpPingAvg,
    msg.tcpPingVar.or m.tcpPingVar⟩
  merges_written _ msg :=
    .flatten_cons (.optional (fun m o => { m with timestamp := o.or m.timestamp }) (fun _ => rfl)
      (fun _ v => .singleton rfl (interpret_writeUint64 1 _ v) rfl) msg.timestamp) <|
    .flatten_cons (.optional (fun m o => { m with good := o.or m.good }) (fun _ => rfl)
      (fun _ v => .singleton rfl (interpret_writeUint32 2 _ v) rfl) msg.good) <|
    .flatten_cons (.optional (fun m o => { m with late := o.or m.late }) (fun _ => rfl)
      (fun _ v => .singleton rfl (interpret_writeUint32 3 _ v) rfl) msg.late) <|
    .flatten_cons (.optional (fun m o => { m with lost := o.or m.lost }) (fun _ => rfl)
      (fun _ v => .singleton rfl (interpret_writeUint32 4 _ v) rfl) msg.lost) <|
    .flatten_cons (.optional (fun m o => { m with resync := o.or m.resync }) (fun _ => rfl)
      (fun _ v => .singleton rfl (interpret_writeUint32 5 _ v) rfl) msg.resync) <|
    .flatten_cons (.optional (fun m o => { m with udpPackets := o.or m.udpPackets }) (fun _ => rfl)
      (fun _ v => .singleton rfl (interpret_writeUint32 6 _ v) rfl) msg.udpPackets) <|
    .flatten_cons (.optional (fun m o => { m with tcpPackets := o.or m.tcpPackets }) (fun _ => rfl)
      (fun _ v => .singleton rfl (interpret_writeUint32 7 _ v) rfl) msg.tcpPackets) <|
    .flatten_cons (.optional (fun m o => { m with udpPingAvg := o.or m.udpPingAvg }) (fun _ => rfl)
      (fun _ v => .singleton rfl (interpret_writeFloat 8 _ v) rfl) msg.udpPingAvg) <|
    .flatten_cons (.optional (fun m o => { m with udpPingVar := o.or m.udpPingVar }) (fun _ => rfl)
      (fun _ v => .singleton rfl (interpret_writeFloat 9 _ v) rfl) msg.udpPingVar) <|
    .flatten_cons (.optional (fun m o => { m with tcpPingAvg := o.or m.tcpPingAvg }) (fun _ => rfl)
      (fun _ v => .singleton rfl (interpret_writeFloat 10 _ v) rfl) msg.tcpPingAvg) <|
    .flatten_cons (.optional (fun m o => { m with tcpPingVar := o.or m.tcpPingVar }) (fun _ => rfl)
      (fun _ v => .singleton rfl (interpret_writeFloat 11 _ v) rfl) msg.tcpPingVar) <|
    .flatten_nil _
  merge_new msg := by simp only [Message.new, Option.or_none]

end Mumble

/-! ### The frames -/

/-- The message of the Version step. -/
def sentVersion : Mumble.Version where
  version := some 66052
  release := some "1.2.4-0.2ubuntu1.1"
  os := some "X11"
  osVersion := some "Ubuntu 14.04.5 LTS"

/-- `format!("mumbot-{}", (10000 as u16).wrapping_add(rand::random::<u16>()))`. -/
def username (random : UInt16) : String := "mumbot-" ++ toString ((10000 : UInt16) + random)

/-- The message of the Authenticate step. -/
def sentAuthenticate (random : UInt16) : Mumble.Authenticate :=
  { (Message.new : Mumble.Authenticate) with username := some (username random), opus := some true }

/-- The message of `tcp_ping`. -/
def sentPing (timestamp : UInt64) : Mumble.Ping :=
  { (Message.new : Mumble.Ping) with timestamp := some timestamp }

/-- The Version step. -/
def versionFrame : Outcome Bytes := messageFrame 0 sentVersion

/-- The Authenticate step. -/
def authenticateFrame (random : UInt16) : Outcome Bytes := messageFrame 2 (sentAuthenticate random)

/-- The closure of `tcp_ping`. -/
def pingFrame (timestamp : UInt64) : Outcome Bytes := messageFrame 3 (sentPing timestamp)

/-- A user name has at most twelve characters. -/
theorem length_username_le (random : UInt16) : (username random).length ≤ 12 := by
  have hrandom := ((10000 : UInt16) + random).toNat_lt
  have hdigits : (toString ((10000 : UInt16) + random)).length ≤ 5 :=
    (Nat.length_repr_le_iff (by decide)).mpr (Nat.lt_trans hrandom (by decide))
  have hname : "mumbot-".length = 7 := by decide
  rw [username, String.length_append]
  omega

theorem length_sentVersion : (messageBytes sentVersion).length = 49 := by decide +kernel

theorem length_sentAuthenticate_le (random : UInt16) :
    (messageBytes (sentAuthenticate random)).length ≤ 61 := by
  have hname := (length_utf8_le _).trans (Nat.mul_le_mul_left 4 (length_username_le random))
  have hcount := rawVarintSize_le (utf8 (username random)).length
  have hsum : (GeneratedMessage.sizes (sentAuthenticate random)).sum
      = stringSize 1 (username random) + 2 := rfl
  rw [← sum_sizes, hsum, stringSize, bytesSize, tagSize_of_lt (by decide)]
  omega

theorem length_sentPing_le (timestamp : UInt64) :
    (messageBytes (sentPing timestamp)).length ≤ 11 := by
  have hvalue := rawVarintSize_le timestamp.toNat
  have hsum : (GeneratedMessage.sizes (sentPing timestamp)).sum = valueSize 1 timestamp := rfl
  rw [← sum_sizes, hsum, valueSize, tagSize_of_lt (by decide)]
  omega

theorem versionFrame_eq :
    versionFrame = .returned (frameBytes (0, messageBytes sentVersion)) :=
  messageFrame_eq 0 (by rw [length_sentVersion]; decide)

theorem authenticateFrame_eq (random : UInt16) : authenticateFrame random
    = .returned (frameBytes (2, messageBytes (sentAuthenticate random))) :=
  messageFrame_eq 2 (Nat.lt_of_le_of_lt (length_sentAuthenticate_le random) (by decide))

theorem pingFrame_eq (timestamp : UInt64) :
    pingFrame timestamp = .returned (frameBytes (3, messageBytes (sentPing timestamp))) :=
  messageFrame_eq 3 (Nat.lt_of_le_of_lt (length_sentPing_le timestamp) (by decide))

/-- Two pings of which the second one has a later time, and counts what the first one does not. -/
theorem received_flatMap_messageBytes_ping :
    let first : Mumble.Ping := { sentPing 5 with good := some 1 }
    let second : Mumble.Ping := { sentPing 300 with lost := some 2 }
    received Mumble.Ping wireFormat ([first, second].flatMap messageBytes)
      = .returned { sentPing 300 with good := some 1, lost := some 2 } := by
  intro first second
  have hlength : ∀ msg ∈ [first, second], (messageBytes msg).length < 2 ^ 32 := by decide
  exact (received_flatMap_messageBytes readsWireFormat hlength).1

end MumbleBot
