import MumbleBot.Protobuf

/-!
# `mumble.rs`: the control messages

The messages that the client parses, each with the fields its `merge_from` knows. A field whose
value nobody asks for is parsed, since a malformed one is an error, and then dropped: the client
only prints it.

## Main definitions

* `Message` — a message type: its empty message and its fields
* `Version`, `Ping`, … — the messages
* `Parses` — protobuf accepts a payload
-/

namespace MumbleBot

/-- `::protobuf::Message`: what is generated for a message type. -/
class Message (μ : Type) where
  /-- `new`. -/
  new : μ
  /-- The `match` on the field number in `merge_from`. -/
  fields : UInt32 → Option (Field μ)

/-- A field whose value is dropped. -/
def Field.dropped {μ : Type} (kind : Kind) : Field μ := ⟨kind, fun msg _ => msg⟩

/-- `let mut msg = μ::new(); msg.merge_from(&mut inp).unwrap();` -/
def received (μ : Type) [Message μ] (pb : CodedInputStream) (buf : Bytes) : Outcome μ := do
  let r ← mergeFrom pb Message.fields (Message.new : μ) buf
  Outcome.unwrap r

/-- Protobuf accepts `buf` as a message. -/
def Parses (μ : Type) [Message μ] (pb : CodedInputStream) (buf : Bytes) : Prop :=
  ∃ msg, mergeFrom pb Message.fields (Message.new : μ) buf = .returned (.ok msg)

theorem received_eq_returned {μ : Type} [Message μ] {pb : CodedInputStream} {buf : Bytes}
    {msg : μ} : received μ pb buf = .returned msg ↔
      mergeFrom pb Message.fields (Message.new : μ) buf = .returned (.ok msg) := by
  simp only [received, Outcome.bind_eq_returned, Outcome.unwrap_eq_returned]
  constructor
  · rintro ⟨_, h, rfl⟩
    exact h
  · exact fun h => ⟨_, h, rfl⟩

theorem returns_received {μ : Type} [Message μ] {pb : CodedInputStream} {buf : Bytes} :
    (received μ pb buf).Returns ↔ Parses μ pb buf :=
  exists_congr fun _ => received_eq_returned

/-- An empty payload is the empty message. -/
theorem parses_nil {μ : Type} [Message μ] (pb : CodedInputStream) : Parses μ pb [] :=
  ⟨Message.new, mergeFrom_nil pb _ _⟩

/-! ### Messages that are only printed -/

/-- The version of the other side. -/
structure Version where
  deriving DecidableEq, Repr

instance : Message Version where
  new := {}
  fields
    | 1 => some (.dropped .uint32)
    | 2 | 3 | 4 => some (.dropped .string)
    | _ => none

/-- An answer to a ping, with what the server counts. -/
structure Ping where
  deriving DecidableEq, Repr

instance : Message Ping where
  new := {}
  fields
    | 1 => some (.dropped .uint64)
    | 2 | 3 | 4 | 5 | 6 | 7 => some (.dropped .uint32)
    | 8 | 9 | 10 | 11 => some (.dropped .float)
    | _ => none

/-- A channel, and what has become of it. -/
structure ChannelState where
  deriving DecidableEq, Repr

instance : Message ChannelState where
  new := {}
  fields
    | 1 | 2 | 11 => some (.dropped .uint32)
    | 3 | 5 => some (.dropped .string)
    | 4 | 6 | 7 => some (.dropped .repeatedUint32)
    | 8 => some (.dropped .bool)
    | 9 => some (.dropped .int32)
    | 10 => some (.dropped .bytes)
    | _ => none

/-- A text from somebody to somebody. -/
structure TextMessage where
  deriving DecidableEq, Repr

instance : Message TextMessage where
  new := {}
  fields
    | 1 => some (.dropped .uint32)
    | 2 | 3 | 4 => some (.dropped .repeatedUint32)
    | 5 => some (.dropped .string)
    | _ => none

/-- What one may do in a channel. -/
structure PermissionQuery where
  deriving DecidableEq, Repr

instance : Message PermissionQuery where
  new := {}
  fields
    | 1 | 2 => some (.dropped .uint32)
    | 3 => some (.dropped .bool)
    | _ => none

/-- Which codecs the server goes by. -/
structure CodecVersion where
  deriving DecidableEq, Repr

instance : Message CodecVersion where
  new := {}
  fields
    | 1 | 2 => some (.dropped .int32)
    | 3 | 4 => some (.dropped .bool)
    | _ => none

/-- What the server allows. -/
structure ServerConfig where
  deriving DecidableEq, Repr

instance : Message ServerConfig where
  new := {}
  fields
    | 1 | 4 | 5 | 6 => some (.dropped .uint32)
    | 2 => some (.dropped .string)
    | 3 => some (.dropped .bool)
    | _ => none

/-! ### Messages that are used -/

/-- The session the server has given the client. -/
structure ServerSync where
  session : Option UInt32
  deriving DecidableEq, Repr

instance : Message ServerSync where
  new := ⟨none⟩
  fields
    | 1 => some ⟨.uint32, fun _ tmp => ⟨some tmp⟩⟩
    | 2 => some (.dropped .uint32)
    | 3 => some (.dropped .string)
    | 4 => some (.dropped .uint64)
    | _ => none

/-- `get_session`. -/
def ServerSync.getSession (msg : ServerSync) : UInt32 := msg.session.getD 0

/-- Somebody has left. -/
structure UserRemove where
  session : Option UInt32
  deriving DecidableEq, Repr

instance : Message UserRemove where
  new := ⟨none⟩
  fields
    | 1 => some ⟨.uint32, fun _ tmp => ⟨some tmp⟩⟩
    | 2 => some (.dropped .uint32)
    | 3 => some (.dropped .string)
    | 4 => some (.dropped .bool)
    | _ => none

/-- `get_session`. -/
def UserRemove.getSession (msg : UserRemove) : UInt32 := msg.session.getD 0

/-- Somebody has come, or something about them has changed. -/
structure UserState where
  session : Option UInt32
  deriving DecidableEq, Repr

instance : Message UserState where
  new := ⟨none⟩
  fields
    | 1 => some ⟨.uint32, fun _ tmp => ⟨some tmp⟩⟩
    | 2 | 4 | 5 => some (.dropped .uint32)
    | 3 | 13 | 14 | 15 => some (.dropped .string)
    | 6 | 7 | 8 | 9 | 10 | 18 | 19 => some (.dropped .bool)
    | 11 | 12 | 16 | 17 => some (.dropped .bytes)
    | _ => none

/-- `get_session`. -/
def UserState.getSession (msg : UserState) : UInt32 := msg.session.getD 0

/-- The key and the nonces for the datagrams, each of which may be left out. -/
structure CryptSetup where
  key : Option Bytes
  clientNonce : Option Bytes
  serverNonce : Option Bytes
  deriving DecidableEq, Repr

instance : Message CryptSetup where
  new := ⟨none, none, none⟩
  fields
    | 1 => some ⟨.bytes, fun msg tmp => { msg with key := some tmp }⟩
    | 2 => some ⟨.bytes, fun msg tmp => { msg with clientNonce := some tmp }⟩
    | 3 => some ⟨.bytes, fun msg tmp => { msg with serverNonce := some tmp }⟩
    | _ => none

/-- `get_key`. -/
def CryptSetup.getKey (msg : CryptSetup) : Bytes := msg.key.getD []

/-- `get_client_nonce`. -/
def CryptSetup.getClientNonce (msg : CryptSetup) : Bytes := msg.clientNonce.getD []

/-- `get_server_nonce`. -/
def CryptSetup.getServerNonce (msg : CryptSetup) : Bytes := msg.serverNonce.getD []

end MumbleBot
