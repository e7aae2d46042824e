import MumbleBot.SentMessages

/-!
# Control messages as records

A control frame other than `UDPTunnel` has a protobuf message for its payload, and that is a record
on the wire. Which frames the client survives, and what those do to it, is said here in terms of
these records: what a field number means to the client, which payloads it can be read from, and
which of several fields with one number counts.

## Main definitions

* `ControlMessage` — a control frame, before it is encoded
* `knownKinds` — the fields the client knows, for each type of a frame
* `ControlMessage.Readable` — every known field can be read
* `ControlMessage.control` — what the last field of each number says

## Main results

* `parses_encodeRecord_iff` — exactly which records a message type accepts
* `tcpRecvLoop_messages` — what the client does on any stream of control messages
-/

namespace MumbleBot

variable {μ ν : Type}

/-! ### Which payloads can be read -/

/-- Whether a field of the kind can be read from the payload. -/
def Kind.reads : Kind → Payload → Bool
  | .uint32, .varint _ | .uint64, .varint _ | .int32, .varint _ | .bool, .varint _ => true
  | .float, .fixed32 _ => true
  | .string, .lengthDelimited bs => (String.fromUTF8? ⟨bs.toArray⟩).isSome
  | .bytes, .lengthDelimited _ => true
  | .repeatedUint32, .varint _ => true
  | .repeatedUint32, .lengthDelimited bs => (packed bs.length bs).isOk
  | _, _ => false

theorem Kind.reads_iff {k : Kind} {p : Payload} :
    k.reads p ↔ ∃ v, k.interpret p = .ok v := by
  rcases p with v | v | bs | v
  · cases k
    case bool => exact iff_of_true rfl ⟨_, rfl⟩
    all_goals simp [Kind.reads, Kind.interpret]
  · cases k <;> simp [Kind.reads, Kind.interpret]
  · cases k
    case string =>
      cases hs : String.fromUTF8? ⟨bs.toArray⟩ <;> simp [Kind.reads, Kind.interpret, hs]
    case repeatedUint32 =>
      cases hp : packed bs.length bs <;> simp [Kind.reads, Kind.interpret, hp, Except.isOk,
        Except.toBool]
    all_goals simp [Kind.reads, Kind.interpret]
  · cases k <;> simp [Kind.reads, Kind.interpret]

/-- The kinds of the fields of a message type. -/
def fieldKinds (μ : Type) [Message μ] (number : UInt32) : Option Kind :=
  (Message.fields number : Option (Field μ)).map Field.kind

/-- The fields a message type knows can be read. -/
def Readable (kinds : UInt32 → Option Kind) (record : List WireField) : Prop :=
  ∀ field ∈ record, ∀ k ∈ kinds field.number, k.reads field.payload

theorem wellTyped_iff {fields : UInt32 → Option (Field μ)} {field : WireField} :
    WellTyped fields field ↔ ∀ k ∈ (fields field.number).map Field.kind, k.reads field.payload := by
  rw [WellTyped]
  cases fields field.number with
  | none => simp
  | some known => simp [Kind.reads_iff]

theorem mergeWireField_eq_ok {fields : UInt32 → Option (Field μ)} {msg msg' : μ} {field : WireField}
    (h : mergeWireField fields msg field = .ok msg') :
    fields field.number = none ∧ msg' = msg ∨ ∃ known v, fields field.number = some known ∧
      known.kind.interpret field.payload = .ok v ∧ msg' = known.set msg v := by
  rw [mergeWireField] at h
  cases hknown : fields field.number with
  | none =>
    rw [hknown] at h
    exact .inl ⟨rfl, (Except.ok.inj h).symm⟩
  | some known =>
    rw [hknown] at h
    cases hv : known.kind.interpret field.payload with
    | ok v =>
      simp only [hv, Except.map, Except.ok.injEq] at h
      exact .inr ⟨known, v, rfl, hv, h.symm⟩
    | error e =>
      simp only [hv, Except.map] at h
      cases h

variable [Message μ] [Message ν]

theorem exists_mergeRecord_iff {msg : μ} {record : List WireField} :
    (∃ msg', mergeRecord Message.fields msg record = .ok msg') ↔
      Readable (fieldKinds μ) record := by
  rw [mergeRecord_eq_ok_iff]
  exact forall₂_congr fun _ _ => wellTyped_iff

/-- **Exactly which records a message type accepts.** -/
theorem parses_encodeRecord_iff {pb : CodedInputStream} (hpb : ReadsWireFormat pb)
    {record : List WireField} (hlen : (encodeRecord record).length < 2 ^ 32) :
    Parses μ pb (encodeRecord record) ↔ Readable (fieldKinds μ) record := by
  have hfits := fits_of_length_encodeRecord_lt hlen
  exact (exists_congr fun _ => mergeFrom_encodeRecord hpb _ _ hfits).trans exists_mergeRecord_iff

/-- Two message types with the same kinds of fields accept the same records, whatever they keep of
the values. -/
theorem parses_congr {pb : CodedInputStream} (hpb : ReadsWireFormat pb) {record : List WireField}
    (hlen : (encodeRecord record).length < 2 ^ 32) (hkinds : fieldKinds μ = fieldKinds ν) :
    Parses μ pb (encodeRecord record) ↔ Parses ν pb (encodeRecord record) := by
  rw [parses_encodeRecord_iff hpb hlen, parses_encodeRecord_iff hpb hlen, hkinds]

/-- A message that is sent is accepted by every message type with the same kinds of fields. -/
theorem parses_messageBytes {μ : Type} [GeneratedMessage μ] {pb : CodedInputStream}
    (hpb : ReadsWireFormat pb) {msg : μ} (hlen : (messageBytes msg).length < 2 ^ 32)
    (hkinds : fieldKinds ν = fieldKinds μ) : Parses ν pb (messageBytes msg) :=
  (parses_congr hpb hlen hkinds).mpr (returns_received.mp ⟨msg, received_messageBytes hpb hlen⟩)

/-- The two sides of `Version` have the same kinds of fields. -/
theorem fieldKinds_version : fieldKinds Version = fieldKinds Mumble.Version := by
  funext number
  simp only [fieldKinds, Message.fields]
  split <;> simp [*, Field.dropped]

/-- And so have the two sides of `Ping`. -/
theorem fieldKinds_ping : fieldKinds Ping = fieldKinds Mumble.Ping := by
  funext number
  simp only [fieldKinds, Message.fields]
  split <;> simp [*, Field.dropped]

/-! ### Which field counts -/

/-- The payload of the last field with the given number. -/
def lastPayload (number : UInt32) (record : List WireField) : Option Payload :=
  ((record.filter fun field => field.number = number).getLast?).map WireField.payload

theorem lastPayload_cons (number : UInt32) (field : WireField) (record : List WireField) :
    lastPayload number (field :: record) = (lastPayload number record).or
      (if field.number = number then some field.payload else none) := by
  rw [lastPayload, List.filter_cons]
  by_cases h : field.number = number
  · simp only [h, decide_true, if_true, List.getLast?_cons]
    rw [lastPayload]
    cases (record.filter fun field => field.number = number).getLast? <;> rfl
  · simp [h, lastPayload]

/-- What a parser keeps of a field is what the last field with its number says. -/
theorem mergeRecord_last {α : Type} {keep : μ → Option α} {value : Payload → α} {number : UInt32}
    (hfield : ∀ {msg msg' field}, mergeWireField Message.fields msg field = .ok msg' →
      keep msg' = if field.number = number then some (value field.payload) else keep msg)
    {msg msg' : μ} {record : List WireField}
    (h : mergeRecord Message.fields msg record = .ok msg') :
    keep msg' = ((lastPayload number record).map value).or (keep msg) := by
  induction record generalizing msg with
  | nil =>
    obtain rfl := Except.ok.inj h
    rfl
  | cons field record ih =>
    rw [mergeRecord] at h
    cases hmerge : mergeWireField Message.fields msg field with
    | error e =>
      rw [hmerge] at h
      cases h
    | ok msg₁ =>
      rw [hmerge] at h
      rw [ih h, hfield hmerge, lastPayload_cons]
      cases lastPayload number record with
      | some p => rfl
      | none => split_ifs <;> rfl

/-- A varint as a `u32`. -/
def Payload.toUint32 : Payload → UInt32
  | varint v => UInt32.ofNat v.toNat
  | _ => 0

/-- The content of a counted string of bytes. -/
def Payload.content : Payload → Bytes
  | lengthDelimited bs => bs
  | _ => []

theorem toUint32_of_interpret {p : Payload} {v : UInt32} (h : Kind.interpret .uint32 p = .ok v) :
    v = p.toUint32 := by
  cases p <;> first | cases h; rfl | cases h

theorem content_of_interpret {p : Payload} {v : Bytes} (h : Kind.interpret .bytes p = .ok v) :
    v = p.content := by
  cases p <;> first | cases h; rfl | cases h

/-- A field that is kept is set by its number, and by no other one. -/
theorem keep_mergeWireField {k : Kind} {keep : μ → Option k.Value} {value : Payload → k.Value}
    (hvalue : ∀ {p v}, k.interpret p = .ok v → v = value p) {number : UInt32}
    {set : μ → k.Value → μ} (hone : Message.fields number = some ⟨k, set⟩)
    (hset : ∀ msg v, keep (set msg v) = some v)
    (hother : ∀ n, n ≠ number → ∀ known, Message.fields n = some known →
      ∀ (msg : μ) v, keep (known.set msg v) = keep msg)
    {msg msg' : μ} {field : WireField}
    (h : mergeWireField Message.fields msg field = .ok msg') :
    keep msg' = if field.number = number then some (value field.payload) else keep msg := by
  rcases mergeWireField_eq_ok h with ⟨hnone, rfl⟩ | ⟨known, v, hknown, hv, rfl⟩
  · rw [if_neg]
    rintro heq
    rw [heq, hone] at hnone
    cases hnone
  · split_ifs with heq
    · rw [heq, hone] at hknown
      obtain rfl := Option.some.inj hknown
      rw [hset, hvalue hv]
    · exact hother _ heq known hknown msg v

/-- What is kept of a whole record. -/
theorem keep_mergeRecord {k : Kind} (keep : μ → Option k.Value) (value : Payload → k.Value)
    (hvalue : ∀ {p v}, k.interpret p = .ok v → v = value p) (number : UInt32)
    {set : μ → k.Value → μ} (hone : Message.fields number = some ⟨k, set⟩)
    (hset : ∀ msg v, keep (set msg v) = some v)
    (hother : ∀ n, n ≠ number → ∀ known, Message.fields n = some known →
      ∀ (msg : μ) v, keep (known.set msg v) = keep msg)
    (hnew : keep Message.new = none) {msg : μ} {record : List WireField}
    (h : mergeRecord Message.fields Message.new record = .ok msg) :
    keep msg = (lastPayload number record).map value := by
  have hlast := mergeRecord_last (keep_mergeWireField hvalue hone hset hother) h
  rwa [hnew, Option.or_none] at hlast

/-! ### The messages that are used -/

theorem ServerSync.session_of_record {msg : ServerSync} {record : List WireField}
    (h : mergeRecord Message.fields (Message.new : ServerSync) record = .ok msg) :
    msg.session = (lastPayload 1 record).map Payload.toUint32 := by
  refine keep_mergeRecord (k := .uint32) ServerSync.session _ toUint32_of_interpret 1 rfl
    (fun _ _ => rfl) ?_ rfl h
  intro n hn known hknown msg v
  simp only [Message.fields] at hknown
  split at hknown <;> cases hknown
  · exact absurd rfl hn
  all_goals rfl

theorem UserRemove.session_of_record {msg : UserRemove} {record : List WireField}
    (h : mergeRecord Message.fields (Message.new : UserRemove) record = .ok msg) :
    msg.session = (lastPayload 1 record).map Payload.toUint32 := by
  refine keep_mergeRecord (k := .uint32) UserRemove.session _ toUint32_of_interpret 1 rfl
    (fun _ _ => rfl) ?_ rfl h
  intro n hn known hknown msg v
  simp only [Message.fields] at hknown
  split at hknown <;> cases hknown
  · exact absurd rfl hn
  all_goals rfl

theorem UserState.session_of_record {msg : UserState} {record : List WireField}
    (h : mergeRecord Message.fields (Message.new : UserState) record = .ok msg) :
    msg.session = (lastPayload 1 record).map Payload.toUint32 := by
  refine keep_mergeRecord (k := .uint32) UserState.session _ toUint32_of_interpret 1 rfl
    (fun _ _ => rfl) ?_ rfl h
  intro n hn known hknown msg v
  simp only [Message.fields] at hknown
  split at hknown <;> cases hknown
  · exact absurd rfl hn
  all_goals rfl

theorem CryptSetup.of_record {msg : CryptSetup} {record : List WireField}
    (h : mergeRecord Message.fields (Message.new : CryptSetup) record = .ok msg) :
    msg = ⟨(lastPayload 1 record).map Payload.content, (lastPayload 2 record).map Payload.content,
      (lastPayload 3 record).map Payload.content⟩ := by
  have hkey : msg.key = _ := keep_mergeRecord (k := .bytes) CryptSetup.key _
    content_of_interpret 1 rfl (fun _ _ => rfl) (by
      intro n hn known hknown msg v
      simp only [Message.fields] at hknown
      split at hknown <;> cases hknown
      · exact absurd rfl hn
      all_goals rfl) rfl h
  have hclientNonce : msg.clientNonce = _ := keep_mergeRecord (k := .bytes) CryptSetup.clientNonce _
    content_of_interpret 2 rfl (fun _ _ => rfl) (by
      intro n hn known hknown msg v
      simp only [Message.fields] at hknown
      split at hknown <;> cases hknown
      · rfl
      · exact absurd rfl hn
      · rfl) rfl h
  have hserverNonce : msg.serverNonce = _ := keep_mergeRecord (k := .bytes) CryptSetup.serverNonce _
    content_of_interpret 3 rfl (fun _ _ => rfl) (by
      intro n hn known hknown msg v
      simp only [Message.fields] at hknown
      split at hknown <;> cases hknown
      · rfl
      · rfl
      · exact absurd rfl hn) rfl h
  rw [← hkey, ← hclientNonce, ← hserverNonce]

/-! ### Frames -/

/-- A control frame before it is encoded; a frame of type `UDPTunnel` has no message. -/
structure ControlMessage where
  mumType : UInt16
  record : List WireField
  ne_tunnel : mumType ≠ 1
  length_lt : (encodeRecord record).length < 2 ^ 32

/-- The fields the client knows in a frame of the given type. -/
def knownKinds : UInt16 → UInt32 → Option Kind
  | 0 => fieldKinds Version
  | 3 => fieldKinds Ping
  | 5 => fieldKinds ServerSync
  | 7 => fieldKinds ChannelState
  | 8 => fieldKinds UserRemove
  | 9 => fieldKinds UserState
  | 11 => fieldKinds TextMessage
  | 15 => fieldKinds CryptSetup
  | 20 => fieldKinds PermissionQuery
  | 21 => fieldKinds CodecVersion
  | 24 => fieldKinds ServerConfig
  | _ => fun _ => none

namespace ControlMessage

/-- The frame of a message. -/
def frame (m : ControlMessage) : Frame := (m.mumType, encodeRecord m.record)

/-- Every field that the client knows can be read. -/
def Readable (m : ControlMessage) : Prop := MumbleBot.Readable (knownKinds m.mumType) m.record

/-- The session that a message names: the last one in it, and 0 if it names none. -/
def sessionId (m : ControlMessage) : UInt64 :=
  (((lastPayload 1 m.record).map Payload.toUint32).getD 0).toUInt64

/-- What a message says. -/
def control (m : ControlMessage) : Control :=
  match m.mumType with
  | 5 => .serverSync m.sessionId
  | 8 => .userRemove m.sessionId
  | 9 => .userState m.sessionId
  | 15 => .cryptSetup ⟨(lastPayload 1 m.record).map Payload.content,
      (lastPayload 2 m.record).map Payload.content, (lastPayload 3 m.record).map Payload.content⟩
  | _ => .other

end ControlMessage

variable {pb : CodedInputStream}

theorem knownKinds_other {mumType : UInt16} (h : mumType ∉ mumTypes) :
    knownKinds mumType = fun _ => none := by
  simp [knownKinds, not_mem_mumTypes.mp h]

theorem accepted_frame_iff (hpb : ReadsWireFormat pb) (m : ControlMessage) :
    Accepted pb m.frame ↔ m.Readable := by
  obtain ⟨mumType, record, htunnel, hlen⟩ := m
  induction mumType using mumType_cases with
  | udpTunnel => exact absurd rfl htunnel
  | other mumType hother =>
    refine iff_of_true (accepted_other pb hother _) ?_
    simp [ControlMessage.Readable, knownKinds_other hother, Readable]
  | _ => exact parses_encodeRecord_iff hpb hlen

/-- A record that can be read is received as what its fields make of the empty message. -/
theorem received_encodeRecord (hpb : ReadsWireFormat pb) {record : List WireField}
    (hlen : (encodeRecord record).length < 2 ^ 32) (h : Readable (fieldKinds μ) record) :
    ∃ msg : μ, received μ pb (encodeRecord record) = .returned msg ∧
      mergeRecord Message.fields Message.new record = .ok msg := by
  obtain ⟨msg, hmsg⟩ := exists_mergeRecord_iff.mpr h
  refine ⟨msg, received_eq_returned.mpr ?_, hmsg⟩
  rw [mergeFrom_encodeRecord hpb _ _ (fits_of_length_encodeRecord_lt hlen), hmsg]

theorem ControlMessage.control_other {m : ControlMessage} (h : m.mumType ∉ mumTypes) :
    m.control = .other := by
  simp [ControlMessage.control, not_mem_mumTypes.mp h]

/-- A frame whose fields can be read says what its last fields say. -/
theorem control_frame (hpb : ReadsWireFormat pb) {m : ControlMessage} (h : m.Readable) :
    control pb m.frame = .returned m.control := by
  obtain ⟨mumType, record, htunnel, hlen⟩ := m
  induction mumType using mumType_cases with
  | udpTunnel => exact absurd rfl htunnel
  | other mumType hother =>
    rw [ControlMessage.control_other hother]
    exact control_other hother _
  | serverSync =>
    obtain ⟨msg, hmsg, hmerge⟩ := received_encodeRecord hpb hlen h
    simp only [control, ControlMessage.frame, hmsg, Outcome.map_returned, ServerSync.getSession,
      ServerSync.session_of_record hmerge]
    rfl
  | userRemove =>
    obtain ⟨msg, hmsg, hmerge⟩ := received_encodeRecord hpb hlen h
    simp only [control, ControlMessage.frame, hmsg, Outcome.map_returned, UserRemove.getSession,
      UserRemove.session_of_record hmerge]
    rfl
  | userState =>
    obtain ⟨msg, hmsg, hmerge⟩ := received_encodeRecord hpb hlen h
    simp only [control, ControlMessage.frame, hmsg, Outcome.map_returned, UserState.getSession,
      UserState.session_of_record hmerge]
    rfl
  | cryptSetup =>
    obtain ⟨msg, hmsg, hmerge⟩ := received_encodeRecord hpb hlen h
    simp only [control, ControlMessage.frame, hmsg, Outcome.map_returned,
      CryptSetup.of_record hmerge]
    rfl
  | _ =>
    obtain ⟨msg, hmsg, -⟩ := received_encodeRecord hpb hlen h
    simp only [control, ControlMessage.frame, hmsg, Outcome.map_returned]
    rfl

variable {K M : Type} [HashMap M UInt64 Remote] [CryptState K]

theorem dispatcher_step_frame (hpb : ReadsWireFormat pb) {m : ControlMessage} (h : m.Readable)
    (s : Session M × K) :
    (dispatcher pb).step s m.frame = .returned (m.control.apply s, ()) :=
  dispatcher_step_eq_returned.mpr ⟨m.control, control_frame hpb h, rfl⟩

/-- The handlers of a stream of messages do what the messages say, one after another. -/
theorem dispatcher_run_frames (hpb : ReadsWireFormat pb) {messages : List ControlMessage}
    (h : ∀ m ∈ messages, m.Readable) (s : Session M × K) :
    (dispatcher pb).run s (messages.map ControlMessage.frame)
      = .returned (messages.foldl (fun s m => m.control.apply s) s) := by
  induction messages generalizing s with
  | nil => rfl
  | cons m messages ih =>
    rw [List.forall_mem_cons] at h
    rw [List.map_cons, Machine.run_cons_of_returned (dispatcher_step_frame hpb h.1 s),
      ih h.2, List.foldl_cons]

/-- **What the client does on any stream of control messages**, however it is cut, with part of one
more frame behind them. If every field that the client knows can be read, each message is dispatched
once and in order, and does what the last field of each number says; the end of the stream is an
error. If one of them cannot be read, the client panics. -/
theorem tcpRecvLoop_messages (hpb : ReadsWireFormat pb) (messages : List ControlMessage)
    (last : Frame) {part : Bytes} (hlast : last.2.length < 2 ^ 32)
    (hpart : part <+: frameBytes last) (hne : part ≠ frameBytes last) {pieces : List Bytes}
    (h : pieces.flatten = (messages.map ControlMessage.frame).flatMap frameBytes ++ part)
    (s : Session M × K) :
    ((∀ m ∈ messages, m.Readable) → (tcpRecvLoop pb).run ⟨pieces, s.1, s.2, []⟩
        = (let s' := messages.foldl (fun s m => m.control.apply s) s
          .returned (.unexpectedEof,
            ⟨[], s'.1, s'.2, messages.map ControlMessage.frame⟩))) ∧
      ((∃ m ∈ messages, ¬ m.Readable) →
        (tcpRecvLoop pb).run ⟨pieces, s.1, s.2, []⟩ = .panicked) := by
  have hlen : ∀ frame ∈ last :: messages.map ControlMessage.frame, frame.2.length < 2 ^ 32 := by
    rw [List.forall_mem_cons, List.forall_mem_map]
    exact ⟨hlast, fun m _ => m.length_lt⟩
  rw [tcpRecvLoop_run pb hlen hpart hne h]
  constructor
  · intro hread
    rw [dispatcher_run_frames hpb hread]
    rfl
  · rintro ⟨m, hm, hbad⟩
    have hpanics : ¬ ((dispatcher pb).run s (messages.map ControlMessage.frame)).Returns := by
      rw [Machine.returns_run_iff (fun s frame => returns_dispatcher_step_iff pb frame s),
        List.forall_mem_map]
      exact fun hall => hbad ((accepted_frame_iff hpb m).mp (hall m hm))
    rw [Outcome.returns_iff_ne_panicked, not_not] at hpanics
    rw [hpanics, Outcome.map_panicked]

/-- A `UserState` that names two sessions, of which the last one counts, and part of a ping behind
it. -/
theorem tcpRecvLoop_messages_one :
    ∃ s : TcpRecv (AssocMap UInt64 Remote) TagCrypt,
      (tcpRecvLoop wireFormat).run
        ⟨[[0, 9, 0, 0, 0, 4, 8, 5, 8], [7, 0, 3]], Session.initial, CryptState.new, []⟩
        = .returned (.unexpectedEof, s) ∧ HashMap.keys s.session.remotes = [7] := by
  let m : ControlMessage := ⟨9, [writeUint32 1 (by decide) 5, writeUint32 1 (by decide) 7],
    by decide, by decide⟩
  have hpieces : [[0, 9, 0, 0, 0, 4, 8, 5, 8], [7, 0, 3]].flatten
      = ([m].map ControlMessage.frame).flatMap frameBytes ++ [0, 3] := by decide
  have hread : ∀ m' ∈ [m], m'.Readable := by
    rw [List.forall_mem_singleton]
    unfold ControlMessage.Readable Readable
    decide
  have hrun := (tcpRecvLoop_messages readsWireFormat [m] (3, []) (by decide) (by decide)
    (by decide) hpieces
    ((Session.initial, CryptState.new) : Session (AssocMap UInt64 Remote) × TagCrypt)).1 hread
  exact ⟨_, hrun, by decide⟩

end MumbleBot
