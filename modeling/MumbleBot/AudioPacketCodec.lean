import MumbleBot.Session
import MumbleBot.OpusDecode

/-!
# `udp.rs`: the codec of voice packets

`AudioPacketCodec::decode` turns a datagram into an incoming packet and `encode` an outgoing
packet into a datagram. `decode` returns a `Result` but uses `unwrap` on everything it reads, so
its only failure is a panic.

`decodeData` and `encodeData` are the parts of the two functions that deal with the plaintext.
Between them and the socket stands the crypt state; what `decrypt` reports is not looked at.

The session and the crypt state are behind mutexes that the tasks share. There is one reactor
thread, so a lock is held by one task at a time and never poisoned, and the codec simply has
them as fields.

## Main definitions

* `AudioOutPacket`, `AudioInPacket`, `AudioPacketCodec` — the data
* `decodeData`, `decode` — `AudioPacketCodec::decode`
* `encodeData`, `encode` — `AudioPacketCodec::encode`
* `readVoice` — what `decode` and `opus_decode` read off a voice packet
* `VoiceHeadersComplete` — the plaintexts `decode` survives

## Main results

* `decodeData_voice`, `decodeData_other`, `decode_cases` — what one packet does
* `returns_decode_iff` — exactly when `decode` returns
* `encodeData_voice`, `encodeData_ping` — what `encode` puts into a plaintext
-/

namespace MumbleBot

/-! ### Packets -/

/-- `positional::PositionalAudio`, each coordinate as the bits of its `f32`. -/
structure PositionalAudio where
  x : UInt32
  y : UInt32
  z : UInt32
  deriving DecidableEq, Repr

/-- What the client sends over UDP: a ping or voice. `done` says that a voice packet is the last of
its talk. -/
structure AudioOutPacket where
  type_ : UInt32
  target : UInt32
  pcm : List Int16
  done : Bool
  timestamp : UInt64
  deriving DecidableEq, Repr

/-- What `decode` makes of a datagram. `session` is the place of the speaker, or `-1`, and `pcm` the
decoded samples, as bytes. -/
structure AudioInPacket where
  type_ : UInt32
  target : UInt32
  session : Int32
  pcm : Bytes
  pos : PositionalAudio
  deriving DecidableEq, Repr

/-- The codec of the UDP socket. -/
structure AudioPacketCodec (E D K M : Type) where
  opusEncoder : E
  opusDecoders : AssocMap UInt64 D
  session : Session M
  crypt : K
  encoderSequence : UInt64

variable {E D K M A : Type}

/-- The codec `run` starts with. -/
def AudioPacketCodec.initial [HashMap M UInt64 Remote] [CryptState K] (opusEncoder : E) :
    AudioPacketCodec E D K M :=
  { opusEncoder, opusDecoders := HashMap.new, session := Session.initial, crypt := CryptState.new,
    encoderSequence := 0 }

/-- A codec over the stand-ins, as `run` starts it but with a key. -/
def standInCodec (key : Bytes) :
    AudioPacketCodec PcmBytes FrameCounter TagCrypt (AssocMap UInt64 Remote) :=
  { opusEncoder := ⟨⟩, opusDecoders := HashMap.new, session := Session.initial,
    crypt := CryptState.setKey CryptState.new key [] [], encoderSequence := 0 }

/-! ### Decoding a plaintext -/

section Decode

variable [OpusDecoder D] [HashMap M UInt64 Remote]

/-- The type in the three high bits of a packet's header. -/
def audType (audHeader : UInt8) : UInt8 := (audHeader &&& 0b11100000) >>> 5

/-- The target in the five low bits of a packet's header. -/
def audTarget (audHeader : UInt8) : UInt8 := audHeader &&& 0b00011111

/-- The index `decode` gives a session: its place among the remote users, `as i32`, or `-1`. -/
def sessionIndex (session : Session M) (sessionId : UInt64) : Int32 :=
  ((HashMap.indexOf session.remotes sessionId).map fun idx => Int32.ofNat idx).getD (-1)

/-- `decode` from the plaintext on. -/
def decodeData (fr : FailedRead) (c : AudioPacketCodec E D K M) (addr : A) (data : Bytes) :
    Outcome (Except IoError (A × AudioInPacket) × AudioPacketCodec E D K M) := do
  let (audHeader, rdr) ← (readU8 data).unwrap
  let (sessionId, data, opusDecoders) ←
    if audType audHeader = 0b100 then do -- OPUS encoded voice data
      let (sessionId, rdr) ← (readVarint rdr).unwrap
      let fresh ← Outcome.unwrap (OpusDecoder.new (D := D) 16000 .mono)
      let (decoder, opusDecoders) := HashMap.entryOrInsert c.opusDecoders sessionId fresh
      let (_sequence, rdr) ← (readVarint rdr).unwrap
      let ((data, _done), decoder, _) ← opusDecode fr decoder rdr
      pure (sessionId, data, HashMap.insert opusDecoders sessionId decoder)
    else
      pure (0, [], c.opusDecoders)
  let pos : PositionalAudio := { x := 0, y := 0, z := 0 }
  let idx := sessionIndex c.session sessionId
  return (.ok (addr, { type_ := (audType audHeader).toUInt32,
                       target := (audTarget audHeader).toUInt32, session := idx, pcm := data,
                       pos := pos }), { c with opusDecoders })

/-- Everything `decode` and `opus_decode` read off the plaintext of a voice packet, the sequence
number and the terminator flag included, which the client drops. -/
structure VoicePacket where
  audType : UInt8
  audTarget : UInt8
  session : UInt64
  sequence : UInt64
  segments : Segments
  deriving DecidableEq, Repr

/-- The reads of `decode` and `opus_decode` on a voice packet, in their order. -/
def readVoice (fr : FailedRead) (data : Bytes) : Outcome VoicePacket := do
  let (audHeader, rdr) ← (readU8 data).unwrap
  let (session, rdr) ← (readVarint rdr).unwrap
  let (sequence, rdr) ← (readVarint rdr).unwrap
  let segments ← opusSegments fr rdr
  return ⟨MumbleBot.audType audHeader, MumbleBot.audTarget audHeader, session, sequence, segments⟩

/-- The decoder `decode` uses for a session: the one that is there, or a new one. -/
def decoderOf (decoders : AssocMap UInt64 D) (session : UInt64) (fresh : D) : D :=
  (HashMap.get? decoders session).getD fresh

/-- A packet that is not a voice packet is passed on with empty `pcm`, and changes nothing. -/
theorem decodeData_other (fr : FailedRead) (c : AudioPacketCodec E D K M) (addr : A) (h : UInt8)
    (rest : Bytes) (hh : audType h ≠ 0b100) :
    decodeData fr c addr (h :: rest) = .returned
      (.ok (addr, { type_ := (audType h).toUInt32, target := (audTarget h).toUInt32,
                    session := sessionIndex c.session 0, pcm := [], pos := ⟨0, 0, 0⟩ }), c) := by
  simp only [decodeData, readU8_cons, ReadResult.unwrap_ok, Outcome.returned_bind, if_neg hh,
    Outcome.pure_eq]

theorem readVoice_eq_returned {fr : FailedRead} {data : Bytes} {v : VoicePacket} :
    readVoice fr data = .returned v ↔ ∃ h rest rest' rdr, data = h :: rest ∧
      MumbleBot.audType h = v.audType ∧ MumbleBot.audTarget h = v.audTarget ∧
      readVarint rest = .ok v.session rest' ∧ readVarint rest' = .ok v.sequence rdr ∧
      opusSegments fr rdr = .returned v.segments := by
  cases data with
  | nil => simp [readVoice]
  | cons h rest =>
    simp only [readVoice, readU8_cons, ReadResult.unwrap_ok, Outcome.returned_bind,
      Outcome.bind_eq_returned, Outcome.pure_eq, Outcome.returned.injEq, Prod.exists,
      ReadResult.unwrap_eq_returned, List.cons.injEq]
    constructor
    · rintro ⟨session, rest', h₁, sequence, rdr, h₂, segments, h₃, rfl⟩
      exact ⟨h, rest, rest', rdr, ⟨rfl, rfl⟩, rfl, rfl, h₁, h₂, h₃⟩
    · rintro ⟨h', _, rest', rdr, ⟨rfl, rfl⟩, ht, htt, h₁, h₂, h₃⟩
      exact ⟨v.session, rest', h₁, v.sequence, rdr, h₂, v.segments, h₃, by rw [ht, htt]⟩

/-- **What one voice packet does.** Its samples come from the decoder of its session, which is
advanced, and the decoders of the other sessions are as they were. -/
theorem decodeData_voice {fr : FailedRead} (c : AudioPacketCodec E D K M) (addr : A) {data : Bytes}
    {v : VoicePacket} {fresh : D} (hfresh : OpusDecoder.new 16000 .mono = .ok fresh)
    (hv : readVoice fr data = .returned v) (htype : v.audType = 0b100) :
    ∃ decoders, decodeData fr c addr data = .returned
      (.ok (addr, { type_ := 0b100, target := v.audTarget.toUInt32,
                    session := sessionIndex c.session v.session,
                    pcm := (decodeSegments (decoderOf c.opusDecoders v.session fresh)
                      v.segments).pcm,
                    pos := ⟨0, 0, 0⟩ }), { c with opusDecoders := decoders }) ∧
      ∀ s, HashMap.get? decoders s = if s = v.session then
          some (decodeSegments (decoderOf c.opusDecoders v.session fresh) v.segments).decoder
        else HashMap.get? c.opusDecoders s := by
  obtain ⟨h, rest, rest', rdr, rfl, ht, htt, h₁, h₂, h₃⟩ := readVoice_eq_returned.mp hv
  rw [htype] at ht
  have hdec := opusDecode_of_segments (decoderOf c.opusDecoders v.session fresh) h₃
  refine ⟨HashMap.insert (HashMap.entryOrInsert c.opusDecoders v.session fresh).2 v.session
    (decodeSegments (decoderOf c.opusDecoders v.session fresh) v.segments).decoder, ?_, fun s => ?_⟩
  · simp only [decodeData, readU8_cons, ReadResult.unwrap_ok, Outcome.returned_bind, if_pos ht, h₁,
      hfresh, Outcome.unwrap_ok, h₂, HashMap.fst_entryOrInsert]
    rw [← decoderOf, hdec]
    simp only [Outcome.returned_bind, Outcome.pure_eq, ht, htt]
    rfl
  · rw [HashMap.get?_insert]
    split_ifs with hs
    · rfl
    · rw [HashMap.get?_entryOrInsert, if_neg (fun hc => hs hc.1)]

/-- A header that is cut short panics. -/
theorem decodeData_of_readVoice_panicked {fr : FailedRead} (c : AudioPacketCodec E D K M) (addr : A)
    {h : UInt8} {rest : Bytes} (hh : audType h = 0b100)
    (hv : readVoice fr (h :: rest) = .panicked) :
    decodeData fr c addr (h :: rest) = .panicked := by
  obtain ⟨fresh, hfresh⟩ := OpusDecoder.new_16000_mono (D := D)
  rcases readVarint_cases rest with ⟨_, session, rest', -, -, h₁⟩ | h₁
  · rcases readVarint_cases rest' with ⟨_, sequence, rdr, -, -, h₂⟩ | h₂
    · -- both numbers are there, and the loop of `opus_decode` does not panic
      obtain ⟨s, hs, -⟩ := segmentLoop_returns fr ⟨[], 0, false, rdr⟩
      simp [readVoice, h₁, h₂, opusSegments, hs] at hv
    · simp [decodeData, hh, h₁, h₂, hfresh]
  · simp [decodeData, hh, h₁]

/-! ### The plaintexts `decode` survives

An empty plaintext and a voice packet that ends inside one of its two numbers panic; nothing else
does. -/

/-- If the plaintext is a voice packet, its session and its sequence number are complete. -/
def VoiceHeadersComplete (data : Bytes) : Prop :=
  ∀ h rest, data = h :: rest → audType h = 0b100 →
    ∃ p session q sequence t, rest = p ++ (q ++ t) ∧ VarintCode p session ∧ VarintCode q sequence

theorem returns_readVoice_iff {fr : FailedRead} {h : UInt8} {rest : Bytes} :
    (readVoice fr (h :: rest)).Returns ↔ ∃ p session q sequence t,
      rest = p ++ (q ++ t) ∧ VarintCode p session ∧ VarintCode q sequence := by
  constructor
  · rintro ⟨v, hv⟩
    obtain ⟨_, _, rest', rdr, hcons, -, -, h₁, h₂, -⟩ := readVoice_eq_returned.mp hv
    obtain ⟨rfl, rfl⟩ := List.cons.inj hcons
    obtain ⟨p, rfl, hp⟩ := code_of_readVarint h₁
    obtain ⟨q, rfl, hq⟩ := code_of_readVarint h₂
    exact ⟨p, v.session, q, v.sequence, rdr, rfl, hp, hq⟩
  · rintro ⟨p, session, q, sequence, t, rfl, hp, hq⟩
    obtain ⟨s, hs, -⟩ := segmentLoop_returns fr ⟨[], 0, false, t⟩
    exact ⟨⟨audType h, audTarget h, session, sequence, s⟩, readVoice_eq_returned.mpr
      ⟨h, _, q ++ t, t, rfl, rfl, rfl, readVarint_of_code hp _, readVarint_of_code hq t, hs⟩⟩

/-- `decode` returns on a plaintext exactly when there is a header byte, with the two numbers of
a voice packet behind it if it announces one. -/
theorem returns_decodeData_iff (fr : FailedRead) (c : AudioPacketCodec E D K M) (addr : A)
    (data : Bytes) :
    (decodeData fr c addr data).Returns ↔ data ≠ [] ∧ VoiceHeadersComplete data := by
  cases data with
  | nil => simp [decodeData]
  | cons h rest =>
    by_cases hh : audType h = 0b100
    · have hcomplete : VoiceHeadersComplete (h :: rest) ↔ (readVoice fr (h :: rest)).Returns := by
        rw [returns_readVoice_iff]
        refine ⟨fun hc => hc h rest rfl hh, ?_⟩
        rintro hc h' rest' hcons -
        obtain ⟨rfl, rfl⟩ := List.cons.inj hcons
        exact hc
      rw [hcomplete]
      refine ⟨fun hr => ⟨List.cons_ne_nil _ _, ?_⟩, fun ⟨_, v, hv⟩ => ?_⟩
      · by_contra hv
        rw [Outcome.returns_iff_ne_panicked, not_not] at hv
        rw [decodeData_of_readVoice_panicked c addr hh hv] at hr
        exact Outcome.not_returns_panicked hr
      · obtain ⟨fresh, hfresh⟩ := OpusDecoder.new_16000_mono (D := D)
        obtain ⟨_, _, _, _, hcons, ht, -⟩ := readVoice_eq_returned.mp hv
        obtain ⟨rfl, -⟩ := List.cons.inj hcons
        obtain ⟨decoders, hdec, -⟩ := decodeData_voice c addr hfresh hv (ht ▸ hh)
        exact ⟨_, hdec⟩
    · rw [decodeData_other fr c addr h rest hh]
      refine iff_of_true (Outcome.returns_returned _) ⟨List.cons_ne_nil _ _, ?_⟩
      intro h' rest' hcons ht
      exact absurd ((List.cons.inj hcons).1 ▸ ht) hh

/-! ### Decoding a datagram -/

variable [CryptState K]

/-- `if crypt.is_valid() { crypt.decrypt(&buf, &mut data); }`. The success flag is dropped. -/
def decryptInto (crypt : K) (buf data : Bytes) : Bytes × K :=
  if CryptState.isValid crypt then
    let d := CryptState.decrypt crypt buf data
    (d.buffer, d.state)
  else (data, crypt)

/-- `AudioPacketCodec::decode`. -/
def decode (fr : FailedRead) (c : AudioPacketCodec E D K M) (addr : A) (buf : Bytes) :
    Outcome (Except IoError (A × AudioInPacket) × AudioPacketCodec E D K M) := do
  let cryptLen := buf.length
  let data := List.replicate (← Outcome.usizeSub cryptLen 4) 0
  let (data, crypt) := decryptInto c.crypt buf data
  decodeData fr { c with crypt } addr data

/-- What `decode` parses: the zeroed buffer, decrypted into if there is a key. -/
def plaintext (crypt : K) (buf : Bytes) : Bytes :=
  (decryptInto crypt buf (List.replicate (buf.length - 4) 0)).1

/-- The crypt state after a datagram. -/
def cryptAfter (crypt : K) (buf : Bytes) : K :=
  (decryptInto crypt buf (List.replicate (buf.length - 4) 0)).2

@[simp] theorem length_plaintext (crypt : K) (buf : Bytes) :
    (plaintext crypt buf).length = buf.length - 4 := by
  rw [plaintext, decryptInto]
  split_ifs <;> simp

/-- `decode`, past the subtraction. -/
theorem decode_eq (fr : FailedRead) (c : AudioPacketCodec E D K M) (addr : A) {buf : Bytes}
    (h : 4 ≤ buf.length) : decode fr c addr buf =
      decodeData fr { c with crypt := cryptAfter c.crypt buf } addr (plaintext c.crypt buf) := by
  simp only [decode, Outcome.usizeSub_of_le h, Outcome.returned_bind, cryptAfter, plaintext]

/-- **Exactly when `decode` returns.** The datagram has a byte beyond the four of the tag, and
if its plaintext is a voice packet, the two numbers at its front are complete. -/
theorem returns_decode_iff (fr : FailedRead) (c : AudioPacketCodec E D K M) (addr : A)
    (buf : Bytes) : (decode fr c addr buf).Returns ↔
      5 ≤ buf.length ∧ VoiceHeadersComplete (plaintext c.crypt buf) := by
  rcases Nat.lt_or_ge buf.length 4 with h | h
  · have hp : decode fr c addr buf = .panicked := by
      simp only [decode, Outcome.usizeSub_of_lt h, Outcome.panicked_bind]
    rw [hp]
    exact iff_of_false Outcome.not_returns_panicked fun hc => by omega
  · rw [decode_eq fr c addr h, returns_decodeData_iff]
    refine and_congr_left fun _ => ?_
    rw [← List.length_pos_iff, length_plaintext]
    omega

/-- **What `decode` does when it returns.** It reports no error. A voice packet is decoded with the
decoder of its session, which is advanced; any other packet has no samples and changes nothing but
the crypt state. -/
theorem decode_cases {fr : FailedRead} {c c' : AudioPacketCodec E D K M} {addr : A} {buf : Bytes}
    {r : Except IoError (A × AudioInPacket)} (h : decode fr c addr buf = .returned (r, c')) :
    c'.session = c.session ∧ c'.crypt = cryptAfter c.crypt buf ∧ ∃ packet, r = .ok (addr, packet) ∧
      ((∃ v fresh, readVoice fr (plaintext c.crypt buf) = .returned v ∧ v.audType = 0b100 ∧
          OpusDecoder.new 16000 .mono = .ok fresh ∧
          packet = { type_ := 0b100, target := v.audTarget.toUInt32,
                     session := sessionIndex c.session v.session,
                     pcm := (decodeSegments (decoderOf c.opusDecoders v.session fresh)
                       v.segments).pcm,
                     pos := ⟨0, 0, 0⟩ } ∧
          ∀ s, HashMap.get? c'.opusDecoders s = if s = v.session then
              some (decodeSegments (decoderOf c.opusDecoders v.session fresh) v.segments).decoder
            else HashMap.get? c.opusDecoders s) ∨
        ∃ h rest, plaintext c.crypt buf = h :: rest ∧ audType h ≠ 0b100 ∧
          packet = { type_ := (audType h).toUInt32, target := (audTarget h).toUInt32,
                     session := sessionIndex c.session 0, pcm := [], pos := ⟨0, 0, 0⟩ } ∧
          c'.opusDecoders = c.opusDecoders) := by
  have hlen : 4 ≤ buf.length := by
    by_contra hlt
    simp [decode, Outcome.usizeSub_of_lt (Nat.not_le.mp hlt)] at h
  rw [decode_eq fr c addr hlen] at h
  cases hdata : plaintext c.crypt buf with
  | nil => simp [hdata, decodeData] at h
  | cons b rest =>
    rw [hdata] at h
    by_cases hb : audType b = 0b100
    · cases hv : readVoice fr (b :: rest) with
      | panicked => simp [decodeData_of_readVoice_panicked _ addr hb hv] at h
      | returned v =>
        obtain ⟨fresh, hfresh⟩ := OpusDecoder.new_16000_mono (D := D)
        obtain ⟨_, _, _, _, hcons, htype, -⟩ := readVoice_eq_returned.mp hv
        obtain ⟨rfl, -⟩ := List.cons.inj hcons
        rw [hb] at htype
        obtain ⟨decoders, hdec, hget⟩ := decodeData_voice
          { c with crypt := cryptAfter c.crypt buf } addr hfresh hv htype.symm
        obtain ⟨rfl, rfl⟩ := Prod.mk.inj (Outcome.returned.inj (hdec.symm.trans h))
        exact ⟨rfl, rfl, _, rfl, .inl ⟨v, fresh, rfl, htype.symm, hfresh, rfl, hget⟩⟩
    · rw [decodeData_other fr _ addr b rest hb] at h
      obtain ⟨rfl, rfl⟩ := Prod.mk.inj (Outcome.returned.inj h)
      exact ⟨rfl, rfl, _, rfl, .inr ⟨b, rest, rfl, hb, rfl, rfl⟩⟩

/-- Three datagrams that panic, with any codec that has a key: one shorter than the tag, one that
is nothing but the tag, and an authentic voice packet cut inside its session number. -/
theorem decode_panics :
    ¬ (decode .stay (standInCodec [1, 2, 3, 4]) () []).Returns ∧
      ¬ (decode .stay (standInCodec [1, 2, 3, 4]) () [1, 2, 3, 4]).Returns ∧
      ¬ (decode .stay (standInCodec [1, 2, 3, 4]) () [1, 2, 3, 4, 0x80, 0x80]).Returns := by
  decide

end Decode

/-! ### Encoding -/

section Encode

variable [OpusEncoder E]

/-- `encode` up to the finished plaintext. -/
def encodeData (c : AudioPacketCodec E D K M) (packet : AudioOutPacket) :
    Outcome (Bytes × AudioPacketCodec E D K M) :=
  let data : Bytes := []
  if packet.type_ = 0b001 then do
    let data := data ++ [0b00100000]
    let (written, data) := writeVarint data packet.timestamp
    let _ ← Outcome.unwrap written
    return (data, c)
  else if packet.type_ = 0b100 then do
    let (frame, opusEncoder) := OpusEncoder.encodeVec c.opusEncoder packet.pcm 4000
    let frame ← Outcome.unwrap frame
    let encoderSequence ← Outcome.u64Add c.encoderSequence 1
    let done := false
    let audHeader := (0b100 : UInt8) <<< 5
    let data := data ++ [audHeader]
    let (written, data) := writeVarint data encoderSequence
    let _ ← Outcome.unwrap written
    let opusLen := if done then UInt64.ofNat frame.length ||| 0x2000 else UInt64.ofNat frame.length
    let (written, data) := writeVarint data opusLen
    let _ ← Outcome.unwrap written
    let data := data ++ frame
    return (data, { c with opusEncoder, encoderSequence })
  else
    .panicked -- AudioPacketCodec:encode type unknown

/-- `AudioPacketCodec::encode`: the address, and `into` with the datagram appended. -/
def encode [CryptState K] (c : AudioPacketCodec E D K M) (addr : A) (packet : AudioOutPacket)
    (into : Bytes) : Outcome ((A × Bytes) × AudioPacketCodec E D K M) := do
  let (data, c) ← encodeData c packet
  let enc := List.replicate (data.length + 4) 0
  let (enc, crypt) :=
    if CryptState.isValid c.crypt then CryptState.encrypt c.crypt data enc else (enc, c.crypt)
  return ((addr, into ++ enc), { c with crypt })

/-! ### What a plaintext consists of -/

/-- The plaintext of a voice packet. -/
def voicePlaintext (sequence : UInt64) (frame : Bytes) : Bytes :=
  0b10000000 :: (varintBytes sequence ++ (varintBytes (segmentHeader frame.length false) ++ frame))

/-- The plaintext of a ping. -/
def pingPlaintext (timestamp : UInt64) : Bytes := 0b00100000 :: varintBytes timestamp

theorem encodeData_ping (c : AudioPacketCodec E D K M) {packet : AudioOutPacket}
    (h : packet.type_ = 0b001) :
    encodeData c packet = .returned (pingPlaintext packet.timestamp, c) := by
  simp [encodeData, h, pingPlaintext]

/-- A voice packet is encoded exactly when opus encodes it and there is a sequence number left
for it. Its target and its `done` flag are not looked at. -/
theorem encodeData_voice {c c' : AudioPacketCodec E D K M} {packet : AudioOutPacket}
    {data : Bytes} (h : packet.type_ = 0b100) :
    encodeData c packet = .returned (data, c') ↔
      ∃ frame, (OpusEncoder.encodeVec c.opusEncoder packet.pcm 4000).1 = .ok frame ∧
        c.encoderSequence.toNat + 1 < 2 ^ 64 ∧
        data = voicePlaintext (c.encoderSequence + 1) frame ∧
        c' = { c with opusEncoder := (OpusEncoder.encodeVec c.opusEncoder packet.pcm 4000).2,
                      encoderSequence := c.encoderSequence + 1 } := by
  have htype : ¬ packet.type_ = 0b001 := by rw [h]; decide
  simp only [encodeData, if_neg htype, if_pos h, Outcome.bind_eq_returned,
    Outcome.unwrap_eq_returned, Outcome.u64Add_eq_returned, writeVarint_bytes, Outcome.pure_eq,
    Outcome.returned.injEq, Prod.mk.injEq, Except.ok.injEq]
  constructor
  · rintro ⟨frame, hframe, _, ⟨hlt, rfl⟩, _, -, _, -, rfl, rfl⟩
    exact ⟨frame, hframe, hlt, by simp [voicePlaintext, segmentHeader]; rfl, rfl⟩
  · rintro ⟨frame, hframe, hlt, rfl, rfl⟩
    exact ⟨frame, hframe, _, ⟨hlt, rfl⟩, _, rfl, _, rfl, by
      simp [voicePlaintext, segmentHeader]; rfl, rfl⟩

/-- Nothing but the encoder and the sequence number is changed on the way to the plaintext. -/
theorem encodeData_frame {c c' : AudioPacketCodec E D K M} {packet : AudioOutPacket}
    {data : Bytes} (h : encodeData c packet = .returned (data, c')) :
    c'.opusDecoders = c.opusDecoders ∧ c'.session = c.session ∧ c'.crypt = c.crypt := by
  by_cases hping : packet.type_ = 0b001
  · rw [encodeData_ping c hping] at h
    obtain ⟨-, rfl⟩ := Prod.mk.inj (Outcome.returned.inj h)
    exact ⟨rfl, rfl, rfl⟩
  · by_cases hvoice : packet.type_ = 0b100
    · obtain ⟨_, -, -, -, rfl⟩ := (encodeData_voice hvoice).mp h
      exact ⟨rfl, rfl, rfl⟩
    · simp [encodeData, hping, hvoice] at h

end Encode

end MumbleBot
