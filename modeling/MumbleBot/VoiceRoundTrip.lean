import MumbleBot.AudioPacketCodec
import MumbleBot.Base.Machine

/-!
# Voice from one client to another

The server puts the session of the speaker after the header byte of a voice packet before it passes
the packet on, and that is what `decode` reads.

The encoder and the decoder were written apart; here they are run against each other, over any
sequence of packets.

## Main definitions

* `encoder` — the codec as a machine that takes packets and produces plaintexts
* `relay` — what the server does to a plaintext
* `Carries` — a plaintext from which a packet's target and flag are read back
* `voiceCount` — the number of voice packets

## Main results

* `readVoice_relay` — one voice packet is read back
* `encodeData_carries_iff` — exactly when the target and the terminator flag are read back
* `readVoice_encoder_run` — every voice packet of a run is read back, numbered from one
-/

namespace MumbleBot

variable {E D K M A : Type} [OpusEncoder E]

/-! ### One packet -/

/-- What the server does to a plaintext before it passes it on: the session of the speaker goes
after the header byte. -/
def relay (session : UInt64) : Bytes → Bytes
  | [] => []
  | h :: rest => h :: (varintBytes session ++ rest)

/-- The loop of `opus_decode` reads the one segment of a packet and stops at the end. -/
theorem opusSegments_frame (fr : FailedRead) {frame : Bytes} (h : frame.length ≤ 0x1FFF) :
    opusSegments fr (varintBytes (segmentHeader frame.length false) ++ frame)
      = .returned ⟨frame, 1, false, []⟩ := by
  have hsegment := opusSegments_segment fr
    (varintCode_varintBytes (segmentHeader frame.length false)) (segmentHeader_length false h)
  rwa [segmentHeader_done false h] at hsegment

/-- **One voice packet round trips**, with whatever session the server puts into it. -/
theorem readVoice_relay (fr : FailedRead) (session sequence : UInt64) {frame : Bytes}
    (h : frame.length ≤ 0x1FFF) :
    readVoice fr (relay session (voicePlaintext sequence frame))
      = .returned ⟨0b100, 0, session, sequence, ⟨frame, 1, false, []⟩⟩ :=
  readVoice_eq_returned.mpr ⟨_, _, _, _, rfl, rfl, rfl,
    readVarint_varintBytes session _, readVarint_varintBytes sequence _,
    opusSegments_frame fr h⟩

/-! ### The target and the terminator flag -/

/-- The plaintext of a voice packet carries what the packet says: behind whatever session the
server puts into it, `decode` reads the packet's target off the header byte, and `opus_decode`
reads the packet's flag off the header of the segment. -/
structure Carries (fr : FailedRead) (data : Bytes) (packet : AudioOutPacket) : Prop where
  target : ∀ session, ∃ v, readVoice fr (relay session data) = .returned v ∧
    v.audTarget.toUInt32 = packet.target
  done : ∀ session, ∃ v, readVoice fr (relay session data) = .returned v ∧
    v.segments.opusDone = packet.done

/-- **Which packets are carried.** `encode` looks at neither the target nor the flag of a voice
packet, and what it writes says target zero and no terminator. -/
theorem encodeData_carries_iff (fr : FailedRead) {c c' : AudioPacketCodec E D K M}
    {packet : AudioOutPacket} {data : Bytes} (htype : packet.type_ = 0b100)
    (h : encodeData c packet = .returned (data, c')) :
    Carries fr data packet ↔ packet.target = 0 ∧ packet.done = false := by
  obtain ⟨frame, hframe, -, rfl, -⟩ := (encodeData_voice htype).mp h
  have hlen := OpusEncoder.length_le _ _ _ _ hframe
  have hread := fun session => readVoice_relay fr session (c.encoderSequence + 1)
    (by omega : frame.length ≤ 0x1FFF)
  constructor
  · rintro ⟨htarget, hdone⟩
    obtain ⟨v, hv, hvt⟩ := htarget 0
    obtain ⟨w, hw, hwd⟩ := hdone 0
    obtain rfl := Outcome.returned.inj ((hread 0).symm.trans hv)
    obtain rfl := Outcome.returned.inj ((hread 0).symm.trans hw)
    exact ⟨hvt.symm, hwd.symm⟩
  · rintro ⟨htarget, hdone⟩
    constructor
    · intro session
      exact ⟨_, hread session, htarget.symm⟩
    · intro session
      exact ⟨_, hread session, hdone.symm⟩

/-- Two samples for target zero. -/
theorem encodeData_carries_two :
    Carries .stay [0x80, 1, 2, 8, 9] ⟨0b100, 0, [8, 9], false, 0⟩ :=
  (encodeData_carries_iff .stay (c := standInCodec []) rfl rfl).mpr ⟨rfl, rfl⟩

/-- The last packet of a whisper to target three goes out as if it were neither. -/
theorem encodeData_drops_target :
    (Prod.fst <$> encodeData (standInCodec []) ⟨0b100, 3, [8, 9], true, 0⟩)
        = .returned [0x80, 1, 2, 8, 9] ∧
      ∃ v, readVoice .stay (relay 5 [0x80, 1, 2, 8, 9]) = .returned v ∧ v.audTarget = 0 ∧
        v.segments.opusDone = false :=
  ⟨rfl, _, rfl, rfl, rfl⟩

/-! ### Runs of the encoder -/

section Run

variable [CryptState K]

/-- The codec as a machine: it encodes packets for addresses, and the output is the plaintext
that goes into the datagram. -/
def encoder : Machine (AudioPacketCodec E D K M) (A × AudioOutPacket) Bytes where
  step c packet := do
    let (data, _) ← encodeData c packet.2
    let (_, c) ← encode c packet.1 packet.2 []
    return (c, data)

/-- The number of voice packets among the packets sent. -/
def voiceCount (packets : List (A × AudioOutPacket)) : ℕ :=
  packets.countP fun packet => packet.2.type_ = 0b100

@[simp] theorem voiceCount_nil : voiceCount ([] : List (A × AudioOutPacket)) = 0 := rfl

theorem voiceCount_cons (packet : A × AudioOutPacket) (packets : List (A × AudioOutPacket)) :
    voiceCount (packet :: packets)
      = voiceCount packets + if packet.2.type_ = 0b100 then 1 else 0 := by
  simp [voiceCount, List.countP_cons]

/-- A step of the encoder, up to the crypt state, is `encodeData`. -/
theorem encoder_step_eq_returned {c c' : AudioPacketCodec E D K M} {packet : A × AudioOutPacket}
    {data : Bytes} : encoder.step c packet = .returned (c', data) ↔
      ∃ c₁ crypt, encodeData c packet.2 = .returned (data, c₁) ∧ c' = { c₁ with crypt } ∧
        crypt = (if CryptState.isValid c₁.crypt then
          CryptState.encrypt c₁.crypt data (List.replicate (data.length + 4) 0)
          else (List.replicate (data.length + 4) 0, c₁.crypt)).2 := by
  simp only [encoder, encode, Outcome.bind_eq_returned, Prod.exists, Outcome.pure_eq,
    Outcome.returned.injEq, Prod.mk.injEq]
  constructor
  · rintro ⟨data₁, c₁, h₁, -, -, -, ⟨data₂, c₂, h₂, -, rfl⟩, rfl, rfl⟩
    obtain ⟨rfl, rfl⟩ := Prod.mk.inj (Outcome.returned.inj (h₁.symm.trans h₂))
    exact ⟨c₁, _, h₁, rfl, rfl⟩
  · rintro ⟨c₁, _, h₁, rfl, rfl⟩
    exact ⟨data, c₁, h₁, _, _, _, ⟨data, c₁, h₁, ⟨rfl, rfl⟩, rfl⟩, rfl, rfl⟩

/-- What one step of the encoder can do: a ping leaves the sequence number alone, a voice packet
takes the next one. -/
theorem encoder_step_cases {c c' : AudioPacketCodec E D K M} {packet : A × AudioOutPacket}
    {data : Bytes} (h : encoder.step c packet = .returned (c', data)) :
    (packet.2.type_ = 0b001 ∧ data = pingPlaintext packet.2.timestamp ∧
      c'.encoderSequence = c.encoderSequence) ∨
    (packet.2.type_ = 0b100 ∧ ∃ frame,
      (OpusEncoder.encodeVec c.opusEncoder packet.2.pcm 4000).1 = .ok frame ∧
      data = voicePlaintext c'.encoderSequence frame ∧
      c'.encoderSequence.toNat = c.encoderSequence.toNat + 1) := by
  obtain ⟨c₁, crypt, hdata, rfl, -⟩ := encoder_step_eq_returned.mp h
  by_cases hping : packet.2.type_ = 0b001
  · rw [encodeData_ping c hping] at hdata
    obtain ⟨rfl, rfl⟩ := Prod.mk.inj (Outcome.returned.inj hdata)
    exact .inl ⟨hping, rfl, rfl⟩
  · by_cases hvoice : packet.2.type_ = 0b100
    · obtain ⟨frame, hframe, hlt, rfl, rfl⟩ := (encodeData_voice hvoice).mp hdata
      refine .inr ⟨hvoice, frame, hframe, rfl, ?_⟩
      rw [UInt64.toNat_add, UInt64.toNat_one, Nat.mod_eq_of_lt hlt]
    · simp [encodeData, hping, hvoice] at hdata

/-- The sequence number counts the voice packets. -/
theorem encoder_run_sequence {c c' : AudioPacketCodec E D K M}
    {packets : List (A × AudioOutPacket)} (h : encoder.run c packets = .returned c') :
    c'.encoderSequence.toNat = c.encoderSequence.toNat + voiceCount packets := by
  induction packets generalizing c with
  | nil => rw [← Outcome.returned.inj h]; rfl
  | cons packet packets ih =>
    obtain ⟨c₁, data, h₁, hrest⟩ := Machine.run_cons_eq_returned.mp h
    rw [ih hrest, voiceCount_cons]
    rcases encoder_step_cases h₁ with ⟨hping, -, hseq⟩ | ⟨hvoice, -, -, -, hseq⟩
    · rw [hseq, if_neg (by rw [hping]; decide), Nat.add_zero]
    · rw [hseq, if_pos hvoice, Nat.add_assoc, Nat.add_comm 1]

/-- Nothing in a run panics while opus encodes what it is given and the sequence numbers last. -/
theorem returns_encoder_run {c : AudioPacketCodec E D K M} {packets : List (A × AudioOutPacket)}
    (hopus : ∀ (e : E) pcm, ∃ frame, (OpusEncoder.encodeVec e pcm 4000).1 = .ok frame)
    (htypes : ∀ packet ∈ packets, packet.2.type_ = 0b001 ∨ packet.2.type_ = 0b100)
    (hlt : c.encoderSequence.toNat + voiceCount packets < 2 ^ 64) :
    (encoder.run c packets).Returns := by
  induction packets generalizing c with
  | nil => exact Outcome.returns_returned _
  | cons packet packets ih =>
    rw [List.forall_mem_cons] at htypes
    obtain ⟨c₁, data, h₁⟩ : ∃ c₁ data, encoder.step c packet = .returned (c₁, data) := by
      rcases htypes.1 with hping | hvoice
      · exact ⟨_, _, encoder_step_eq_returned.mpr ⟨_, _, encodeData_ping c hping, rfl, rfl⟩⟩
      · obtain ⟨frame, hframe⟩ := hopus c.opusEncoder packet.2.pcm
        rw [voiceCount_cons, if_pos hvoice] at hlt
        exact ⟨_, _, encoder_step_eq_returned.mpr
          ⟨_, _, (encodeData_voice hvoice).mpr ⟨frame, hframe, by omega, rfl, rfl⟩, rfl, rfl⟩⟩
    rw [Machine.run_cons_of_returned h₁]
    refine ih htypes.2 ?_
    rcases encoder_step_cases h₁ with ⟨hping, -, hseq⟩ | ⟨hvoice, -, -, -, hseq⟩
    · rw [voiceCount_cons] at hlt
      rw [hseq]
      omega
    · rw [voiceCount_cons, if_pos hvoice] at hlt
      omega

variable [OpusDecoder D] [HashMap M UInt64 Remote]

/-- **Voice round trips over a whole run.** Every packet of a run is encoded, as long as opus
encodes the samples and the sequence numbers last. Whatever session the server puts into the
`k`-th voice packet, a receiver reads back that session, the number `k`, and one segment, which is
the frame, with nothing left over; these are the samples it plays. A ping takes no number, and a
receiver makes nothing of it. -/
theorem readVoice_encoder_run (fr : FailedRead) {c : AudioPacketCodec E D K M}
    (hc : c.encoderSequence = 0) (packets : List (A × AudioOutPacket)) :
    ((∀ (e : E) pcm, ∃ frame, (OpusEncoder.encodeVec e pcm 4000).1 = .ok frame) →
      (∀ packet ∈ packets, packet.2.type_ = 0b001 ∨ packet.2.type_ = 0b100) →
      voiceCount packets < 2 ^ 64 → (encoder.trace c packets).map Step.event = packets) ∧
    ∀ a t b, encoder.trace c packets = a ++ t :: b →
      (t.event.2.type_ = 0b100 → ∃ frame k,
        (OpusEncoder.encodeVec t.pre.opusEncoder t.event.2.pcm 4000).1 = .ok frame ∧
        k.toNat = voiceCount (a.map Step.event) + 1 ∧
        ∀ session, readVoice fr (relay session t.output)
            = .returned ⟨0b100, 0, session, k, ⟨frame, 1, false, []⟩⟩ ∧
          ∀ (receiver : AudioPacketCodec E D K M) (addr : A), ∃ receiver' fresh,
            OpusDecoder.new 16000 .mono = .ok fresh ∧
            decodeData fr receiver addr (relay session t.output) = .returned
              (.ok (addr, { type_ := 0b100, target := 0,
                            session := sessionIndex receiver.session session,
                            pcm := (decodeSegments (decoderOf receiver.opusDecoders session fresh)
                              ⟨frame, 1, false, []⟩).pcm,
                            pos := ⟨0, 0, 0⟩ }), receiver')) ∧
      (t.event.2.type_ = 0b001 → t.post.encoderSequence = t.pre.encoderSequence ∧
        ∀ (receiver : AudioPacketCodec E D K M) (addr : A), decodeData fr receiver addr t.output
          = .returned (.ok (addr, { type_ := 0b001, target := 0,
                                    session := sessionIndex receiver.session 0, pcm := [],
                                    pos := ⟨0, 0, 0⟩ }), receiver)) := by
  refine ⟨fun hopus htypes hlt => ?_, fun a t b htrace => ?_⟩
  · obtain ⟨c', hrun⟩ := returns_encoder_run (c := c) hopus htypes (by rw [hc]; simpa using hlt)
    exact Machine.map_event_trace hrun
  · obtain ⟨before, _, -, hrun, rfl, -⟩ := Machine.trace_eq_append_cons htrace
    have hcount : t.pre.encoderSequence.toNat = voiceCount before := by
      rw [encoder_run_sequence hrun, hc]
      exact Nat.zero_add _
    rw [Machine.map_event_trace hrun, ← hcount]
    have ht := Machine.step_of_mem_trace (htrace ▸ List.mem_append_right _ (List.mem_cons_self ..))
    rcases encoder_step_cases ht with ⟨hping, hdata, hseq⟩ | ⟨hvoice, frame, hframe, hdata, hseq⟩
    · refine ⟨fun hvoice => absurd (hping.symm.trans hvoice) (by decide), fun _ => ⟨hseq, ?_⟩⟩
      intro receiver addr
      rw [hdata, pingPlaintext, decodeData_other fr receiver addr _ _ (by decide)]
      rfl
    · refine ⟨fun _ => ⟨frame, _, hframe, hseq, fun session => ?_⟩,
        fun hping => absurd (hping.symm.trans hvoice) (by decide)⟩
      have hlen := OpusEncoder.length_le _ _ _ _ hframe
      have hread := readVoice_relay fr session t.post.encoderSequence
        (by omega : frame.length ≤ 0x1FFF)
      rw [hdata]
      refine ⟨hread, fun receiver addr => ?_⟩
      obtain ⟨fresh, hfresh⟩ := OpusDecoder.new_16000_mono (D := D)
      obtain ⟨decoders, hdecode, -⟩ := decodeData_voice receiver addr hfresh hread rfl
      exact ⟨_, fresh, hfresh, hdecode⟩

/-- Two voice packets with a ping between them: the second one carries the number two. -/
theorem readVoice_encoder_run_three :
    let packets : List (Unit × AudioOutPacket) :=
      [((), ⟨0b100, 0, [7], false, 0⟩), ((), ⟨0b001, 0, [], false, 5⟩),
        ((), ⟨0b100, 0, [8, 9], false, 0⟩)]
    (encoder.trace (standInCodec []) packets).map Step.event = packets ∧
      ∀ session, readVoice .stay (relay session [0x80, 2, 2, 8, 9])
        = .returned ⟨0b100, 0, session, 2, ⟨[8, 9], 1, false, []⟩⟩ := by
  intro packets
  obtain ⟨hall, hsteps⟩ := readVoice_encoder_run .stay (c := standInCodec []) rfl packets
  refine ⟨hall (fun _ _ => ⟨_, rfl⟩) (by decide) (by decide), fun session => ?_⟩
  obtain ⟨frame, k, hframe, hk, hread⟩ := (hsteps [_, _] _ [] rfl).1 rfl
  obtain rfl : [8, 9] = frame := Except.ok.inj hframe
  obtain rfl : k = 2 := UInt64.toNat_inj.mp hk
  exact (hread session).1

end Run

end MumbleBot
