import MumbleBot.Say
import MumbleBot.Speakers
import MumbleBot.VoiceRoundTrip

/-!
# What is said is heard

Bytes that one client is given to say come out at another one as sound. On the way `say` groups
them into packets, which go out among the pings; the codec encodes and numbers them; the server
writes the session of the speaker into each of them; and the codec of the listener decodes them,
among whatever else the listener receives.

Opus is lossy. What is assumed of an encoder and a decoder is that they can be in step: then a frame
decodes to as many samples as it was made of, and these are close to them, for a notion of closeness
that is a parameter. If it is equality, what is heard is what has been said.

The datagrams are not lost and not reordered, and decrypt to what has been encrypted.

## Main definitions

* `CodecPair` — an encoder and a decoder that can be in step
* `voicePackets`, `voicePlaintexts` — the voice packets among those that are sent, and what they
  are encoded to

## Main results

* `speaker_trace` — encoder and decoder stay in step over any packets
* `heard_of_said` — from the bytes of one client to the sounds of another one
-/

namespace MumbleBot

variable {E D K M A : Type} [OpusEncoder E]

/-! ### In step -/

/-- An encoder and a decoder that belong together: `inStep` says that the decoder has decoded what
the encoder has encoded. Then the next packet of 160 samples is encoded, and its frame decodes to
160 samples that are close to them. -/
structure CodecPair (E D : Type) [OpusEncoder E] [OpusDecoder D]
    (close : List Int16 → List Int16 → Prop) where
  inStep : E → D → Prop
  encode : ∀ {e d pcm}, inStep e d → pcm.length = 160 →
    ∃ frame, (OpusEncoder.encodeVec e pcm 4000).1 = .ok frame ∧
      (OpusDecoder.decode d frame (List.replicate 320 0) false).result = .ok 160 ∧
      close pcm ((OpusDecoder.decode d frame (List.replicate 320 0) false).output.take 160) ∧
      inStep (OpusEncoder.encodeVec e pcm 4000).2
        (OpusDecoder.decode d frame (List.replicate 320 0) false).decoder

/-- What the listener makes of a voice packet while the codecs are in step. -/
theorem decodeSegments_pcm [OpusDecoder D] {d : D} {frame : Bytes}
    (h : (OpusDecoder.decode d frame (List.replicate 320 0) false).result = .ok 160) :
    (decodeSegments d ⟨frame, 1, false, []⟩).pcm
      = ((OpusDecoder.decode d frame (List.replicate 320 0) false).output.take 160).flatMap
          int16LE := by
  have hsegments : decodeSegments d ⟨frame, 1, false, []⟩
      = OpusDecoder.decode d frame (List.replicate 320 0) false := rfl
  rw [Decoded.pcm, Decoded.size, hsegments, h]

/-! ### The packets -/

/-- The voice packets among some packets. -/
def voicePackets (sent : List (A × AudioOutPacket)) : List AudioOutPacket :=
  (sent.map Prod.snd).filter fun packet => packet.type_ = 0b100

variable [CryptState K]

/-- The plaintexts of the voice packets, as a run of the encoder produces them. -/
def voicePlaintexts (c : AudioPacketCodec E D K M) (sent : List (A × AudioOutPacket)) :
    List Bytes :=
  ((encoder.trace c sent).filter fun t => t.event.2.type_ = 0b100).map Step.output

theorem voicePlaintexts_ping {c : AudioPacketCodec E D K M} {packet : A × AudioOutPacket}
    (h : packet.2.type_ = 0b001) (sent : List (A × AudioOutPacket)) :
    ∃ crypt : K, voicePlaintexts c (packet :: sent)
      = voicePlaintexts ({ c with crypt } : AudioPacketCodec E D K M) sent := by
  obtain ⟨crypt, hstep⟩ : ∃ crypt : K, encoder.step c packet
      = .returned (({ c with crypt } : AudioPacketCodec E D K M), _) :=
    ⟨_, encoder_step_eq_returned.mpr ⟨c, _, encodeData_ping c h, rfl, rfl⟩⟩
  have hping : ¬ packet.2.type_ = 0b100 := by
    rw [h]
    decide
  refine ⟨crypt, ?_⟩
  rw [voicePlaintexts, Machine.trace_cons_of_returned hstep,
    List.filter_cons_of_neg (by simpa using hping), ← voicePlaintexts]

theorem voicePlaintexts_voice {c : AudioPacketCodec E D K M} {packet : A × AudioOutPacket}
    (h : packet.2.type_ = 0b100) {frame : Bytes}
    (hframe : (OpusEncoder.encodeVec c.opusEncoder packet.2.pcm 4000).1 = .ok frame)
    (hlt : c.encoderSequence.toNat + 1 < 2 ^ 64) (sent : List (A × AudioOutPacket)) :
    ∃ crypt : K, voicePlaintexts c (packet :: sent)
      = voicePlaintext (c.encoderSequence + 1) frame :: voicePlaintexts ({ c with
          opusEncoder := (OpusEncoder.encodeVec c.opusEncoder packet.2.pcm 4000).2
          encoderSequence := c.encoderSequence + 1
          crypt } : AudioPacketCodec E D K M) sent := by
  have hdata : encodeData c packet.2 = .returned (_, _) :=
    (encodeData_voice h).mpr ⟨frame, hframe, hlt, rfl, rfl⟩
  obtain ⟨crypt, hstep⟩ : ∃ crypt : K, encoder.step c packet = .returned (({ c with
      opusEncoder := (OpusEncoder.encodeVec c.opusEncoder packet.2.pcm 4000).2
      encoderSequence := c.encoderSequence + 1
      crypt } : AudioPacketCodec E D K M), _) :=
    ⟨_, encoder_step_eq_returned.mpr ⟨_, _, hdata, rfl, rfl⟩⟩
  refine ⟨crypt, ?_⟩
  rw [voicePlaintexts, Machine.trace_cons_of_returned hstep,
    List.filter_cons_of_pos (by simpa using h), List.map_cons, ← voicePlaintexts]

/-! ### The way of the samples -/

variable [OpusDecoder D] {close : List Int16 → List Int16 → Prop}

/-- **In step over any packets**: a lone speaker decodes each voice packet, with whatever session
the server writes into it, to samples close to those it was made of. The induction is on the
packets; a ping changes neither the encoder nor the sequence number. -/
theorem speaker_trace (pair : CodecPair E D close) (fr : FailedRead) (s : UInt64) {fresh : D}
    (hfresh : OpusDecoder.new 16000 .mono = .ok fresh) {sent : List (A × AudioOutPacket)}
    (hsent : ∀ packet ∈ sent, packet.2.type_ = 0b001 ∨ packet.2.IsSaid)
    {c : AudioPacketCodec E D K M} {decoder : Option D}
    (hstep : pair.inStep c.opusEncoder (decoder.getD fresh))
    (hlt : c.encoderSequence.toNat + (voicePackets sent).length < 2 ^ 64) :
    ∃ heard : List (List Int16),
      ((speaker fr).trace decoder ((voicePlaintexts c sent).map (relay s))).map Step.output
          = heard.map (fun pcm => pcm.flatMap int16LE) ∧
        List.Forall₂ close ((voicePackets sent).map AudioOutPacket.pcm) heard := by
  induction sent generalizing c decoder with
  | nil => exact ⟨[], rfl, .nil⟩
  | cons packet sent ih =>
    rw [List.forall_mem_cons] at hsent
    rcases hsent.1 with hping | ⟨hvoice, hlength⟩
    · have hskip : voicePackets (packet :: sent) = voicePackets sent := by
        rw [voicePackets, List.map_cons, List.filter_cons_of_neg]
        · rfl
        · rw [hping]
          decide
      obtain ⟨crypt, hplain⟩ := voicePlaintexts_ping (c := c) hping sent
      rw [hskip] at hlt ⊢
      rw [hplain]
      exact ih hsent.2 hstep hlt
    · have hkeep : voicePackets (packet :: sent) = packet.2 :: voicePackets sent := by
        rw [voicePackets, List.map_cons, List.filter_cons_of_pos]
        · rfl
        · exact decide_eq_true hvoice
      rw [hkeep, List.length_cons] at hlt
      obtain ⟨frame, hframe, hresult, hclose, hnext⟩ := pair.encode hstep hlength
      obtain ⟨crypt, hplain⟩ := voicePlaintexts_voice hvoice hframe (by omega) sent
      have hshort := OpusEncoder.length_le _ _ _ _ hframe
      have hread := readVoice_relay fr s (c.encoderSequence + 1) (by omega : frame.length ≤ 0x1FFF)
      obtain ⟨decoded, hdecoded⟩ : ∃ decoded,
          decodeSegments (decoder.getD fresh) ⟨frame, 1, false, []⟩ = decoded := ⟨_, rfl⟩
      have hspeak : (speaker fr).step decoder
          (relay s (voicePlaintext (c.encoderSequence + 1) frame))
          = .returned (some decoded.decoder, decoded.pcm) := by
        simp only [speaker, hfresh, hread, Outcome.unwrap_ok, Outcome.returned_bind,
          Outcome.pure_eq, hdecoded]
      have hpcm : decoded.pcm = _ := hdecoded ▸ decodeSegments_pcm hresult
      have hseq : (c.encoderSequence + 1).toNat = c.encoderSequence.toNat + 1 := by
        rw [UInt64.toNat_add, UInt64.toNat_one, Nat.mod_eq_of_lt (by omega)]
      have hstep' : pair.inStep (OpusEncoder.encodeVec c.opusEncoder packet.2.pcm 4000).2
          ((some decoded.decoder).getD fresh) := hdecoded ▸ hnext
      obtain ⟨heard, htrace, hall⟩ := ih hsent.2
        (c := { c with
          opusEncoder := (OpusEncoder.encodeVec c.opusEncoder packet.2.pcm 4000).2
          encoderSequence := c.encoderSequence + 1
          crypt }) hstep' (by dsimp only; omega)
      refine ⟨_ :: heard, ?_, by rw [hkeep]; exact .cons hclose hall⟩
      rw [hplain, List.map_cons, Machine.trace_cons_of_returned hspeak, List.map_cons,
        List.map_cons, hpcm]
      exact congrArg _ htrace

variable [HashMap M UInt64 Remote] {pb : CodedInputStream} {fr : FailedRead}

/-- **What is said is heard.** Some messages with an even number of bytes are given to `say`, and
its packets go out, among any pings. The speaker's encoder is in step with the decoder that the
listener has for the session `s`, or with a fresh one if it has not heard `s` before. If, among
whatever else happens to the listener, the plaintexts of `s` that arrive are those of the voice
packets with `s` written into them, then the listener passes on one sound for each packet, in order,
and its samples are close to those of the packet; and these are the bytes of the messages, filled up
with silence. -/
theorem heard_of_said (pair : CodecPair E D close) {fresh : D}
    (hfresh : OpusDecoder.new 16000 .mono = .ok fresh) {messages : List Bytes}
    (heven : messages.flatten.length % 2 = 0) {sent : List (A × AudioOutPacket)}
    (hsent : say.drain messages = .returned (voicePackets sent))
    (hpings : ∀ packet ∈ sent, packet.2.type_ ≠ 0b100 → packet.2.type_ = 0b001)
    {speaker listener : AudioPacketCodec E D K M} {s : UInt64}
    (hstep : pair.inStep speaker.opusEncoder
      ((HashMap.get? listener.opusDecoders s).getD fresh))
    (hlt : speaker.encoderSequence.toNat + (voicePackets sent).length < 2 ^ 64)
    {events : List (Event A)}
    (harrive : ((client pb fr).trace listener events).filterMap (spokenBy fr s)
      = (voicePlaintexts speaker sent).map (relay s)) :
    ∃ heard : List (List Int16),
      ((client pb fr).trace listener events).filterMap (pcmOf fr s)
          = heard.map (fun pcm => pcm.flatMap int16LE) ∧
        List.Forall₂ close ((voicePackets sent).map AudioOutPacket.pcm) heard ∧
        packetBytes (voicePackets sent) = messages.flatten ++ List.replicate
          (320 * ((messages.flatten.length + 319) / 320) - messages.flatten.length) 0 := by
  obtain ⟨pending, tail, packets, hfeed, -⟩ := feed_say messages
  obtain ⟨last, hdrain, -, -, hbytes, hsaid⟩ := drain_say hfeed heven
  obtain hpackets := Outcome.returned.inj (hsent.symm.trans hdrain)
  rw [← hpackets] at hbytes hsaid
  have hall : ∀ packet ∈ sent, packet.2.type_ = 0b001 ∨ packet.2.IsSaid := by
    intro packet hpacket
    by_cases hvoice : packet.2.type_ = 0b100
    · refine .inr (hsaid _ (List.mem_filter.mpr ⟨List.mem_map_of_mem hpacket, ?_⟩))
      exact decide_eq_true hvoice
    · exact .inl (hpings packet hpacket hvoice)
  obtain ⟨heard, htrace, hclose⟩ := speaker_trace pair fr s hfresh hall hstep hlt
  refine ⟨heard, ?_, hclose, hbytes⟩
  rw [pcmOf_trace, harrive, htrace]

/-! ### A lossless codec -/

/-- A codec without loss: a frame is the bytes of its samples. -/
structure RawSamples where
  deriving DecidableEq, Repr

/-- The samples of some bytes. -/
def samplesOf : Bytes → List Int16
  | lo :: hi :: rest => int16OfLE lo hi :: samplesOf rest
  | _ => []

theorem int16OfLE_int16LE (x : Int16) :
    int16OfLE x.toUInt16.toUInt8 (x.toUInt16 >>> 8).toUInt8 = x := by
  have hlt := x.toUInt16.toNat_lt
  have hhigh : (x.toUInt16 >>> 8).toUInt8.toNat = x.toUInt16.toNat / 256 := by
    rw [UInt16.toNat_toUInt8, UInt16.toNat_shiftRight, Nat.shiftRight_eq_div_pow,
      show (8 : UInt16).toNat % 16 = 8 from rfl]
    omega
  have hsum : x.toUInt16.toUInt8.toNat + 0x100 * (x.toUInt16 >>> 8).toUInt8.toNat
      = x.toUInt16.toNat := by
    rw [hhigh, UInt16.toNat_toUInt8]
    omega
  rw [int16OfLE, hsum, UInt16.ofNat_toNat, Int16.toInt16_toUInt16]

theorem samplesOf_flatMap (pcm : List Int16) : samplesOf (pcm.flatMap int16LE) = pcm := by
  induction pcm with
  | nil => rfl
  | cons x pcm ih =>
    rw [List.flatMap_cons, int16LE, List.cons_append, List.cons_append, List.nil_append, samplesOf,
      int16OfLE_int16LE, ih]

instance : OpusEncoder RawSamples where
  encodeVec e pcm max := (.ok ((pcm.flatMap int16LE).take max), e)
  length_le _ _ _ frame h := by
    rw [← Except.ok.inj h]
    exact List.length_take_le _ _

instance : OpusDecoder RawSamples where
  new _ _ := .ok ⟨⟩
  decode d input output _ :=
    if (samplesOf input).length ≤ output.length then
      ⟨d, samplesOf input ++ output.drop (samplesOf input).length, .ok (samplesOf input).length⟩
    else ⟨d, output, .error ⟨-2⟩⟩
  new_16000_mono := ⟨⟨⟩, rfl⟩
  length_output _ input output _ := by
    split_ifs with h
    · simp [Nat.add_sub_cancel' h]
    · rfl
  result_le _ input output _ n h := by
    split_ifs at h with hle
    exact Except.ok.inj h ▸ hle

/-- It is always in step, and what comes out is what went in. -/
def rawPair : CodecPair RawSamples RawSamples (· = ·) where
  inStep _ _ := True
  encode {e d pcm} _ hlength := by
    have hframe : (pcm.flatMap int16LE).take 4000 = pcm.flatMap int16LE :=
      List.take_of_length_le (by rw [length_flatMap_int16LE, hlength]; decide)
    have hdecode : OpusDecoder.decode d (pcm.flatMap int16LE) (List.replicate 320 0) false
        = ⟨d, pcm ++ (List.replicate 320 0).drop pcm.length, .ok pcm.length⟩ := by
      simp only [OpusDecoder.decode, samplesOf_flatMap]
      rw [if_pos (by rw [hlength, List.length_replicate]; decide)]
    refine ⟨_, congrArg Except.ok hframe, ?_⟩
    rw [hdecode]
    exact ⟨congrArg _ hlength, (List.take_left' hlength).symm, trivial⟩

/-- The codec of a client that has the lossless codec. -/
def rawCodec (key : Bytes) :
    AudioPacketCodec RawSamples RawSamples TagCrypt (AssocMap UInt64 Remote) :=
  { opusEncoder := ⟨⟩, opusDecoders := HashMap.new, session := Session.initial,
    crypt := CryptState.setKey CryptState.new key [] [], encoderSequence := 0 }

/-- Two samples, cut in the middle of each, are said by the session 5 after a ping, and heard among
a packet of somebody else, exactly as they were. -/
theorem heard_of_said_two :
    let packet := chunkPacket [0x0201, 0x0403]
    let plaintext := relay 5 (voicePlaintext 1 (packet.pcm.flatMap int16LE))
    ∃ heard : List (List Int16),
      ((client wireFormat .stay).trace (rawCodec [1, 2, 3, 4])
          [.datagram () [1, 2, 3, 4, 0x80, 7, 1],
            .datagram () ([1, 2, 3, 4] ++ plaintext)]).filterMap
          (pcmOf .stay 5) = heard.map (fun pcm => pcm.flatMap int16LE) ∧
        List.Forall₂ (· = ·) [packet.pcm] heard := by
  intro packet plaintext
  have hsent : say.drain [[1], [2, 3], [], [4]]
      = .returned (voicePackets [((), ⟨0b001, 0, [], false, 9⟩), ((), packet)]) := by
    decide +kernel
  have harrive : ((client wireFormat .stay).trace (rawCodec [1, 2, 3, 4])
        [.datagram () [1, 2, 3, 4, 0x80, 7, 1], .datagram () ([1, 2, 3, 4] ++ plaintext)]).filterMap
        (spokenBy .stay 5)
      = (voicePlaintexts (rawCodec []) [((), ⟨0b001, 0, [], false, 9⟩), ((), packet)]).map
          (relay 5) := by
    decide +kernel
  obtain ⟨heard, hheard, hequal, -⟩ := heard_of_said rawPair rfl (by decide) hsent (by decide)
    trivial (by decide) harrive
  exact ⟨heard, hheard, hequal⟩

end MumbleBot
