import MumbleBot.OpusDecode

/-!
# `util.rs`: what `opus_decode` makes of a packet

A packet is meant to be a list of segments. On such a packet the loop of `opus_decode` collects the
payloads and stops at the end. A segment that is cut short is counted all the same, and what is
left of it may be read again as headers and payloads.

Whatever the bytes are, each turn of the loop uses up the header it counts, and a payload is
collected at most once.

## Main definitions

* `Segments.decoderCall` — what the opus decoder is called with, and the flag that is returned
* `Segment`, `CompleteSegments` — the segments of a packet, and the bytes of a list of them

## Main results

* `opusDecode_segments` — a list of segments is collected, and nothing else
* `decoderCall_truncated_ne` — a segment that is cut short is never ignored
* `opusSegments_bound` — on any bytes the loop ends, and how much it has collected
* `opusDecode_samples_iff` — when all the samples of a frame come out
-/

namespace MumbleBot

/-! ### The call of the decoder -/

/-- A call of the opus decoder, with its input and its output buffer, and the flag that
`opus_decode` returns beside the samples. -/
structure DecoderCall where
  input : Bytes
  output : List Int16
  done : Bool
  deriving DecidableEq, Repr

/-- The call `opus_decode` makes for what its loop has collected. -/
def Segments.decoderCall (s : Segments) : DecoderCall :=
  ⟨s.opusFrame, List.replicate (320 * s.segments) 0, s.opusDone⟩

/-- `opus_decode` is its loop, the call of the decoder, and the samples it takes from it. -/
theorem opusDecode_eq {D : Type} [OpusDecoder D] (fr : FailedRead) (decoder : D) (rdr : Bytes) :
    opusDecode fr decoder rdr = opusSegments fr rdr >>= fun s =>
      let call := s.decoderCall
      let d := OpusDecoder.decode decoder call.input call.output false
      .returned ((d.pcm, call.done), d.decoder, s.rest) := by
  obtain ⟨s, hs, -⟩ := segmentLoop_returns fr ⟨[], 0, false, rdr⟩
  have hsegments : opusSegments fr rdr = .returned s := hs
  rw [opusDecode_of_segments decoder hsegments, hsegments]
  rfl

/-! ### Complete segments -/

/-- A segment of a packet. -/
structure Segment where
  payload : Bytes
  done : Bool
  deriving DecidableEq, Repr

/-- A segment as a sender writes it. -/
def Segment.bytes (s : Segment) : Bytes :=
  varintBytes (segmentHeader s.payload.length s.done) ++ s.payload

/-- The flag of the last segment, or `done` if there is none. -/
def lastDone (done : Bool) (segments : List Segment) : Bool :=
  ((segments.map Segment.done).getLast?).getD done

@[simp] theorem lastDone_nil (done : Bool) : lastDone done [] = done := rfl

@[simp] theorem lastDone_cons (done : Bool) (s : Segment) (segments : List Segment) :
    lastDone done (s :: segments) = lastDone s.done segments := by
  rw [lastDone, lastDone, List.map_cons, List.getLast?_cons, Option.getD_some]

/-- `CompleteSegments bs segments`: the bytes are these segments, one after another, each behind a
header that says its length and its flag. The header may be any code, with anything in the bits
that are not looked at. -/
inductive CompleteSegments : Bytes → List Segment → Prop where
  | nil : CompleteSegments [] []
  | cons {code payload bs : Bytes} {header : UInt64} {segments : List Segment}
      (hcode : VarintCode code header) (hlen : (header &&& 0x1FFF).toNat = payload.length)
      (h : CompleteSegments bs segments) :
      CompleteSegments (code ++ (payload ++ bs))
        (⟨payload, decide (header &&& 0x2000 = 0x2000)⟩ :: segments)

/-- What a sender writes is complete segments. -/
theorem completeSegments_flatMap {segments : List Segment}
    (h : ∀ s ∈ segments, s.payload.length ≤ 0x1FFF) :
    CompleteSegments (segments.flatMap Segment.bytes) segments := by
  induction segments with
  | nil => exact .nil
  | cons s segments ih =>
    rw [List.forall_mem_cons] at h
    have hcons := CompleteSegments.cons
      (varintCode_varintBytes (segmentHeader s.payload.length s.done))
      (segmentHeader_length s.done h.1) (ih h.2)
    rw [segmentHeader_done s.done h.1] at hcons
    rwa [List.flatMap_cons, Segment.bytes, List.append_assoc]

/-- The loop collects complete segments, whatever follows them. -/
theorem segmentLoop_complete (fr : FailedRead) {bs : Bytes} {segments : List Segment}
    (h : CompleteSegments bs segments) (frame : Bytes) (n : ℕ) (done : Bool) (t : Bytes) :
    (segmentLoop fr).run ⟨frame, n, done, bs ++ t⟩ = (segmentLoop fr).run
      ⟨frame ++ segments.flatMap Segment.payload, n + segments.length, lastDone done segments,
        t⟩ := by
  induction h generalizing frame n done with
  | nil => simp
  | cons hcode hlen _ ih =>
    rw [List.append_assoc, List.append_assoc, segmentLoop_segment fr hcode hlen, ih]
    simp [List.append_assoc, Nat.add_assoc, Nat.add_comm 1]

/-- **A list of segments is collected, and nothing else.** The decoder gets the payloads and a
buffer of 320 samples for each, the flag that is returned is that of the last one, and nothing is
left unread. -/
theorem opusDecode_segments {D : Type} [OpusDecoder D] (fr : FailedRead) (decoder : D)
    {segments : List Segment} (h : ∀ s ∈ segments, s.payload.length ≤ 0x1FFF) :
    opusDecode fr decoder (segments.flatMap Segment.bytes) =
      let d := OpusDecoder.decode decoder (segments.flatMap Segment.payload)
        (List.replicate (320 * segments.length) 0) false
      .returned ((d.pcm, lastDone false segments), d.decoder, []) := by
  have hloop := segmentLoop_complete fr (completeSegments_flatMap h) [] 0 false []
  rw [List.append_nil, List.nil_append, Nat.zero_add, segmentLoop_nil] at hloop
  exact opusDecode_of_segments decoder hloop

/-- Two segments, the second one closed: the payload that looks like a header is not taken for
one. -/
theorem opusDecode_segments_two :
    opusDecode .stay (⟨0⟩ : FrameCounter) [2, 1, 9, 0xA0, 1, 7] =
      let d := OpusDecoder.decode (⟨0⟩ : FrameCounter) [1, 9, 7] (List.replicate (320 * 2) 0) false
      .returned ((d.pcm, true), d.decoder, []) := by
  have hshort : ∀ s ∈ ([⟨[1, 9], false⟩, ⟨[7], true⟩] : List Segment),
      s.payload.length ≤ 0x1FFF := by decide
  have hdecode := opusDecode_segments .stay (⟨0⟩ : FrameCounter) hshort
  exact hdecode

/-! ### Any bytes -/

/-- One turn charges what it collects and the segment it counts to the bytes it reads. -/
theorem segmentBody_bound {fr : FailedRead} {s s' : Segments} {opusHeader : UInt64} {rest : Bytes}
    (h : segmentBody fr s opusHeader rest = .returned s') :
    s'.opusFrame.length + s'.segments + s'.rest.length
      ≤ s.opusFrame.length + s.segments + (rest.length + 1) := by
  rcases Nat.lt_or_ge rest.length (opusHeader &&& 0x1FFF).toNat with hlen | hlen
  · rw [segmentBody_of_lt hlen] at h
    obtain rfl := Outcome.returned.inj h
    simp only [List.length_drop]
    omega
  · rw [segmentBody_of_le hlen] at h
    obtain rfl := Outcome.returned.inj h
    simp only [List.length_append, List.length_take, List.length_drop]
    omega

/-- **The loop ends on any bytes**, without a panic, and every byte pays for at most one of the
bytes collected or one of the segments counted. -/
theorem opusSegments_bound (fr : FailedRead) (rdr : Bytes) :
    ∃ s, opusSegments fr rdr = .returned s ∧
      s.opusFrame.length + s.segments ≤ rdr.length ∧
      s.decoderCall.output.length ≤ 320 * rdr.length := by
  have hturn : ∀ s : Segments, s.opusFrame.length + s.segments + s.rest.length ≤ rdr.length →
      (∃ s', (segmentLoop fr).body s = .returned (.continue_ s') ∧
        s'.opusFrame.length + s'.segments + s'.rest.length ≤ rdr.length) ∨
      ∃ s', (segmentLoop fr).body s = .returned (.break_ s') ∧
        s'.opusFrame.length + s'.segments ≤ rdr.length := by
    intro s hI
    rcases segmentTurn_cases fr s with ⟨v, t, s', hread, hbody, -, hturn⟩ | ⟨-, hturn⟩
    · have hlt := length_lt_of_readVarint hread
      have hle := segmentBody_bound hbody
      exact .inl ⟨s', hturn, by omega⟩
    · exact .inr ⟨_, hturn, Nat.le_trans (Nat.le_add_right _ _) hI⟩
  obtain ⟨s, hs, hbound⟩ := (segmentLoop fr).run_spec hturn (s := ⟨[], 0, false, rdr⟩) (by simp)
  refine ⟨s, hs, hbound, ?_⟩
  rw [Segments.decoderCall, List.length_replicate]
  omega

/-! ### A segment that is cut short -/

/-- The loop never counts down, and what it has collected stays. -/
theorem segmentLoop_mono (fr : FailedRead) (s : Segments) :
    ∃ s', (segmentLoop fr).run s = .returned s' ∧ s.segments ≤ s'.segments ∧
      s.opusFrame <+: s'.opusFrame := by
  refine (segmentLoop fr).run_spec
    (I := fun s' => s.segments ≤ s'.segments ∧ s.opusFrame <+: s'.opusFrame)
    (fun s₁ hI => ?_) ⟨Nat.le_refl _, List.prefix_refl _⟩
  rcases segmentTurn_cases fr s₁ with ⟨v, t, s', -, hbody, -, hturn⟩ | ⟨-, hturn⟩
  · refine .inl ⟨s', hturn, ?_⟩
    rcases Nat.lt_or_ge t.length (v &&& 0x1FFF).toNat with hlen | hlen
    · rw [segmentBody_of_lt hlen] at hbody
      obtain rfl := Outcome.returned.inj hbody
      exact ⟨Nat.le_succ_of_le hI.1, hI.2⟩
    · rw [segmentBody_of_le hlen] at hbody
      obtain rfl := Outcome.returned.inj hbody
      exact ⟨Nat.le_succ_of_le hI.1, hI.2.trans (List.prefix_append _ _)⟩
  · exact .inr ⟨_, hturn, hI⟩

/-- Behind complete segments, a segment that is cut short is one more turn of the loop, which goes
on wherever the failed read has left the cursor. -/
theorem opusSegments_truncated (fr : FailedRead) {bs code rest : Bytes} {segments : List Segment}
    {header : UInt64} (hbs : CompleteSegments bs segments) (hcode : VarintCode code header)
    (hlt : rest.length < (header &&& 0x1FFF).toNat) :
    opusSegments fr (bs ++ (code ++ rest)) = (segmentLoop fr).run
      ⟨segments.flatMap Segment.payload, segments.length + 1,
        decide (header &&& 0x2000 = 0x2000),
        rest.drop (fr.consumed rest (header &&& 0x1FFF).toNat)⟩ := by
  rw [opusSegments, segmentLoop_complete fr hbs [] 0 false, List.nil_append, Nat.zero_add]
  refine Loop.run_of_continue _ ?_
  simp only [segmentLoop, segmentTurn, readVarint_of_code hcode, segmentBody_of_lt hlt]
  rfl

/-- **A segment that is cut short is never ignored.** It is counted, so the buffer for the samples
is never that of the complete segments alone. -/
theorem decoderCall_truncated_ne (fr : FailedRead) {bs code rest : Bytes}
    {segments : List Segment} {header : UInt64} (hbs : CompleteSegments bs segments)
    (hcode : VarintCode code header) (hlt : rest.length < (header &&& 0x1FFF).toNat) :
    Segments.decoderCall <$> opusSegments fr (bs ++ (code ++ rest)) ≠ .returned
      ⟨segments.flatMap Segment.payload, List.replicate (320 * segments.length) 0,
        lastDone false segments⟩ := by
  obtain ⟨s, hs, hle, -⟩ := segmentLoop_mono fr
    ⟨segments.flatMap Segment.payload, segments.length + 1, decide (header &&& 0x2000 = 0x2000),
      rest.drop (fr.consumed rest (header &&& 0x1FFF).toNat)⟩
  rw [opusSegments_truncated fr hbs hcode hlt, hs, Outcome.map_returned]
  intro heq
  have houtput := congrArg DecoderCall.output (Outcome.returned.inj heq)
  have hlength := congrArg List.length houtput
  simp only [Segments.decoderCall, List.length_replicate] at hlength hle
  omega

/-- One segment, and another one that announces 32 bytes and has two of them. -/
theorem decoderCall_truncated_ne_two :
    Segments.decoderCall <$> opusSegments .drain ([1, 9] ++ ([0xA0, 32] ++ [2, 7])) ≠ .returned
      ⟨[9], List.replicate 320 0, false⟩ := by
  have hcode : VarintCode [1] 1 := varintCode_varintBytes 1
  have hcode' : VarintCode [0xA0, 32] 0x2020 := varintCode_varintBytes 0x2020
  have hsegments : CompleteSegments ([1] ++ ([9] ++ [])) [⟨[9], false⟩] := .cons hcode rfl .nil
  exact decoderCall_truncated_ne .drain hsegments hcode' (by decide)

/-- The same bytes, wherever the failed read leaves the cursor: the segment that is cut short
closes the packet and is given 320 samples, and if the cursor has not moved, what there is of its
payload is read as a header. -/
theorem decoderCall_truncated :
    Segments.decoderCall <$> opusSegments .drain [1, 9, 0xA0, 32, 2, 7]
        = .returned ⟨[9], List.replicate (320 * 2) 0, true⟩ ∧
      Segments.decoderCall <$> opusSegments .stay [1, 9, 0xA0, 32, 2, 7]
        = .returned ⟨[9], List.replicate (320 * 4) 0, false⟩ ∧
      Segments.decoderCall <$> opusSegments .stay [1, 9, 0xA0, 32, 1, 7]
        = .returned ⟨[9, 7], List.replicate (320 * 3) 0, false⟩ :=
  ⟨rfl, rfl, rfl⟩

/-! ### The samples of a frame -/

/-- **When all the samples of a frame come out.** For a voice packet of one complete segment, and a
decoder that has `samples` for its frame and refuses a buffer that is too small for them, all of
them are returned exactly when there are at most 320. -/
theorem opusDecode_samples_iff {D : Type} [OpusDecoder D] (fr : FailedRead) (decoder : D)
    {code frame : Bytes} {header : UInt64} {samples : List Int16} (hcode : VarintCode code header)
    (hlen : (header &&& 0x1FFF).toNat = frame.length)
    (hfits : ∀ output : List Int16, samples.length ≤ output.length →
      (OpusDecoder.decode decoder frame output false).result = .ok samples.length ∧
      (OpusDecoder.decode decoder frame output false).output.take samples.length = samples)
    (hshort : ∀ output : List Int16, output.length < samples.length →
      ∃ e, (OpusDecoder.decode decoder frame output false).result = .error e) :
    (samples.flatMap int16LE).length = 2 * samples.length ∧
      ((∃ done decoder' rest, opusDecode fr decoder (code ++ frame)
          = .returned ((samples.flatMap int16LE, done), decoder', rest)) ↔
        samples.length ≤ 320) := by
  refine ⟨length_flatMap_int16LE samples, ?_⟩
  have hdecode := opusDecode_of_segments decoder (opusSegments_segment fr hcode hlen)
  rw [hdecode]
  rcases Nat.lt_or_ge 320 samples.length with hlong | hle
  · obtain ⟨e, he⟩ := hshort (List.replicate (320 * 1) 0) (by rwa [List.length_replicate])
    have hpcm : ∀ done rest, (decodeSegments decoder ⟨frame, 1, done, rest⟩).pcm = [] := by
      intro done rest
      rw [Decoded.pcm, Decoded.size, decodeSegments, he]
      rfl
    refine iff_of_false ?_ (Nat.not_le.mpr hlong)
    rintro ⟨done, decoder', rest, heq⟩
    have hnil : [] = samples.flatMap int16LE :=
      (hpcm _ _).symm.trans (congrArg (fun r => r.1.1) (Outcome.returned.inj heq))
    have hlength := length_flatMap_int16LE samples
    rw [← hnil, List.length_nil] at hlength
    omega
  · obtain ⟨hresult, htake⟩ := hfits (List.replicate (320 * 1) 0) (by rwa [List.length_replicate])
    have hpcm : ∀ done rest, (decodeSegments decoder ⟨frame, 1, done, rest⟩).pcm
        = samples.flatMap int16LE := by
      intro done rest
      rw [Decoded.pcm, Decoded.size, decodeSegments, hresult, htake]
    exact iff_of_true ⟨_, _, _, by rw [hpcm]⟩ hle

/-- A frame of 20 ms. -/
theorem opusDecode_samples_iff_20ms :
    ∃ done decoder' rest, opusDecode .stay (⟨⟩ : Silence) ([1] ++ [0x08])
      = .returned (((List.replicate 320 0).flatMap int16LE, done), decoder', rest) := by
  have hlength : (List.replicate 320 (0 : Int16)).length = tocSamples [0x08] :=
    List.length_replicate
  have hcode : VarintCode [1] 1 := varintCode_varintBytes 1
  have hlen : ((1 : UInt64) &&& 0x1FFF).toNat = ([0x08] : Bytes).length := rfl
  refine (opusDecode_samples_iff .stay (⟨⟩ : Silence) hcode hlen (fun output h => ?_)
    (fun output h => ?_)).2.mpr (Nat.le_of_eq hlength)
  · rw [hlength] at h ⊢
    rw [Silence.decode_of_le _ _ h]
    exact ⟨rfl, List.take_left' (List.length_replicate ..)⟩
  · rw [hlength] at h
    exact ⟨⟨-2⟩, by rw [Silence.decode_of_lt _ _ h]⟩

/-- A frame of 60 ms: the decoder has 960 samples for it, and none of them is returned. -/
theorem opusDecode_drops_60ms :
    (OpusDecoder.decode (⟨⟩ : Silence) [0x18] (List.replicate 960 0) false).result = .ok 960 ∧
      opusDecode .stay (⟨⟩ : Silence) [1, 0x18] = .returned (([], false), ⟨⟩, []) := by
  have hfits : tocSamples [0x18] ≤ (List.replicate 960 (0 : Int16)).length :=
    Nat.le_of_eq (List.length_replicate ..).symm
  have hsegments : opusSegments .stay [1, 0x18] = .returned ⟨[0x18], 1, false, []⟩ := rfl
  have hshort : decodeSegments (⟨⟩ : Silence) ⟨[0x18], 1, false, []⟩
      = ⟨⟨⟩, List.replicate (320 * 1) 0, .error ⟨-2⟩⟩ :=
    Silence.decode_of_lt _ _ (by rw [List.length_replicate]; decide)
  refine ⟨by rw [Silence.decode_of_le _ _ hfits]; rfl, ?_⟩
  rw [opusDecode_of_segments _ hsegments, hshort]
  rfl

end MumbleBot
