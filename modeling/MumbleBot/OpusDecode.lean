import MumbleBot.VarintWriter
import MumbleBot.External
import MumbleBot.Base.Loop

/-!
# `util.rs`: the segments of a voice packet

`opus_decode` reads segments until no header can be read: each is a varint with a length in its
low thirteen bits and the terminator flag above them, followed by that many bytes. There is no
count, and a payload that is cut short is only reported: the loop goes round again from wherever
the failed read left the cursor.

The bytes left measure the loop, since every header is at least one byte.

## Main definitions

* `Segments`, `segmentTurn`, `segmentLoop` — the loop and its variables
* `opusSegments`, `opusDecode` — `opus_decode`
* `segmentHeader` — the header a writer puts before a payload

## Main results

* `segmentTurn_cases` — what one turn can do
* `returns_opusDecode` — `opus_decode` does not panic
* `segmentLoop_segment` — a complete segment is one turn
-/

namespace MumbleBot

/-! ### The loop -/

/-- The variables of the loop: `opus_frame`, `segments`, `opus_done` and the cursor. -/
structure Segments where
  opusFrame : Bytes
  segments : ℕ
  opusDone : Bool
  rest : Bytes
  deriving DecidableEq, Repr

/-- The body of the loop, after `opus_header` has been read and `rest` is left. -/
def segmentBody (fr : FailedRead) (s : Segments) (opusHeader : UInt64) (rest : Bytes) :
    Outcome Segments :=
  let opusDone := decide (opusHeader &&& 0x2000 = 0x2000)
  let opusLength := opusHeader &&& 0x1FFF
  match readExact fr opusLength.toNat rest with
  | .ok segment rest => .returned ⟨s.opusFrame ++ segment, s.segments + 1, opusDone, rest⟩
  -- the error is printed, and the loop goes on
  | .err _ rest => .returned ⟨s.opusFrame, s.segments + 1, opusDone, rest⟩
  | .panic => .panicked

/-- A complete payload is collected. -/
theorem segmentBody_of_le {fr : FailedRead} {s : Segments} {opusHeader : UInt64} {rest : Bytes}
    (h : (opusHeader &&& 0x1FFF).toNat ≤ rest.length) :
    segmentBody fr s opusHeader rest = .returned
      ⟨s.opusFrame ++ rest.take (opusHeader &&& 0x1FFF).toNat, s.segments + 1,
        decide (opusHeader &&& 0x2000 = 0x2000), rest.drop (opusHeader &&& 0x1FFF).toNat⟩ := by
  simp only [segmentBody, readExact, if_pos h]

/-- A payload that is cut short counts as a segment, and the cursor is wherever the failed read
left it. -/
theorem segmentBody_of_lt {fr : FailedRead} {s : Segments} {opusHeader : UInt64} {rest : Bytes}
    (h : rest.length < (opusHeader &&& 0x1FFF).toNat) :
    segmentBody fr s opusHeader rest = .returned
      ⟨s.opusFrame, s.segments + 1, decide (opusHeader &&& 0x2000 = 0x2000),
        rest.drop (fr.consumed rest (opusHeader &&& 0x1FFF).toNat)⟩ := by
  simp only [segmentBody, readExact, if_neg (Nat.not_le.mpr h)]

theorem segmentBody_returns (fr : FailedRead) (s : Segments) (opusHeader : UInt64)
    (rest : Bytes) :
    ∃ s', segmentBody fr s opusHeader rest = .returned s' ∧ s'.rest.length ≤ rest.length := by
  rcases Nat.lt_or_ge rest.length (opusHeader &&& 0x1FFF).toNat with h | h
  · exact ⟨_, segmentBody_of_lt h, by simp⟩
  · exact ⟨_, segmentBody_of_le h, by simp⟩

/-- One turn of `while let Ok(opus_header) = rdr.read_varint()`. -/
def segmentTurn (fr : FailedRead) (s : Segments) : Outcome (Turn Segments Segments) :=
  match readVarint s.rest with
  | .ok opusHeader rest => do
    let s ← segmentBody fr s opusHeader rest
    return .continue_ s
  | .err _ rest => return .break_ { s with rest }
  | .panic => .panicked

/-- A turn either takes a header off the buffer, or ends the loop with nothing left. -/
theorem segmentTurn_cases (fr : FailedRead) (s : Segments) :
    (∃ v t s', readVarint s.rest = .ok v t ∧ segmentBody fr s v t = .returned s' ∧
      s'.rest.length < s.rest.length ∧ segmentTurn fr s = .returned (.continue_ s')) ∨
    readVarint s.rest = .err .unexpectedEof [] ∧
      segmentTurn fr s = .returned (.break_ { s with rest := [] }) := by
  rcases readVarint_cases s.rest with ⟨_, v, t, -, -, hread⟩ | hread
  · obtain ⟨s', hs', hle⟩ := segmentBody_returns fr s v t
    have hlt := length_lt_of_readVarint hread
    refine .inl ⟨v, t, s', hread, hs', Nat.lt_of_le_of_lt hle hlt, ?_⟩
    simp [segmentTurn, hread, hs']
  · exact .inr ⟨hread, by simp [segmentTurn, hread]⟩

/-- The loop of `opus_decode`. -/
def segmentLoop (fr : FailedRead) : Loop Segments Segments where
  body := segmentTurn fr
  left s := s.rest.length
  left_lt s s' h := by
    rcases segmentTurn_cases fr s with ⟨_, _, s₁, -, -, hlt, hs₁⟩ | ⟨-, hs₁⟩
    · obtain rfl : s₁ = s' := by simpa [hs₁] using h
      exact hlt
    · simp [hs₁] at h

/-- The loop on what is left in the cursor. -/
def opusSegments (fr : FailedRead) (rdr : Bytes) : Outcome Segments :=
  (segmentLoop fr).run ⟨[], 0, false, rdr⟩

/-! ### The samples -/

/-- `write_i16::<LittleEndian>`. -/
def int16LE (x : Int16) : Bytes := [x.toUInt16.toUInt8, (x.toUInt16 >>> 8).toUInt8]

/-- A sample is two bytes. -/
theorem length_flatMap_int16LE (samples : List Int16) :
    (samples.flatMap int16LE).length = 2 * samples.length := by
  induction samples with
  | nil => rfl
  | cons x samples ih =>
    rw [List.flatMap_cons, List.length_append, ih, List.length_cons, int16LE, List.length_cons,
      List.length_singleton]
    omega

/-- `for s in 0..size`: the samples at the given indices, written to `pcm_data`. -/
def writeSamples (samplePcm : List Int16) (pcmData : Bytes) : List ℕ → Outcome Bytes
  | [] => .returned pcmData
  | s :: ss => do
    let x ← Outcome.get samplePcm[s]?
    writeSamples samplePcm (pcmData ++ int16LE x) ss

/-- `util::opus_decode`: the PCM bytes and the terminator flag, with the decoder and the cursor
as the call leaves them. -/
def opusDecode {D : Type} [OpusDecoder D] (fr : FailedRead) (decoder : D) (rdr : Bytes) :
    Outcome ((Bytes × Bool) × D × Bytes) := do
  let s ← opusSegments fr rdr
  let samplePcm : List Int16 := List.replicate (320 * s.segments) 0
  let d := OpusDecoder.decode decoder s.opusFrame samplePcm false
  let size :=
    match d.result with
    | .ok size => size
    | .error _ => 0
  let pcmData ← writeSamples d.output [] (List.range size)
  return ((pcmData, s.opusDone), d.decoder, s.rest)

/-- The loop ends without a panic, and it leaves nothing unread: only the end of the buffer
stops it. -/
theorem segmentLoop_returns (fr : FailedRead) (s : Segments) :
    ∃ s', (segmentLoop fr).run s = .returned s' ∧ s'.rest = [] := by
  refine (segmentLoop fr).run_spec (I := fun _ => True) (fun s _ => ?_) trivial
  rcases segmentTurn_cases fr s with ⟨_, _, s', -, -, -, hs'⟩ | ⟨-, hs'⟩
  · exact .inl ⟨s', hs', trivial⟩
  · exact .inr ⟨_, hs', rfl⟩

-- A payload of two bytes of which one is missing: what is left of it may be read as a header.
example : opusSegments .drain [2, 7] = .returned ⟨[], 1, false, []⟩ := by decide

example : opusSegments .stay [2, 7] = .returned ⟨[], 2, false, []⟩ := by decide

/-! ### What is returned -/

/-- The number of samples the client takes from a call of the decoder: none if it failed. -/
def Decoded.size {D : Type} (d : Decoded D) : ℕ :=
  match d.result with
  | .ok size => size
  | .error _ => 0

/-- The bytes of these samples. -/
def Decoded.pcm {D : Type} (d : Decoded D) : Bytes := (d.output.take d.size).flatMap int16LE

theorem writeSamples_range' (samplePcm : List Int16) (pcmData : Bytes) (k n : ℕ)
    (h : k + n ≤ samplePcm.length) :
    writeSamples samplePcm pcmData (List.range' k n)
      = .returned (pcmData ++ ((samplePcm.drop k).take n).flatMap int16LE) := by
  induction n generalizing k pcmData with
  | zero => simp [writeSamples]
  | succ n ih =>
    have hk : k < samplePcm.length := by omega
    rw [List.range'_succ, writeSamples, List.getElem?_eq_getElem hk, Outcome.get_some,
      Outcome.returned_bind, ih _ _ (by omega), List.drop_eq_getElem_cons hk,
      List.take_succ_cons, List.flatMap_cons, List.append_assoc]

/-- The call of the decoder that `opus_decode` makes for the segments it has collected. -/
def decodeSegments {D : Type} [OpusDecoder D] (decoder : D) (s : Segments) : Decoded D :=
  OpusDecoder.decode decoder s.opusFrame (List.replicate (320 * s.segments) 0) false

/-- What `opus_decode` returns, in terms of what its loop has collected: the indices of its
second loop stay below the number of samples the decoder reported. -/
theorem opusDecode_of_segments {D : Type} [OpusDecoder D] {fr : FailedRead} (decoder : D)
    {rdr : Bytes} {s : Segments} (h : opusSegments fr rdr = .returned s) :
    opusDecode fr decoder rdr = .returned (((decodeSegments decoder s).pcm, s.opusDone),
      (decodeSegments decoder s).decoder, s.rest) := by
  have hle : (decodeSegments decoder s).size ≤ (decodeSegments decoder s).output.length := by
    rw [Decoded.size, decodeSegments, OpusDecoder.length_output]
    cases hr : (OpusDecoder.decode decoder s.opusFrame
        (List.replicate (320 * s.segments) 0) false).result with
    | error e => exact Nat.zero_le _
    | ok size => exact OpusDecoder.result_le _ _ _ _ _ hr
  have hpcm := writeSamples_range' (decodeSegments decoder s).output [] 0 _
    (by simpa using hle)
  rw [opusDecode, h, Outcome.returned_bind]
  simp only [← List.range_eq_range', List.drop_zero, List.nil_append] at hpcm
  exact congrArg (· >>= fun pcm => .returned ((pcm, s.opusDone),
    (decodeSegments decoder s).decoder, s.rest)) hpcm

/-- `opus_decode` does not panic on any cursor. -/
theorem returns_opusDecode {D : Type} [OpusDecoder D] (fr : FailedRead) (decoder : D)
    (rdr : Bytes) : (opusDecode fr decoder rdr).Returns := by
  obtain ⟨s, hs, -⟩ := segmentLoop_returns fr ⟨[], 0, false, rdr⟩
  exact ⟨_, opusDecode_of_segments decoder hs⟩

/-! ### Complete segments -/

/-- The header of a payload of `len` bytes: the length, with the terminator flag above it. -/
def segmentHeader (len : ℕ) (done : Bool) : UInt64 :=
  if done then UInt64.ofNat len ||| 0x2000 else UInt64.ofNat len

theorem toNat_segmentHeader {len : ℕ} (done : Bool) (h : len ≤ 0x1FFF) :
    (segmentHeader len done).toNat = if done then 2 ^ 13 + len else len := by
  have hlen : (UInt64.ofNat len).toNat = len := by rw [UInt64.toNat_ofNat']; omega
  cases done with
  | false => simpa [segmentHeader] using hlen
  | true =>
    rw [segmentHeader, if_pos rfl, if_pos rfl, UInt64.or_comm,
      toNat_or_of_dvd 13 (by decide) (by omega), hlen]
    rfl

/-- The length is read back whatever the flag. -/
theorem segmentHeader_length {len : ℕ} (done : Bool) (h : len ≤ 0x1FFF) :
    (segmentHeader len done &&& 0x1FFF).toNat = len := by
  rw [UInt64.toNat_and, toNat_segmentHeader done h,
    show (0x1FFF : UInt64).toNat = 2 ^ 13 - 1 from rfl, Nat.and_two_pow_sub_one_eq_mod]
  split_ifs
  · rw [Nat.add_mod_left, Nat.mod_eq_of_lt (by omega)]
  · exact Nat.mod_eq_of_lt (by omega)

/-- The flag is read back whatever the length. -/
theorem segmentHeader_done {len : ℕ} (done : Bool) (h : len ≤ 0x1FFF) :
    decide (segmentHeader len done &&& 0x2000 = 0x2000) = done := by
  have hlow : len.testBit 13 = false := Nat.testBit_lt_two_pow (by omega)
  have hbit : (segmentHeader len done).toNat.testBit 13 = done := by
    rw [toNat_segmentHeader done h]
    cases done with
    | false => simpa using hlow
    | true => rw [if_pos rfl, Nat.testBit_two_pow_add_eq, hlow]; rfl
  have hand : (segmentHeader len done &&& 0x2000).toNat = done.toNat * 2 ^ 13 := by
    rw [UInt64.toNat_and, show (0x2000 : UInt64).toNat = 2 ^ 13 from rfl, Nat.and_two_pow, hbit]
  simp only [← UInt64.toNat_inj, hand]
  cases done <;> decide

/-- Nothing left to read is the end of the loop. -/
theorem segmentLoop_nil (fr : FailedRead) (frame : Bytes) (n : ℕ) (done : Bool) :
    (segmentLoop fr).run ⟨frame, n, done, []⟩ = .returned ⟨frame, n, done, []⟩ := rfl

/-- **A complete segment is one turn**, whatever code its header is written in. Its payload is
collected, its flag is the last one seen, and the loop goes on after it. -/
theorem segmentLoop_segment (fr : FailedRead) {code payload : Bytes} {header : UInt64}
    (hcode : VarintCode code header) (hlen : (header &&& 0x1FFF).toNat = payload.length)
    (frame : Bytes) (n : ℕ) (done : Bool) (t : Bytes) :
    (segmentLoop fr).run ⟨frame, n, done, code ++ (payload ++ t)⟩ = (segmentLoop fr).run
      ⟨frame ++ payload, n + 1, decide (header &&& 0x2000 = 0x2000), t⟩ := by
  refine Loop.run_of_continue _ ?_
  simp only [segmentLoop, segmentTurn, readVarint_of_code hcode]
  rw [segmentBody_of_le (by rw [hlen]; simp), hlen]
  simp

/-- One complete segment is all the loop takes, if there is nothing behind it. -/
theorem opusSegments_segment (fr : FailedRead) {code payload : Bytes} {header : UInt64}
    (hcode : VarintCode code header) (hlen : (header &&& 0x1FFF).toNat = payload.length) :
    opusSegments fr (code ++ payload)
      = .returned ⟨payload, 1, decide (header &&& 0x2000 = 0x2000), []⟩ := by
  have hturn := segmentLoop_segment fr hcode hlen [] 0 false []
  rwa [segmentLoop_nil, List.append_nil] at hturn

end MumbleBot
