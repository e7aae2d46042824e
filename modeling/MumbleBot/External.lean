import MumbleBot.Base.Reader

/-!
# The crates the client is built on

The opus codec, the OCB-AES128 state and GStreamer come from crates that are not part of the
repository. Each is an interface: the operations the client calls, with what the client relies on
stated as fields. Results about the client hold for every implementation of these interfaces.

The first two write into buffers they are handed, so a call returns the buffer as it left it.
Nothing is promised about what a failed `decrypt` leaves there.

The stand-ins at the end implement the interfaces in the simplest way, so that the model can be
run.

## Main definitions

* `OpusDecoder`, `OpusEncoder` — `opus::Decoder`, `opus::Encoder`
* `CryptState` — `ocbaes128::CryptState`
* `AppSrc` — `gst_app::AppSrc`
* `FrameCounter`, `Silence`, `PcmBytes`, `TagCrypt`, `Played` — stand-ins
-/

namespace MumbleBot

/-! ### Opus -/

/-- The errors of the opus crate, by their code. -/
structure OpusError where
  code : Int
  deriving DecidableEq, Repr

/-- `opus::Channels`. -/
inductive Channels where
  | mono
  | stereo
  deriving DecidableEq, Repr

/-- What a call of `opus::Decoder::decode` leaves: the decoder, the sample buffer, and the
number of samples or an error. -/
structure Decoded (D : Type) where
  decoder : D
  output : List Int16
  result : Except OpusError ℕ

/-- `opus::Decoder`, a deterministic state machine. -/
class OpusDecoder (D : Type) where
  /-- `Decoder::new(sample_rate, channels)`. -/
  new : UInt32 → Channels → Except OpusError D
  /-- `decode(input, output, fec)`. -/
  decode : D → Bytes → List Int16 → Bool → Decoded D
  /-- The arguments the client uses are valid ones. -/
  new_16000_mono : ∃ d, new 16000 .mono = .ok d
  length_output : ∀ d input output fec, (decode d input output fec).output.length = output.length
  /-- No more samples are reported than there is room for. -/
  result_le : ∀ d input output fec n, (decode d input output fec).result = .ok n → n ≤ output.length

/-- `opus::Encoder`. -/
class OpusEncoder (E : Type) where
  /-- `encode_vec(input, max_size)`. -/
  encodeVec : E → List Int16 → ℕ → Except OpusError Bytes × E
  length_le : ∀ e pcm max frame, (encodeVec e pcm max).1 = .ok frame → frame.length ≤ max

/-! ### OCB-AES128 -/

/-- What a call of `CryptState::decrypt` leaves: whether the datagram was authentic, the
plaintext buffer, and the state. -/
structure Decrypted (K : Type) where
  success : Bool
  buffer : Bytes
  state : K

/-- `ocbaes128::CryptState`. -/
class CryptState (K : Type) where
  /-- `CryptState::new()`, without a key. -/
  new : K
  isValid : K → Bool
  /-- `decrypt(source, dst)`. -/
  decrypt : K → Bytes → Bytes → Decrypted K
  /-- `encrypt(source, dst)`. -/
  encrypt : K → Bytes → Bytes → Bytes × K
  /-- `set_key(key, client_nonce, server_nonce)`. -/
  setKey : K → Bytes → Bytes → Bytes → K
  key : K → Bytes
  clientNonce : K → Bytes
  serverNonce : K → Bytes
  length_decrypt : ∀ k source dst, (decrypt k source dst).buffer.length = dst.length
  key_setKey : ∀ k a b c, key (setKey k a b c) = a
  clientNonce_setKey : ∀ k a b c, clientNonce (setKey k a b c) = b
  serverNonce_setKey : ∀ k a b c, serverNonce (setKey k a b c) = c

attribute [simp] OpusDecoder.length_output CryptState.length_decrypt CryptState.key_setKey
  CryptState.clientNonce_setKey CryptState.serverNonce_setKey

/-! ### GStreamer -/

/-- `gst::FlowReturn`, as far as it is told apart. -/
inductive FlowReturn where
  | ok
  | failed
  deriving DecidableEq, Repr

/-- `gst_app::AppSrc`, with the elements it is linked to. -/
class AppSrc (S : Type) where
  new : S
  /-- `push_buffer(buffer)`. -/
  pushBuffer : S → Bytes → FlowReturn × S
  /-- `end_of_stream()`. -/
  endOfStream : S → S

/-! ### Stand-ins -/

/-- A decoder whose state is the number of frames it has decoded, and whose samples are that
number. Like the real one it refuses an empty output buffer. -/
structure FrameCounter where
  frames : ℕ
  deriving DecidableEq, Repr

instance : OpusDecoder FrameCounter where
  new _ _ := .ok ⟨0⟩
  decode d _ output _ :=
    ⟨⟨d.frames + 1⟩, output.map fun _ => Int16.ofNat (d.frames + 1),
      if output = [] then .error ⟨-1⟩ else .ok output.length⟩
  new_16000_mono := ⟨⟨0⟩, rfl⟩
  length_output _ _ _ _ := by simp
  result_le _ _ output _ n h := by
    split at h
    · cases h
    · exact Nat.le_of_eq (Except.ok.inj h).symm

/-- The samples of an opus frame at 16 kHz, from the two bytes at its front that say how many
frames of which duration are packed into it. -/
def tocSamples : Bytes → ℕ
  | [] => 0
  | toc :: rest =>
    let size := ((toc >>> 3) &&& 0b11).toNat
    let samplesPerFrame :=
      if toc &&& 0x80 ≠ 0 then 40 * 2 ^ size
      else if toc &&& 0x60 = 0x60 then (if toc &&& 0x08 ≠ 0 then 320 else 160)
      else if size = 3 then 960 else 160 * 2 ^ size
    match (toc &&& 0b11).toNat with
    | 0 => samplesPerFrame
    | 3 => ((rest.headD 0) &&& 0x3F).toNat * samplesPerFrame
    | _ => 2 * samplesPerFrame

/-- A decoder of silence. Like the real one it produces as many samples as the frame says, and
refuses an output buffer that is too small for them. -/
structure Silence where
  deriving DecidableEq, Repr

instance : OpusDecoder Silence where
  new _ _ := .ok ⟨⟩
  decode d input output _ :=
    if tocSamples input ≤ output.length then
      ⟨d, List.replicate (tocSamples input) 0 ++ output.drop (tocSamples input),
        .ok (tocSamples input)⟩
    else ⟨d, output, .error ⟨-2⟩⟩
  new_16000_mono := ⟨⟨⟩, rfl⟩
  length_output _ input output _ := by
    split_ifs with h
    · simp [Nat.add_sub_cancel' h]
    · rfl
  result_le _ input output _ n h := by
    split_ifs at h with hle
    exact Except.ok.inj h ▸ hle

/-- A buffer with enough room is filled from the front. -/
theorem Silence.decode_of_le (d : Silence) {input : Bytes} {output : List Int16} (fec : Bool)
    (h : tocSamples input ≤ output.length) : OpusDecoder.decode d input output fec =
      ⟨d, List.replicate (tocSamples input) 0 ++ output.drop (tocSamples input),
        .ok (tocSamples input)⟩ := if_pos h

theorem Silence.decode_of_lt (d : Silence) {input : Bytes} {output : List Int16} (fec : Bool)
    (h : output.length < tocSamples input) :
    OpusDecoder.decode d input output fec = ⟨d, output, .error ⟨-2⟩⟩ := if_neg (Nat.not_le.mpr h)

/-- An encoder that keeps the low byte of each sample. -/
structure PcmBytes where
  deriving DecidableEq, Repr

instance : OpusEncoder PcmBytes where
  encodeVec e pcm max := (.ok ((pcm.map fun x => x.toUInt16.toUInt8).take max), e)
  length_le _ _ _ frame h := by
    rw [← Except.ok.inj h]
    exact List.length_take_le _ _

/-- A cipher that leaves the plaintext as it is and puts the first four bytes of the key before
it as the tag. Decryption writes the plaintext before it has compared the tag, as OCB does. -/
structure TagCrypt where
  key : Bytes
  clientNonce : Bytes
  serverNonce : Bytes
  deriving DecidableEq, Repr

instance : CryptState TagCrypt where
  new := ⟨[], [], []⟩
  isValid k := k.key ≠ []
  decrypt k source dst :=
    ⟨source.take 4 = k.key.take 4, (source.drop 4 ++ dst).take dst.length, k⟩
  encrypt k source _ := (k.key.take 4 ++ source, k)
  setKey _ a b c := ⟨a, b, c⟩
  key := TagCrypt.key
  clientNonce := TagCrypt.clientNonce
  serverNonce := TagCrypt.serverNonce
  length_decrypt _ _ _ := by simp
  key_setKey _ _ _ _ := rfl
  clientNonce_setKey _ _ _ _ := rfl
  serverNonce_setKey _ _ _ _ := rfl

/-- A source that keeps what it is given. -/
structure Played where
  buffers : List Bytes
  deriving DecidableEq, Repr

instance : AppSrc Played where
  new := ⟨[]⟩
  pushBuffer s buffer := (.ok, ⟨s.buffers ++ [buffer]⟩)
  endOfStream s := s

end MumbleBot
