import MumbleBot.AudioPacketCodec
import MumbleBot.Base.Stream

/-!
# `lib.rs`: what is said

`say` turns the byte messages of a channel into voice packets. The bytes are regrouped twice: into
pairs, each of which is a sample, and then into runs of 160 samples, each of which is a packet. The
last packet is filled up with silence.

The messages are cut anywhere, also inside a sample, and that makes no difference, since the first
thing that happens to them is that they are flattened.

A channel that closes inside a sample is the end of `say`: the group that is left over is read as a
sample all the same, and that is unwrapped.

The other end of `udp_tx` takes every packet.

## Main definitions

* `readI16LE` — `read_i16::<LittleEndian>`
* `say` — `say`, as a chain of adaptors
* `sayTest` — the messages of `say_test`
* `SaysSamples` — `say` comes to the end of its channel, with every complete sample sent

## Main results

* `feed_say`, `drain_say` — the packets that are sent while the channel is open, and at its end
* `say_packets` — whatever the messages, the packets carry their bytes
* `saysSamples_iff` — exactly when `say` gets over the end of its channel
* `say_sayTest`, `say_sayTest_odd` — a raw file is said whole, or ends inside a sample
-/

namespace MumbleBot

/-! ### Samples -/

/-- The sample of two bytes, the low one first. -/
def int16OfLE (lo hi : UInt8) : Int16 := (UInt16.ofNat (lo.toNat + 0x100 * hi.toNat)).toInt16

/-- `read_i16::<LittleEndian>`. -/
def readI16LE : Reader Int16
  | lo :: hi :: rest => .ok (int16OfLE lo hi) rest
  | _ => .err .unexpectedEof []

/-- The bytes of a sample are those it has been read from. -/
theorem int16LE_int16OfLE (lo hi : UInt8) : int16LE (int16OfLE lo hi) = [lo, hi] := by
  have hlo := lo.toNat_lt
  have hhi := hi.toNat_lt
  have hn : (UInt16.ofNat (lo.toNat + 0x100 * hi.toNat)).toNat = lo.toNat + 0x100 * hi.toNat := by
    rw [UInt16.toNat_ofNat', Nat.mod_eq_of_lt (by omega)]
  have hlow : (UInt16.ofNat (lo.toNat + 0x100 * hi.toNat)).toUInt8 = lo := by
    rw [← UInt8.toNat_inj, UInt16.toNat_toUInt8, hn]
    omega
  have hhigh : (UInt16.ofNat (lo.toNat + 0x100 * hi.toNat) >>> 8).toUInt8 = hi := by
    rw [← UInt8.toNat_inj, UInt16.toNat_toUInt8, UInt16.toNat_shiftRight, hn,
      Nat.shiftRight_eq_div_pow, show (8 : UInt16).toNat % 16 = 8 from rfl]
    omega
  rw [int16LE, int16OfLE, UInt16.toUInt16_toInt16, hlow, hhigh]

/-! ### The chain -/

/-- `sample_size`: 10 ms of one channel at 16 kHz. -/
def sampleSize : ℕ :=
  let sampleChannels := 1
  let sampleRate := 16000
  let sampleMs := 10
  sampleRate * sampleChannels * sampleMs / 1000

/-- `Vec::resize`. -/
def resize {α : Type} (xs : List α) (n : ℕ) (x : α) : List α :=
  xs.take n ++ List.replicate (n - xs.length) x

/-- The sample of a group of bytes, in `and_then`. -/
def rawPcm (raw : Bytes) : Outcome Int16 := do
  let (pcm, _) ← (readI16LE raw).unwrap
  return pcm

/-- The packet of a group of samples, in `fold`. -/
def chunkPacket (chunk : List Int16) : AudioOutPacket :=
  let chunk := resize chunk sampleSize 0
  { type_ := 0b100, target := 0, pcm := chunk, done := false, timestamp := 0 }

/-- `fold(udp_tx, ..)`: each group of samples is sent as one packet. -/
def sendChunks : Adaptor Unit (List Int16) AudioOutPacket :=
  Adaptor.andThen fun chunk => return chunkPacket chunk

/-- `say`: what comes out is what is sent to `udp_tx`. -/
def say : Adaptor (Unit × Bytes × Unit × List Int16 × Unit) Bytes AudioOutPacket :=
  Adaptor.flatten.comp <|
    (Adaptor.chunks 2).comp <|
    (Adaptor.andThen rawPcm).comp <|
    (Adaptor.chunks sampleSize).comp <|
    sendChunks

/-- The messages `say_test` sends: the raw file, cut into pieces of a packet each. -/
def sayTest (pcmData : Bytes) : Outcome (List Bytes) :=
  (Adaptor.chunks (sampleSize * 2)).drain pcmData

/-! ### The packets -/

/-- The bytes of the samples of some packets. -/
def packetBytes (packets : List AudioOutPacket) : Bytes :=
  packets.flatMap fun packet => packet.pcm.flatMap int16LE

/-- A voice packet of 160 samples. -/
def AudioOutPacket.IsSaid (packet : AudioOutPacket) : Prop :=
  packet.type_ = 0b100 ∧ packet.pcm.length = 160

theorem resize_of_length_eq {α : Type} {xs : List α} {n : ℕ} (x : α) (h : xs.length = n) :
    resize xs n x = xs := by
  rw [resize, ← h, List.take_length, Nat.sub_self, List.replicate_zero, List.append_nil]

theorem resize_of_length_le {α : Type} {xs : List α} {n : ℕ} (x : α) (h : xs.length ≤ n) :
    resize xs n x = xs ++ List.replicate (n - xs.length) x := by
  rw [resize, List.take_of_length_le h]

/-- A group of samples makes a packet of the size, whatever its own. -/
theorem isSaid_chunkPacket {chunk : List Int16} (h : chunk.length ≤ sampleSize) :
    (chunkPacket chunk).IsSaid := by
  refine ⟨rfl, ?_⟩
  rw [chunkPacket, resize_of_length_le 0 h, List.length_append, List.length_replicate,
    Nat.add_sub_cancel' h]
  rfl

/-- The pairs of a list of bytes are read as samples, which have these bytes. -/
theorem feed_rawPcm {pairs : List Bytes} (h : ∀ raw ∈ pairs, raw.length = 2) :
    ∃ samples, (Adaptor.andThen rawPcm).feed () pairs = .returned ((), samples) ∧
      samples.flatMap int16LE = pairs.flatten := by
  induction pairs with
  | nil => exact ⟨[], rfl, rfl⟩
  | cons raw pairs ih =>
    rw [List.forall_mem_cons] at h
    obtain ⟨samples, hfeed, hbytes⟩ := ih h.2
    obtain ⟨lo, hi, rfl⟩ := List.length_eq_two.mp h.1
    have hitem : (Adaptor.andThen rawPcm).item () [lo, hi]
        = .returned ((), [int16OfLE lo hi]) := rfl
    refine ⟨_, Adaptor.feed_cons_of_returned hitem hfeed, ?_⟩
    rw [List.singleton_append, List.flatMap_cons, List.flatten_cons, hbytes, int16LE_int16OfLE]

/-- Groups of samples that are full are sent as they are. -/
theorem packetBytes_chunkPacket {groups : List (List Int16)}
    (h : ∀ chunk ∈ groups, chunk.length = sampleSize) :
    packetBytes (groups.map chunkPacket) = groups.flatten.flatMap int16LE := by
  induction groups with
  | nil => rfl
  | cons chunk groups ih =>
    rw [List.forall_mem_cons] at h
    have hpcm : (chunkPacket chunk).pcm = chunk := resize_of_length_eq 0 h.1
    rw [packetBytes] at ih ⊢
    rw [List.map_cons, List.flatMap_cons, ih h.2, hpcm, List.flatten_cons, List.flatMap_append]

/-- **While the channel is open.** After some messages, as many packets are sent as their bytes
fill, and these carry the bytes in order; the rest waits, as samples and perhaps one byte. -/
theorem feed_say (messages : List Bytes) :
    ∃ pending tail packets,
      say.feed say.init messages = .returned (((), pending, (), tail, ()), packets) ∧
      packets.length = messages.flatten.length / 320 ∧ (∀ packet ∈ packets, packet.IsSaid) ∧
      pending.length = messages.flatten.length % 2 ∧ tail.length < sampleSize ∧
      packetBytes packets ++ (tail.flatMap int16LE ++ pending) = messages.flatten := by
  obtain ⟨pairs, pending, hpairs, hgrouped⟩ :=
    Adaptor.feed_chunks (show ([] : Bytes).length < 2 by decide) messages.flatten
  rw [List.nil_append] at hgrouped
  obtain ⟨samples, hsamples, hbytes⟩ := feed_rawPcm hgrouped.length_eq
  obtain ⟨groups, tail, hgroups, hgrouped'⟩ :=
    Adaptor.feed_chunks (show ([] : List Int16).length < sampleSize by decide) samples
  rw [List.nil_append] at hgrouped'
  have hsend : sendChunks.feed () groups = .returned ((), groups.map chunkPacket) :=
    Adaptor.feed_andThen fun _ _ => rfl
  have hfeed : say.feed say.init messages
      = .returned (((), pending, (), tail, ()), groups.map chunkPacket) := by
    refine (Adaptor.feed_flatten_comp _ ([], (), [], ()) messages).trans ?_
    rw [Adaptor.feed_comp hpairs, Adaptor.feed_comp hsamples, Adaptor.feed_comp hgroups, hsend]
    rfl
  have hlength : samples.length = messages.flatten.length / 2 := by
    have h := length_flatMap_int16LE samples
    rw [hbytes, length_flatten_of_forall hgrouped.length_eq, hgrouped.length_groups] at h
    omega
  refine ⟨pending, tail, _, hfeed, ?_, ?_, hgrouped.length_rest, hgrouped'.rest_lt, ?_⟩
  · rw [List.length_map, hgrouped'.length_groups, hlength, Nat.div_div_eq_div_mul]
    rfl
  · intro packet hpacket
    obtain ⟨chunk, hchunk, rfl⟩ := List.mem_map.mp hpacket
    exact isSaid_chunkPacket (Nat.le_of_eq (hgrouped'.length_eq chunk hchunk))
  · rw [packetBytes_chunkPacket hgrouped'.length_eq, ← List.append_assoc, ← List.flatMap_append,
      hgrouped'.append_eq, hbytes, hgrouped.append_eq]

/-- **At the end of the channel** the samples that wait are one more packet, if there are any. -/
theorem finish_say (tail : List Int16) :
    say.finish ((), [], (), tail, ())
      = .returned (if tail.length > 0 then [chunkPacket tail] else []) := by
  cases tail with
  | nil => rfl
  | cons x tail => rfl

theorem length_packetBytes {packets : List AudioOutPacket}
    (h : ∀ packet ∈ packets, packet.IsSaid) :
    (packetBytes packets).length = 320 * packets.length := by
  induction packets with
  | nil => rfl
  | cons packet packets ih =>
    rw [List.forall_mem_cons] at h
    rw [packetBytes, List.flatMap_cons, List.length_append, length_flatMap_int16LE, h.1.2,
      ← packetBytes, ih h.2, List.length_cons]
    omega

/-- The last packet carries the samples that were waiting, and silence. -/
theorem packetBytes_last {tail : List Int16} (h : tail.length < sampleSize) :
    packetBytes (if tail.length > 0 then [chunkPacket tail] else [])
      = tail.flatMap int16LE
        ++ List.replicate (320 * ((2 * tail.length + 319) / 320) - 2 * tail.length) 0 := by
  have hsize : sampleSize = 160 := rfl
  split_ifs with hpos
  · have hpcm : (chunkPacket tail).pcm = tail ++ List.replicate (sampleSize - tail.length) 0 :=
      resize_of_length_le 0 (Nat.le_of_lt h)
    have hzeros : ∀ k,
        (List.replicate k (0 : Int16)).flatMap int16LE = List.replicate (2 * k) 0 := by
      intro k
      induction k with
      | zero => rfl
      | succ k ih => rw [List.replicate_succ, List.flatMap_cons, ih]; rfl
    have hcount : 2 * (sampleSize - tail.length)
        = 320 * ((2 * tail.length + 319) / 320) - 2 * tail.length := by omega
    rw [packetBytes, List.flatMap_singleton, hpcm, List.flatMap_append, hzeros, hcount]
  · obtain rfl := List.length_eq_zero_iff.mp (Nat.eq_zero_of_not_pos hpos)
    rfl

/-- At the end of a channel that has carried an even number of bytes, what has been sent is followed
by at most one packet, and they carry all of the bytes. -/
theorem drain_say {messages : List Bytes} {s : Unit × Bytes × Unit × List Int16 × Unit}
    {packets : List AudioOutPacket} (hfeed : say.feed say.init messages = .returned (s, packets))
    (heven : messages.flatten.length % 2 = 0) :
    ∃ last, say.drain messages = .returned (packets ++ last) ∧ last.length ≤ 1 ∧
      (packets ++ last).length = (messages.flatten.length + 319) / 320 ∧
      packetBytes (packets ++ last) = messages.flatten ++ List.replicate
        (320 * ((messages.flatten.length + 319) / 320) - messages.flatten.length) 0 ∧
      ∀ packet ∈ packets ++ last, packet.IsSaid := by
  obtain ⟨pending, tail, packets', hfeed', hlength, hsaid, hpending, htail, hbytes⟩ :=
    feed_say messages
  obtain ⟨rfl, rfl⟩ := Prod.mk.inj (Outcome.returned.inj (hfeed.symm.trans hfeed'))
  obtain rfl := List.length_eq_zero_iff.mp (hpending.trans heven)
  rw [List.append_nil] at hbytes
  have hn : messages.flatten.length = 320 * packets.length + 2 * tail.length := by
    rw [← hbytes, List.length_append, length_packetBytes hsaid, length_flatMap_int16LE]
  have hsize : sampleSize = 160 := rfl
  have hzeros : 320 * ((2 * tail.length + 319) / 320) - 2 * tail.length
      = 320 * ((messages.flatten.length + 319) / 320) - messages.flatten.length := by omega
  refine ⟨if tail.length > 0 then [chunkPacket tail] else [],
    Adaptor.drain_of_returned hfeed (finish_say tail), ?_, ?_, ?_, ?_⟩
  · split_ifs <;> simp
  · rw [List.length_append]
    split_ifs with hpos
    · rw [List.length_singleton]
      omega
    · rw [List.length_nil]
      omega
  · rw [packetBytes, List.flatMap_append, ← packetBytes, ← packetBytes, packetBytes_last htail,
      ← List.append_assoc, hbytes, hzeros]
  · rw [List.forall_mem_append]
    refine ⟨hsaid, ?_⟩
    split_ifs
    · exact List.forall_mem_singleton.mpr (isSaid_chunkPacket (Nat.le_of_lt htail))
    · simp

/-- **What is said, whatever the messages.** The packets depend on nothing but the bytes of the
messages together. While the channel is open, they carry the bytes in order, 320 in each, as far as
these fill packets. When it closes with an even number of bytes, one more packet carries the rest,
filled up with silence, if there is a rest. -/
theorem say_packets (messages : List Bytes) :
    (∀ messages' : List Bytes, messages'.flatten = messages.flatten →
        say.feed say.init messages' = say.feed say.init messages ∧
        say.drain messages' = say.drain messages) ∧
      ∃ s packets, say.feed say.init messages = .returned (s, packets) ∧
        packets.length = messages.flatten.length / 320 ∧
        packetBytes packets = messages.flatten.take (320 * (messages.flatten.length / 320)) ∧
        (∀ packet ∈ packets, packet.IsSaid) ∧
        (messages.flatten.length % 2 = 0 → ∃ last,
          say.drain messages = .returned (packets ++ last) ∧ last.length ≤ 1 ∧
          (packets ++ last).length = (messages.flatten.length + 319) / 320 ∧
          packetBytes (packets ++ last) = messages.flatten ++ List.replicate
            (320 * ((messages.flatten.length + 319) / 320) - messages.flatten.length) 0 ∧
          ∀ packet ∈ packets ++ last, packet.IsSaid) := by
  have hcut : ∀ messages' : List Bytes, messages'.flatten = messages.flatten →
      say.feed say.init messages' = say.feed say.init messages := by
    intro messages' hflatten
    refine (Adaptor.feed_flatten_comp _ _ messages').trans ?_
    rw [hflatten]
    exact (Adaptor.feed_flatten_comp _ _ messages).symm
  obtain ⟨pending, tail, packets, hfeed, hlength, hsaid, -, -, hbytes⟩ := feed_say messages
  refine ⟨?_, _, packets, hfeed, hlength, ?_, hsaid, drain_say hfeed⟩
  · intro messages' hflatten
    refine ⟨hcut messages' hflatten, ?_⟩
    rw [Adaptor.drain, Adaptor.drain, hcut messages' hflatten]
  · rw [← hlength, ← length_packetBytes hsaid]
    conv_rhs => rw [← hbytes]
    exact List.take_left.symm

/-- Two samples, cut in the middle of each. -/
theorem say_packets_two :
    say.drain [[1], [2, 3], [], [4]] = say.drain [[1, 2, 3, 4]] ∧
      ∃ packets, say.drain [[1], [2, 3], [], [4]] = .returned packets ∧ packets.length = 1 ∧
        packetBytes packets = [1, 2, 3, 4] ++ List.replicate 316 0 := by
  obtain ⟨hcut, s, packets, -, -, -, -, heven⟩ := say_packets [[1], [2, 3], [], [4]]
  obtain ⟨last, hdrain, -, hlength, hbytes, -⟩ := heven rfl
  exact ⟨(hcut [[1, 2, 3, 4]] rfl).2.symm, packets ++ last, hdrain, hlength, hbytes⟩

/-! ### A channel that closes inside a sample

`chunks(2)` hands on what is left over at the end, and that is no sample if it is a single byte. -/

/-- `say` comes to the end of its channel, and has sent every sample that was complete by then. -/
def SaysSamples (messages : List Bytes) : Prop :=
  ∃ packets, say.drain messages = .returned packets ∧
    messages.flatten.take (2 * (messages.flatten.length / 2)) <+: packetBytes packets

/-- A single byte is left over, and reading it as a sample fails: what waits behind it is lost. -/
theorem finish_say_odd (b : UInt8) (tail : List Int16) :
    say.finish ((), [b], (), tail, ()) = .panicked := rfl

/-- An odd number of bytes is the end of `say`. The packets that were full are sent by then, and
the complete samples of the last one, up to 159 of them, are not. -/
theorem drain_say_odd {messages : List Bytes} (hodd : messages.flatten.length % 2 = 1) :
    say.drain messages = .panicked ∧
      ∃ s packets, say.feed say.init messages = .returned (s, packets) ∧
        (packetBytes packets).length = 320 * (messages.flatten.length / 320) := by
  obtain ⟨pending, tail, packets, hfeed, hlength, hsaid, hpending, -, -⟩ := feed_say messages
  obtain ⟨b, rfl⟩ := List.length_eq_one_iff.mp (hpending.trans hodd)
  constructor
  · exact Adaptor.drain_of_panicked hfeed (finish_say_odd b tail)
  · exact ⟨_, packets, hfeed, by rw [length_packetBytes hsaid, hlength]⟩

/-- **When a channel may close.** `say` comes to its end, with every complete sample sent, exactly
when the messages have an even number of bytes together. -/
theorem saysSamples_iff (messages : List Bytes) :
    SaysSamples messages ↔ messages.flatten.length % 2 = 0 := by
  constructor
  · rintro ⟨packets, hdrain, -⟩
    by_contra hne
    have hodd : messages.flatten.length % 2 = 1 := by omega
    rw [(drain_say_odd hodd).1] at hdrain
    cases hdrain
  · intro heven
    obtain ⟨_, _, packets, hfeed, -⟩ := feed_say messages
    obtain ⟨last, hdrain, -, -, hbytes, -⟩ := drain_say hfeed heven
    have hall : 2 * (messages.flatten.length / 2) = messages.flatten.length := by omega
    refine ⟨packets ++ last, hdrain, ?_⟩
    rw [hall, List.take_length, hbytes]
    exact List.prefix_append _ _

/-- Three bytes: the sample of the first two has been taken in, and is not sent. -/
theorem say_panics :
    say.drain [[1], [2, 3]] = .panicked ∧
      ∃ s, say.feed say.init [[1], [2, 3]] = .returned (s, []) :=
  ⟨rfl, _, rfl⟩

/-- A raw file of whole samples is said from the first to the last. -/
theorem say_sayTest {pcmData : Bytes} (heven : pcmData.length % 2 = 0) :
    ∃ messages packets, sayTest pcmData = .returned messages ∧
      say.drain messages = .returned packets ∧ packets.length = (pcmData.length + 319) / 320 ∧
      packetBytes packets = pcmData ++ List.replicate
        (320 * ((pcmData.length + 319) / 320) - pcmData.length) 0 := by
  obtain ⟨messages, hmessages, rfl⟩ :=
    Adaptor.drain_chunks (show 0 < sampleSize * 2 by decide) pcmData
  obtain ⟨_, _, packets, hfeed, -⟩ := feed_say messages
  obtain ⟨last, hdrain, -, hlength, hbytes, -⟩ := drain_say hfeed heven
  exact ⟨messages, packets ++ last, hmessages, hdrain, hlength, hbytes⟩

/-- A raw file that ends inside a sample is the end of `say`. -/
theorem say_sayTest_odd {pcmData : Bytes} (hodd : pcmData.length % 2 = 1) :
    ∃ messages, sayTest pcmData = .returned messages ∧ say.drain messages = .panicked := by
  obtain ⟨messages, hmessages, rfl⟩ :=
    Adaptor.drain_chunks (show 0 < sampleSize * 2 by decide) pcmData
  exact ⟨messages, hmessages, (drain_say_odd hodd).1⟩

end MumbleBot
