import MumbleBot.Slots
import Mathlib.Data.List.Dedup

/-!
# Speakers and their decoders

The codec makes a decoder for a session when it first hears it, and `decode` advances the decoder
of the packet's own session. So each session is a machine of its own, a lone speaker, whose state is
the decoder in the map: whatever else goes on, what is played of a speaker is what would be played
if nobody else were there.

Nothing ever takes a decoder out of the map. The tasks share the session, but the decoders belong
to the codec, and a user who leaves leaves their decoder behind.

## Main definitions

* `spokenBy`, `pcmOf` — a session's packets, and the samples they are given
* `speaker` — a session on its own
* `DecodersOfUsers` — every decoder is that of a user who is there

## Main results

* `isView_speaker` — a session's decoder is a lone speaker
* `pcmOf_congr` — what is played of a session depends on its own packets alone
* `opusDecoders_run` — which decoders there are, and what state they are in
-/

namespace MumbleBot

variable {E D K M A : Type} [CryptState K] {fr : FailedRead}

/-! ### The packets of a session -/

/-- The plaintext of the OPUS packet, if it is one of the session `s`. -/
def spokenBy (fr : FailedRead) (s : UInt64)
    (t : Step (AudioPacketCodec E D K M) (Event A) (Output A)) : Option Bytes :=
  (opusPacket fr t).bind fun packet => if packet.1 = s then some packet.2 else none

/-- The samples passed on for the OPUS packet, if it is one of the session `s`. -/
def pcmOf (fr : FailedRead) (s : UInt64)
    (t : Step (AudioPacketCodec E D K M) (Event A) (Output A)) : Option Bytes :=
  (spokenBy fr s t).bind fun _ => t.output.vox.map fun item => item.2.1

theorem spokenBy_eq_some_iff {s : UInt64} {data : Bytes}
    {t : Step (AudioPacketCodec E D K M) (Event A) (Output A)} :
    spokenBy fr s t = some data ↔ opusPacket fr t = some (s, data) := by
  simp only [spokenBy, Option.bind_eq_some_iff, Prod.exists]
  constructor
  · rintro ⟨s', data', h, hs⟩
    split_ifs at hs with hss
    obtain rfl := Option.some.inj hs
    rw [h, ← hss]
  · intro h
    exact ⟨s, data, h, if_pos rfl⟩

variable [OpusEncoder E] [OpusDecoder D] [HashMap M UInt64 Remote] {pb : CodedInputStream}

/-! ### A speaker on their own -/

/-- One session by itself: its decoder, once it has been heard, its plaintexts, and the samples
played for them. -/
def speaker (fr : FailedRead) : Machine (Option D) Bytes Bytes where
  step decoder data := do
    let fresh ← Outcome.unwrap (OpusDecoder.new (D := D) 16000 .mono)
    let v ← readVoice fr data
    let d := decodeSegments (decoder.getD fresh) v.segments
    return (some d.decoder, d.pcm)

/-- What a step shows of the session `s`. -/
def seenOf (fr : FailedRead) (s : UInt64)
    (t : Step (AudioPacketCodec E D K M) (Event A) (Output A)) : Option (Bytes × Bytes) :=
  (spokenBy fr s t).bind fun data => (pcmOf fr s t).map fun pcm => (data, pcm)

/-- A packet of `s` is a step of the speaker `s`, and every other step leaves the speaker alone. -/
theorem speaker_step {t : Step (AudioPacketCodec E D K M) (Event A) (Output A)}
    (hstep : (client pb fr).step t.pre t.event = .returned (t.post, t.output)) (s : UInt64) :
    (∃ data pcm, spokenBy fr s t = some data ∧ pcmOf fr s t = some pcm ∧
        (speaker fr).step (HashMap.get? t.pre.opusDecoders s) data
          = .returned (HashMap.get? t.post.opusDecoders s, pcm)) ∨
      (spokenBy fr s t = none ∧ pcmOf fr s t = none ∧
        HashMap.get? t.post.opusDecoders s = HashMap.get? t.pre.opusDecoders s) := by
  rcases client_opusPacket hstep with
    ⟨v, fresh, data, hpacket, hv, hfresh, -, hvox, hget⟩ | ⟨hnone, -, hsame⟩
  · by_cases hs : v.session = s
    · subst hs
      have hspoken : spokenBy fr v.session t = some data := spokenBy_eq_some_iff.mpr hpacket
      refine .inl ⟨data, _, hspoken, by rw [pcmOf, hspoken, hvox]; rfl, ?_⟩
      simp only [speaker, hfresh, hv, Outcome.unwrap_ok, Outcome.returned_bind, Outcome.pure_eq,
        hget, if_pos, decoderOf]
    · have hspoken : spokenBy fr s t = none := by
        rw [spokenBy, hpacket, Option.bind_some, if_neg hs]
      refine .inr ⟨hspoken, by rw [pcmOf, hspoken]; rfl, ?_⟩
      rw [hget, if_neg fun h => hs h.symm]
  · have hspoken : spokenBy fr s t = none := by rw [spokenBy, hnone]; rfl
    exact .inr ⟨hspoken, by rw [pcmOf, hspoken]; rfl, by rw [hsame]⟩

/-- **The decoder of a session is a lone speaker.** -/
theorem isView_speaker (s : UInt64) :
    Machine.IsView (client pb fr) (speaker fr)
      (fun c : AudioPacketCodec E D K M => HashMap.get? c.opusDecoders s)
      (seenOf (A := A) fr s) := by
  intro t hstep
  rcases speaker_step hstep s with ⟨data, pcm, hdata, hpcm, hspeak⟩ | ⟨hdata, -, hsame⟩
  · have hseen : seenOf fr s t = some (data, pcm) := by rw [seenOf, hdata, hpcm]; rfl
    rw [hseen]
    constructor
    · intro data' pcm' heq
      obtain ⟨rfl, rfl⟩ := Prod.mk.inj (Option.some.inj heq)
      exact hspeak
    · intro hnone
      cases hnone
  · have hseen : seenOf fr s t = none := by rw [seenOf, hdata]; rfl
    rw [hseen]
    constructor
    · intro data pcm heq
      cases heq
    · intro _
      exact hsame

/-- What a run shows of a session is the packets of the session, and the samples for them. -/
theorem seenOf_trace (c : AudioPacketCodec E D K M) (events : List (Event A)) (s : UInt64) :
    (((client pb fr).trace c events).filterMap (seenOf fr s)).map Prod.fst
        = ((client pb fr).trace c events).filterMap (spokenBy fr s) ∧
      (((client pb fr).trace c events).filterMap (seenOf fr s)).map Prod.snd
        = ((client pb fr).trace c events).filterMap (pcmOf fr s) := by
  rw [List.map_filterMap, List.map_filterMap]
  constructor
  · refine List.filterMap_congr ?_
    intro t ht
    rcases speaker_step (Machine.step_of_mem_trace ht) s with
      ⟨data, pcm, hdata, hpcm, -⟩ | ⟨hdata, -, -⟩
    · rw [seenOf, hdata, hpcm]; rfl
    · rw [seenOf, hdata]; rfl
  · refine List.filterMap_congr ?_
    intro t ht
    rcases speaker_step (Machine.step_of_mem_trace ht) s with
      ⟨data, pcm, hdata, hpcm, -⟩ | ⟨hdata, hpcm, -⟩
    · rw [seenOf, hdata, hpcm]; rfl
    · rw [seenOf, hdata, hpcm]; rfl

/-- What is played of a session in a run is what the lone speaker plays. -/
theorem pcmOf_trace (c : AudioPacketCodec E D K M) (events : List (Event A)) (s : UInt64) :
    ((client pb fr).trace c events).filterMap (pcmOf fr s)
      = ((speaker fr).trace (HashMap.get? c.opusDecoders s)
          (((client pb fr).trace c events).filterMap (spokenBy fr s))).map Step.output := by
  rw [← (seenOf_trace c events s).1, ← (seenOf_trace c events s).2]
  exact (Machine.trace_view (isView_speaker s) c events).symm

/-- **Speakers do not disturb each other.** Two runs that start with the same decoder for the
session `s`, or with none, and in which the same packets of `s` arrive in the same order, play the
same for `s`, whatever else happens in them. An OPUS packet advances the decoder of its own
session, and nothing else touches a decoder. -/
theorem pcmOf_congr {c₁ c₂ : AudioPacketCodec E D K M} {events₁ events₂ : List (Event A)}
    {s : UInt64}
    (hstart : HashMap.get? c₁.opusDecoders s = HashMap.get? c₂.opusDecoders s)
    (hpackets : ((client pb fr).trace c₁ events₁).filterMap (spokenBy fr s)
      = ((client pb fr).trace c₂ events₂).filterMap (spokenBy fr s)) :
    ((client pb fr).trace c₁ events₁).filterMap (pcmOf fr s)
        = ((client pb fr).trace c₂ events₂).filterMap (pcmOf fr s) ∧
      ∀ t ∈ (client pb fr).trace c₁ events₁, ∀ u,
        (∃ data pcm, spokenBy fr u t = some data ∧ pcmOf fr u t = some pcm ∧
            (speaker fr).step (HashMap.get? t.pre.opusDecoders u) data
              = .returned (HashMap.get? t.post.opusDecoders u, pcm)) ∨
          (spokenBy fr u t = none ∧ pcmOf fr u t = none ∧
            HashMap.get? t.post.opusDecoders u = HashMap.get? t.pre.opusDecoders u) := by
  constructor
  · rw [pcmOf_trace, pcmOf_trace, hstart, hpackets]
  · intro t ht u
    exact speaker_step (Machine.step_of_mem_trace ht) u

/-- A user by themselves, and the same packets with somebody else in between, who also comes and
goes. -/
theorem pcmOf_congr_two :
    let steps := fun events : List (Event Unit) =>
      (client wireFormat .stay).trace (standInCodec [1, 2, 3, 4]) events
    let alone := steps [.datagram () [1, 2, 3, 4, 0x80, 5, 1],
      .datagram () [1, 2, 3, 4, 0x80, 5, 2, 1, 9]]
    let among := steps [.control (9, [8, 7]), .datagram () [1, 2, 3, 4, 0x80, 5, 1],
      .datagram () [1, 2, 3, 4, 0x80, 7, 1], .datagram () [1, 2, 3, 4, 0x20, 5],
      .control (8, [8, 7]), .datagram () [1, 2, 3, 4, 0x80, 5, 2, 1, 9]]
    (alone.filterMap (pcmOf .stay 5)).length = 2 ∧
      alone.filterMap (pcmOf .stay 5) = among.filterMap (pcmOf .stay 5) := by
  intro steps alone among
  have hpackets : (alone.filterMap (pcmOf .stay 5)).length = 2 ∧
      alone.filterMap (spokenBy .stay 5) = among.filterMap (spokenBy .stay 5) := by
    decide +kernel
  exact ⟨hpackets.1, (pcmOf_congr rfl hpackets.2).1⟩

/-! ### The life of a decoder -/

/-- The session of the OPUS packet a step receives. -/
def speakerOf (fr : FailedRead) (t : Step (AudioPacketCodec E D K M) (Event A) (Output A)) :
    Option UInt64 :=
  (opusPacket fr t).map Prod.fst

/-- A step makes a decoder for the session it hears, and takes none away. -/
theorem mem_keys_opusDecoders_step {t : Step (AudioPacketCodec E D K M) (Event A) (Output A)}
    (hstep : (client pb fr).step t.pre t.event = .returned (t.post, t.output)) (s : UInt64) :
    s ∈ HashMap.keys t.post.opusDecoders
      ↔ s ∈ HashMap.keys t.pre.opusDecoders ∨ speakerOf fr t = some s := by
  rcases client_opusPacket hstep with
    ⟨v, fresh, data, hpacket, -, -, -, -, hget⟩ | ⟨hnone, -, hsame⟩
  · rw [speakerOf, hpacket, Option.map_some, Option.some.injEq, ← not_iff_not, not_or,
      ← HashMap.get?_eq_none_iff, ← HashMap.get?_eq_none_iff, hget]
    by_cases hs : s = v.session
    · simp [hs]
    · simp [hs, Ne.symm hs]
  · simp [speakerOf, hnone, hsame]

/-- The decoders are those of the users that are there. -/
def DecodersOfUsers (c : AudioPacketCodec E D K M) : Prop :=
  ∀ s ∈ HashMap.keys c.opusDecoders, s ∈ HashMap.keys c.session.remotes

/-- The step hears nobody but a user who is there, and removes nobody who has a decoder. -/
def KeepsDecodersOfUsers (pb : CodedInputStream) (fr : FailedRead)
    (t : Step (AudioPacketCodec E D K M) (Event A) (Output A)) : Prop :=
  (∀ s, speakerOf fr t = some s → s ∈ HashMap.keys t.pre.session.remotes) ∧
    ∀ frame, t.event = .control frame → ∀ s ∈ HashMap.keys t.pre.opusDecoders,
      naming pb s frame ≠ some false

/-- A user who is there is there after a control frame as well, unless the frame removes them. -/
theorem mem_keys_remotes_control {c c' : AudioPacketCodec E D K M} {frame : Frame} {o : Output A}
    (hstep : (client pb fr).step c (.control frame : Event A) = .returned (c', o)) {s : UInt64}
    (hs : s ∈ HashMap.keys c.session.remotes) :
    s ∈ HashMap.keys c'.session.remotes ↔ naming pb s frame ≠ some false := by
  obtain ⟨msg, hmsg, hpost, -⟩ := client_control hstep
  have hdispatch := (dispatcher_step_eq_returned (u := ())).mpr ⟨msg, hmsg, hpost⟩
  rw [mem_keys_step s hdispatch]
  rcases naming pb s frame with _ | _ | _
  · simp [hs]
  · simp
  · simp

/-- Decoders of users that are there stay decoders of users that are there, exactly when the step
does its part. -/
theorem decodersOfUsers_step {t : Step (AudioPacketCodec E D K M) (Event A) (Output A)}
    (hstep : (client pb fr).step t.pre t.event = .returned (t.post, t.output))
    (h : DecodersOfUsers t.pre) : DecodersOfUsers t.post ↔ KeepsDecodersOfUsers pb fr t := by
  cases hevent : t.event with
  | control frame =>
    have hsilent : speakerOf fr t = none := by rw [speakerOf, opusPacket, hevent]; rfl
    rw [hevent] at hstep
    obtain ⟨_, -, -, hdecoders, -⟩ := client_control hstep
    have hthere := fun s hs => mem_keys_remotes_control hstep (h s hs)
    simp only [DecodersOfUsers, KeepsDecodersOfUsers, hdecoders, hsilent, hevent]
    constructor
    · intro hpost
      constructor
      · intro s heq
        cases heq
      · intro frame' heq s hs
        cases heq
        exact (hthere s hs).mp (hpost s hs)
    · rintro ⟨-, hremoved⟩ s hs
      exact (hthere s hs).mpr (hremoved frame rfl s hs)
  | datagram addr buf =>
    have hkeys := mem_keys_opusDecoders_step hstep
    rw [hevent] at hstep
    have hsession := (client_datagram hstep).1
    simp only [DecodersOfUsers, KeepsDecodersOfUsers, hkeys, hsession, hevent]
    constructor
    · intro hpost
      constructor
      · intro s hs
        exact hpost s (.inr hs)
      · intro frame heq
        cases heq
    · rintro ⟨hheard, -⟩ s (hs | hs)
      · exact h s hs
      · exact hheard s hs
  | outgoing addr packet =>
    have hsilent : speakerOf fr t = none := by rw [speakerOf, opusPacket, hevent]; rfl
    rw [hevent] at hstep
    obtain ⟨hsession, hdecoders, -⟩ := client_outgoing hstep
    simp only [DecodersOfUsers, KeepsDecodersOfUsers, hdecoders, hsession, hsilent, hevent]
    refine iff_of_true h ⟨?_, ?_⟩
    · intro s heq
      cases heq
    · intro frame heq
      cases heq

/-- **The life of a decoder.** From a codec without decoders, the decoders in a state that is
reached are those of the sessions heard so far, one for each, wherever the users are; each is what
all the packets of its session have made of a new decoder, and the next packet of the session goes
to it. They are the decoders of users that are there, all the way, exactly when nobody is heard who
is not there and nobody is removed who has been heard. -/
theorem opusDecoders_run {c c' : AudioPacketCodec E D K M} {events : List (Event A)}
    (hnew : c.opusDecoders = HashMap.new)
    (hrun : (client pb fr).run c events = .returned c') :
    (∀ s, s ∈ HashMap.keys c'.opusDecoders
        ↔ s ∈ ((client pb fr).trace c events).filterMap (speakerOf fr)) ∧
      HashMap.len c'.opusDecoders
        = (((client pb fr).trace c events).filterMap (speakerOf fr)).dedup.length ∧
      (∀ s, (speaker fr).run none (((client pb fr).trace c events).filterMap (spokenBy fr s))
          = .returned (HashMap.get? c'.opusDecoders s)) ∧
      (∀ t : Step (AudioPacketCodec E D K M) (Event A) (Output A), t.pre = c' →
        (client pb fr).step t.pre t.event = .returned (t.post, t.output) → ∀ s data,
        spokenBy fr s t = some data → ∃ pcm, pcmOf fr s t = some pcm ∧
          (speaker fr).step (HashMap.get? c'.opusDecoders s) data
            = .returned (HashMap.get? t.post.opusDecoders s, pcm)) ∧
      ((∀ t ∈ (client pb fr).trace c events, DecodersOfUsers t.post)
        ↔ ∀ t ∈ (client pb fr).trace c events, KeepsDecodersOfUsers pb fr t) := by
  have hkeys : ∀ s, s ∈ HashMap.keys c'.opusDecoders
      ↔ s ∈ ((client pb fr).trace c events).filterMap (speakerOf fr) := by
    intro s
    rw [Machine.run_collects (P := fun c s => s ∈ HashMap.keys c.opusDecoders)
      (fun t ht => mem_keys_opusDecoders_step ht) hrun, hnew]
    simp
  refine ⟨hkeys, ?_, ?_, ?_, ?_⟩
  · have hperm := (List.perm_ext_iff_of_nodup (HashMap.nodup_keys c'.opusDecoders)
      (List.nodup_dedup _)).mpr fun s => (hkeys s).trans List.mem_dedup.symm
    rw [← HashMap.length_keys, hperm.length_eq]
  · intro s
    have hview := Machine.run_view (isView_speaker s) hrun
    rwa [(seenOf_trace c events s).1, hnew, HashMap.get?_new] at hview
  · intro t ht hstep s data hdata
    rcases speaker_step hstep s with ⟨data', pcm, hdata', hpcm, hspeak⟩ | ⟨hnone, -, -⟩
    · obtain rfl := Option.some.inj (hdata.symm.trans hdata')
      exact ⟨pcm, hpcm, ht ▸ hspeak⟩
    · rw [hdata] at hnone
      cases hnone
  · refine Machine.trace_invariant_iff (fun t ht => decodersOfUsers_step ht) ?_ events
    intro s hs
    rw [hnew, HashMap.keys_new] at hs
    exact absurd hs List.not_mem_nil

/-- One user is heard twice and another one once: there are two decoders. -/
theorem opusDecoders_run_two :
    let events : List (Event Unit) := [.control (9, [8, 5]),
      .datagram () [1, 2, 3, 4, 0x80, 5, 1], .datagram () [1, 2, 3, 4, 0x80, 7, 1],
      .datagram () [1, 2, 3, 4, 0x80, 5, 2]]
    ∃ c', (client wireFormat .stay).run (standInCodec [1, 2, 3, 4]) events = .returned c' ∧
      HashMap.len c'.opusDecoders = 2 := by
  intro events
  have hspeakers : ((client wireFormat .stay).trace (standInCodec [1, 2, 3, 4])
      events).filterMap (speakerOf .stay) = [5, 7, 5] := by
    decide
  have hreturns : ((client wireFormat .stay).run (standInCodec [1, 2, 3, 4]) events).Returns := by
    decide
  obtain ⟨c', hrun⟩ := hreturns
  refine ⟨c', hrun, ?_⟩
  rw [(opusDecoders_run rfl hrun).2.1, hspeakers]
  rfl

/-- A user comes, is heard, leaves, and comes again: the decoder stays in the map while nobody is
there, and the second stay starts with it. A session that nobody has announced gets a decoder,
too. -/
theorem decoder_outlives_user :
    let steps := (client wireFormat .stay).trace (standInCodec [1, 2, 3, 4])
      [.control (9, [8, 5]), .datagram () [1, 2, 3, 4, 0x80, 5, 1], .control (8, [8, 5]),
        .control (9, [8, 5]), .datagram () [1, 2, 3, 4, 0x80, 5, 1],
        .datagram () [1, 2, 3, 4, 0x80, 9, 1]]
    steps.map (fun t => HashMap.keys t.post.session.remotes) = [[5], [5], [], [5], [5], [5]] ∧
      steps.map (fun t => HashMap.keys t.post.opusDecoders) = [[], [5], [5], [5], [5], [9, 5]] ∧
      steps.map (fun t => HashMap.get? t.post.opusDecoders 5)
        = [none, some ⟨1⟩, some ⟨1⟩, some ⟨1⟩, some ⟨2⟩, some ⟨2⟩] := by
  decide

end MumbleBot
