import MumbleBot.AudioPacketCodec
import MumbleBot.ControlRuns

/-!
# `lib.rs`: the client as a whole

Two receive loops, one for control frames and one for datagrams, share the session and the crypt
state, and packets go out in between. There is one reactor thread, so what happens is an
interleaving of their steps: `client` is the machine whose events are a control frame, a datagram
and a packet to send, in any order. What `udp_recv_loop` hears goes through a channel to `src_rx`,
which has one audio source for each of sixteen indices.

The receiving end of the channel is open throughout.

## Main definitions

* `udpRecv` — the `match` of `udp_recv_loop`
* `Event`, `Output`, `client` — the client
* `opusPacket` — the OPUS packet a step receives
* `srcPipeline`, `srcRx` — where the sound goes

## Main results

* `returns_srcRxItem_iff` — exactly when `src_rx` finds a source
* `client_control`, `client_datagram`, `client_outgoing` — what each event can do
* `client_opusPacket` — what a step does to the decoders, and what it passes on
-/

namespace MumbleBot

variable {E D K M A S : Type}

/-- What is sent through `vox_inp_tx`: a session index, its samples, and a position. -/
abbrev VoxInp := Int32 × Bytes × PositionalAudio

/-! ### Where the sound goes -/

section Playback

variable [AppSrc S]

/-- The sources `src_pipeline` makes. -/
def srcPipeline : List S := (List.range 16).map fun _ => AppSrc.new

/-- One item in `src_rx`: the sources, or an error that ends it. An index that is not negative is
used as it is. -/
def srcRxItem (elems : List S) (item : VoxInp) : Outcome (Except Unit (List S)) :=
  let (session, bytes, _pos) := item
  if session ≥ 0 then do
    let idx := session.toInt.toNat
    let elem ← Outcome.get elems[idx]?
    let (flow, elem) := AppSrc.pushBuffer elem bytes
    if flow ≠ .ok then
      let _elems := elems.set idx (AppSrc.endOfStream elem)
      return .error ()
    else
      return .ok (elems.set idx elem)
  else
    return .ok elems

/-- `src_rx`: the fold over what comes through the channel. -/
def srcRx (elems : List S) : List VoxInp → Outcome (Except Unit (List S))
  | [] => .returned (.ok elems)
  | item :: items => do
    match ← srcRxItem elems item with
    | .ok elems => srcRx elems items
    | .error e => return .error e

/-- An item panics exactly when its index is not negative and there is no such source. -/
theorem returns_srcRxItem_iff {elems : List S} {item : VoxInp} :
    (srcRxItem elems item).Returns ↔ item.1 < 0 ∨ item.1.toInt < elems.length := by
  obtain ⟨session, bytes, pos⟩ := item
  simp only [srcRxItem]
  by_cases h : session ≥ 0
  · have hneg : ¬ session < 0 := Int32.not_lt.mpr h
    have hnonneg : 0 ≤ session.toInt := Int32.le_iff_toInt_le.mp h
    rw [if_pos h, Outcome.returns_bind]
    by_cases hlt : session.toInt.toNat < elems.length
    · rw [List.getElem?_eq_getElem hlt]
      refine iff_of_true ⟨_, rfl, ?_⟩ (.inr (by omega))
      split_ifs <;> exact Outcome.returns_returned _
    · rw [List.getElem?_eq_none (Nat.not_lt.mp hlt)]
      refine iff_of_false ?_ ?_
      · rintro ⟨_, hnone, -⟩
        cases hnone
      · rintro (hlt' | hlt')
        · exact hneg hlt'
        · omega
  · rw [if_neg h]
    exact iff_of_true (Outcome.returns_returned _) (.inl (Int32.not_le.mp h))

/-- The sources stay as many as they were. -/
theorem length_srcRxItem {elems elems' : List S} {item : VoxInp}
    (h : srcRxItem elems item = .returned (.ok elems')) : elems'.length = elems.length := by
  obtain ⟨session, bytes, pos⟩ := item
  simp only [srcRxItem] at h
  split_ifs at h
  · obtain ⟨elem, -, h⟩ := Outcome.bind_eq_returned.mp h
    split_ifs at h
    · cases h
    · cases h
      exact List.length_set
  · cases h
    rfl

/-- Items whose indices are negative or have a source do not panic. -/
theorem returns_srcRx {elems : List S} {items : List VoxInp}
    (h : ∀ item ∈ items, item.1 < 0 ∨ item.1.toInt < elems.length) :
    (srcRx elems items).Returns := by
  induction items generalizing elems with
  | nil => exact Outcome.returns_returned _
  | cons item items ih =>
    rw [List.forall_mem_cons] at h
    obtain ⟨r, hr⟩ := returns_srcRxItem_iff.mpr h.1
    rw [srcRx, hr, Outcome.returned_bind]
    cases r with
    | error e => exact Outcome.returns_returned _
    | ok elems' =>
      refine ih fun item hitem => ?_
      rw [length_srcRxItem hr]
      exact h.2 item hitem

end Playback

/-! ### The events -/

/-- The `match` of `udp_recv_loop` on the type of a packet: only OPUS is passed on. -/
def udpRecv (packet : AudioInPacket) : Option VoxInp :=
  match packet.type_ with
  | 0b100 => some (packet.session, packet.pcm, packet.pos)
  | 0b001 => none -- Ping
  | 0b000 => none -- CELT Alpha
  | 0b010 => none -- Speex
  | 0b111 => none -- dropped
  | _ => none

theorem udpRecv_of_ne {packet : AudioInPacket} (h : packet.type_ ≠ 0b100) :
    udpRecv packet = none := by
  unfold udpRecv
  split
  · exact absurd ‹_› h
  all_goals rfl

/-- What can happen to the client. -/
inductive Event (A : Type) where
  | control (frame : Frame)
  | datagram (addr : A) (buf : Bytes)
  | outgoing (addr : A) (packet : AudioOutPacket)
  deriving DecidableEq, Repr

/-- What the client does to the outside: a sound for `src_rx`, a datagram for the server. -/
structure Output (A : Type) where
  vox : Option VoxInp
  sent : Option (A × Bytes)
  deriving DecidableEq, Repr

variable [OpusEncoder E] [OpusDecoder D] [CryptState K] [HashMap M UInt64 Remote]

/-- The client, over the state of its codec, which has the session and the crypt state in it. -/
def client (pb : CodedInputStream) (fr : FailedRead) :
    Machine (AudioPacketCodec E D K M) (Event A) (Output A) where
  step c event :=
    match event with
    | .control frame => do
      let (session, crypt) ← dispatch pb frame.1 frame.2 c.session c.crypt
      return ({ c with session, crypt }, ⟨none, none⟩)
    | .datagram addr buf => do
      let (r, c) ← decode fr c addr buf
      match r with
      | .ok (_socket, packet) => return (c, ⟨udpRecv packet, none⟩)
      -- `decode` never comes here; the error would end the loop
      | .error _ => return (c, ⟨none, none⟩)
    | .outgoing addr packet => do
      let (datagram, c) ← encode c addr packet []
      return (c, ⟨none, some datagram⟩)

variable {pb : CodedInputStream} {fr : FailedRead} {c c' : AudioPacketCodec E D K M}
  {o : Output A}

/-- A control frame does what it says to the session and the crypt state, and nothing else. -/
theorem client_control {frame : Frame}
    (h : (client pb fr).step c (.control frame : Event A) = .returned (c', o)) :
    ∃ msg, control pb frame = .returned msg ∧
      (c'.session, c'.crypt) = msg.apply (c.session, c.crypt) ∧
      c'.opusDecoders = c.opusDecoders ∧ o.vox = none := by
  simp only [client, Outcome.bind_eq_returned, dispatch_eq_returned, Outcome.pure_eq,
    Outcome.returned.injEq, Prod.mk.injEq] at h
  obtain ⟨s, ⟨msg, hmsg, hs⟩, rfl, rfl⟩ := h
  exact ⟨msg, hmsg, hs, rfl, rfl⟩

/-- A packet that goes out changes neither the session nor the decoders. -/
theorem client_outgoing {addr : A} {packet : AudioOutPacket}
    (h : (client pb fr).step c (.outgoing addr packet) = .returned (c', o)) :
    c'.session = c.session ∧ c'.opusDecoders = c.opusDecoders ∧ o.vox = none := by
  simp only [client, encode, Outcome.bind_eq_returned, Outcome.pure_eq,
    Outcome.returned.injEq, Prod.mk.injEq] at h
  obtain ⟨_, ⟨⟨data, c₁⟩, hdata, rfl⟩, rfl, rfl⟩ := h
  obtain ⟨hdecoders, hsession, -⟩ := encodeData_frame hdata
  exact ⟨hsession, hdecoders, rfl⟩

/-- **What a datagram can do.** A voice packet is heard, and the decoder of its session is
advanced; any other packet changes nothing but the crypt state. -/
theorem client_datagram {addr : A} {buf : Bytes}
    (h : (client pb fr).step c (.datagram addr buf) = .returned (c', o)) :
    c'.session = c.session ∧ c'.crypt = cryptAfter c.crypt buf ∧
      ((∃ v fresh, readVoice fr (plaintext c.crypt buf) = .returned v ∧ v.audType = 0b100 ∧
          OpusDecoder.new 16000 .mono = .ok fresh ∧
          o.vox = some (sessionIndex c.session v.session,
            (decodeSegments (decoderOf c.opusDecoders v.session fresh) v.segments).pcm,
            ⟨0, 0, 0⟩) ∧
          ∀ s, HashMap.get? c'.opusDecoders s = if s = v.session then
              some (decodeSegments (decoderOf c.opusDecoders v.session fresh) v.segments).decoder
            else HashMap.get? c.opusDecoders s) ∨
        ∃ h rest, plaintext c.crypt buf = h :: rest ∧ audType h ≠ 0b100 ∧ o.vox = none ∧
          c'.opusDecoders = c.opusDecoders) := by
  simp only [client, Outcome.bind_eq_returned, Prod.exists] at h
  obtain ⟨r, c₁, hdecode, h⟩ := h
  obtain ⟨hsession, hcrypt, packet, rfl, hcases⟩ := decode_cases hdecode
  obtain ⟨rfl, rfl⟩ := Prod.mk.inj (Outcome.returned.inj h)
  refine ⟨hsession, hcrypt, ?_⟩
  rcases hcases with ⟨v, fresh, hv, htype, hfresh, rfl, hget⟩ | ⟨b, rest, hdata, hb, rfl, hdecoders⟩
  · exact .inl ⟨v, fresh, hv, htype, hfresh, rfl, hget⟩
  · exact .inr ⟨b, rest, hdata, hb,
      udpRecv_of_ne fun htype => hb (UInt8.toUInt32_inj.mp htype), hdecoders⟩

/-! ### Voice packets -/

/-- The OPUS packet a step receives, if it receives one: its session and its plaintext. -/
def opusPacket (fr : FailedRead) (t : Step (AudioPacketCodec E D K M) (Event A) (Output A)) :
    Option (UInt64 × Bytes) :=
  match t.event with
  | .datagram _ buf =>
    let data := plaintext t.pre.crypt buf
    match readVoice fr data with
    | .returned v => if v.audType = 0b100 then some (v.session, data) else none
    | .panicked => none
  | _ => none

/-- **What a step does to the decoders.** An OPUS packet is decoded with the decoder of its session,
a new one if there is none, and nothing but that decoder is touched. Any other step leaves the
decoders alone and passes on nothing. -/
theorem client_opusPacket {t : Step (AudioPacketCodec E D K M) (Event A) (Output A)}
    (hstep : (client pb fr).step t.pre t.event = .returned (t.post, t.output)) :
    (∃ v fresh data, opusPacket fr t = some (v.session, data) ∧ readVoice fr data = .returned v ∧
        OpusDecoder.new 16000 .mono = .ok fresh ∧
        t.post.session = t.pre.session ∧
        t.output.vox = some (sessionIndex t.pre.session v.session,
          (decodeSegments (decoderOf t.pre.opusDecoders v.session fresh) v.segments).pcm,
          ⟨0, 0, 0⟩) ∧
        ∀ s, HashMap.get? t.post.opusDecoders s = if s = v.session then
            some (decodeSegments (decoderOf t.pre.opusDecoders v.session fresh) v.segments).decoder
          else HashMap.get? t.pre.opusDecoders s) ∨
      (opusPacket fr t = none ∧ t.output.vox = none ∧
        t.post.opusDecoders = t.pre.opusDecoders) := by
  cases hevent : t.event with
  | control frame =>
    rw [hevent] at hstep
    obtain ⟨_, -, -, hdecoders, hvox⟩ := client_control hstep
    exact .inr ⟨by simp only [opusPacket, hevent], hvox, hdecoders⟩
  | outgoing addr packet =>
    rw [hevent] at hstep
    obtain ⟨-, hdecoders, hvox⟩ := client_outgoing hstep
    exact .inr ⟨by simp only [opusPacket, hevent], hvox, hdecoders⟩
  | datagram addr buf =>
    rw [hevent] at hstep
    obtain ⟨hsession, -, hcases⟩ := client_datagram hstep
    rcases hcases with
      ⟨v, fresh, hv, htype, hfresh, hvox, hget⟩ | ⟨h, rest, hdata, hh, hvox, hsame⟩
    · exact .inl ⟨v, fresh, _, by simp only [opusPacket, hevent, hv, if_pos htype], hv, hfresh,
        hsession, hvox, hget⟩
    · refine .inr ⟨?_, hvox, hsame⟩
      simp only [opusPacket, hevent]
      cases hv : readVoice fr (plaintext t.pre.crypt buf) with
      | panicked => rfl
      | returned v =>
        obtain ⟨_, _, _, _, hcons, htype, -⟩ := readVoice_eq_returned.mp hv
        obtain ⟨rfl, -⟩ := List.cons.inj (hdata.symm.trans hcons)
        exact if_neg fun hv => hh (htype.trans hv)

end MumbleBot
