import MumbleBot.ControlRuns
import MumbleBot.ReactorProgress
import MumbleBot.VoiceRoundTrip

/-!
# What does not depend on the order of events

A run of `cmd` handles control frames, datagrams and packets in an order that depends on when it is
polled and on where the reads and the writes are cut. Who is there does not depend on it, and nor
does what goes out, up to the crypt state it is encrypted with. The frames say who is there, and
they are read off the bytes of the stream in one way only; the encoder does with the packets what it
would do with them alone.

## Main definitions

* `Cut` — the frames in some bytes
* `sentWith`, `ciphertext` — what a step sends, and what a plaintext is encrypted to

## Main results

* `Cut.unique`, `exists_cut` — any bytes are cut in exactly one way
* `encoder_follows` — the encoder goes along with the client
* `Reactor.cmd_users` — who is there after everything has been handled
* `Reactor.cmd_encoded` — what has been given to the socket
-/

namespace MumbleBot

/-! ### Cutting bytes into frames -/

/-- A frame is told from its bytes, whatever follows. -/
theorem frameBytes_append_inj {frame frame' : Frame} {t t' : Bytes}
    (hlen : frame.2.length < 2 ^ 32) (hlen' : frame'.2.length < 2 ^ 32)
    (h : frameBytes frame ++ t = frameBytes frame' ++ t') : frame = frame' ∧ t = t' := by
  have hflat : [frameBytes frame ++ t].flatten = frameBytes frame ++ t := List.flatten_singleton
  obtain ⟨pieces, hread, ht⟩ := readFrame_append hlen hflat
  obtain ⟨pieces', hread', ht'⟩ := readFrame_append hlen' (hflat.trans h)
  obtain ⟨rfl, rfl⟩ := Prod.mk.inj (Except.ok.inj (hread.symm.trans hread'))
  exact ⟨rfl, ht.symm.trans ht'⟩

/-- The frames that are whole in the bytes, and the part of one more behind them. -/
structure Cut (bytes : Bytes) (frames : List Frame) (part : Bytes) : Prop where
  length_lt : ∀ frame ∈ frames, frame.2.length < 2 ^ 32
  incomplete : Reactor.Incomplete part
  bytes_eq : bytes = frames.flatMap frameBytes ++ part

theorem Cut.unique {bytes part part' : Bytes} {frames frames' : List Frame}
    (h : Cut bytes frames part) (h' : Cut bytes frames' part') : frames = frames' := by
  obtain ⟨hlen, hpart, rfl⟩ := h
  obtain ⟨hlen', hpart', heq⟩ := h'
  induction frames generalizing frames' with
  | nil =>
    cases frames' with
    | nil => rfl
    | cons frame' frames' =>
      rw [List.forall_mem_cons] at hlen'
      rw [List.flatMap_cons, List.append_assoc] at heq
      exact absurd heq (hpart frame' _ hlen'.1)
  | cons frame frames ih =>
    rw [List.forall_mem_cons] at hlen
    rw [List.flatMap_cons, List.append_assoc] at heq
    cases frames' with
    | nil => exact absurd heq.symm (hpart' frame _ hlen.1)
    | cons frame' frames' =>
      rw [List.forall_mem_cons] at hlen'
      rw [List.flatMap_cons, List.append_assoc] at heq
      obtain ⟨rfl, hrest⟩ := frameBytes_append_inj hlen.1 hlen'.1 heq
      rw [ih hlen.2 hlen'.2 hrest]

/-- The induction is on the length of the bytes: a frame is at least as long as its head. -/
theorem exists_cut (bytes : Bytes) : ∃ frames part, Cut bytes frames part := by
  induction hn : bytes.length using Nat.strong_induction_on generalizing bytes with
  | _ n ih =>
    by_cases hpart : Reactor.Incomplete bytes
    · exact ⟨[], bytes, by simp, hpart, rfl⟩
    · simp only [Reactor.Incomplete, not_forall, not_not] at hpart
      obtain ⟨frame, rest, hlen, rfl⟩ := hpart
      have hlt : rest.length < n := by
        rw [← hn, frameBytes, List.length_append, List.length_append, List.length_append,
          length_toBigEndian]
        omega
      obtain ⟨frames, part, hcut⟩ := ih rest.length hlt rest rfl
      refine ⟨frame :: frames, part, List.forall_mem_cons.mpr ⟨hlen, hcut.length_lt⟩,
        hcut.incomplete, ?_⟩
      rw [List.flatMap_cons, List.append_assoc, ← hcut.bytes_eq]

/-! ### The codec -/

variable {E D K M A S : Type}

section Encoder

variable {c c' c₁ : AudioPacketCodec E D K M} {packet : AudioOutPacket} {data : Bytes}

/-- The plaintext depends on nothing but the encoder and the sequence number. -/
theorem encodeData_congr [OpusEncoder E] (hencoder : c₁.opusEncoder = c.opusEncoder)
    (hseq : c₁.encoderSequence = c.encoderSequence)
    (h : encodeData c packet = .returned (data, c')) :
    ∃ c₁', encodeData c₁ packet = .returned (data, c₁') ∧
      c₁'.opusEncoder = c'.opusEncoder ∧ c₁'.encoderSequence = c'.encoderSequence := by
  by_cases hping : packet.type_ = 0b001
  · rw [encodeData_ping c hping] at h
    obtain ⟨rfl, rfl⟩ := Prod.mk.inj (Outcome.returned.inj h)
    exact ⟨c₁, encodeData_ping c₁ hping, hencoder, hseq⟩
  · by_cases hvoice : packet.type_ = 0b100
    · obtain ⟨frame, hframe, hlt, rfl, rfl⟩ := (encodeData_voice hvoice).mp h
      rw [← hencoder] at hframe
      rw [← hseq] at hlt
      refine ⟨_, (encodeData_voice hvoice).mpr ⟨frame, hframe, hlt, by rw [hseq], rfl⟩, ?_, ?_⟩
      · rw [hencoder]
      · rw [hseq]
    · simp [encodeData, hping, hvoice] at h

/-- Decoding leaves the encoder alone. -/
theorem decodeData_encoder_kept [OpusDecoder D] [HashMap M UInt64 Remote] {fr : FailedRead}
    {addr : A} {r : Except IoError (A × AudioInPacket)}
    (h : decodeData fr c addr data = .returned (r, c')) :
    c'.opusEncoder = c.opusEncoder ∧ c'.encoderSequence = c.encoderSequence := by
  cases data with
  | nil => simp [decodeData] at h
  | cons b rest =>
    by_cases hb : audType b = 0b100
    · cases hv : readVoice fr (b :: rest) with
      | panicked => simp [decodeData_of_readVoice_panicked c addr hb hv] at h
      | returned v =>
        obtain ⟨fresh, hfresh⟩ := OpusDecoder.new_16000_mono (D := D)
        obtain ⟨_, _, _, _, hcons, htype, -⟩ := readVoice_eq_returned.mp hv
        obtain ⟨rfl, -⟩ := List.cons.inj hcons
        obtain ⟨decoders, hdecode, -⟩ := decodeData_voice c addr hfresh hv (htype.symm.trans hb)
        obtain ⟨rfl, rfl⟩ := Prod.mk.inj (Outcome.returned.inj (hdecode.symm.trans h))
        exact ⟨rfl, rfl⟩
    · rw [decodeData_other fr c addr b rest hb] at h
      obtain ⟨rfl, rfl⟩ := Prod.mk.inj (Outcome.returned.inj h)
      exact ⟨rfl, rfl⟩

/-- The datagram a step sends, if it sends one, and the crypt state before the step. -/
def sentWith (t : Step (AudioPacketCodec E D K M) (Event A) (Output A)) : Option (K × A × Bytes) :=
  t.output.sent.map (t.pre.crypt, ·)

theorem map_sentWith (ts : List (Step (AudioPacketCodec E D K M) (Event A) (Output A))) :
    (ts.filterMap sentWith).map Prod.snd = (ts.map Step.output).filterMap Output.sent := by
  rw [List.map_filterMap, List.filterMap_map]
  refine congrArg (List.filterMap · ts) (funext fun t => ?_)
  show (t.output.sent.map (t.pre.crypt, ·)).map Prod.snd = t.output.sent
  rw [Option.map_map]
  exact Option.map_id'

end Encoder

variable [OpusEncoder E] [OpusDecoder D] [CryptState K] [HashMap M UInt64 Remote]
  {pb : CodedInputStream} {fr : FailedRead}

/-! ### Who is there -/

section Users

variable {c c' : AudioPacketCodec E D K M} {o : Output A}

/-- What an event does to the session is what its frame does to it, if it is one. -/
theorem client_session {event : Event A}
    (h : (client pb fr).step c event = .returned (c', o)) :
    (∃ frame, event.control? = some frame ∧
        (dispatcher pb).step (c.session, c.crypt) frame = .returned ((c'.session, c'.crypt), ())) ∨
      event.control? = none ∧ c'.session = c.session := by
  cases event with
  | control frame =>
    obtain ⟨msg, hmsg, happly, -⟩ := client_control h
    exact .inl ⟨frame, rfl, dispatcher_step_eq_returned.mpr ⟨msg, hmsg, happly⟩⟩
  | datagram addr buf => exact .inr ⟨rfl, (client_datagram h).1⟩
  | outgoing addr packet => exact .inr ⟨rfl, (client_outgoing h).1⟩

/-- A part of the session that each control frame overwrites or leaves alone is, after a run of the
client, what the last of its control frames has written to it. -/
theorem client_register {τ : Type} {f : Session M → τ} {w : Frame → Option τ}
    (hstep : ∀ (s s' : Session M × K) frame u, (dispatcher pb).step s frame = .returned (s', u) →
      f s'.1 = (w frame).getD (f s.1)) {es : List (Event A)}
    (h : (client pb fr).run c es = .returned c') :
    f c'.session = Machine.lastWritten w (f c.session) (es.filterMap Event.control?) := by
  have hrun := Machine.run_register (m := client pb fr)
    (f := fun c : AudioPacketCodec E D K M => f c.session)
    (w := fun event : Event A => event.control?.bind w) ?_ h
  · rw [hrun, Machine.lastWritten, Machine.lastWritten, List.filterMap_filterMap]
  · intro c event c' o hclient
    rcases client_session hclient with ⟨frame, hframe, hdispatch⟩ | ⟨hnone, hsession⟩
    · rw [hframe]
      exact hstep _ _ _ _ hdispatch
    · rw [hnone, hsession]
      rfl

/-- Who is there after a run of the client depends on its control frames alone. -/
theorem client_users {es : List (Event A)} (h : (client pb fr).run c es = .returned c')
    (hc : c.session = Session.initial) (k : UInt64) :
    k ∈ HashMap.keys c'.session.remotes ↔
      ((es.filterMap Event.control?).filterMap (naming pb k)).getLast? = some true := by
  have hkeys := client_register (f := fun session : Session M => k ∈ HashMap.keys session.remotes)
    (w := fun frame => (naming pb k frame).map (· = true))
    (fun _ _ _ _ hdispatch => mem_keys_step k hdispatch) h
  rw [hkeys, Machine.lastWritten, ← List.map_filterMap, List.getLast?_map, hc]
  cases ((es.filterMap Event.control?).filterMap (naming pb k)).getLast? with
  | none => simp [Session.initial]
  | some b => simp

/-- And so does the session of the client itself. -/
theorem client_local {es : List (Event A)} (h : (client pb fr).run c es = .returned c')
    (hc : c.session = Session.initial) :
    c'.session.local_.id
      = (((es.filterMap Event.control?).filterMap (synced pb)).getLast?).getD 0 := by
  have hlocal := client_register (f := fun session : Session M => session.local_.id)
    (fun _ _ _ _ hdispatch => local_step hdispatch) h
  rw [hlocal, hc]
  rfl

end Users

/-! ### What goes out -/

section Encoded

variable {c c' : AudioPacketCodec E D K M} {packet : AudioOutPacket}

/-- What a plaintext is encrypted to; without a key nothing but zeros is sent. -/
def ciphertext (crypt : K) (data : Bytes) : Bytes :=
  let enc := List.replicate (data.length + 4) 0
  if CryptState.isValid crypt then (CryptState.encrypt crypt data enc).1 else enc

theorem client_encodes {addr : A} {o : Output A}
    (h : (client pb fr).step c (.outgoing addr packet) = .returned (c', o)) :
    ∃ data c₁, encodeData c packet = .returned (data, c₁) ∧
      o.sent = some (addr, ciphertext c.crypt data) ∧
      c'.opusEncoder = c₁.opusEncoder ∧ c'.encoderSequence = c₁.encoderSequence := by
  simp only [client, encode, Outcome.bind_eq_returned, Outcome.pure_eq, Outcome.returned.injEq,
    Prod.mk.injEq] at h
  obtain ⟨_, ⟨⟨data, c₁⟩, hdata, rfl⟩, rfl, rfl⟩ := h
  obtain ⟨-, -, hcrypt⟩ := encodeData_frame hdata
  refine ⟨data, c₁, hdata, ?_, rfl, rfl⟩
  rw [ciphertext, ← hcrypt]
  split_ifs <;> rfl

/-- Control frames and datagrams send nothing and leave the encoder alone. -/
theorem client_encoder_kept {event : Event A} {o : Output A} (hevent : event.outgoing? = none)
    (h : (client pb fr).step c event = .returned (c', o)) :
    c'.opusEncoder = c.opusEncoder ∧ c'.encoderSequence = c.encoderSequence ∧ o.sent = none := by
  cases event with
  | control frame =>
    obtain ⟨_, -, h⟩ := Outcome.bind_eq_returned.mp h
    obtain ⟨rfl, rfl⟩ := Prod.mk.inj (Outcome.returned.inj h)
    exact ⟨rfl, rfl, rfl⟩
  | datagram addr buf =>
    obtain ⟨⟨r, c₁⟩, hdecode, h⟩ := Outcome.bind_eq_returned.mp h
    obtain ⟨_, -, hdecode⟩ := Outcome.bind_eq_returned.mp hdecode
    obtain ⟨hencoder, hseq⟩ := decodeData_encoder_kept hdecode
    cases r <;> obtain ⟨rfl, rfl⟩ := Prod.mk.inj (Outcome.returned.inj h)
    · exact ⟨hencoder, hseq, rfl⟩
    · exact ⟨hencoder, hseq, rfl⟩
  | outgoing addr packet => cases hevent

/-- **The encoder follows the client**, whatever else the client handles. The crypt states are not
related: the client's is also changed by what it receives. -/
theorem encoder_follows :
    (encoder : Machine (AudioPacketCodec E D K M) (A × AudioOutPacket) Bytes).Follows
      (client pb fr : Machine (AudioPacketCodec E D K M) (Event A) (Output A))
      (fun c c₁ => c₁.opusEncoder = c.opusEncoder ∧ c₁.encoderSequence = c.encoderSequence)
      Event.outgoing? sentWith fun t x => x.2 = (t.event.1, ciphertext x.1 t.output) := by
  rintro ⟨c, event, o, c'⟩ hstep c₁ ⟨hencoder, hseq⟩
  constructor
  · rintro ⟨addr, packet⟩ hevent
    obtain rfl : event = .outgoing addr packet := by
      cases event <;> cases hevent
      rfl
    obtain ⟨data, c₂, hdata, hsent, hencoder', hseq'⟩ := client_encodes hstep
    obtain ⟨c₃, hdata₃, hencoder₃, hseq₃⟩ := encodeData_congr hencoder hseq hdata
    exact ⟨data, _, _, encoder_step_eq_returned.mpr ⟨c₃, _, hdata₃, rfl, rfl⟩,
      ⟨hencoder₃.trans hencoder'.symm, hseq₃.trans hseq'.symm⟩, congrArg _ hsent, rfl⟩
  · intro hevent
    obtain ⟨hencoder', hseq', hsent⟩ := client_encoder_kept hevent hstep
    exact ⟨⟨hencoder.trans hencoder'.symm, hseq.trans hseq'.symm⟩, congrArg _ hsent⟩

end Encoded

namespace Reactor

section Users

variable [AppSrc S] (S pb fr) (addr : A) (random : UInt16)

/-- **Who is there after a run that ends with a poll** depends on the bytes of the stream alone. If
the connection is past the greeting and `cmd` still waits, the users that are there are those that
the last frame naming them has announced, among the whole frames of all bytes that have come in,
and the session of the client is that of the last `ServerSync` among them; when the tasks have been
polled, how the bytes were cut, and what datagrams and packets came between them is all the same. -/
theorem cmd_users (text : SslError → String) (first : Handshake) (opusEncoder : E) (outAddr : A)
    (es : List (Future.TaskEvent (Change A))) :
    (((cmd text random pb fr addr : Future (Reactor E D K M A) (CmdState A S) _ _).task change).run
      (.notReady (startCmd first), start (.initial opusEncoder) outAddr) (es ++ [.poll])).Ends True
        fun rw => ∀ s src, rw.1 = .notReady (.inl (.inr s), src) → ∀ frames part,
          Cut (readBytes ((es.filterMap Future.TaskEvent.change?).filterMap Change.read?))
            frames part →
          (∀ k, k ∈ HashMap.keys rw.2.codec.session.remotes ↔
            (frames.filterMap (naming pb k)).getLast? = some true) ∧
          rw.2.codec.session.local_.id = ((frames.filterMap (synced pb)).getLast?).getD 0 := by
  refine (cmd_task_poll S random addr pb fr (.initial opusEncoder) text first outAddr es).mono
    (fun _ => trivial) ?_
  rintro ⟨r, w⟩ ⟨hr, hcame, hwaits⟩ s src hs frames part hcut
  obtain rfl : r = _ := hs
  have hheld := (CmdInv.held hr).1
  obtain ⟨_, -, hlen, -⟩ := hheld.accounts.control
  obtain ⟨part', hpart, hbytes⟩ := (settled_of_waits hr (hwaits _ rfl) hcame).control
  obtain rfl := hcut.unique ⟨hlen, hpart, hbytes⟩
  exact ⟨fun k => client_users hheld.ran.1 rfl k, client_local hheld.ran.1 rfl⟩

/-- The frame that has come in whole announces the user 5. -/
theorem cmd_users_one : ∃ s src w, runOnce (.initial ⟨⟩)
      = .returned (.notReady (.inl (.inr s), src), w) ∧
    (∀ k, k ∈ HashMap.keys w.codec.session.remotes ↔
      ([(9, [8, 5])].filterMap (naming wireFormat k)).getLast? = some true) ∧
    w.codec.session.local_.id = 0 := by
  have husers := cmd_users (E := PcmBytes) (D := FrameCounter) (K := TagCrypt)
    (M := AssocMap UInt64 Remote) Played wireFormat .stay () 0 (fun _ => "ssl")
    (.error .interrupted) ⟨⟩ () oneOfEach
  have hpast : inTasks (runOnce (.initial ⟨⟩)) = true := by decide +kernel
  obtain ⟨s, src, w, hrun⟩ := exists_of_inTasks hpast
  have hpart : Incomplete [0, 3] := incomplete_of_length_lt (by decide)
  rw [runOnce] at hrun
  rw [hrun] at husers
  exact ⟨s, src, w, hrun, husers s src rfl [(9, [8, 5])] [0, 3] ⟨by decide, hpart, by decide⟩⟩

end Users

section Encoded

variable [AppSrc S] (S pb fr) (c : AudioPacketCodec E D K M) (addr : A) (random : UInt16)

/-- **What has been given to the socket after any run**, with the datagram that waits for it, is
one datagram for each of the first packets that were submitted, in order: what the encoder makes of
these packets alone, whatever frames and datagrams were handled between them, encrypted with the
crypt state of the moment. The encoder and the sequence number are where these packets leave them,
and no packet is left out but one that waits and those that are still in the channel. -/
theorem cmd_encoded (text : SslError → String) (first : Handshake) (outAddr : A)
    (es : List (Future.TaskEvent (Change A))) :
    (((cmd text random pb fr addr : Future (Reactor E D K M A) (CmdState A S) _ _).task change).run
      (.notReady (startCmd first), start c outAddr) es).Ends True
        fun rw => ∃ (taken : List AudioOutPacket) (waiting : Option AudioOutPacket)
            (datagrams : List (K × A × Bytes)) (c' : AudioPacketCodec E D K M),
          rw.2.udpOut.submitted = taken ++ (waiting.toList ++ rw.2.udpOut.rx) ∧
          encoder.run c (taken.map (addr, ·)) = .returned c' ∧
          ((client pb fr).trace c rw.2.events).filterMap sentWith = datagrams ∧
          List.Forall₂ (fun t x => x.2 = (t.event.1, ciphertext x.1 t.output))
            (encoder.trace c (taken.map (addr, ·))) datagrams ∧
          rw.2.udpOut.sent.map Prod.fst ++ unflushed rw.2.udpOut = datagrams.map Prod.snd ∧
          rw.2.codec.opusEncoder = c'.opusEncoder ∧
          rw.2.codec.encoderSequence = c'.encoderSequence ∧
          c'.encoderSequence.toNat
            = c.encoderSequence.toNat + voiceCount (taken.map (addr, ·)) := by
  refine (cmd_task S pb fr c addr random text first outAddr es).mono (fun _ => trivial) ?_
  rintro ⟨r, w⟩ ⟨hr, -⟩
  have hheld : Held pb fr c addr random w := by
    cases r with
    | notReady s => exact (CmdInv.held hr).1
    | ready a => exact hr.elim
    | failed e => exact hr.1
  obtain ⟨⟨hrun, houtputs⟩, ⟨-, -, _, hspoken⟩, ⟨-, hsent, -⟩, -⟩ := hheld
  obtain ⟨taken, waiting, htaken, hsub⟩ := hspoken.submitted
  obtain ⟨c', hencoder, ⟨hopus, hseq⟩, hall⟩ := encoder_follows.run ⟨rfl, rfl⟩ hrun
  have hdatagrams := map_sentWith ((client pb fr).trace c w.events)
  rw [events, houtputs, List.filterMap_map] at hdatagrams
  rw [events] at htaken
  rw [← htaken] at hencoder hall
  exact ⟨taken, waiting, _, c', hsub, hencoder, rfl, hall, (hdatagrams.trans hsent).symm,
    hopus.symm, hseq.symm, encoder_run_sequence hencoder⟩

end Encoded

end Reactor

end MumbleBot
