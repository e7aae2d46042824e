import MumbleBot.Dispatch
import MumbleBot.Base.Bits

/-!
# `tcp.rs`: the control stream

A frame is a big-endian type, a big-endian length and a payload. `tcp_recv_loop` reads the three
parts one after another, hands the frame to its handler, and starts over. Where the stream is cut
into pieces by the transport does not matter: `tokioReadExact` puts them together again.

`layOut` is the other side, as `tcp_ping` and the first steps of `run` write their frames.

## Main definitions

* `tokioReadExact` — `read_exact` on a stream that arrives in pieces
* `readFrame`, `tcpRecvLoop` — the loop
* `layOut`, `frameBytes` — a frame as the client writes it

## Main results

* `readFrame_append`, `readFrame_prefix` — a whole frame, and one that is cut short
* `tcpRecvLoop_run` — the loop on a stream of frames is the run of its handlers
* `tcpRecvLoop_frames` — every frame once and in order, however the stream is cut
* `returns_tcpRecvLoop_iff` — exactly when the loop does not panic
-/

namespace MumbleBot

/-! ### Reading from pieces -/

/-- `tokio_io::io::read_exact` into a buffer of `n` bytes, on a stream that arrives in the given
pieces and then ends. A read takes as much of the first piece as there is room for; an empty piece
is a poll at which nothing was there. -/
def tokioReadExact (n : ℕ) : List Bytes → Except IoError (Bytes × List Bytes)
  | [] => if n = 0 then .ok ([], []) else .error .unexpectedEof
  | piece :: pieces =>
    if n ≤ piece.length then .ok (piece.take n, piece.drop n :: pieces)
    else do
      let (buf, pieces) ← tokioReadExact (n - piece.length) pieces
      return (piece ++ buf, pieces)

/-- The bytes that are read are the first of the stream, however it is cut. -/
theorem tokioReadExact_of_le {n : ℕ} {pieces : List Bytes} (h : n ≤ pieces.flatten.length) :
    ∃ pieces', tokioReadExact n pieces = .ok (pieces.flatten.take n, pieces') ∧
      pieces'.flatten = pieces.flatten.drop n := by
  induction pieces generalizing n with
  | nil =>
    obtain rfl : n = 0 := Nat.le_zero.mp h
    exact ⟨[], rfl, rfl⟩
  | cons piece pieces ih =>
    rw [List.flatten_cons, List.length_append] at h
    by_cases hn : n ≤ piece.length
    · refine ⟨piece.drop n :: pieces, ?_, ?_⟩
      · rw [tokioReadExact, if_pos hn, List.flatten_cons, List.take_append_of_le_length hn]
      · rw [List.flatten_cons, List.flatten_cons, List.drop_append_of_le_length hn]
    · obtain ⟨pieces', hread, hrest⟩ := ih (n := n - piece.length) (by omega)
      have hle : piece.length ≤ n := by omega
      refine ⟨pieces', ?_, ?_⟩
      · rw [tokioReadExact, if_neg hn, hread, List.flatten_cons, List.take_append,
          List.take_of_length_le hle]
        rfl
      · rw [hrest, List.flatten_cons, List.drop_append, List.drop_of_length_le hle,
          List.nil_append]

/-- A stream that ends too early is an error. -/
theorem tokioReadExact_of_lt {n : ℕ} {pieces : List Bytes} (h : pieces.flatten.length < n) :
    tokioReadExact n pieces = .error .unexpectedEof := by
  induction pieces generalizing n with
  | nil => exact if_neg (Nat.ne_of_gt h)
  | cons piece pieces ih =>
    rw [List.flatten_cons, List.length_append] at h
    rw [tokioReadExact, if_neg (by omega), ih (by omega)]
    rfl

/-- A part of the stream that is there is read whatever follows it. -/
theorem tokioReadExact_append {pieces : List Bytes} {p t : Bytes} (h : pieces.flatten = p ++ t) :
    ∃ pieces', tokioReadExact p.length pieces = .ok (p, pieces') ∧ pieces'.flatten = t := by
  have hle : p.length ≤ pieces.flatten.length := by
    rw [h, List.length_append]
    exact Nat.le_add_right _ _
  obtain ⟨pieces', hread, hrest⟩ := tokioReadExact_of_le hle
  exact ⟨pieces', by rw [hread, h, List.take_left], by rw [hrest, h, List.drop_left]⟩

theorem eq_append_of_tokioReadExact {n : ℕ} {pieces pieces' : List Bytes} {buf : Bytes}
    (h : tokioReadExact n pieces = .ok (buf, pieces')) :
    pieces.flatten = buf ++ pieces'.flatten ∧ buf.length = n := by
  rcases Nat.lt_or_ge pieces.flatten.length n with hn | hn
  · rw [tokioReadExact_of_lt hn] at h
    cases h
  · obtain ⟨pieces₁, hread, hrest⟩ := tokioReadExact_of_le hn
    obtain ⟨rfl, rfl⟩ := Prod.mk.inj (Except.ok.inj (hread.symm.trans h))
    exact ⟨by rw [hrest, List.take_append_drop], List.length_take_of_le hn⟩

/-! ### One frame -/

/-- The three reads of one turn: the type, the length, and the payload. -/
def readFrame (tcpSocketRx : List Bytes) : Except IoError (Frame × List Bytes) := do
  let (buf, tcpSocketRx) ← tokioReadExact 2 tcpSocketRx
  let mumType := UInt16.ofNat (ofBigEndian buf)
  let (buf, tcpSocketRx) ← tokioReadExact 4 tcpSocketRx
  let mumLength := UInt32.ofNat (ofBigEndian buf)
  let (buf, tcpSocketRx) ← tokioReadExact mumLength.toNat tcpSocketRx
  return ((mumType, buf), tcpSocketRx)

/-- A frame on the wire. -/
def frameBytes (frame : Frame) : Bytes :=
  toBigEndian 2 frame.1.toNat ++ (toBigEndian 4 frame.2.length ++ frame.2)

/-- The length field holds every length below `2 ^ 32`. -/
theorem toNat_mumLength {n : ℕ} (h : n < 2 ^ 32) :
    (UInt32.ofNat (ofBigEndian (toBigEndian 4 n))).toNat = n := by
  rw [ofBigEndian_toBigEndian h, UInt32.toNat_ofNat']
  exact Nat.mod_eq_of_lt h

/-- **A whole frame is read**, whatever follows it. -/
theorem readFrame_append {pieces : List Bytes} {frame : Frame} {t : Bytes}
    (hlen : frame.2.length < 2 ^ 32) (h : pieces.flatten = frameBytes frame ++ t) :
    ∃ pieces', readFrame pieces = .ok (frame, pieces') ∧ pieces'.flatten = t := by
  obtain ⟨mumType, payload⟩ := frame
  rw [frameBytes, List.append_assoc, List.append_assoc] at h
  obtain ⟨pieces₁, h₁, ht₁⟩ := tokioReadExact_append h
  obtain ⟨pieces₂, h₂, ht₂⟩ := tokioReadExact_append ht₁
  obtain ⟨pieces₃, h₃, ht₃⟩ := tokioReadExact_append ht₂
  rw [length_toBigEndian] at h₁ h₂
  have htype : UInt16.ofNat (ofBigEndian (toBigEndian 2 mumType.toNat)) = mumType := by
    rw [ofBigEndian_toBigEndian mumType.toNat_lt, UInt16.ofNat_toNat]
  refine ⟨pieces₃, ?_, ht₃⟩
  simp only [readFrame, h₁, bind, Except.bind, htype, h₂, toNat_mumLength hlen, h₃, pure,
    Except.pure]

theorem exists_eq_append_of_prefix {p a b : Bytes} (h : p <+: a ++ b) (hle : a.length ≤ p.length) :
    ∃ q, p = a ++ q ∧ q <+: b := by
  obtain ⟨q, rfl⟩ := List.prefix_of_prefix_length_le (List.prefix_append a b) h hle
  exact ⟨q, rfl, (List.prefix_append_right_inj a).mp h⟩

/-- **A frame that is cut short is an error**, wherever the cut is. -/
theorem readFrame_prefix {pieces : List Bytes} {frame : Frame} (hlen : frame.2.length < 2 ^ 32)
    (h : pieces.flatten <+: frameBytes frame) (hne : pieces.flatten ≠ frameBytes frame) :
    readFrame pieces = .error .unexpectedEof := by
  have htype := length_toBigEndian 2 frame.1.toNat
  have hlength := length_toBigEndian 4 frame.2.length
  rcases Nat.lt_or_ge pieces.flatten.length 2 with h₁ | h₁
  · simp only [readFrame, tokioReadExact_of_lt h₁, bind, Except.bind]
  obtain ⟨q₁, hq₁, hp₁⟩ := exists_eq_append_of_prefix h (by rwa [htype])
  obtain ⟨pieces₁, hread₁, ht₁⟩ := tokioReadExact_append hq₁
  rw [htype] at hread₁
  rcases Nat.lt_or_ge q₁.length 4 with h₂ | h₂
  · simp only [readFrame, hread₁, bind, Except.bind, tokioReadExact_of_lt (ht₁.symm ▸ h₂)]
  obtain ⟨q₂, hq₂, hp₂⟩ := exists_eq_append_of_prefix hp₁ (by rwa [hlength])
  obtain ⟨pieces₂, hread₂, ht₂⟩ := tokioReadExact_append (ht₁.trans hq₂)
  rw [hlength] at hread₂
  -- the header is complete, so it is the payload that is cut short
  have hlt : pieces₂.flatten.length < frame.2.length := by
    refine Nat.lt_of_le_of_ne (ht₂ ▸ hp₂.length_le) fun heq => hne ?_
    rw [hq₁, hq₂, ← ht₂, frameBytes, ht₂, hp₂.eq_of_length (ht₂ ▸ heq)]
  simp only [readFrame, hread₁, bind, Except.bind, hread₂, toNat_mumLength hlen,
    tokioReadExact_of_lt hlt]

/-- A frame that is read has been taken off the stream. -/
theorem readFrame_lt {pieces pieces' : List Bytes} {frame : Frame}
    (h : readFrame pieces = .ok (frame, pieces')) :
    pieces'.flatten.length < pieces.flatten.length := by
  simp only [readFrame, bind, Except.bind] at h
  split at h
  · cases h
  · next h₁ =>
    split at h
    · cases h
    · next h₂ =>
      split at h
      · cases h
      · next h₃ =>
        obtain ⟨hb₁, hl₁⟩ := eq_append_of_tokioReadExact h₁
        obtain ⟨hb₂, -⟩ := eq_append_of_tokioReadExact h₂
        obtain ⟨hb₃, -⟩ := eq_append_of_tokioReadExact h₃
        obtain ⟨-, rfl⟩ := Prod.mk.inj (Except.ok.inj h)
        rw [hb₁, hb₂, hb₃]
        simp only [List.length_append, hl₁]
        omega

/-! ### The loop -/

/-- The variables of `tcp_recv_loop`, the session and the crypt state it shares included, and the
frames its handler has been called with. -/
structure TcpRecv (M K : Type) where
  tcpSocketRx : List Bytes
  session : Session M
  crypt : K
  dispatched : List Frame

variable {K M : Type} [HashMap M UInt64 Remote] [CryptState K] (pb : CodedInputStream)

/-- One turn of the `loop_fn`: an error of a read ends it, and the reader is gone. -/
def tcpRecvTurn (s : TcpRecv M K) : Outcome (Turn (TcpRecv M K) (IoError × TcpRecv M K)) :=
  match readFrame s.tcpSocketRx with
  | .error e => return .break_ (e, { s with tcpSocketRx := [] })
  | .ok ((mumType, buf), tcpSocketRx) => do
    let (session, crypt) ← dispatch pb mumType buf s.session s.crypt
    return .continue_ ⟨tcpSocketRx, session, crypt, s.dispatched ++ [(mumType, buf)]⟩

/-- `tcp_recv_loop`. It only ever ends with an error. -/
def tcpRecvLoop : Loop (TcpRecv M K) (IoError × TcpRecv M K) where
  body := tcpRecvTurn pb
  left s := s.tcpSocketRx.flatten.length
  left_lt s s' h := by
    rw [tcpRecvTurn] at h
    cases hread : readFrame s.tcpSocketRx with
    | error e => simp [hread] at h
    | ok r =>
      obtain ⟨⟨mumType, buf⟩, rx⟩ := r
      simp only [hread, Outcome.bind_eq_returned, Outcome.pure_eq, Outcome.returned.injEq,
        Turn.continue_.injEq] at h
      obtain ⟨p, -, rfl⟩ := h
      exact readFrame_lt hread

/-- The loop on a stream of whole frames and a strict prefix of one more, however it is cut: the
handlers run in order, and if none of them panics the end of the stream is an error. -/
theorem tcpRecvLoop_run {frames : List Frame} {last : Frame} {part : Bytes}
    (hlen : ∀ frame ∈ last :: frames, frame.2.length < 2 ^ 32)
    (hpart : part <+: frameBytes last) (hne : part ≠ frameBytes last)
    {pieces : List Bytes} (h : pieces.flatten = frames.flatMap frameBytes ++ part)
    (session : Session M) (crypt : K) (dispatched : List Frame) :
    (tcpRecvLoop pb).run ⟨pieces, session, crypt, dispatched⟩
      = (fun s => (.unexpectedEof, ⟨[], s.1, s.2, dispatched ++ frames⟩)) <$>
        (dispatcher pb).run (session, crypt) frames := by
  rw [List.forall_mem_cons] at hlen
  induction frames generalizing pieces session crypt dispatched with
  | nil =>
    rw [List.flatMap_nil, List.nil_append] at h
    have hread := readFrame_prefix hlen.1 (h ▸ hpart) (h ▸ hne)
    have hbody : (tcpRecvLoop pb).body ⟨pieces, session, crypt, dispatched⟩
        = .returned (.break_ (.unexpectedEof, ⟨[], session, crypt, dispatched⟩)) := by
      simp only [tcpRecvLoop, tcpRecvTurn, hread]
      rfl
    rw [Loop.run_of_break _ hbody, Machine.run_nil, List.append_nil, Outcome.map_returned]
  | cons frame frames ih =>
    rw [List.forall_mem_cons] at hlen
    rw [List.flatMap_cons, List.append_assoc] at h
    obtain ⟨pieces', hread, hrest⟩ := readFrame_append hlen.2.1 h
    have hbody : (tcpRecvLoop pb).body ⟨pieces, session, crypt, dispatched⟩
        = dispatch pb frame.1 frame.2 session crypt >>= fun s =>
          .returned (.continue_ ⟨pieces', s.1, s.2, dispatched ++ [frame]⟩) := by
      simp only [tcpRecvLoop, tcpRecvTurn, hread]
      rfl
    cases hdispatch : dispatch pb frame.1 frame.2 session crypt with
    | panicked =>
      have hstep : (dispatcher pb).step (session, crypt) frame = .panicked := by
        simp only [dispatcher, hdispatch, Outcome.map_panicked]
      rw [hdispatch, Outcome.panicked_bind] at hbody
      rw [Loop.run_of_panicked _ hbody, Machine.run_cons_of_panicked hstep, Outcome.map_panicked]
    | returned s =>
      have hstep : (dispatcher pb).step (session, crypt) frame = .returned (s, ()) := by
        simp only [dispatcher, hdispatch, Outcome.map_returned]
      rw [hdispatch, Outcome.returned_bind] at hbody
      rw [Loop.run_of_continue _ hbody, Machine.run_cons_of_returned hstep,
        ih ⟨hlen.1, hlen.2.2⟩ hrest, List.append_assoc, List.singleton_append]

/-! ### Frames as the client writes them -/

/-- `(&mut buf[pos..]).write_all(bytes).unwrap()`. -/
def writeAt (buf : Bytes) (pos : ℕ) (bytes : Bytes) : Outcome Bytes :=
  if pos + bytes.length ≤ buf.length then
    .returned (buf.take pos ++ (bytes ++ buf.drop (pos + bytes.length)))
  else .panicked

/-- The frame of a message, as `tcp_ping`, the Version step and the Authenticate step lay it out
in a zeroed buffer; `message` is what `write_to_with_cached_sizes` writes. -/
def layOut (packetType : UInt16) (message : Bytes) : Outcome Bytes := do
  let s := UInt32.ofNat message.length
  let size ← Outcome.u32Add s 6
  let buf := List.replicate size.toNat 0
  let buf ← writeAt buf 0 (toBigEndian 2 packetType.toNat)
  let buf ← writeAt buf 2 (toBigEndian 4 s.toNat)
  writeAt buf 6 message

/-- Writing after what has been written, into the zeroes that are left. -/
theorem writeAt_append (a bytes : Bytes) {n : ℕ} (h : bytes.length ≤ n) :
    writeAt (a ++ List.replicate n 0) a.length bytes
      = .returned ((a ++ bytes) ++ List.replicate (n - bytes.length) 0) := by
  rw [writeAt, if_pos (by simpa using h), List.take_left, List.drop_append, List.drop_of_length_le
    (Nat.le_add_right _ _), Nat.add_sub_cancel_left, List.drop_replicate, List.nil_append,
    List.append_assoc]

/-- The client writes frames. -/
theorem layOut_eq {frame : Frame} (h : frame.2.length < 2 ^ 32 - 6) :
    layOut frame.1 frame.2 = .returned (frameBytes frame) := by
  obtain ⟨packetType, message⟩ := frame
  dsimp only at h ⊢
  have hs : (UInt32.ofNat message.length).toNat = message.length := by
    rw [UInt32.toNat_ofNat']
    omega
  have hsize : (UInt32.ofNat message.length + 6).toNat = 2 + (4 + message.length) := by
    rw [UInt32.toNat_add, hs]
    simp only [UInt32.reduceToNat]
    omega
  have h₁ := writeAt_append [] (toBigEndian 2 packetType.toNat) (n := 2 + (4 + message.length))
    (by simp)
  have h₂ := writeAt_append (toBigEndian 2 packetType.toNat) (toBigEndian 4 message.length)
    (n := 4 + message.length) (by simp)
  have h₃ := writeAt_append (toBigEndian 2 packetType.toNat ++ toBigEndian 4 message.length)
    message (Nat.le_refl _)
  simp only [List.length_append, length_toBigEndian, List.nil_append, List.length_nil,
    Nat.add_sub_cancel_left, Nat.sub_self, List.replicate_zero, List.append_nil] at h₁ h₂ h₃
  rw [layOut, Outcome.u32Add_of_lt (by rw [hs]; simp only [UInt32.reduceToNat]; omega)]
  simp only [Outcome.returned_bind, hsize, h₁, hs, h₂]
  rw [frameBytes, ← List.append_assoc]
  exact h₃

/-! ### Whole streams -/

/-- **Every frame is dispatched, once and in order.** On a stream of frames as the client lays them
out, with part of one more behind them, and however the stream is cut, the loop calls its handler
with exactly these frames and leaves the state their handlers leave; the end of the stream is an
error, and the frame that is cut short changes nothing. -/
theorem tcpRecvLoop_frames (frames : List Frame) (last : Frame) {part : Bytes}
    (hlen : ∀ frame ∈ last :: frames, frame.2.length < 2 ^ 32 - 6)
    (hpart : part <+: frameBytes last) (hne : part ≠ frameBytes last)
    {pieces : List Bytes} (h : pieces.flatten = frames.flatMap frameBytes ++ part)
    {session session' : Session M} {crypt crypt' : K}
    (hrun : (dispatcher pb).run (session, crypt) frames = .returned (session', crypt')) :
    (∀ frame ∈ last :: frames, layOut frame.1 frame.2 = .returned (frameBytes frame)) ∧
      (tcpRecvLoop pb).run ⟨pieces, session, crypt, []⟩
        = .returned (.unexpectedEof, ⟨[], session', crypt', frames⟩) := by
  refine ⟨fun frame hframe => layOut_eq (hlen frame hframe), ?_⟩
  have hlen' : ∀ frame ∈ last :: frames, frame.2.length < 2 ^ 32 := fun frame hframe =>
    Nat.lt_of_lt_of_le (hlen frame hframe) (Nat.sub_le _ _)
  rw [tcpRecvLoop_run pb hlen' hpart hne h, hrun, Outcome.map_returned, List.nil_append]

/-- Two users are announced, in pieces that fit neither the frames nor their parts, and a ping is
cut short behind them. -/
theorem tcpRecvLoop_frames_two :
    let pieces : List Bytes := [[0, 9, 0, 0, 0, 2, 8, 5, 0, 9], [], [0, 0, 0, 2, 8], [7, 0, 3, 0]]
    ∃ s : TcpRecv (AssocMap UInt64 Remote) TagCrypt,
      (tcpRecvLoop wireFormat).run ⟨pieces, Session.initial, CryptState.new, []⟩
        = .returned (.unexpectedEof, s) ∧
      s.dispatched = [(9, [8, 5]), (9, [8, 7])] ∧ HashMap.keys s.session.remotes = [7, 5] := by
  intro pieces
  have hpieces : pieces.flatten
      = [(9, [8, 5]), (9, [8, 7])].flatMap frameBytes ++ [0, 3, 0] := by decide
  have hrun : (dispatcher wireFormat).run
      ((Session.initial, CryptState.new) : Session (AssocMap UInt64 Remote) × TagCrypt)
      [(9, [8, 5]), (9, [8, 7])] = .returned (_, _) := rfl
  exact ⟨_, (tcpRecvLoop_frames wireFormat [(9, [8, 5]), (9, [8, 7])] (3, []) (by decide)
    (by decide) (by decide) hpieces hrun).2, rfl, rfl⟩

/-- **Exactly when the loop does not panic.** Whatever frames arrive and however they are cut, the
loop resolves, with an error at the end of the stream, exactly when every frame is accepted. -/
theorem returns_tcpRecvLoop_iff (frames : List Frame) (last : Frame) {part : Bytes}
    (hlen : ∀ frame ∈ last :: frames, frame.2.length < 2 ^ 32)
    (hpart : part <+: frameBytes last) (hne : part ≠ frameBytes last)
    {pieces : List Bytes} (h : pieces.flatten = frames.flatMap frameBytes ++ part)
    (session : Session M) (crypt : K) (dispatched : List Frame) :
    ((tcpRecvLoop pb).run ⟨pieces, session, crypt, dispatched⟩).Returns ↔
      ∀ frame ∈ frames, Accepted pb frame := by
  rw [tcpRecvLoop_run pb hlen hpart hne h, Outcome.returns_map]
  exact Machine.returns_run_iff (fun s frame => returns_dispatcher_step_iff pb frame s) _ frames

/-- A tunnelled OPUS packet is accepted, here with the cut inside the length. -/
theorem returns_tcpRecvLoop_tunnel :
    ((tcpRecvLoop wireFormat).run
      (⟨[[0, 1, 0], [0, 0, 1, 0b10000000]], Session.initial, CryptState.new, []⟩ :
        TcpRecv (AssocMap UInt64 Remote) TagCrypt)).Returns := by
  have hpieces : [[0, 1, 0], [0, 0, 1, 0b10000000]].flatten
      = [(1, [0b10000000])].flatMap frameBytes ++ [] := by decide
  refine (returns_tcpRecvLoop_iff wireFormat [(1, [0b10000000])] (1, []) (by decide) (by decide)
    (by decide) hpieces Session.initial CryptState.new []).mpr fun frame hframe => ?_
  obtain rfl := List.mem_singleton.mp hframe
  exact ⟨0b10000000, [], rfl, .inl rfl⟩

/-- The client at the start of a connection on which the bytes `stream` arrive. -/
def TcpRecv.receiving (stream : Bytes) : TcpRecv (AssocMap UInt64 Remote) TagCrypt :=
  ⟨[stream], Session.initial, CryptState.new, []⟩

/-- Frames that panic: a tunnelled packet of a type that is passed over when it comes as a
datagram, CELT and Speex; a tunnel frame without a payload; a `UserState` that does not parse. -/
theorem tcpRecvLoop_panics :
    ¬ ((tcpRecvLoop wireFormat).run (.receiving [0, 1, 0, 0, 0, 1, 0b00000000])).Returns ∧
      ¬ ((tcpRecvLoop wireFormat).run (.receiving [0, 1, 0, 0, 0, 1, 0b01000000])).Returns ∧
      ¬ ((tcpRecvLoop wireFormat).run (.receiving [0, 1, 0, 0, 0, 0])).Returns ∧
      ¬ ((tcpRecvLoop wireFormat).run (.receiving [0, 9, 0, 0, 0, 1, 0xFF])).Returns := by
  decide

end MumbleBot
