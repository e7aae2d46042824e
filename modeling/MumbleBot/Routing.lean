import MumbleBot.Speakers
import Mathlib.Data.List.Perm.Subperm

/-!
# From a datagram to a source

An OPUS packet passes through four hands: the control loop says who is there, `decode` looks up the
place of the packet's session among them, `udp_recv_loop` passes the sound on under that place, and
`src_rx` pushes it into the source of that place, unless the sign says that there is none.

The place travels as an `i32`. As long as every place is below `2 ^ 31` the sign means what it says,
and the whole way is a function of who was there when the packet arrived. With more users than that
the sign of a place is that of a stranger.

## Main definitions

* `playAll` — pushing sounds into the sources at their places
* `placed` — the place of the user a step hears, and their sound
* `announcement` — a frame that announces a user

## Main results

* `srcRx_eq_playAll` — `src_rx` without the sign
* `vox_routed` — what is passed on, and where it goes
-/

namespace MumbleBot

variable {E D K M A S : Type}

/-! ### Sounds with a place -/

section Playback

variable [AppSrc S]

/-- What `src_rx` takes an item for: the place and the samples, or nothing. -/
def kept (item : VoxInp) : Option (ℕ × Bytes) :=
  if item.1 ≥ 0 then some (item.1.toInt.toNat, item.2.1) else none

/-- Push each sound into the source at its place, until one does not take it. -/
def playAll (elems : List S) : List (ℕ × Bytes) → Outcome (Except Unit (List S))
  | [] => .returned (.ok elems)
  | (place, bytes) :: sounds => do
    let elem ← Outcome.get elems[place]?
    let (flow, elem) := AppSrc.pushBuffer elem bytes
    if flow ≠ .ok then return .error () else playAll (elems.set place elem) sounds

/-- `src_rx` plays what it keeps, in order, and does nothing else. -/
theorem srcRx_eq_playAll (elems : List S) (items : List VoxInp) :
    srcRx elems items = playAll elems (items.filterMap kept) := by
  induction items generalizing elems with
  | nil => rfl
  | cons item items ih =>
    obtain ⟨session, bytes, pos⟩ := item
    by_cases h : session ≥ 0
    · have hkept : kept (session, bytes, pos) = some (session.toInt.toNat, bytes) := if_pos h
      rw [List.filterMap_cons_some hkept, srcRx, srcRxItem, if_pos h, playAll, bind_assoc]
      refine bind_congr fun elem => ?_
      dsimp only
      split_ifs
      · rfl
      · exact ih _
    · have hkept : kept (session, bytes, pos) = none := if_neg h
      rw [List.filterMap_cons_none hkept, srcRx, srcRxItem, if_neg h]
      exact ih elems

end Playback

/-! ### The way of a packet -/

variable [OpusEncoder E] [OpusDecoder D] [CryptState K] [HashMap M UInt64 Remote]
  {pb : CodedInputStream} {fr : FailedRead}

/-- The place of the user a step hears, in the map as it is then, and the samples; nothing if the
session is not a user's. -/
def placed (fr : FailedRead) (t : Step (AudioPacketCodec E D K M) (Event A) (Output A)) :
    Option (ℕ × Bytes) :=
  (speakerOf fr t).bind fun s => (HashMap.indexOf t.pre.session.remotes s).bind fun place =>
    t.output.vox.map fun item => (place, item.2.1)

/-- A step passes on one item for the OPUS packet it receives, under the index of its session, and
none otherwise. -/
theorem vox_step {t : Step (AudioPacketCodec E D K M) (Event A) (Output A)}
    (hstep : (client pb fr).step t.pre t.event = .returned (t.post, t.output)) :
    (∃ s bytes pos, speakerOf fr t = some s ∧
        t.output.vox = some (sessionIndex t.pre.session s, bytes, pos)) ∨
      (speakerOf fr t = none ∧ t.output.vox = none) := by
  rcases client_opusPacket hstep with
    ⟨v, fresh, data, hpacket, -, -, -, hvox, -⟩ | ⟨hnone, hvox, -⟩
  · exact .inl ⟨v.session, _, _, by rw [speakerOf, hpacket]; rfl, hvox⟩
  · exact .inr ⟨by rw [speakerOf, hnone]; rfl, hvox⟩

theorem vox_index_step {t : Step (AudioPacketCodec E D K M) (Event A) (Output A)}
    (hstep : (client pb fr).step t.pre t.event = .returned (t.post, t.output)) :
    t.output.vox.map Prod.fst = (speakerOf fr t).map (sessionIndex t.pre.session) := by
  rcases vox_step hstep with ⟨s, bytes, pos, hs, hvox⟩ | ⟨hs, hvox⟩
  · rw [hs, hvox]
    rfl
  · rw [hs, hvox]
    rfl

/-- Below `2 ^ 31` users an index is `-1` for a stranger and a place for a user. -/
theorem sessionIndex_cases {session : Session M} (s : UInt64)
    (hlen : HashMap.len session.remotes ≤ 2 ^ 31) :
    (s ∉ HashMap.keys session.remotes ∧ sessionIndex session s = -1 ∧
        HashMap.indexOf session.remotes s = none) ∨
      ∃ place, s ∈ HashMap.keys session.remotes ∧
        HashMap.indexOf session.remotes s = some place ∧ place < HashMap.len session.remotes ∧
        (sessionIndex session s).toInt = place := by
  by_cases hs : s ∈ HashMap.keys session.remotes
  · have hindex := HashMap.indexOf_of_mem hs
    have hlt := HashMap.indexOf_lt hindex
    refine .inr ⟨_, hs, hindex, hlt, ?_⟩
    rw [sessionIndex_of_indexOf hindex, Int32.toInt_ofNat_of_lt (by omega)]
  · exact .inl ⟨hs, sessionIndex_of_not_mem hs, HashMap.indexOf_of_not_mem hs⟩

/-- The sign of an index tells a user from a stranger, and a user's index is in the range of the
places. -/
theorem sessionIndex_range {session : Session M} (s : UInt64)
    (hlen : HashMap.len session.remotes ≤ 2 ^ 31) :
    (sessionIndex session s = -1 ↔ s ∉ HashMap.keys session.remotes) ∧
      (s ∈ HashMap.keys session.remotes → 0 ≤ (sessionIndex session s).toInt ∧
        (sessionIndex session s).toInt < HashMap.len session.remotes) := by
  rcases sessionIndex_cases s hlen with ⟨hnot, hneg, -⟩ | ⟨place, hmem, -, hlt, hplace⟩
  · exact ⟨iff_of_true hneg hnot, fun hmem => absurd hmem hnot⟩
  · have hne : sessionIndex session s ≠ -1 := by
      intro hneg
      rw [hneg, show (-1 : Int32).toInt = -1 from rfl] at hplace
      omega
    refine ⟨iff_of_false hne (not_not_intro hmem), ?_⟩
    intro _
    omega

/-- What `src_rx` keeps of a step is the sound of a user, with their place. -/
theorem kept_step {t : Step (AudioPacketCodec E D K M) (Event A) (Output A)}
    (hstep : (client pb fr).step t.pre t.event = .returned (t.post, t.output))
    (hlen : ∀ s, speakerOf fr t = some s → HashMap.len t.pre.session.remotes ≤ 2 ^ 31) :
    t.output.vox.bind kept = placed fr t := by
  rcases vox_step hstep with ⟨s, bytes, pos, hs, hvox⟩ | ⟨hs, hvox⟩
  · rw [placed, hs, hvox, Option.bind_some, Option.bind_some, kept]
    rcases sessionIndex_cases s (hlen s hs) with ⟨-, hindex, hplace⟩ | ⟨place, -, hplace, -, hindex⟩
    · rw [hplace, hindex]
      rfl
    · have hnonneg : sessionIndex t.pre.session s ≥ 0 := by
        rw [ge_iff_le, Int32.le_iff_toInt_le, hindex]
        exact Int.natCast_nonneg place
      rw [hplace, if_pos hnonneg, hindex, Int.toNat_natCast]
      rfl
  · rw [placed, hs, hvox]
    rfl

/-- **Routing.** In a run in which at most `2 ^ 31` users are there when a packet is heard, one
item is passed on for each OPUS packet, in the order of arrival, and nothing else. Its index is `-1`
exactly if its session is not a user's, and otherwise it is a place; in the same session different
users have different indices, and a user has one. What `src_rx` plays of it all is the sounds of the
users, in order, each at its place. -/
theorem vox_routed (S : Type) [AppSrc S] {c : AudioPacketCodec E D K M} {events : List (Event A)}
    (hlen : ∀ t ∈ (client pb fr).trace c events, ∀ s, speakerOf fr t = some s →
      HashMap.len t.pre.session.remotes ≤ 2 ^ 31) :
    (∀ t ∈ (client pb fr).trace c events, t.output.vox.map Prod.fst
        = (speakerOf fr t).map (sessionIndex t.pre.session)) ∧
      (∀ t ∈ (client pb fr).trace c events, ∀ s, speakerOf fr t = some s →
        ∀ item, t.output.vox = some item →
          (item.1 = -1 ↔ s ∉ HashMap.keys t.pre.session.remotes) ∧
          (s ∈ HashMap.keys t.pre.session.remotes →
            0 ≤ item.1.toInt ∧ item.1.toInt < HashMap.len t.pre.session.remotes)) ∧
      (∀ t ∈ (client pb fr).trace c events, ∀ t' ∈ (client pb fr).trace c events,
        t.pre.session.remotes = t'.pre.session.remotes →
        ∀ s s', speakerOf fr t = some s → speakerOf fr t' = some s' →
          s ∈ HashMap.keys t.pre.session.remotes → s' ∈ HashMap.keys t'.pre.session.remotes →
          ∀ item item', t.output.vox = some item → t'.output.vox = some item' →
            (item.1 = item'.1 ↔ s = s')) ∧
      ∀ elems : List S,
        srcRx elems (((client pb fr).trace c events).filterMap fun t => t.output.vox)
          = playAll elems (((client pb fr).trace c events).filterMap (placed fr)) := by
  have hitem : ∀ t ∈ (client pb fr).trace c events, ∀ s, speakerOf fr t = some s →
      ∀ item, t.output.vox = some item → item.1 = sessionIndex t.pre.session s := by
    intro t ht s hs item hvox
    have h := vox_index_step (Machine.step_of_mem_trace ht)
    rw [hs, hvox] at h
    exact Option.some.inj h
  refine ⟨fun t ht => vox_index_step (Machine.step_of_mem_trace ht), ?_, ?_, ?_⟩
  · intro t ht s hs item hvox
    rw [hitem t ht s hs item hvox]
    exact sessionIndex_range s (hlen t ht s hs)
  · intro t ht t' ht' hremotes s s' hs hs' hu hu' item item' hvox hvox'
    have hsame : sessionIndex t'.pre.session s' = sessionIndex t.pre.session s' := by
      rw [sessionIndex, sessionIndex, hremotes]
    rw [hitem t ht s hs item hvox, hitem t' ht' s' hs' item' hvox', hsame]
    constructor
    · intro heq
      by_contra hne
      have hlt := hlen t ht s hs
      exact sessionIndex_ne (by omega) (hremotes ▸ hu') hne heq
    · intro heq
      rw [heq]
  · intro elems
    rw [srcRx_eq_playAll, List.filterMap_filterMap]
    congr 1
    refine List.filterMap_congr ?_
    intro t ht
    exact kept_step (Machine.step_of_mem_trace ht) (hlen t ht)

/-- A user is heard, then a stranger, and then the user who has left: the first of the three sounds
is played. -/
theorem vox_routed_three :
    let steps := (client wireFormat .stay).trace (standInCodec [1, 2, 3, 4])
      [.control (9, [8, 5]), .datagram () [1, 2, 3, 4, 0x80, 5, 1],
        .datagram () [1, 2, 3, 4, 0x80, 7, 1], .control (8, [8, 5]),
        .datagram () [1, 2, 3, 4, 0x80, 5, 2]]
    steps.map (fun t => t.output.vox.map Prod.fst)
        = [none, some 0, some (-1), none, some (-1)] ∧
      srcRx (srcPipeline : List Played) (steps.filterMap fun t => t.output.vox)
        = playAll srcPipeline [(0, [])] := by
  intro steps
  have hfew : ∀ t ∈ steps, HashMap.len t.pre.session.remotes ≤ 2 ^ 31 := by decide
  have hplaced : steps.filterMap (placed .stay) = [(0, [])] := by decide
  refine ⟨by decide, ?_⟩
  rw [(vox_routed Played fun t ht _ _ => hfew t ht).2.2.2 srcPipeline]
  exact congrArg (playAll srcPipeline) hplaced

/-! ### A crowd

There are `2 ^ 32` sessions that a `UserState` can announce, and that is more than an `i32` has
places for. -/

/-- The frame that announces the user `id`. -/
def announcement (id : UInt32) : Frame := (9, 0x08 :: rawVarintBytes 10 id.toNat)

theorem control_announcement (id : UInt32) :
    control wireFormat (announcement id) = .returned (.userState id.toUInt64) := by
  have hvarint : rawVarint 10 (rawVarintBytes 10 id.toNat) = .ok (id.toNat, []) := by
    have h := rawVarint_rawVarintBytes (n := 9) (v := id.toNat)
      (Nat.lt_of_lt_of_le id.toNat_lt (by decide)) []
    rwa [List.append_nil] at h
  have hfield : mergeField wireFormat Message.fields (Message.new : UserState)
      (0x08 :: rawVarintBytes 10 id.toNat) = .ok (some ⟨some id⟩, []) := by
    refine ProtobufReader.bind_eq_ok.mpr ⟨false, _, rfl, ?_⟩
    refine ProtobufReader.bind_eq_ok.mpr ⟨(1, .varint), rawVarintBytes 10 id.toNat, rfl, ?_⟩
    refine ProtobufReader.bind_eq_ok.mpr ⟨⟨some id⟩, [], ?_, rfl⟩
    refine ProtobufReader.bind_eq_ok.mpr ⟨(), _, rfl, ?_⟩
    refine ProtobufReader.bind_eq_ok.mpr ⟨id, [], ?_, rfl⟩
    refine ProtobufReader.bind_eq_ok.mpr ⟨id.toNat, [], hvarint, ?_⟩
    exact ProtobufReader.pure_eq_ok.mpr ⟨UInt32.ofNat_toNat, rfl⟩
  have hmerge : mergeFrom wireFormat Message.fields (Message.new : UserState)
      (0x08 :: rawVarintBytes 10 id.toNat) = .returned (.ok ⟨some id⟩) := by
    have hbody : (mergeLoop wireFormat Message.fields).body ((Message.new : UserState),
        0x08 :: rawVarintBytes 10 id.toNat) = .returned (.continue_ (⟨some id⟩, [])) := by
      simp only [mergeLoop, hfield]
    rw [mergeFrom, Loop.run_of_continue _ hbody]
    exact mergeFrom_nil wireFormat Message.fields (⟨some id⟩ : UserState)
  change (fun msg : UserState => Control.userState msg.getSession.toUInt64) <$>
    received UserState wireFormat (0x08 :: rawVarintBytes 10 id.toNat) = _
  rw [received_eq_returned.mpr hmerge]
  rfl

variable (fr) in
/-- Announcing some users makes them be there, and changes nothing but the session. -/
theorem run_announcements (c : AudioPacketCodec E D K M) (ids : List UInt32) :
    ∃ session : Session M,
      (client wireFormat fr).run c (ids.map fun id => (.control (announcement id) : Event A))
        = .returned { c with session } ∧
      (∀ s ∈ HashMap.keys c.session.remotes, s ∈ HashMap.keys session.remotes) ∧
      ∀ id ∈ ids, id.toUInt64 ∈ HashMap.keys session.remotes := by
  induction ids generalizing c with
  | nil => exact ⟨c.session, rfl, fun s hs => hs, by simp⟩
  | cons id ids ih =>
    obtain ⟨session, hrun, hkeep, hids⟩ := ih { c with session := { c.session with
      remotes := HashMap.insert c.session.remotes id.toUInt64 { id := id.toUInt64 } } }
    have hstep : (client wireFormat fr).step c (.control (announcement id) : Event A)
        = .returned ({ c with session := { c.session with
          remotes := HashMap.insert c.session.remotes id.toUInt64 { id := id.toUInt64 } } },
          ⟨none, none⟩) := by
      have hdispatch : dispatch wireFormat (announcement id).1 (announcement id).2 c.session c.crypt
          = .returned ({ c.session with
            remotes := HashMap.insert c.session.remotes id.toUInt64 { id := id.toUInt64 } },
            c.crypt) := dispatch_eq_returned.mpr ⟨_, control_announcement id, rfl⟩
      simp only [client, hdispatch]
      rfl
    refine ⟨session, ?_, ?_, List.forall_mem_cons.mpr ⟨?_, hids⟩⟩
    · rw [List.map_cons, Machine.run_cons_of_returned hstep, hrun]
    · intro s hs
      exact hkeep s (HashMap.mem_keys_insert.mpr (.inr hs))
    · exact hkeep _ (HashMap.mem_keys_insert.mpr (.inl rfl))

variable (fr) in
/-- A session can have any number of users that fit into a `u32`. -/
theorem exists_run_len (c : AudioPacketCodec E D K M) {n : ℕ} (hn : n ≤ 2 ^ 32) :
    ∃ (events : List (Event A)) (session : Session M),
      (client wireFormat fr).run c events = .returned { c with session } ∧
      n ≤ HashMap.len session.remotes := by
  have hinj : ∀ i ∈ List.range n, ∀ j ∈ List.range n,
      (UInt32.ofNat i).toUInt64 = (UInt32.ofNat j).toUInt64 → i = j := by
    intro i hi j hj heq
    have htoNat := congrArg UInt64.toNat heq
    rw [List.mem_range] at hi hj
    simp only [UInt32.toNat_toUInt64, UInt32.toNat_ofNat'] at htoNat
    omega
  obtain ⟨session, hrun, -, hids⟩ :=
    run_announcements fr (A := A) c ((List.range n).map UInt32.ofNat)
  refine ⟨_, session, hrun, ?_⟩
  have hnodup : ((List.range n).map fun i => (UInt32.ofNat i).toUInt64).Nodup :=
    List.Nodup.map_on hinj List.nodup_range
  have hsubset : (List.range n).map (fun i => (UInt32.ofNat i).toUInt64)
      ⊆ HashMap.keys session.remotes := by
    intro s hs
    obtain ⟨i, hi, rfl⟩ := List.mem_map.mp hs
    exact hids _ (List.mem_map_of_mem hi)
  have hle := (List.subperm_of_subset hnodup hsubset).length_le
  simpa using hle

/-- The stand-in cipher gives back what is behind its tag. -/
theorem plaintext_tagCrypt (key data : Bytes) (hkey : key ≠ []) :
    plaintext (CryptState.setKey CryptState.new key [] [] : TagCrypt) ([1, 2, 3, 4] ++ data)
      = data := by
  have hvalid : CryptState.isValid (CryptState.setKey CryptState.new key [] [] : TagCrypt) = true :=
    decide_eq_true hkey
  rw [plaintext, decryptInto, if_pos hvalid]
  exact List.take_left' (by simp)

/-- Whoever is there, there is a datagram on which any session is heard. -/
theorem exists_step_hear (session : Session (AssocMap UInt64 Remote)) (s : UInt64) :
    ∃ (buf : Bytes) (t : Step (AudioPacketCodec PcmBytes FrameCounter TagCrypt
        (AssocMap UInt64 Remote)) (Event Unit) (Output Unit)) (item : VoxInp),
      t.pre = { standInCodec [1, 2, 3, 4] with session } ∧ t.event = .datagram () buf ∧
      (client wireFormat .stay).step t.pre t.event = .returned (t.post, t.output) ∧
      speakerOf .stay t = some s ∧ t.output.vox = some item ∧ item.1 = sessionIndex session s := by
  let c := { standInCodec [1, 2, 3, 4] with session }
  let buf := [1, 2, 3, 4] ++ relay s (voicePlaintext 1 [])
  have hread : readVoice .stay (relay s (voicePlaintext 1 [])) = _ :=
    readVoice_relay .stay s 1 (Nat.zero_le _)
  have hdata : plaintext c.crypt buf = relay s (voicePlaintext 1 []) :=
    plaintext_tagCrypt [1, 2, 3, 4] _ (by decide)
  obtain ⟨fresh, hfresh⟩ := OpusDecoder.new_16000_mono (D := FrameCounter)
  obtain ⟨decoders, hdecode, -⟩ :=
    decodeData_voice { c with crypt := cryptAfter c.crypt buf } () hfresh hread rfl
  obtain ⟨packet, c', hdec, htype, hsession⟩ : ∃ packet c',
      decode .stay c () buf = .returned (.ok ((), packet), c') ∧ packet.type_ = 0b100 ∧
        packet.session = sessionIndex session s := by
    rw [decode_eq .stay c () (show 4 ≤ buf.length by simp [buf]), hdata, hdecode]
    exact ⟨_, _, rfl, rfl, rfl⟩
  have hvox : udpRecv packet = some (packet.session, packet.pcm, packet.pos) := by
    rw [udpRecv, htype]
    rfl
  let t : Step _ (Event Unit) (Output Unit) := ⟨c, .datagram () buf, ⟨udpRecv packet, none⟩, c'⟩
  have hv := (congrArg (readVoice .stay) hdata).trans hread
  have hvoice : VoiceFrom .stay t s := ⟨(), buf, _, rfl, hv, rfl, rfl⟩
  obtain ⟨data, hpacket⟩ := voiceFrom_iff.mp hvoice
  refine ⟨buf, t, (packet.session, packet.pcm, packet.pos), rfl, rfl, ?_, ?_, hvox, hsession⟩
  · simp only [t, client, hdec]
    rfl
  · rw [speakerOf, hpacket]
    rfl

/-- In a crowd of `2 ^ 31 + 1` users there is one who is heard and passed on as a stranger: the
index is negative, and `src_rx` does nothing with it. -/
theorem user_as_stranger :
    ∃ (events : List (Event Unit)) (s : UInt64) (buf : Bytes)
      (t : Step (AudioPacketCodec PcmBytes FrameCounter TagCrypt (AssocMap UInt64 Remote))
        (Event Unit) (Output Unit)) (item : VoxInp),
      (client wireFormat .stay).run (standInCodec [1, 2, 3, 4]) events = .returned t.pre ∧
      t.event = .datagram () buf ∧
      (client wireFormat .stay).step t.pre t.event = .returned (t.post, t.output) ∧
      speakerOf .stay t = some s ∧ s ∈ HashMap.keys t.pre.session.remotes ∧
      t.output.vox = some item ∧ item.1 < 0 ∧
      ∀ elems : List Played, srcRx elems [item] = .returned (.ok elems) := by
  obtain ⟨events, session, hrun, hlen⟩ := exists_run_len .stay (A := Unit)
    (standInCodec [1, 2, 3, 4]) (n := 2 ^ 31 + 1) (by decide)
  obtain ⟨s, hs, hplace⟩ := HashMap.exists_indexOf_eq (Nat.lt_of_succ_le hlen)
  obtain ⟨buf, t, item, hpre, hevent, hstep, hspeaker, hvox, hitem⟩ := exists_step_hear session s
  have hneg : item.1 < 0 := by
    rw [hitem, sessionIndex_of_indexOf hplace]
    decide
  refine ⟨events, s, buf, t, item, hpre ▸ hrun, hevent, hstep, hspeaker, ?_, hvox, hneg, ?_⟩
  · rwa [hpre]
  · intro elems
    have hkept : kept item = none := if_neg (Int32.not_le.mpr hneg)
    rw [srcRx_eq_playAll, List.filterMap_cons_none hkept]
    rfl

end MumbleBot
