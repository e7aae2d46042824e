import MumbleBot.Client
import MumbleBot.VoiceRoundTrip

/-!
# Playback slots

The index that `decode` gives a voice packet, and that `src_rx` uses to pick a source, is the place
of the session in the current enumeration of the remote users. Two things follow from that. The
place is fixed only while nobody comes or goes. And there are as many places as users, while there
are sixteen sources.

## Main definitions

* `VoiceFrom` — a step that receives a voice packet of a given session
* `NobodyMoves` — a step in which nobody is announced, and nobody who is there is removed
* `InStay` — two voice packets of one stay of a user

## Main results

* `sessionIndex_ne` — different users have different indices
* `slot_of_user` — while nobody comes or goes, a user has a slot of their own
* `exists_sessionIndex_remove_ne` — of two users, one leaves and the other is moved
* `forwarded_index_lt` — the indices that have a source, exactly
-/

namespace MumbleBot

variable {E D K M A S : Type} [OpusEncoder E] [OpusDecoder D] [CryptState K]
  [HashMap M UInt64 Remote] {pb : CodedInputStream} {fr : FailedRead}

/-! ### The index of a session -/

/-- `as i32` keeps places apart. -/
theorem int32_ofNat_inj {n m : ℕ} (hn : n < 2 ^ 32) (hm : m < 2 ^ 32)
    (h : Int32.ofNat n = Int32.ofNat m) : n = m := by
  have := congrArg (fun x => x.toBitVec.toNat) h
  simp at this
  omega

/-- No place but the last possible one is taken for `-1`. -/
theorem int32_ofNat_ne_neg_one {n : ℕ} (hn : n < 2 ^ 32 - 1) : Int32.ofNat n ≠ -1 := by
  intro h
  have := congrArg (fun x => x.toBitVec.toNat) h
  simp at this
  omega

theorem sessionIndex_of_indexOf {session : Session M} {s : UInt64} {n : ℕ}
    (h : HashMap.indexOf session.remotes s = some n) : sessionIndex session s = Int32.ofNat n := by
  rw [sessionIndex, h]
  rfl

theorem sessionIndex_of_not_mem {session : Session M} {s : UInt64}
    (h : s ∉ HashMap.keys session.remotes) : sessionIndex session s = -1 := by
  rw [sessionIndex, HashMap.indexOf_of_not_mem h]
  rfl

/-- Nobody shares the index of a user: not another user, and not a session that is unknown. -/
theorem sessionIndex_ne {session : Session M} {s u : UInt64}
    (hlen : HashMap.len session.remotes < 2 ^ 32) (hu : u ∈ HashMap.keys session.remotes)
    (hne : s ≠ u) : sessionIndex session s ≠ sessionIndex session u := by
  have hindex := HashMap.indexOf_of_mem hu
  have hlt := HashMap.indexOf_lt hindex
  rw [sessionIndex_of_indexOf hindex]
  by_cases hs : s ∈ HashMap.keys session.remotes
  · have hindex' := HashMap.indexOf_of_mem hs
    have hlt' := HashMap.indexOf_lt hindex'
    rw [sessionIndex_of_indexOf hindex']
    intro heq
    have hplace := int32_ofNat_inj (by omega) (by omega) heq
    exact hne (HashMap.indexOf_inj hindex' (hplace ▸ hindex))
  · rw [sessionIndex_of_not_mem hs]
    exact (int32_ofNat_ne_neg_one (by omega)).symm

/-! ### Slots -/

/-- A step that receives a voice packet of the session `s`. -/
def VoiceFrom (fr : FailedRead) (t : Step (AudioPacketCodec E D K M) (Event A) (Output A))
    (s : UInt64) : Prop :=
  ∃ addr buf v, t.event = .datagram addr buf ∧
    readVoice fr (plaintext t.pre.crypt buf) = .returned v ∧ v.audType = 0b100 ∧ v.session = s

omit [OpusEncoder E] [OpusDecoder D] [HashMap M UInt64 Remote] in
/-- The packet of a step is what `VoiceFrom` says. -/
theorem voiceFrom_iff {s : UInt64} {t : Step (AudioPacketCodec E D K M) (Event A) (Output A)} :
    VoiceFrom fr t s ↔ ∃ data, opusPacket fr t = some (s, data) := by
  constructor
  · rintro ⟨addr, buf, v, hevent, hv, htype, rfl⟩
    exact ⟨plaintext t.pre.crypt buf, by simp only [opusPacket, hevent, hv, if_pos htype]⟩
  · rintro ⟨data, h⟩
    cases hevent : t.event with
    | control frame => simp [opusPacket, hevent] at h
    | outgoing addr packet => simp [opusPacket, hevent] at h
    | datagram addr buf =>
      simp only [opusPacket, hevent] at h
      cases hv : readVoice fr (plaintext t.pre.crypt buf) with
      | panicked => simp [hv] at h
      | returned v =>
        simp only [hv] at h
        split_ifs at h with htype
        obtain ⟨hs, -⟩ := Prod.mk.inj (Option.some.inj h)
        exact ⟨addr, buf, v, hevent, hv, htype, hs⟩

/-- A voice packet is passed on under the index of its session. -/
theorem vox_of_voiceFrom {t : Step (AudioPacketCodec E D K M) (Event A) (Output A)} {s : UInt64}
    (hstep : (client pb fr).step t.pre t.event = .returned (t.post, t.output))
    (h : VoiceFrom fr t s) :
    ∃ item, t.output.vox = some item ∧ item.1 = sessionIndex t.pre.session s := by
  obtain ⟨data, hpacket⟩ := voiceFrom_iff.mp h
  rcases client_opusPacket hstep with
    ⟨v, fresh, data', hpacket', -, -, -, hvox, -⟩ | ⟨hnone, -, -⟩
  · obtain ⟨rfl, -⟩ := Prod.mk.inj (Option.some.inj (hpacket.symm.trans hpacket'))
    exact ⟨_, hvox, rfl⟩
  · rw [hpacket] at hnone
    cases hnone

/-- What is passed on is a voice packet, under the index of its session. -/
theorem voiceFrom_of_vox {t : Step (AudioPacketCodec E D K M) (Event A) (Output A)}
    (hstep : (client pb fr).step t.pre t.event = .returned (t.post, t.output)) {item : VoxInp}
    (hvox : t.output.vox = some item) :
    ∃ s, VoiceFrom fr t s ∧ item.1 = sessionIndex t.pre.session s := by
  rcases client_opusPacket hstep with
    ⟨v, fresh, data, hpacket, -, -, -, hsome, -⟩ | ⟨-, hnone, -⟩
  · refine ⟨v.session, voiceFrom_iff.mpr ⟨data, hpacket⟩, ?_⟩
    rw [← Option.some.inj (hsome.symm.trans hvox)]
  · rw [hvox] at hnone
    cases hnone

/-- A step in which nobody is announced, and nobody who is there is removed. -/
def NobodyMoves (pb : CodedInputStream)
    (t : Step (AudioPacketCodec E D K M) (Event A) (Output A)) : Prop :=
  ∀ frame, t.event = .control frame → ∀ k, naming pb k frame = none ∨
    naming pb k frame = some false ∧ k ∉ HashMap.keys t.pre.session.remotes

/-- A frame that announces nobody, and removes nobody who is there, leaves the users alone. -/
theorem remotes_apply {frame : Frame} {msg : Control} (hmsg : control pb frame = .returned msg)
    {s : Session M × K} (hquiet : ∀ k, naming pb k frame = none ∨
      naming pb k frame = some false ∧ k ∉ HashMap.keys s.1.remotes) :
    (msg.apply s).1.remotes = s.1.remotes := by
  cases msg with
  | userState id =>
    have hid : naming pb id frame = some true := by simp [naming, hmsg]
    have hfalse := hquiet id
    simp [hid] at hfalse
  | userRemove id =>
    have hid : naming pb id frame = some false := by simp [naming, hmsg]
    rcases hquiet id with hnone | ⟨-, hid'⟩
    · rw [hid] at hnone
      cases hnone
    · exact HashMap.remove_of_not_mem hid'
  | serverSync id => rfl
  | cryptSetup setup => rfl
  | other => rfl

/-- A step changes the users only through a frame that announces somebody, or removes somebody who
is there. -/
theorem remotes_step {t : Step (AudioPacketCodec E D K M) (Event A) (Output A)}
    (hstep : (client pb fr).step t.pre t.event = .returned (t.post, t.output))
    (hquiet : NobodyMoves pb t) : t.post.session.remotes = t.pre.session.remotes := by
  cases hevent : t.event with
  | control frame =>
    rw [hevent] at hstep
    obtain ⟨msg, hmsg, hpost, -, -⟩ := client_control hstep
    have hremotes := congrArg (fun s : Session M × K => s.1.remotes) hpost
    exact hremotes.trans
      (remotes_apply (s := (t.pre.session, t.pre.crypt)) hmsg (hquiet frame hevent))
  | datagram addr buf =>
    rw [hevent] at hstep
    rw [(client_datagram hstep).1]
  | outgoing addr packet =>
    rw [hevent] at hstep
    rw [(client_outgoing hstep).1]

/-- In a session of at least two users there is one whose removal moves another one, whatever order
the map has. -/
theorem exists_sessionIndex_remove_ne {session : Session M} {crypt : K}
    (h : 2 ≤ HashMap.len session.remotes) (hlen : HashMap.len session.remotes < 2 ^ 32) :
    ∃ s ∈ HashMap.keys session.remotes, ∃ u ∈ HashMap.keys session.remotes, u ≠ s ∧
      sessionIndex (Control.apply (.userRemove s) (session, crypt)).1 u
        ≠ sessionIndex session u := by
  obtain ⟨s, hs, u, hu, hne, hmoved⟩ := HashMap.exists_indexOf_remove_ne h
  refine ⟨s, hs, u, hu, hne, fun heq => hmoved ?_⟩
  have hu' : u ∈ HashMap.keys (HashMap.remove session.remotes s) :=
    HashMap.mem_keys_remove.mpr ⟨hu, hne⟩
  have hindex := HashMap.indexOf_of_mem hu
  have hindex' := HashMap.indexOf_of_mem hu'
  have hlt := HashMap.indexOf_lt hindex
  have hlt' := HashMap.indexOf_lt hindex'
  have hremove := HashMap.len_remove_of_mem hs
  have hplaces : Int32.ofNat ((HashMap.keys (HashMap.remove session.remotes s)).idxOf u)
      = Int32.ofNat ((HashMap.keys session.remotes).idxOf u) := by
    rw [← sessionIndex_of_indexOf hindex, ← heq]
    exact (sessionIndex_of_indexOf hindex').symm
  rw [hindex, hindex', int32_ofNat_inj (by omega) (by omega) hplaces]

/-- Two voice packets of a run, of the sessions `s` and `s'`, with the steps `w` between them. The
user `u` is there from the one to the other, and at least one of the two is theirs. -/
structure InStay (fr : FailedRead)
    (steps : List (Step (AudioPacketCodec E D K M) (Event A) (Output A))) (u : UInt64)
    (t : Step (AudioPacketCodec E D K M) (Event A) (Output A))
    (w : List (Step (AudioPacketCodec E D K M) (Event A) (Output A)))
    (t' : Step (AudioPacketCodec E D K M) (Event A) (Output A)) (s s' : UInt64) : Prop where
  segment : ∃ a b, steps = a ++ ((t :: w ++ [t']) ++ b)
  there : ∀ x ∈ t :: w ++ [t'], u ∈ HashMap.keys x.pre.session.remotes
  voice : VoiceFrom fr t s
  voice' : VoiceFrom fr t' s'
  own : s = u ∨ s' = u

/-- A voice packet leaves the users alone. -/
theorem remotes_of_voiceFrom {t : Step (AudioPacketCodec E D K M) (Event A) (Output A)}
    {s : UInt64} (hstep : (client pb fr).step t.pre t.event = .returned (t.post, t.output))
    (h : VoiceFrom fr t s) : t.post.session.remotes = t.pre.session.remotes := by
  obtain ⟨addr, buf, -, hevent, -⟩ := h
  refine remotes_step hstep fun frame hframe => ?_
  rw [hevent] at hframe
  cases hframe

/-- Two voice packets of a stay in which nobody comes or goes between them have the same index
exactly when they are of the same user. -/
theorem slot_eq_iff {c : AudioPacketCodec E D K M} {events : List (Event A)} {u s s' : UInt64}
    {t t' : Step (AudioPacketCodec E D K M) (Event A) (Output A)}
    {w : List (Step (AudioPacketCodec E D K M) (Event A) (Output A))}
    (h : InStay fr ((client pb fr).trace c events) u t w t' s s')
    (hlen : HashMap.len t.pre.session.remotes < 2 ^ 32)
    (hquiet : ∀ x ∈ w, NobodyMoves pb x) :
    ∃ item item', t.output.vox = some item ∧ t'.output.vox = some item' ∧
      (item.1 = item'.1 ↔ s = s') := by
  obtain ⟨a, b, htrace⟩ := h.segment
  have hstep : ∀ x ∈ t :: w ++ [t'], (client pb fr).step x.pre x.event
      = .returned (x.post, x.output) := fun x hx =>
    Machine.step_of_mem_trace (by
      rw [htrace]
      exact List.mem_append_right _ (List.mem_append_left _ hx))
  have ht : t ∈ t :: w ++ [t'] := List.mem_cons_self
  have ht' : t' ∈ t :: w ++ [t'] := List.mem_append_right _ (List.mem_singleton_self t')
  have hkeep : ∀ x ∈ t :: w ++ [t'], x.post.session.remotes = x.pre.session.remotes := by
    intro x hx
    rcases List.mem_append.mp hx with hx' | hx'
    · rcases List.mem_cons.mp hx' with rfl | hw
      · exact remotes_of_voiceFrom (hstep x hx) h.voice
      · exact remotes_step (hstep x hx) (hquiet x hw)
    · obtain rfl := List.mem_singleton.mp hx'
      exact remotes_of_voiceFrom (hstep x hx) h.voice'
  obtain ⟨remotes, hremotes⟩ := Machine.exists_const_of_segment
    (f := fun c : AudioPacketCodec E D K M => c.session.remotes) htrace hkeep
  obtain ⟨item, hvox, hitem⟩ := vox_of_voiceFrom (hstep t ht) h.voice
  obtain ⟨item', hvox', hitem'⟩ := vox_of_voiceFrom (hstep t' ht') h.voice'
  refine ⟨item, item', hvox, hvox', ?_⟩
  -- both indices are places in the one map there is from `t` to `t'`
  have hsame : sessionIndex t'.pre.session s' = sessionIndex t.pre.session s' := by
    rw [sessionIndex, sessionIndex, hremotes t ht, hremotes t' ht']
  rw [hitem, hitem', hsame]
  refine ⟨fun heq => ?_, fun heq => by rw [heq]⟩
  by_contra hne
  rcases h.own with rfl | rfl
  · exact sessionIndex_ne hlen (h.there t ht) (Ne.symm hne) heq.symm
  · exact sessionIndex_ne hlen (h.there t ht) hne heq

/-- **While nobody comes or goes, a user has a slot of their own.** In a run in which nobody is
announced, and nobody who is there removed, between two voice packets of one stay of the user `u`,
one of them their own, all voice packets of `u` in a stay have one index, and no packet of anybody
else has it. The condition is about coming and going as such: of any two users one can leave so that
another one is moved, whatever the order of the map. -/
theorem slot_of_user {c : AudioPacketCodec E D K M} {events : List (Event A)} {u : UInt64}
    (hquiet : ∀ t w t' s s', InStay fr ((client pb fr).trace c events) u t w t' s s' →
      HashMap.len t.pre.session.remotes < 2 ^ 32 ∧ ∀ x ∈ w, NobodyMoves pb x) :
    (∀ t w t' s s', InStay fr ((client pb fr).trace c events) u t w t' s s' →
      ∃ item item', t.output.vox = some item ∧ t'.output.vox = some item' ∧
        (item.1 = item'.1 ↔ s = s')) ∧
    ∀ (session : Session M) (crypt : K), 2 ≤ HashMap.len session.remotes →
      HashMap.len session.remotes < 2 ^ 32 →
      ∃ s ∈ HashMap.keys session.remotes, ∃ v ∈ HashMap.keys session.remotes, v ≠ s ∧
        sessionIndex (Control.apply (.userRemove s) (session, crypt)).1 v
          ≠ sessionIndex session v := by
  refine ⟨fun t w t' s s' h => ?_, fun session crypt => exists_sessionIndex_remove_ne⟩
  obtain ⟨hlen, hstill⟩ := hquiet t w t' s s' h
  exact slot_eq_iff h hlen hstill

/-- Two users come, and then each of them is heard; the first packet and the last one are of the
same user. -/
theorem slot_of_user_two :
    let steps := (client wireFormat .stay).trace (standInCodec [1, 2, 3, 4])
      [.control (9, [8, 7]), .control (9, [8, 5]), .datagram () [1, 2, 3, 4, 0b10000000, 5, 1],
        .datagram () [1, 2, 3, 4, 0b10000000, 7, 1], .datagram () [1, 2, 3, 4, 0b10000000, 5, 2]]
    ∃ t w t', steps.drop 2 = t :: w ++ [t'] ∧
      ∃ item item', t.output.vox = some item ∧ t'.output.vox = some item' ∧ item.1 = item'.1 := by
  intro steps
  have hcontrols : ∀ x ∈ steps.take 2, ∀ s, ¬ VoiceFrom .stay x s := by
    rintro x hx s ⟨addr, buf, v, hevent, -⟩
    have hx' : x.event ∈ (steps.take 2).map Step.event := List.mem_map_of_mem hx
    rw [hevent, show (steps.take 2).map Step.event = [.control (9, [8, 7]), .control (9, [8, 5])]
      from rfl] at hx'
    simp at hx'
  have hdatagrams : ∀ x ∈ steps.drop 2, ∀ frame, x.event ≠ .control frame := by
    intro x hx frame hevent
    have hx' : x.event ∈ (steps.drop 2).map Step.event := List.mem_map_of_mem hx
    rw [hevent, show (steps.drop 2).map Step.event
      = [.datagram () [1, 2, 3, 4, 0b10000000, 5, 1], .datagram () [1, 2, 3, 4, 0b10000000, 7, 1],
        .datagram () [1, 2, 3, 4, 0b10000000, 5, 2]] from rfl] at hx'
    simp at hx'
  have husers : ∀ x ∈ steps.drop 2, HashMap.len x.pre.session.remotes < 2 ^ 32 ∧
      5 ∈ HashMap.keys x.pre.session.remotes := by decide
  have hcount : steps.length = 5 := by decide
  have hsplit : steps.drop 2 = steps[2] :: [steps[3]] ++ [steps[4]] := rfl
  have hstay : InStay .stay steps 5 steps[2] [steps[3]] steps[4] 5 5 :=
    ⟨⟨steps.take 2, [], rfl⟩, fun x hx => (husers x (hsplit ▸ hx)).2,
      ⟨(), _, _, rfl, rfl, rfl, rfl⟩, ⟨(), _, _, rfl, rfl, rfl, rfl⟩, .inl rfl⟩
  have hquiet : ∀ t w t' s s', InStay .stay steps 5 t w t' s s' →
      HashMap.len t.pre.session.remotes < 2 ^ 32 ∧ ∀ x ∈ w, NobodyMoves wireFormat x := by
    rintro t w t' s s' ⟨⟨a, b, hsteps⟩, -, hvoice, -, -⟩
    have ha : 2 ≤ a.length := by
      by_contra hlt
      refine hcontrols t ?_ s hvoice
      rw [hsteps, List.take_append]
      obtain ⟨n, hn⟩ := Nat.exists_eq_succ_of_ne_zero (show 2 - a.length ≠ 0 by omega)
      simp [hn]
    have hmem : ∀ x ∈ t :: w, x ∈ steps.drop 2 := by
      intro x hx
      rw [hsteps, List.drop_append_of_le_length ha]
      exact List.mem_append_right _ (List.mem_append_left _ (List.mem_append_left _ hx))
    refine ⟨(husers t (hmem t List.mem_cons_self)).1, fun x hx frame hevent => ?_⟩
    exact absurd hevent (hdatagrams x (hmem x (List.mem_cons_of_mem _ hx)) frame)
  obtain ⟨item, item', hvox, hvox', heq⟩ := (slot_of_user hquiet).1 _ _ _ _ _ hstay
  exact ⟨_, _, _, hsplit, item, item', hvox, hvox', heq.mpr rfl⟩

/-- One user is heard, another one comes and is heard in the place of the first, who has moved;
when the other one leaves, the first moves back. -/
theorem slot_moves :
    let steps := (client wireFormat .stay).trace (standInCodec [1, 2, 3, 4])
      [.control (9, [8, 5]), .datagram () [1, 2, 3, 4, 0b10000000, 5, 1], .control (9, [8, 7]),
        .datagram () [1, 2, 3, 4, 0b10000000, 7, 1], .datagram () [1, 2, 3, 4, 0b10000000, 5, 2],
        .control (8, [8, 7]), .datagram () [1, 2, 3, 4, 0b10000000, 5, 3]]
    (∀ t ∈ steps.drop 1, 5 ∈ HashMap.keys t.pre.session.remotes) ∧
      steps.map (fun t => t.output.vox.map Prod.fst)
        = [none, some 0, none, some 0, some 1, none, some 0] := by
  decide

/-! ### Sources -/

/-- The index of a user has a source if at most sixteen users are there, and a session that is
unknown has a negative index. -/
theorem sessionIndex_lt {session : Session M} {s : UInt64}
    (h : s ∈ HashMap.keys session.remotes → HashMap.len session.remotes ≤ 16) :
    sessionIndex session s < 0 ∨ (sessionIndex session s).toInt < 16 := by
  by_cases hs : s ∈ HashMap.keys session.remotes
  · have hlen := h hs
    have hindex := HashMap.indexOf_of_mem hs
    have hlt := HashMap.indexOf_lt hindex
    rw [sessionIndex_of_indexOf hindex, Int32.toInt_ofNat_of_lt (by omega)]
    exact .inr (by omega)
  · rw [sessionIndex_of_not_mem hs]
    exact .inl (by decide)

/-- **Which indices have a source.** While at most sixteen users are there when one of them is
heard, whatever a run passes on has an index that is negative or has a source, and `src_rx` takes
all of it without a panic. In any state with more users there is a voice packet on which it
panics. -/
theorem forwarded_index_lt (S : Type) [AppSrc S] {c : AudioPacketCodec E D K M}
    {events : List (Event A)}
    (hlen : ∀ t ∈ (client pb fr).trace c events, ∀ s, VoiceFrom fr t s →
      s ∈ HashMap.keys t.pre.session.remotes → HashMap.len t.pre.session.remotes ≤ 16) :
    (∀ t ∈ (client pb fr).trace c events, ∀ item, t.output.vox = some item →
        item.1 < 0 ∨ item.1.toInt < 16) ∧
      (srcRx (srcPipeline : List S)
        (((client pb fr).trace c events).filterMap fun t => t.output.vox)).Returns ∧
      ∀ (c : AudioPacketCodec E D K M) (addr : A), 16 < HashMap.len c.session.remotes →
        ∃ data packet c' item, decodeData fr c addr data = .returned (.ok (addr, packet), c') ∧
          udpRecv packet = some item ∧ ¬ (srcRx (srcPipeline : List S) [item]).Returns := by
  have hindex : ∀ t ∈ (client pb fr).trace c events, ∀ item, t.output.vox = some item →
      item.1 < 0 ∨ item.1.toInt < 16 := by
    intro t ht item hvox
    obtain ⟨s, hvoice, hs⟩ := voiceFrom_of_vox (Machine.step_of_mem_trace ht) hvox
    rw [hs]
    exact sessionIndex_lt (hlen t ht s hvoice)
  refine ⟨hindex, returns_srcRx fun item hitem => ?_, fun c addr hmany => ?_⟩
  · obtain ⟨t, ht, hvox⟩ := List.mem_filterMap.mp hitem
    exact hindex t ht item hvox
  · obtain ⟨s, -, hs⟩ := HashMap.exists_indexOf_eq hmany
    obtain ⟨fresh, hfresh⟩ := OpusDecoder.new_16000_mono (D := D)
    have hread : readVoice fr (relay s (voicePlaintext 1 [])) = _ :=
      readVoice_relay fr s 1 (Nat.zero_le _)
    obtain ⟨decoders, hdecode, -⟩ := decodeData_voice c addr hfresh hread rfl
    refine ⟨_, _, _, _, hdecode, rfl, fun hreturns => ?_⟩
    rw [srcRx, Outcome.returns_bind] at hreturns
    obtain ⟨r, hr, -⟩ := hreturns
    have hsource := returns_srcRxItem_iff.mp ⟨r, hr⟩
    simp only [sessionIndex_of_indexOf hs] at hsource
    exact absurd hsource (by simp [srcPipeline])

/-- A user comes and is heard. -/
theorem forwarded_index_lt_one :
    let steps := (client wireFormat .stay).trace (standInCodec [1, 2, 3, 4])
      [.control (9, [8, 5]), .datagram () [1, 2, 3, 4, 0b10000000, 5, 1]]
    steps.map (fun t => t.output.vox.map Prod.fst) = [none, some 0] ∧
      (srcRx (srcPipeline : List Played) (steps.filterMap fun t => t.output.vox)).Returns := by
  intro steps
  have hfew : ∀ t ∈ steps, HashMap.len t.pre.session.remotes ≤ 16 := by decide
  exact ⟨by decide, (forwarded_index_lt Played fun t ht _ _ _ => hfew t ht).2.1⟩

/-- Seventeen users come, the first of them is heard, and there is no source for its index. -/
theorem srcRx_panics :
    let steps := (client wireFormat .stay).trace (standInCodec [1, 2, 3, 4])
      ((List.range 17).map (fun n => .control (9, [8, UInt8.ofNat n]))
        ++ [.datagram () [1, 2, 3, 4, 0b10000000, 0, 1]])
    steps.length = 18 ∧ (steps.filterMap fun t => t.output.vox.map Prod.fst) = [16] ∧
      ¬ (srcRx (srcPipeline : List Played) (steps.filterMap fun t => t.output.vox)).Returns := by
  decide

end MumbleBot
