import MumbleBot.Dispatch

/-!
# What the control messages leave behind

The session and the crypt state after any sequence of control frames, in terms of the frames
alone. Each part of the state is a register: who is there, the client's own session, and the three
parts of the crypt state. The session follows the law of a register. The crypt state does not:
`CryptSetup` writes all three parts, and an absent one is written as an empty string.

## Main definitions

* `naming`, `synced`, `supplied` — what a frame writes to which register
* `CryptPart` — the three parts of the crypt state

## Main results

* `session_run` — the session after a run
* `crypt_run_iff` — exactly when the crypt state follows what was supplied
-/

namespace MumbleBot

variable {K M : Type} [HashMap M UInt64 Remote] [CryptState K] {pb : CodedInputStream}

/-! ### Who is there -/

/-- Whether the frame announces the user `s` or removes them, if it names them. -/
def naming (pb : CodedInputStream) (s : UInt64) (frame : Frame) : Option Bool :=
  match control pb frame with
  | .returned (.userState id) => if id = s then some true else none
  | .returned (.userRemove id) => if id = s then some false else none
  | _ => none

/-- The session of the client that the frame sets, if it is a `ServerSync`. -/
def synced (pb : CodedInputStream) (frame : Frame) : Option UInt64 :=
  match control pb frame with
  | .returned (.serverSync id) => some id
  | _ => none

/-- What a frame writes about a user is whether they are there afterwards. -/
theorem mem_keys_step {frame : Frame} {s s' : Session M × K} {u : Unit} (k : UInt64)
    (h : (dispatcher pb).step s frame = .returned (s', u)) :
    (k ∈ HashMap.keys s'.1.remotes)
      = ((naming pb k frame).map (· = true)).getD (k ∈ HashMap.keys s.1.remotes) := by
  obtain ⟨msg, hmsg, rfl⟩ := dispatcher_step_eq_returned.mp h
  simp only [naming, hmsg]
  cases msg with
  | userState id =>
    rcases eq_or_ne id k with rfl | hk
    · simp [Control.apply]
    · simp [Control.apply, hk, hk.symm]
  | userRemove id =>
    rcases eq_or_ne id k with rfl | hk
    · simp [Control.apply]
    · simp [Control.apply, hk, hk.symm]
  | serverSync id => rfl
  | cryptSetup setup => rfl
  | other => rfl

theorem local_step {frame : Frame} {s s' : Session M × K} {u : Unit}
    (h : (dispatcher pb).step s frame = .returned (s', u)) :
    s'.1.local_.id = (synced pb frame).getD s.1.local_.id := by
  obtain ⟨msg, hmsg, rfl⟩ := dispatcher_step_eq_returned.mp h
  simp only [synced, hmsg]
  cases msg <;> rfl

/-- Every user is stored under their own session. -/
theorem id_step {frame : Frame} {s s' : Session M × K} {u : Unit}
    (hs : ∀ p ∈ HashMap.iter s.1.remotes, p.2.id = p.1)
    (h : (dispatcher pb).step s frame = .returned (s', u)) :
    ∀ p ∈ HashMap.iter s'.1.remotes, p.2.id = p.1 := by
  obtain ⟨msg, -, rfl⟩ := dispatcher_step_eq_returned.mp h
  intro p hp
  cases msg with
  | userState id =>
    rcases (HashMap.mem_iter_insert _ _ _ _).mp hp with rfl | ⟨hp, -⟩
    · rfl
    · exact hs p hp
  | userRemove id => exact hs p ((HashMap.mem_iter_remove _ _ _).mp hp).1
  | serverSync id => exact hs p hp
  | cryptSetup setup => exact hs p hp
  | other => exact hs p hp

/-- A frame of a type that says nothing about the session leaves it alone, and a frame of a type
that says nothing about the crypt state leaves that alone. -/
theorem frame_step {frame : Frame} {s s' : Session M × K} {u : Unit}
    (h : (dispatcher pb).step s frame = .returned (s', u)) :
    (frame.1 ≠ 5 ∧ frame.1 ≠ 8 ∧ frame.1 ≠ 9 → s'.1 = s.1) ∧ (frame.1 ≠ 15 → s'.2 = s.2) := by
  obtain ⟨msg, hmsg, rfl⟩ := dispatcher_step_eq_returned.mp h
  have htype := mumType_of_control hmsg
  cases msg with
  | serverSync id => exact ⟨fun hne => absurd (htype 5 rfl) hne.1, fun _ => rfl⟩
  | userRemove id => exact ⟨fun hne => absurd (htype 8 rfl) hne.2.1, fun _ => rfl⟩
  | userState id => exact ⟨fun hne => absurd (htype 9 rfl) hne.2.2, fun _ => rfl⟩
  | cryptSetup setup => exact ⟨fun _ => rfl, fun hne => absurd (htype 15 rfl) hne⟩
  | other => exact ⟨fun _ => rfl, fun _ => rfl⟩

/-- A frame names one user. -/
theorem eq_of_naming {frame : Frame} {s s' : UInt64} (h : naming pb s frame ≠ none)
    (h' : naming pb s' frame ≠ none) : s = s' := by
  simp only [naming] at h h'
  split at h
  · next id hid =>
    simp only [hid] at h'
    split_ifs at h h' <;> simp_all
  · next id hid =>
    simp only [hid] at h'
    split_ifs at h h' <;> simp_all
  · exact absurd rfl h

/-- Who is there depends on nothing but, for each user, the last frame that names them. -/
theorem mem_keys_run {s s' : Session M × K} {frames : List Frame}
    (h : (dispatcher pb).run s frames = .returned s') (k : UInt64) :
    (k ∈ HashMap.keys s'.1.remotes)
      = (((frames.filterMap (naming pb k)).getLast?).map (· = true)).getD
        (k ∈ HashMap.keys s.1.remotes) := by
  have hrun := Machine.run_register (f := fun s : Session M × K => k ∈ HashMap.keys s.1.remotes)
    (fun s frame s' u hstep => mem_keys_step k hstep) h
  rw [hrun, Machine.lastWritten, ← List.map_filterMap, List.getLast?_map]

/-- Exchanging two frames that name different users changes the history of no user. -/
theorem filterMap_naming_swap {x y : Frame} {s s' : UInt64} (hx : naming pb s x ≠ none)
    (hy : naming pb s' y ≠ none) (hne : s ≠ s') (k : UInt64) (a b : List Frame) :
    (a ++ y :: x :: b).filterMap (naming pb k) = (a ++ x :: y :: b).filterMap (naming pb k) := by
  have hk : naming pb k x = none ∨ naming pb k y = none := by
    by_contra h
    obtain ⟨hkx, hky⟩ := not_or.mp h
    exact hne ((eq_of_naming hx hkx).trans (eq_of_naming hky hy))
  simp only [List.filterMap_append, List.filterMap_cons]
  rcases hk with hk | hk <;> rw [hk]

/-- **The session after a run.** From the initial session, the users that are there are those that
the last frame naming them has announced, each stored under their own session; the session of the
client is that of the last `ServerSync`. Frames of the other types leave the session alone, and
only `CryptSetup` touches the crypt state. Exchanging two frames that name different users leaves
the same users. -/
theorem session_run {frames : List Frame} {session' : Session M} {crypt crypt' : K}
    (h : (dispatcher pb).run (Session.initial, crypt) frames = .returned (session', crypt')) :
    (∀ s, s ∈ HashMap.keys session'.remotes ↔
        (frames.filterMap (naming pb s)).getLast? = some true) ∧
      (∀ s r, (s, r) ∈ HashMap.iter session'.remotes → r.id = s) ∧
      session'.local_.id = ((frames.filterMap (synced pb)).getLast?).getD 0 ∧
      (∀ t ∈ (dispatcher pb).trace ((Session.initial : Session M), crypt) frames,
        (t.event.1 ≠ 5 ∧ t.event.1 ≠ 8 ∧ t.event.1 ≠ 9 → t.post.1 = t.pre.1) ∧
        (t.event.1 ≠ 15 → t.post.2 = t.pre.2)) ∧
      ∀ a x y b s s', frames = a ++ x :: y :: b → naming pb s x ≠ none → naming pb s' y ≠ none →
        s ≠ s' → ∃ session'' crypt'',
          (dispatcher pb).run ((Session.initial : Session M), crypt) (a ++ y :: x :: b)
            = .returned (session'', crypt'') ∧
          ∀ k, k ∈ HashMap.keys session''.remotes ↔ k ∈ HashMap.keys session'.remotes := by
  have hkeys : ∀ {s : Session M × K} {frames : List Frame},
      (dispatcher pb).run ((Session.initial : Session M), crypt) frames = .returned s → ∀ k,
      (k ∈ HashMap.keys s.1.remotes ↔ (frames.filterMap (naming pb k)).getLast? = some true) := by
    intro s frames hrun k
    rw [mem_keys_run hrun k]
    cases (frames.filterMap (naming pb k)).getLast? with
    | none => simp [Session.initial]
    | some b => simp
  refine ⟨hkeys h, fun s r hr => ?_, Machine.run_register (fun _ _ _ _ => local_step) h,
    fun t ht => frame_step (Machine.step_of_mem_trace ht), ?_⟩
  · have hid := Machine.run_invariant
      (I := fun s : Session M × K => ∀ p ∈ HashMap.iter s.1.remotes, p.2.id = p.1)
      (fun _ _ _ _ hs hstep => id_step hs hstep) (by simp [Session.initial, HashMap.iter_new]) h
    exact hid (s, r) hr
  · rintro a x y b s s' rfl hx hy hne
    have hreturns : ((dispatcher pb).run ((Session.initial : Session M), crypt)
        (a ++ y :: x :: b)).Returns := by
      have hall := (Machine.returns_run_iff
        (fun s frame => returns_dispatcher_step_iff pb frame s) _ _).mp ⟨_, h⟩
      refine (Machine.returns_run_iff
        (fun s frame => returns_dispatcher_step_iff pb frame s) _ _).mpr fun frame hframe => ?_
      refine hall frame ?_
      simp only [List.mem_append, List.mem_cons] at hframe ⊢
      tauto
    obtain ⟨⟨session'', crypt''⟩, hrun⟩ := hreturns
    refine ⟨session'', crypt'', hrun, fun k => ?_⟩
    rw [hkeys hrun, hkeys h, filterMap_naming_swap hx hy hne]

/-- Two users come, the first one leaves, and the client learns its own session in between. -/
theorem session_run_four :
    let frames : List Frame := [(9, [8, 5]), (9, [8, 7]), (5, [8, 3]), (8, [8, 5])]
    ∃ (session' : Session (AssocMap UInt64 Remote)) (crypt' : TagCrypt),
      (dispatcher wireFormat).run (Session.initial, CryptState.new) frames
        = .returned (session', crypt') ∧
      7 ∈ HashMap.keys session'.remotes ∧ 5 ∉ HashMap.keys session'.remotes ∧
      session'.local_.id = 3 := by
  intro frames
  have hrun : (dispatcher wireFormat).run
      ((Session.initial, CryptState.new) : Session (AssocMap UInt64 Remote) × TagCrypt) frames
      = .returned (_, _) := rfl
  obtain ⟨hkeys, -, hlocal, -⟩ := session_run hrun
  exact ⟨_, _, hrun, (hkeys 7).mpr (by decide), fun h => absurd ((hkeys 5).mp h) (by decide),
    hlocal.trans (by decide)⟩

/-! ### The crypt state -/

/-- The three parts of the crypt state that `CryptSetup` sets. -/
inductive CryptPart where
  | key
  | clientNonce
  | serverNonce
  deriving DecidableEq, Repr

/-- The value in force. -/
def CryptPart.inForce (part : CryptPart) (crypt : K) : Bytes :=
  match part with
  | .key => CryptState.key crypt
  | .clientNonce => CryptState.clientNonce crypt
  | .serverNonce => CryptState.serverNonce crypt

/-- The field of the message, if it is filled. -/
def CryptPart.field (part : CryptPart) (msg : CryptSetup) : Option Bytes :=
  match part with
  | .key => msg.key
  | .clientNonce => msg.clientNonce
  | .serverNonce => msg.serverNonce

/-- What the frame supplies for a part of the crypt state, if anything. -/
def supplied (pb : CodedInputStream) (part : CryptPart) (frame : Frame) : Option Bytes :=
  match control pb frame with
  | .returned (.cryptSetup msg) => part.field msg
  | _ => none

/-- A `CryptSetup` sets every part, an absent one to the empty string its getter returns. -/
theorem inForce_apply (part : CryptPart) (msg : CryptSetup) (s : Session M × K) :
    part.inForce (Control.apply (.cryptSetup msg) s).2 = (part.field msg).getD [] := by
  cases part with
  | key => exact CryptState.key_setKey _ _ _ _
  | clientNonce => exact CryptState.clientNonce_setKey _ _ _ _
  | serverNonce => exact CryptState.serverNonce_setKey _ _ _ _

/-- A step treats a part of the crypt state as a register, unless it is a `CryptSetup` that leaves
the part out while it has a value. -/
theorem supplied_step_iff {part : CryptPart} {frame : Frame} {s s' : Session M × K} {u : Unit}
    (h : (dispatcher pb).step s frame = .returned (s', u)) :
    part.inForce s'.2 = (supplied pb part frame).getD (part.inForce s.2) ↔
      ∀ msg, control pb frame = .returned (.cryptSetup msg) → part.field msg = none →
        part.inForce s.2 = [] := by
  obtain ⟨msg, hmsg, rfl⟩ := dispatcher_step_eq_returned.mp h
  simp only [supplied, hmsg]
  cases msg with
  | cryptSetup setup =>
    rw [inForce_apply]
    cases hfield : part.field setup with
    | none => simp [hfield]
    | some value => simp [hfield]
  | serverSync id => simp [Control.apply]
  | userRemove id => simp [Control.apply]
  | userState id => simp [Control.apply]
  | other => simp [Control.apply]

/-- **Exactly when the crypt state is what was supplied.** In every state of a run each part of the
crypt state is the last one supplied, exactly when no `CryptSetup` of the run leaves out a part
that has a value. -/
theorem crypt_run_iff (s : Session M × K) (frames : List Frame) :
    (∀ before after s', frames = before ++ after →
        (dispatcher pb).run s before = .returned s' → ∀ part : CryptPart,
        part.inForce s'.2 = Machine.lastWritten (supplied pb part) (part.inForce s.2) before) ↔
      ∀ t ∈ (dispatcher pb).trace s frames, ∀ msg,
        control pb t.event = .returned (.cryptSetup msg) → ∀ part : CryptPart,
        part.field msg = none → part.inForce t.pre.2 = [] := by
  have hregister := fun part : CryptPart => Machine.register_iff (m := dispatcher pb)
    (fun s : Session M × K => part.inForce s.2) (supplied pb part) s frames
  constructor
  · intro h t ht msg hmsg part hfield
    have hpart := (hregister part).mp fun before after s' heq hrun =>
      h before after s' heq hrun part
    exact (supplied_step_iff (Machine.step_of_mem_trace ht)).mp (hpart t ht) msg hmsg hfield
  · intro h before after s' heq hrun part
    refine (hregister part).mpr (fun t ht => ?_) before after s' heq hrun
    exact (supplied_step_iff (Machine.step_of_mem_trace ht)).mpr fun msg hmsg =>
      h t ht msg hmsg part

/-- A resync that brings a new server nonce takes the key and the client nonce away, and so does
an empty request; the crypt state is not valid any more. -/
theorem crypt_resync_loses_key :
    (∃ s' : Session (AssocMap UInt64 Remote) × TagCrypt,
      (dispatcher wireFormat).run (Session.initial, CryptState.new)
        [(15, [10, 1, 7, 18, 1, 8, 26, 1, 9]), (15, [26, 1, 4])] = .returned s' ∧
      CryptPart.key.inForce s'.2 = [] ∧ CryptPart.clientNonce.inForce s'.2 = [] ∧
      CryptState.isValid s'.2 = false ∧
      Machine.lastWritten (supplied wireFormat .key) []
        [(15, [10, 1, 7, 18, 1, 8, 26, 1, 9]), (15, [26, 1, 4])] = [7]) ∧
    ∃ s' : Session (AssocMap UInt64 Remote) × TagCrypt,
      (dispatcher wireFormat).run (Session.initial, CryptState.new)
        [(15, [10, 1, 7, 18, 1, 8, 26, 1, 9]), (15, [])] = .returned s' ∧
      CryptPart.key.inForce s'.2 = [] ∧ CryptPart.clientNonce.inForce s'.2 = [] ∧
      CryptState.isValid s'.2 = false ∧
      Machine.lastWritten (supplied wireFormat .key) []
        [(15, [10, 1, 7, 18, 1, 8, 26, 1, 9]), (15, [])] = [7] := by
  refine ⟨⟨_, rfl, ?_, ?_, ?_, ?_⟩, ⟨_, rfl, ?_, ?_, ?_, ?_⟩⟩ <;> decide

end MumbleBot
