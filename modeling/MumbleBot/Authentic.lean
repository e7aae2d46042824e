import MumbleBot.Client

/-!
# Voice and the success of decryption

`decode` does not look at what `decrypt` reports, so a datagram that fails to decrypt is parsed all
the same, from whatever the attempt has left in the buffer. Without a key nothing is decrypted, and
the zeroed buffer is no voice packet.

## Main definitions

* `Authentic` — a datagram that decrypts
* `Heard` — a step that passes on a sound or touches a decoder

## Main results

* `heard_authentic_iff` — exactly when only authentic datagrams are heard
-/

namespace MumbleBot

variable {E D K M A : Type} [OpusEncoder E] [OpusDecoder D] [CryptState K]
  [HashMap M UInt64 Remote] {pb : CodedInputStream} {fr : FailedRead}

/-- There is a key, and `decrypt` reports success, into the buffer `decode` has for it. -/
def Authentic (crypt : K) (buf : Bytes) : Prop :=
  CryptState.isValid crypt = true ∧
    (CryptState.decrypt crypt buf (List.replicate (buf.length - 4) 0)).success = true

/-- The step passes on a sound, or a decoder is not what it was. -/
def Heard (t : Step (AudioPacketCodec E D K M) (Event A) (Output A)) : Prop :=
  (∃ item, t.output.vox = some item) ∨
    ∃ s, HashMap.get? t.post.opusDecoders s ≠ HashMap.get? t.pre.opusDecoders s

/-- Without a key the buffer stays zeroed. -/
theorem audType_of_not_isValid {crypt : K} {buf : Bytes} {h : UInt8} {rest : Bytes}
    (hcrypt : ¬ CryptState.isValid crypt = true) (hdata : plaintext crypt buf = h :: rest) :
    audType h = 0 := by
  rw [plaintext, decryptInto, if_neg hcrypt] at hdata
  have hmem : h ∈ List.replicate (buf.length - 4) (0 : UInt8) := by
    rw [show List.replicate (buf.length - 4) (0 : UInt8) = h :: rest from hdata]
    exact List.mem_cons_self
  rw [List.eq_of_mem_replicate hmem]
  rfl

/-- Only a datagram is heard, and it is heard exactly when its plaintext is a voice packet. -/
theorem heard_iff {t : Step (AudioPacketCodec E D K M) (Event A) (Output A)}
    (hstep : (client pb fr).step t.pre t.event = .returned (t.post, t.output)) :
    Heard t ↔ ∃ addr buf h rest, t.event = .datagram addr buf ∧
      plaintext t.pre.crypt buf = h :: rest ∧ audType h = 0b100 := by
  cases hevent : t.event with
  | control frame =>
    rw [hevent] at hstep
    obtain ⟨_, -, -, hdecoders, hnone⟩ := client_control hstep
    simp [Heard, hnone, hdecoders]
  | datagram addr buf =>
    rw [hevent] at hstep
    obtain ⟨-, -, hcases⟩ := client_datagram hstep
    rcases hcases with ⟨v, fresh, hv, htype, -, hsome, -⟩ | ⟨b, rest, hdata, hb, hnone, hdecoders⟩
    · obtain ⟨b, rest, _, _, hdata, hb, -⟩ := readVoice_eq_returned.mp hv
      exact iff_of_true (.inl ⟨_, hsome⟩) ⟨addr, buf, b, rest, rfl, hdata, hb.trans htype⟩
    · refine iff_of_false ?_ ?_
      · simp [Heard, hnone, hdecoders]
      · rintro ⟨_, _, b', rest', heq, hdata', hb'⟩
        cases heq
        obtain ⟨rfl, -⟩ := List.cons.inj (hdata.symm.trans hdata')
        exact hb hb'
  | outgoing addr packet =>
    rw [hevent] at hstep
    obtain ⟨-, hdecoders, hnone⟩ := client_outgoing hstep
    simp [Heard, hnone, hdecoders]

/-- **Exactly when only authentic datagrams are heard.** In a run, whatever is heard comes from a
datagram that decrypts, exactly when no datagram of the run that fails to decrypt with a valid
crypt state leaves the header byte of a voice packet in the buffer. -/
theorem heard_authentic_iff (c : AudioPacketCodec E D K M) (events : List (Event A)) :
    (∀ t ∈ (client pb fr).trace c events, Heard t →
        ∃ addr buf, t.event = .datagram addr buf ∧ Authentic t.pre.crypt buf) ↔
      ∀ t ∈ (client pb fr).trace c events, ∀ addr buf, t.event = .datagram addr buf →
        CryptState.isValid t.pre.crypt = true →
        (CryptState.decrypt t.pre.crypt buf (List.replicate (buf.length - 4) 0)).success = false →
        ∀ h rest, plaintext t.pre.crypt buf = h :: rest → audType h ≠ 0b100 := by
  refine forall₂_congr fun t ht => ?_
  rw [heard_iff (Machine.step_of_mem_trace ht)]
  constructor
  · intro hauth addr buf hevent hvalid hfailed h rest hdata htype
    obtain ⟨_, _, heq, -, hsuccess⟩ := hauth ⟨addr, buf, h, rest, hevent, hdata, htype⟩
    cases hevent.symm.trans heq
    rw [hfailed] at hsuccess
    cases hsuccess
  · rintro hforged ⟨addr, buf, h, rest, hevent, hdata, htype⟩
    refine ⟨addr, buf, hevent, ?_⟩
    by_contra hauth
    by_cases hvalid : CryptState.isValid t.pre.crypt = true
    · refine hforged addr buf hevent hvalid ?_ h rest hdata htype
      by_contra hsuccess
      exact hauth ⟨hvalid, Bool.not_eq_false _ |>.mp hsuccess⟩
    · rw [audType_of_not_isValid hvalid hdata] at htype
      cases htype

/-- A datagram with a wrong tag is heard: it fails to decrypt, and still its sound is passed on and
a decoder is made for its session. -/
theorem forged_is_heard :
    let c := standInCodec [1, 2, 3, 4]
    let buf : Bytes := [9, 9, 9, 9, 0b10000000, 5, 1, 0]
    ∃ t ∈ (client wireFormat .stay).trace c [.datagram () buf],
      (CryptState.decrypt c.crypt buf (List.replicate 4 0)).success = false ∧
      (t.output.vox.map fun item => item.2.1.length) = some 640 ∧
      HashMap.get? t.pre.opusDecoders 5 = none ∧ HashMap.get? t.post.opusDecoders 5 = some ⟨1⟩ := by
  decide +kernel

end MumbleBot
