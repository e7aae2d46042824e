import MumbleBot.Varint
import Mathlib.Logic.Function.Iterate

/-!
# The varint format

What a varint is, said without masks: a run of complement bytes followed by one base code, the
base code being a lead byte and the tail it announces. `VarintCode bs v` is that grammar, with
the value each code stands for.

`varintDecode_cons` is the only place where the reader's mask tests are looked at: it reads off
the lead byte what the reader does next. Everything else about the reader is proved from it, by
induction along the complement bytes.

## Main definitions

* `Lead`, `leadOf` — what a first byte announces
* `VarintCode` — the grammar

## Main results

* `readVarint_of_code`, `code_of_readVarint` — the reader accepts exactly the codes
* `readVarint_ne_panic` — its two panics are unreachable
* `readVarint_grammar` — what it reads, and on what it fails
-/

namespace MumbleBot

/-! ### Lead bytes -/

/-- What the first byte of a code announces. -/
inductive Lead where
  /-- A base code: `extra` more bytes, below the digits `high`. -/
  | base (extra high : ℕ)
  /-- The complement of the code that follows. -/
  | complement
  deriving DecidableEq, Repr

/-- The nine classes of first bytes. The last one is a base code without a tail, and stands for
one of the numbers from `-1` to `-4`. -/
def leadOf (b : UInt8) : Lead :=
  let n := b.toNat
  if n < 0x80 then .base 0 n
  else if n < 0xC0 then .base 1 (n - 0x80)
  else if n < 0xE0 then .base 2 (n - 0xC0)
  else if n < 0xF0 then .base 3 (n - 0xE0)
  else if n < 0xF4 then .base 4 0
  else if n < 0xF8 then .base 8 0
  else if n < 0xFC then .complement
  else .base 0 (2 ^ 64 - 1 - (n - 0xFC))

/-- `VarintCode bs v`: the bytes `bs` are a complete code, of the value `v`. -/
inductive VarintCode : Bytes → UInt64 → Prop where
  | base {b : UInt8} {tail : Bytes} {high : ℕ} (hb : leadOf b = .base tail.length high) :
      VarintCode (b :: tail) (UInt64.ofNat (digitsAfter high tail))
  | complement {b : UInt8} {bs : Bytes} {v : UInt64} (hb : leadOf b = .complement)
      (h : VarintCode bs v) : VarintCode (b :: bs) (~~~v)

/-- What the reader does after the first byte, by what that byte announces. -/
def readAfter (i : UInt64) (lead : Lead) (rest : Bytes) : ReadResult UInt64 :=
  match lead with
  | .base extra high =>
    if extra ≤ rest.length then
      .ok (UInt64.ofNat (digitsAfter high (rest.take extra))) (rest.drop extra)
    else .err .unexpectedEof []
  | .complement =>
    match varintDecode i rest with
    | .ok r rest => .ok (~~~r) rest
    | .err e rest => .err e rest
    | .panic => .panic

/-! ### The masks

Each mask test of the reader, as a range of first bytes, and what each mask leaves of a byte in
its range. -/

theorem and_80_iff (b : UInt8) : b.toUInt64 &&& 0x80 = 0x00 ↔ b.toNat < 0x80 :=
  Iff.trans (and_high_eq_iff b 7 0 (by decide) rfl rfl) (by omega)

theorem and_C0_iff (b : UInt8) :
    b.toUInt64 &&& 0xC0 = 0x80 ↔ 0x80 ≤ b.toNat ∧ b.toNat < 0xC0 :=
  and_high_eq_iff b 6 2 (by decide) rfl rfl

theorem and_E0_iff (b : UInt8) :
    b.toUInt64 &&& 0xE0 = 0xC0 ↔ 0xC0 ≤ b.toNat ∧ b.toNat < 0xE0 :=
  and_high_eq_iff b 5 6 (by decide) rfl rfl

theorem and_F0_E0_iff (b : UInt8) :
    b.toUInt64 &&& 0xF0 = 0xE0 ↔ 0xE0 ≤ b.toNat ∧ b.toNat < 0xF0 :=
  and_high_eq_iff b 4 14 (by decide) rfl rfl

theorem and_F0_iff (b : UInt8) :
    b.toUInt64 &&& 0xF0 = 0xF0 ↔ 0xF0 ≤ b.toNat ∧ b.toNat < 0x100 :=
  and_high_eq_iff b 4 15 (by decide) rfl rfl

theorem and_FC_F0_iff (b : UInt8) :
    b.toUInt64 &&& 0xFC = 0xF0 ↔ 0xF0 ≤ b.toNat ∧ b.toNat < 0xF4 :=
  and_high_eq_iff b 2 60 (by decide) rfl rfl

theorem and_FC_F4_iff (b : UInt8) :
    b.toUInt64 &&& 0xFC = 0xF4 ↔ 0xF4 ≤ b.toNat ∧ b.toNat < 0xF8 :=
  and_high_eq_iff b 2 61 (by decide) rfl rfl

theorem and_FC_F8_iff (b : UInt8) :
    b.toUInt64 &&& 0xFC = 0xF8 ↔ 0xF8 ≤ b.toNat ∧ b.toNat < 0xFC :=
  and_high_eq_iff b 2 62 (by decide) rfl rfl

theorem and_FC_FC_iff (b : UInt8) :
    b.toUInt64 &&& 0xFC = 0xFC ↔ 0xFC ≤ b.toNat ∧ b.toNat < 0x100 :=
  and_high_eq_iff b 2 63 (by decide) rfl rfl

theorem and_7F (b : UInt8) (h : b.toNat < 0x80) : (b.toUInt64 &&& 0x7F).toNat = b.toNat := by
  rw [toNat_and_low b 7 rfl]
  exact Nat.mod_eq_of_lt h

theorem and_3F (b : UInt8) (h : 0x80 ≤ b.toNat) (h' : b.toNat < 0xC0) :
    ((b.toUInt64 &&& 0x3F) <<< 8).toNat = (b.toNat - 0x80) * 2 ^ 8 := by
  rw [toNat_and_low_shiftLeft b 6 rfl (by decide), show b.toNat % 2 ^ 6 = b.toNat - 0x80 by omega]
  rfl

theorem and_1F (b : UInt8) (h : 0xC0 ≤ b.toNat) (h' : b.toNat < 0xE0) :
    ((b.toUInt64 &&& 0x1F) <<< 16).toNat = (b.toNat - 0xC0) * 2 ^ 16 := by
  rw [toNat_and_low_shiftLeft b 5 rfl (by decide), show b.toNat % 2 ^ 5 = b.toNat - 0xC0 by omega]
  rfl

theorem and_0F (b : UInt8) (h : 0xE0 ≤ b.toNat) (h' : b.toNat < 0xF0) :
    ((b.toUInt64 &&& 0x0F) <<< 24).toNat = (b.toNat - 0xE0) * 2 ^ 24 := by
  rw [toNat_and_low_shiftLeft b 4 rfl (by decide), show b.toNat % 2 ^ 4 = b.toNat - 0xE0 by omega]
  rfl

theorem not_and_03 (b : UInt8) (h : 0xFC ≤ b.toNat) :
    (~~~(b.toUInt64 &&& 0x03)).toNat = 2 ^ 64 - 1 - (b.toNat - 0xFC) := by
  have hb := b.toNat_lt
  rw [UInt64.toNat_not, toNat_and_low b 2 rfl, show b.toNat % 2 ^ 2 = b.toNat - 0xFC by omega]
  rfl

/-! ### One step of the reader -/

/-- A word is determined by the number it stands for. -/
theorem eq_ofNat_of_toNat_eq {v : UInt64} {n : ℕ} (h : v.toNat = n) : v = UInt64.ofNat n := by
  rw [← h, UInt64.ofNat_toNat]

/-! Each lemma below runs the `next()?` calls of one class of codes. The tail may end before the
last of them, and then all of it has been consumed. -/

theorem readAfter_one (i : UInt64) {hi : UInt64} {high : ℕ} (h : hi.toNat = high * 2 ^ 8)
    (rest : Bytes) :
    (do return hi ||| (← next) : Reader UInt64) rest = readAfter i (.base 1 high) rest := by
  rcases rest with _ | ⟨b₀, rest⟩
  · rfl
  · have h₀ := toNat_or_byte b₀ h
    simp [readAfter, digitsAfter, eq_ofNat_of_toNat_eq h₀]

theorem readAfter_two (i : UInt64) {hi : UInt64} {high : ℕ} (h : hi.toNat = high * 2 ^ 16)
    (rest : Bytes) :
    (do return hi ||| (← next) <<< 8 ||| (← next) : Reader UInt64) rest
      = readAfter i (.base 2 high) rest := by
  rcases rest with _ | ⟨b₁, _ | ⟨b₀, rest⟩⟩
  · rfl
  · rfl
  · have h₁ := toNat_or_byte_shiftLeft b₁ (s := 8) (by decide) h
    have h₀ := toNat_or_byte b₀ h₁
    simp [readAfter, digitsAfter, eq_ofNat_of_toNat_eq h₀]

theorem readAfter_three (i : UInt64) {hi : UInt64} {high : ℕ} (h : hi.toNat = high * 2 ^ 24)
    (rest : Bytes) :
    (do return hi ||| (← next) <<< 16 ||| (← next) <<< 8 ||| (← next) : Reader UInt64) rest
      = readAfter i (.base 3 high) rest := by
  rcases rest with _ | ⟨b₂, _ | ⟨b₁, _ | ⟨b₀, rest⟩⟩⟩
  · rfl
  · rfl
  · rfl
  · have h₂ := toNat_or_byte_shiftLeft b₂ (s := 16) (by decide) h
    have h₁ := toNat_or_byte_shiftLeft b₁ (s := 8) (by decide) h₂
    have h₀ := toNat_or_byte b₀ h₁
    simp [readAfter, digitsAfter, eq_ofNat_of_toNat_eq h₀]

theorem readAfter_four (i : UInt64) (rest : Bytes) :
    (do return (← next) <<< 24 ||| (← next) <<< 16 ||| (← next) <<< 8 ||| (← next) :
      Reader UInt64) rest = readAfter i (.base 4 0) rest := by
  rcases rest with _ | ⟨b₃, _ | ⟨b₂, _ | ⟨b₁, _ | ⟨b₀, rest⟩⟩⟩⟩
  · rfl
  · rfl
  · rfl
  · rfl
  · have h₃ := toNat_byte_shiftLeft b₃ (s := 24) (by decide)
    have h₂ := toNat_or_byte_shiftLeft b₂ (s := 16) (by decide) h₃
    have h₁ := toNat_or_byte_shiftLeft b₁ (s := 8) (by decide) h₂
    have h₀ := toNat_or_byte b₀ h₁
    simp [readAfter, digitsAfter, eq_ofNat_of_toNat_eq h₀]

theorem readAfter_eight (i : UInt64) (rest : Bytes) :
    (do return (← next) <<< 56 ||| (← next) <<< 48 ||| (← next) <<< 40 ||| (← next) <<< 32
          ||| (← next) <<< 24 ||| (← next) <<< 16 ||| (← next) <<< 8 ||| (← next) :
      Reader UInt64) rest = readAfter i (.base 8 0) rest := by
  rcases rest with _ | ⟨b₇, _ | ⟨b₆, _ | ⟨b₅, _ | ⟨b₄, _ | ⟨b₃, _ | ⟨b₂, _ | ⟨b₁, _ | ⟨b₀,
    rest⟩⟩⟩⟩⟩⟩⟩⟩
  · rfl
  · rfl
  · rfl
  · rfl
  · rfl
  · rfl
  · rfl
  · rfl
  · have h₇ := toNat_byte_shiftLeft b₇ (s := 56) (by decide)
    have h₆ := toNat_or_byte_shiftLeft b₆ (s := 48) (by decide) h₇
    have h₅ := toNat_or_byte_shiftLeft b₅ (s := 40) (by decide) h₆
    have h₄ := toNat_or_byte_shiftLeft b₄ (s := 32) (by decide) h₅
    have h₃ := toNat_or_byte_shiftLeft b₃ (s := 24) (by decide) h₄
    have h₂ := toNat_or_byte_shiftLeft b₂ (s := 16) (by decide) h₃
    have h₁ := toNat_or_byte_shiftLeft b₁ (s := 8) (by decide) h₂
    have h₀ := toNat_or_byte b₀ h₁
    simp [readAfter, digitsAfter, eq_ofNat_of_toNat_eq h₀]

/-- **One step of the reader.** The mask tests of `decode` are a case split on the lead byte:
this is the only lemma that unfolds them. -/
theorem varintDecode_cons (i : UInt64) (b : UInt8) (rest : Bytes) :
    varintDecode i (b :: rest) = readAfter i (leadOf b) rest := by
  have hb := b.toNat_lt
  simp only [varintDecode, and_80_iff, and_C0_iff, and_F0_iff, and_FC_F0_iff, and_FC_F4_iff,
    and_FC_F8_iff, and_FC_FC_iff, and_F0_E0_iff, and_E0_iff, leadOf]
  rcases (by omega : b.toNat < 0x80 ∨ 0x80 ≤ b.toNat ∧ b.toNat < 0xC0 ∨
      0xC0 ≤ b.toNat ∧ b.toNat < 0xE0 ∨ 0xE0 ≤ b.toNat ∧ b.toNat < 0xF0 ∨
      0xF0 ≤ b.toNat ∧ b.toNat < 0xF4 ∨ 0xF4 ≤ b.toNat ∧ b.toNat < 0xF8 ∨
      0xF8 ≤ b.toNat ∧ b.toNat < 0xFC ∨ 0xFC ≤ b.toNat) with
    h | ⟨h, h'⟩ | ⟨h, h'⟩ | ⟨h, h'⟩ | ⟨h, h'⟩ | ⟨h, h'⟩ | ⟨h, h'⟩ | h
  all_goals simp (disch := omega) only [if_pos, if_neg]
  · simp [readAfter, digitsAfter, eq_ofNat_of_toNat_eq (and_7F b h)]
  · exact readAfter_one i (and_3F b h h') rest
  · exact readAfter_two i (and_1F b h h') rest
  · exact readAfter_three i (and_0F b h h') rest
  · exact readAfter_four i rest
  · exact readAfter_eight i rest
  · rfl
  · simp [readAfter, digitsAfter, eq_ofNat_of_toNat_eq (not_and_03 b h)]

/-! ### The reader accepts exactly the codes -/

theorem readVarint_cons (b : UInt8) (rest : Bytes) :
    readVarint (b :: rest) = readAfter 0 (leadOf b) rest :=
  varintDecode_cons 0 b rest

/-- A code is read back whatever follows it. -/
theorem readVarint_of_code {p : Bytes} {v : UInt64} (h : VarintCode p v) (t : Bytes) :
    readVarint (p ++ t) = .ok v t := by
  induction h with
  | base hb => rw [List.cons_append, readVarint_cons, hb]; simp [readAfter]
  | complement hb _ ih =>
    rw [readVarint] at ih
    rw [List.cons_append, readVarint_cons, hb]
    simp [readAfter, ih]

/-- Everything `read_varint` can do: it takes a code off the front, or it fails with all of the
buffer consumed. -/
theorem readVarint_cases (bs : Bytes) :
    (∃ p v t, bs = p ++ t ∧ VarintCode p v ∧ readVarint bs = .ok v t) ∨
      readVarint bs = .err .unexpectedEof [] := by
  induction bs with
  | nil => exact .inr rfl
  | cons b rest ih =>
    rw [readVarint_cons]
    cases hb : leadOf b with
    | base k high =>
      by_cases hk : k ≤ rest.length
      · have hlen : (rest.take k).length = k := List.length_take_of_le hk
        have hcode : VarintCode (b :: rest.take k) _ := .base (by rw [hlen, hb])
        exact .inl ⟨_, _, rest.drop k, by simp, hcode, by simp [readAfter, hk]⟩
      · exact .inr (by simp [readAfter, hk])
    | complement =>
      rcases ih with ⟨p, v, t, rfl, hcode, hread⟩ | hread
      · exact .inl ⟨_, _, t, rfl, .complement hb hcode, by
          rw [readVarint] at hread; simp [readAfter, hread]⟩
      · exact .inr (by rw [readVarint] at hread; simp [readAfter, hread])

theorem readVarint_ne_panic (bs : Bytes) : readVarint bs ≠ .panic := by
  rcases readVarint_cases bs with ⟨_, _, _, -, -, h⟩ | h <;> simp [h]

theorem code_of_readVarint {bs t : Bytes} {v : UInt64} (h : readVarint bs = .ok v t) :
    ∃ p, bs = p ++ t ∧ VarintCode p v := by
  rcases readVarint_cases bs with ⟨p, v', t', hbs, hcode, h'⟩ | h'
  · obtain ⟨rfl, rfl⟩ : v' = v ∧ t' = t := by simpa using h'.symm.trans h
    exact ⟨p, hbs, hcode⟩
  · simp [h'] at h

theorem VarintCode.ne_nil {p : Bytes} {v : UInt64} (h : VarintCode p v) : p ≠ [] := by
  cases h <;> simp

/-- A read that succeeds consumes at least one byte. -/
theorem length_lt_of_readVarint {bs t : Bytes} {v : UInt64} (h : readVarint bs = .ok v t) :
    t.length < bs.length := by
  obtain ⟨p, rfl, hp⟩ := code_of_readVarint h
  have := List.length_pos_iff.mpr hp.ne_nil
  simp only [List.length_append]
  omega

/-! ### The language of the codes

A code can be read off from the left: it ends at the first byte that is not a complement byte, and
the tail this byte announces. So no code is a strict prefix of another, and what the reader fails
on is what a code was cut from. -/

theorem leadOf_eq_complement_iff {b : UInt8} :
    leadOf b = .complement ↔ 0xF8 ≤ b.toNat ∧ b.toNat < 0xFC := by
  have hb := b.toNat_lt
  simp only [leadOf]
  split_ifs <;> simp <;> omega

/-- A base code has one, two, three, four, five or nine bytes. -/
theorem length_of_leadOf_base {b : UInt8} {extra high : ℕ} (h : leadOf b = .base extra high) :
    extra + 1 ∈ [1, 2, 3, 4, 5, 9] := by
  simp only [leadOf] at h
  split_ifs at h <;> cases h <;> decide

/-- A code is a run of complement bytes and one base code, and its value is that of the base code,
complemented once for each of them. -/
theorem varintCode_iff {p : Bytes} {v : UInt64} : VarintCode p v ↔
    ∃ (cs : Bytes) (b : UInt8) (tail : Bytes) (high : ℕ), p = cs ++ b :: tail ∧
      (∀ c ∈ cs, leadOf c = .complement) ∧ leadOf b = .base tail.length high ∧
      v = (fun w : UInt64 => ~~~w)^[cs.length] (UInt64.ofNat (digitsAfter high tail)) := by
  constructor
  · intro h
    induction h with
    | @base b tail high hb => exact ⟨[], b, tail, high, rfl, by simp, hb, rfl⟩
    | @complement c bs v hc _ ih =>
      obtain ⟨cs, b, tail, high, rfl, hcs, hb, rfl⟩ := ih
      refine ⟨c :: cs, b, tail, high, rfl, List.forall_mem_cons.mpr ⟨hc, hcs⟩, hb, ?_⟩
      rw [List.length_cons, Function.iterate_succ_apply']
  · rintro ⟨cs, b, tail, high, rfl, hcs, hb, rfl⟩
    induction cs with
    | nil => exact .base hb
    | cons c cs ih =>
      rw [List.forall_mem_cons] at hcs
      rw [List.length_cons, Function.iterate_succ_apply']
      exact .complement hcs.1 (ih hcs.2)

/-- Where one code ends and the rest begins is settled: no string can be cut in two ways. -/
theorem VarintCode.append_inj {p p' t t' : Bytes} {v v' : UInt64} (h : VarintCode p v)
    (h' : VarintCode p' v') (heq : p ++ t = p' ++ t') : p = p' ∧ v = v' := by
  have hread := readVarint_of_code h t
  rw [heq, readVarint_of_code h' t'] at hread
  obtain ⟨rfl, rfl⟩ : v' = v ∧ t' = t := by simpa using hread
  exact ⟨List.append_cancel_right heq, rfl⟩

/-- No code is a strict prefix of another. -/
theorem VarintCode.eq_of_prefix {p p' : Bytes} {v v' : UInt64} (h : VarintCode p v)
    (h' : VarintCode p' v') (hpre : p <+: p') : p = p' := by
  obtain ⟨t, rfl⟩ := hpre
  exact (h.append_inj h' (List.append_nil _).symm).1

/-- Whatever the reader fails on can be completed to a code. -/
theorem exists_code_of_readVarint_err {bs : Bytes} (h : readVarint bs = .err .unexpectedEof []) :
    ∃ p v, VarintCode p v ∧ bs <+: p ∧ bs ≠ p := by
  induction bs with
  | nil =>
    have hlead : leadOf 0 = .base ([] : Bytes).length 0 := rfl
    exact ⟨[0], _, .base hlead, List.nil_prefix, by simp⟩
  | cons b rest ih =>
    rw [readVarint_cons] at h
    cases hb : leadOf b with
    | base k high =>
      have hk : rest.length < k := by
        by_contra hk
        simp [hb, readAfter, Nat.not_lt.mp hk] at h
      have hlen : (rest ++ List.replicate (k - rest.length) 0).length = k := by
        rw [List.length_append, List.length_replicate]
        omega
      have hcode : VarintCode (b :: (rest ++ List.replicate (k - rest.length) 0)) _ :=
        .base (hlen.symm ▸ hb)
      refine ⟨_, _, hcode, ?_, fun heq => ?_⟩
      · exact (List.prefix_cons_inj b).mpr (List.prefix_append _ _)
      · have := congrArg List.length heq
        simp at this
        omega
    | complement =>
      have hrest : readVarint rest = .err .unexpectedEof [] := by
        rcases readVarint_cases rest with ⟨p, v, t, rfl, hcode, hread⟩ | hread
        · rw [readVarint] at hread
          simp [hb, readAfter, hread] at h
        · exact hread
      obtain ⟨p, v, hcode, hpre, hne⟩ := ih hrest
      exact ⟨b :: p, _, .complement hb hcode, (List.prefix_cons_inj b).mpr hpre,
        fun heq => hne (List.cons.inj heq).2⟩

theorem readVarint_err_iff {bs : Bytes} : readVarint bs = .err .unexpectedEof [] ↔
    ∃ p v, VarintCode p v ∧ bs <+: p ∧ bs ≠ p := by
  refine ⟨exists_code_of_readVarint_err, ?_⟩
  rintro ⟨p, v, hcode, ⟨u, rfl⟩, hne⟩
  rcases readVarint_cases bs with ⟨q, w, t, rfl, hq, -⟩ | hread
  · -- a code inside of `bs` would be a strict prefix of the code that `bs` begins
    have heq := hq.eq_of_prefix hcode (by rw [List.append_assoc]; exact List.prefix_append _ _)
    rw [List.append_assoc] at heq
    have htu := List.self_eq_append_right.mp heq
    exact absurd (by rw [(List.append_eq_nil_iff.mp htu).2, List.append_nil]) hne
  · exact hread

/-- **The reader reads the format.** It does not panic. It takes a code off the front of any bytes
that begin with one, with its value, whatever follows; on any others it consumes them all and
fails, and these are the strict prefixes of the codes. No code is a strict prefix of another. -/
theorem readVarint_grammar (bs : Bytes) :
    readVarint bs ≠ .panic ∧
      ((∃ p v t, bs = p ++ t ∧ p ≠ [] ∧ VarintCode p v ∧ readVarint bs = .ok v t ∧
          ∀ t', readVarint (p ++ t') = .ok v t') ∨
        readVarint bs = .err .unexpectedEof []) ∧
      (readVarint bs = .err .unexpectedEof [] ↔ ∃ p v, VarintCode p v ∧ bs <+: p ∧ bs ≠ p) ∧
      (∀ p v, VarintCode p v ↔
        ∃ (cs : Bytes) (b : UInt8) (tail : Bytes) (high : ℕ), p = cs ++ b :: tail ∧
          (∀ c ∈ cs, 0xF8 ≤ c.toNat ∧ c.toNat ≤ 0xFB) ∧ leadOf b = .base tail.length high ∧
          (b :: tail).length ∈ [1, 2, 3, 4, 5, 9] ∧
          v = (fun w : UInt64 => ~~~w)^[cs.length] (UInt64.ofNat (digitsAfter high tail))) ∧
      ∀ p p' v v', VarintCode p v → VarintCode p' v' → p <+: p' → p = p' := by
  refine ⟨readVarint_ne_panic bs, ?_, readVarint_err_iff, fun p v => ?_,
    fun p p' v v' h h' hpre => h.eq_of_prefix h' hpre⟩
  · rcases readVarint_cases bs with ⟨p, v, t, rfl, hcode, hread⟩ | hread
    · exact .inl ⟨p, v, t, rfl, hcode.ne_nil, hcode, hread, readVarint_of_code hcode⟩
    · exact .inr hread
  · rw [varintCode_iff]
    refine exists₄_congr fun cs b tail high => and_congr_right fun _ => and_congr ?_ ?_
    · exact forall₂_congr fun c _ => leadOf_eq_complement_iff.trans (by omega)
    · exact and_congr_right fun hb => (and_iff_right (length_of_leadOf_base hb)).symm

end MumbleBot
