import MumbleBot.VarintFormat

/-!
# The varint writer

The bytes that `write_varint` hands to its sink are a code of the value, so the reader gets the
value back. The format has other codes for it: a longer base code does for a small number as well,
and two complement bytes in front of a code change nothing. None of them is shorter.

The code is handed over in one write, and what comes of that write is reported as it is. That is
the right thing to do only for a sink that takes what it is handed whole.

## Main definitions

* `baseLength` — the length of the base code of a number
* `writeVarints`, `readVarints` — a sequence of values into a sink and out of a buffer
* `Reported` — what a caller relies on that drops the number in an `Ok`

## Main results

* `varintCode_varintBytes` — the writer writes a code of its value
* `writeVarint_shortest` — no code of a value is shorter than what is written for it
* `readVarints_writeVarints` — what is written one after another is read back in order
* `reported_iff` — exactly when an `Ok` can be relied on
* `reported_bytes`, `reported_sliceCursor_iff`, `reported_portioned_iff` — for some kinds of sinks
-/

namespace MumbleBot

/-! ### The writer writes codes -/

theorem toNat_shiftRight_of_lt (i : UInt64) {s : UInt64} (hs : s.toNat < 64) :
    (i >>> s).toNat = i.toNat / 2 ^ s.toNat := by
  rw [UInt64.toNat_shiftRight, Nat.mod_eq_of_lt hs, Nat.shiftRight_eq_div_pow]

/-- One of the bytes `(i >> s) & 0xFF` that the writer pushes. -/
theorem toUInt8_shiftRight_and (i : UInt64) {s : UInt64} (hs : s.toNat < 64) :
    ((i >>> s) &&& 0xFF).toUInt8 = UInt8.ofNat (i.toNat / 2 ^ s.toNat) := by
  apply UInt8.toNat_inj.mp
  rw [UInt64.toNat_toUInt8, UInt64.toNat_and, toNat_shiftRight_of_lt i hs, UInt8.toNat_ofNat',
    show (0xFF : UInt64).toNat = 2 ^ 8 - 1 from rfl, Nat.and_two_pow_sub_one_eq_mod, Nat.mod_mod]

theorem toUInt8_and (i : UInt64) : (i &&& 0xFF).toUInt8 = UInt8.ofNat i.toNat := by
  simpa using toUInt8_shiftRight_and i (s := 0) (by decide)

/-- The lead byte `(i >> s) | mask`: the mask has its bits above the `n` bits that are left of
`i` after the shift. -/
theorem toNat_lead {i s mask : UInt64} (n : ℕ) (hs : s.toNat < 64) (hmask : 2 ^ n ∣ mask.toNat)
    (hx : i.toNat / 2 ^ s.toNat < 2 ^ n) (hlt : mask.toNat + 2 ^ n ≤ 256) :
    ((i >>> s) ||| mask).toUInt8.toNat = mask.toNat + i.toNat / 2 ^ s.toNat := by
  have hshift := toNat_shiftRight_of_lt i hs
  rw [UInt64.toNat_toUInt8, UInt64.or_comm, toNat_or_of_dvd n hmask (by omega), hshift,
    Nat.mod_eq_of_lt (by omega)]

/-- The base codes of up to four bytes: their number of extra bytes, the first of their lead bytes,
and how many of these there are. -/
def shortClasses : List (ℕ × ℕ × ℕ) :=
  [(0, 0, 0x80), (1, 0x80, 0x40), (2, 0xC0, 0x20), (3, 0xE0, 0x10)]

theorem leadOf_of_mem {b : UInt8} {extra first count high : ℕ}
    (hclass : (extra, first, count) ∈ shortClasses) (hb : b.toNat = first + high)
    (hhigh : high < count) : leadOf b = .base extra high := by
  simp only [shortClasses, List.mem_cons, Prod.mk.injEq, List.not_mem_nil, or_false] at hclass
  simp only [leadOf, hb]
  rcases hclass with ⟨rfl, rfl, rfl⟩ | ⟨rfl, rfl, rfl⟩ | ⟨rfl, rfl, rfl⟩ | ⟨rfl, rfl, rfl⟩
  all_goals simp (disch := omega) only [if_pos, if_neg, Nat.add_sub_cancel_left, Nat.zero_add]

/-- A lead byte that carries the high digits of `v`, and the low bytes of `v` behind it. -/
theorem varintCode_toBigEndian {b : UInt8} {k : ℕ} {v : UInt64}
    (hb : leadOf b = .base k (v.toNat / 256 ^ k)) : VarintCode (b :: toBigEndian k v.toNat) v := by
  have h : VarintCode (b :: toBigEndian k v.toNat) _ := .base (by rw [length_toBigEndian, hb])
  rwa [digitsAfter_toBigEndian, UInt64.ofNat_toNat] at h

/-- Each size class of the writer is a lead byte with its tail in big-endian order. -/
theorem varintCode_unsignedBytes (i : UInt64) : VarintCode (unsignedBytes i) i := by
  have hi := i.toNat_lt
  have tail₈ := toUInt8_shiftRight_and i (s := 8) (by decide)
  have tail₁₆ := toUInt8_shiftRight_and i (s := 16) (by decide)
  have tail₂₄ := toUInt8_shiftRight_and i (s := 24) (by decide)
  have tail₃₂ := toUInt8_shiftRight_and i (s := 32) (by decide)
  have tail₄₀ := toUInt8_shiftRight_and i (s := 40) (by decide)
  have tail₄₈ := toUInt8_shiftRight_and i (s := 48) (by decide)
  have tail₅₆ := toUInt8_shiftRight_and i (s := 56) (by decide)
  simp only [unsignedBytes, UInt64.lt_iff_toNat_lt, tail₈, tail₁₆, tail₂₄, tail₃₂, tail₄₀, tail₄₈,
    tail₅₆, toUInt8_and, UInt64.reduceToNat]
  split_ifs with h₁ h₂ h₃ h₄ h₅
  · have hb : i.toUInt8.toNat = i.toNat := by rw [UInt64.toNat_toUInt8]; omega
    have hlead : leadOf i.toUInt8 = .base 0 i.toNat :=
      leadOf_of_mem (by decide) (hb.trans (Nat.zero_add _).symm) h₁
    exact varintCode_toBigEndian (k := 0) (by rw [hlead, pow_zero, Nat.div_one])
  · have hb : ((i >>> 8) ||| 0x80).toUInt8.toNat = 0x80 + i.toNat / 256 ^ 1 :=
      toNat_lead 6 (by decide) (by decide) (Nat.div_lt_of_lt_mul h₂) (by decide)
    have hlt : i.toNat / 256 ^ 1 < 0x40 := Nat.div_lt_of_lt_mul h₂
    simpa [toBigEndian] using varintCode_toBigEndian (leadOf_of_mem (by decide) hb hlt)
  · have hb : ((i >>> 16) ||| 0xC0).toUInt8.toNat = 0xC0 + i.toNat / 256 ^ 2 :=
      toNat_lead 5 (by decide) (by decide) (Nat.div_lt_of_lt_mul h₃) (by decide)
    have hlt : i.toNat / 256 ^ 2 < 0x20 := Nat.div_lt_of_lt_mul h₃
    simpa [toBigEndian] using varintCode_toBigEndian (leadOf_of_mem (by decide) hb hlt)
  · have hb : ((i >>> 24) ||| 0xE0).toUInt8.toNat = 0xE0 + i.toNat / 256 ^ 3 :=
      toNat_lead 4 (by decide) (by decide) (Nat.div_lt_of_lt_mul h₄) (by decide)
    have hlt : i.toNat / 256 ^ 3 < 0x10 := Nat.div_lt_of_lt_mul h₄
    simpa [toBigEndian] using varintCode_toBigEndian (leadOf_of_mem (by decide) hb hlt)
  · have hb : leadOf 0xF0 = .base 4 (i.toNat / 256 ^ 4) := by
      rw [show i.toNat / 256 ^ 4 = 0 from Nat.div_eq_of_lt h₅]
      rfl
    simpa [toBigEndian] using varintCode_toBigEndian hb
  · have hb : leadOf 0xF4 = .base 8 (i.toNat / 256 ^ 8) := by
      rw [show i.toNat / 256 ^ 8 = 0 from Nat.div_eq_of_lt hi]
      rfl
    simpa [toBigEndian] using varintCode_toBigEndian hb

/-- Both exits of `write_varint` are one `write` of the same bytes, whatever the sink. -/
theorem writeVarint_eq_write {σ : Type} [Write σ] (s : σ) (value : UInt64) :
    writeVarint s value = Write.write s (varintBytes value) := by
  simp only [varintBytes, writeVarint]
  split_ifs <;> simp

theorem varintBytes_eq (value : UInt64) : varintBytes value =
    if value &&& 0x8000000000000000 > 0 ∧ ~~~value < 0x100000000 then
      if ~~~value ≤ 0x3 then [0xFC ||| (~~~value).toUInt8] else 0xF8 :: unsignedBytes (~~~value)
    else unsignedBytes value := by
  simp only [varintBytes, writeVarint]
  split_ifs <;> simp

/-- The one-byte codes of the numbers from `-1` to `-4`. -/
theorem varintCode_short_negative {i : UInt64} (hi : i ≤ 0x3) :
    VarintCode [0xFC ||| i.toUInt8] (~~~i) := by
  have hcases : i = 0 ∨ i = 1 ∨ i = 2 ∨ i = 3 := by
    have := UInt64.le_iff_toNat_le.mp hi
    simp only [← UInt64.toNat_inj, UInt64.reduceToNat] at this ⊢
    omega
  have hlead : leadOf (0xFC ||| i.toUInt8) = .base ([] : Bytes).length (~~~i).toNat := by
    rcases hcases with rfl | rfl | rfl | rfl <;> decide
  simpa only [digitsAfter_nil, UInt64.ofNat_toNat] using VarintCode.base hlead

/-- **The writer writes a code of its value.** -/
theorem varintCode_varintBytes (value : UInt64) : VarintCode (varintBytes value) value := by
  rw [varintBytes_eq]
  split_ifs with hneg hshort
  · simpa using varintCode_short_negative hshort
  · simpa using VarintCode.complement (b := 0xF8) (by decide) (varintCode_unsignedBytes (~~~value))
  · exact varintCode_unsignedBytes value

@[simp] theorem readVarint_varintBytes (value : UInt64) (t : Bytes) :
    readVarint (varintBytes value ++ t) = .ok value t :=
  readVarint_of_code (varintCode_varintBytes value) t

@[simp] theorem writeVarint_bytes (s : Bytes) (value : UInt64) :
    writeVarint s value = (.ok (varintBytes value).length, s ++ varintBytes value) := by
  rw [writeVarint_eq_write, write_bytes]

/-! ### The length of a code -/

/-- The length of the base code of a number: the smallest size class that holds it. -/
def baseLength (n : ℕ) : ℕ :=
  if n < 0x80 then 1
  else if n < 0x4000 then 2
  else if n < 0x200000 then 3
  else if n < 0x10000000 then 4
  else if n < 0x100000000 then 5
  else 9

theorem length_unsignedBytes (i : UInt64) : (unsignedBytes i).length = baseLength i.toNat := by
  simp only [unsignedBytes, baseLength, UInt64.lt_iff_toNat_lt, UInt64.reduceToNat]
  split_ifs <;> rfl

theorem baseLength_bounds (n : ℕ) : 1 ≤ baseLength n ∧ baseLength n ≤ 9 := by
  simp only [baseLength]
  split_ifs <;> omega

theorem baseLength_of_le {n : ℕ} (h : 0x100000000 ≤ n) : baseLength n = 9 := by
  simp only [baseLength]
  split_ifs <;> omega

/-- Where the size classes end. -/
theorem baseLength_le (n : ℕ) : (n < 0x80 → baseLength n ≤ 1) ∧ (n < 0x4000 → baseLength n ≤ 2) ∧
    (n < 0x200000 → baseLength n ≤ 3) ∧ (n < 0x10000000 → baseLength n ≤ 4) ∧
    (n < 0x100000000 → baseLength n ≤ 5) := by
  simp only [baseLength]
  split_ifs <;> omega

/-- A number whose complement is short has its top bit set, so the first test for a signed number
follows from the second. -/
theorem signed_iff (value : UInt64) :
    (value &&& 0x8000000000000000 > 0 ∧ ~~~value < 0x100000000)
      ↔ 2 ^ 64 - 1 - value.toNat < 0x100000000 := by
  have hvalue := value.toNat_lt
  have hnot : (~~~value).toNat = 2 ^ 64 - 1 - value.toNat := UInt64.toNat_not value
  rw [UInt64.lt_iff_toNat_lt, hnot]
  refine and_iff_right_of_imp fun h => ?_
  have htop : value.toNat.testBit 63 = true := by
    rw [Nat.testBit_eq_decide_div_mod_eq, decide_eq_true_iff]
    have : (0x100000000 : UInt64).toNat = 0x100000000 := rfl
    omega
  rw [gt_iff_lt, UInt64.lt_iff_toNat_lt, UInt64.toNat_and,
    show (0x8000000000000000 : UInt64).toNat = 2 ^ 63 from rfl, Nat.and_two_pow, htop]
  decide

theorem length_varintBytes_eq (value : UInt64) : (varintBytes value).length =
    if 2 ^ 64 - 1 - value.toNat < 0x100000000 then
      if 2 ^ 64 - 1 - value.toNat ≤ 3 then 1 else baseLength (2 ^ 64 - 1 - value.toNat) + 1
    else baseLength value.toNat := by
  have hnot : (~~~value).toNat = 2 ^ 64 - 1 - value.toNat := UInt64.toNat_not value
  have hshort : ~~~value ≤ 0x3 ↔ 2 ^ 64 - 1 - value.toNat ≤ 3 := by
    rw [UInt64.le_iff_toNat_le, hnot]
    exact Iff.rfl
  rw [varintBytes_eq]
  simp only [signed_iff, hshort]
  split_ifs
  · rfl
  · rw [List.length_cons, length_unsignedBytes, hnot]
  · exact length_unsignedBytes value

theorem length_varintBytes (value : UInt64) :
    1 ≤ (varintBytes value).length ∧ (varintBytes value).length ≤ 9 := by
  refine ⟨List.length_pos_iff.mpr (varintCode_varintBytes value).ne_nil, ?_⟩
  rw [length_varintBytes_eq]
  split_ifs with hneg hshort
  · decide
  · -- what follows a complement byte is at most a full 32-bit integer
    have hlength := (baseLength_le _).2.2.2.2 hneg
    omega
  · exact (baseLength_bounds value.toNat).2

/-- The complement of a value is written in at most one byte more than the value, so a complement
byte in front of a code saves nothing. -/
theorem length_varintBytes_not_le (value : UInt64) :
    (varintBytes (~~~value)).length ≤ (varintBytes value).length + 1 := by
  have hvalue := value.toNat_lt
  have hnot : (~~~value).toNat = 2 ^ 64 - 1 - value.toNat := UInt64.toNat_not value
  have hnotnot : 2 ^ 64 - 1 - (~~~value).toNat = value.toNat := by omega
  have hpos := (baseLength_bounds value.toNat).1
  rw [length_varintBytes_eq (~~~value), length_varintBytes_eq value, hnotnot, hnot]
  rcases Nat.lt_or_ge value.toNat 0x100000000 with hlow | hlow
  · -- a small number, whose complement is written as the complement of it
    have hhigh : ¬ 2 ^ 64 - 1 - value.toNat < 0x100000000 := by omega
    rw [if_pos hlow, if_neg hhigh]
    split_ifs <;> omega
  · rw [if_neg (Nat.not_lt.mpr hlow)]
    rcases Nat.lt_or_ge (2 ^ 64 - 1 - value.toNat) 0x100000000 with hhigh | hhigh
    · rw [if_pos hhigh]
      split_ifs with hshort
      · have hone : baseLength (2 ^ 64 - 1 - value.toNat) = 1 := if_pos (by omega)
        omega
      · omega
    · -- neither of the two is small, and both take all nine bytes
      rw [if_neg (Nat.not_lt.mpr hhigh), baseLength_of_le hhigh, baseLength_of_le hlow]
      decide

/-- The base codes, by what they stand for: the four short negative numbers, the codes of nine
bytes, and those of the small numbers, whose classes are the size classes of the writer. -/
theorem leadOf_base_cases {b : UInt8} {extra high : ℕ} (hb : leadOf b = .base extra high) :
    (extra = 0 ∧ 2 ^ 64 - 4 ≤ high ∧ high < 2 ^ 64) ∨ extra = 8 ∨
      ∀ n < (high + 1) * 256 ^ extra, n < 0x100000000 ∧ baseLength n ≤ extra + 1 := by
  have hlt := b.toNat_lt
  simp only [leadOf] at hb
  split_ifs at hb
  all_goals obtain ⟨rfl, rfl⟩ := Lead.base.inj hb
  · exact .inr (.inr fun n hn => ⟨by omega, (baseLength_le n).1 (by omega)⟩)
  · exact .inr (.inr fun n hn => ⟨by omega, (baseLength_le n).2.1 (by omega)⟩)
  · exact .inr (.inr fun n hn => ⟨by omega, (baseLength_le n).2.2.1 (by omega)⟩)
  · exact .inr (.inr fun n hn => ⟨by omega, (baseLength_le n).2.2.2.1 (by omega)⟩)
  · exact .inr (.inr fun n hn => ⟨by omega, (baseLength_le n).2.2.2.2 (by omega)⟩)
  · exact .inr (.inl rfl)
  · exact .inl ⟨rfl, by omega, by omega⟩

/-- No base code of a value is shorter than what is written for it. -/
theorem length_varintBytes_le_of_base {b : UInt8} {tail : Bytes} {high : ℕ}
    (hb : leadOf b = .base tail.length high) :
    (varintBytes (UInt64.ofNat (digitsAfter high tail))).length ≤ (b :: tail).length := by
  rcases leadOf_base_cases hb with ⟨htail, hlow, hlt⟩ | hnine | hsmall
  · obtain rfl := List.length_eq_zero_iff.mp htail
    have hvalue : (UInt64.ofNat (digitsAfter high [])).toNat = high := by
      rw [digitsAfter_nil, UInt64.toNat_ofNat', Nat.mod_eq_of_lt hlt]
    rw [length_varintBytes_eq, hvalue, if_pos (show 2 ^ 64 - 1 - high < 0x100000000 by omega),
      if_pos (show 2 ^ 64 - 1 - high ≤ 3 by omega)]
    exact Nat.le_refl 1
  · rw [List.length_cons, hnine]
    exact (length_varintBytes _).2
  · obtain ⟨hlt, hlength⟩ := hsmall _ (digitsAfter_lt high tail)
    have hvalue : (UInt64.ofNat (digitsAfter high tail)).toNat = digitsAfter high tail := by
      rw [UInt64.toNat_ofNat', Nat.mod_eq_of_lt (by omega)]
    have hunsigned : ¬ 2 ^ 64 - 1 - digitsAfter high tail < 0x100000000 := by omega
    rw [length_varintBytes_eq, hvalue, if_neg hunsigned, List.length_cons]
    exact hlength

/-- **No code of a value is shorter than what is written for it.** The induction is along the
complement bytes of the code. -/
theorem VarintCode.length_varintBytes_le {bs : Bytes} {v : UInt64} (h : VarintCode bs v) :
    (varintBytes v).length ≤ bs.length := by
  induction h with
  | base hb => exact length_varintBytes_le_of_base hb
  | @complement b bs v hb h ih =>
    calc (varintBytes (~~~v)).length
        ≤ (varintBytes v).length + 1 := length_varintBytes_not_le v
      _ ≤ (b :: bs).length := Nat.succ_le_succ ih

/-- **`write_varint` writes a shortest code.** Whatever its sink, it hands it one code of the value,
and of all the codes that `read_varint` reads as this value none is shorter. -/
theorem writeVarint_shortest (v : UInt64) : ∃ code : Bytes,
    (∀ {σ : Type} [Write σ] (s : σ), writeVarint s v = Write.write s code) ∧
      readVarint code = .ok v [] ∧
      ∀ bs, readVarint bs = .ok v [] → code.length ≤ bs.length := by
  refine ⟨varintBytes v, fun s => writeVarint_eq_write s v, ?_, ?_⟩
  · simpa using readVarint_varintBytes v []
  · intro bs hread
    obtain ⟨p, rfl, hcode⟩ := code_of_readVarint hread
    rw [List.append_nil]
    exact hcode.length_varintBytes_le

/-! ### Sequences of values -/

/-- Calls of `write_varint` one after another, each with its result. -/
def writeVarints {σ : Type} [Write σ] (s : σ) : List UInt64 → List (Except IoError ℕ) × σ
  | [] => ([], s)
  | v :: vs =>
    let (r, s) := writeVarint s v
    let (rs, s) := writeVarints s vs
    (r :: rs, s)

/-- As many calls of `read_varint` one after another. -/
def readVarints : ℕ → Reader (List UInt64)
  | 0 => pure []
  | n + 1 => do
    let v ← readVarint
    let vs ← readVarints n
    return v :: vs

theorem writeVarints_bytes (s : Bytes) (vs : List UInt64) :
    writeVarints s vs
      = (vs.map fun v => .ok (varintBytes v).length, s ++ vs.flatMap varintBytes) := by
  induction vs generalizing s with
  | nil => simp [writeVarints]
  | cons v vs ih => simp [writeVarints, ih]

theorem readVarints_flatMap (vs : List UInt64) (t : Bytes) :
    readVarints vs.length (vs.flatMap varintBytes ++ t) = .ok vs t := by
  induction vs with
  | nil => rfl
  | cons v vs ih =>
    rw [List.length_cons, readVarints, List.flatMap_cons, List.append_assoc,
      Reader.bind_of_ok (readVarint_varintBytes v _), Reader.bind_of_ok ih]
    rfl

/-- **Varint sequences round trip.** Each write appends between one and nine bytes and returns
their number, and what the writes left in the buffer is read back in order, up to what follows
it. -/
theorem readVarints_writeVarints (vs : List UInt64) (t : Bytes) :
    readVarints vs.length ((writeVarints ([] : Bytes) vs).2 ++ t) = .ok vs t ∧
      (∀ (s : Bytes) (v : UInt64), ∃ code : Bytes,
        writeVarint s v = (.ok code.length, s ++ code) ∧ 1 ≤ code.length ∧ code.length ≤ 9) ∧
      ∀ r ∈ (writeVarints ([] : Bytes) vs).1, ∃ n, r = .ok n ∧ 1 ≤ n ∧ n ≤ 9 := by
  refine ⟨?_, fun s v => ⟨varintBytes v, writeVarint_bytes s v, length_varintBytes v⟩, ?_⟩
  · simpa [writeVarints_bytes] using readVarints_flatMap vs t
  · intro r hr
    obtain ⟨v, -, rfl⟩ := List.mem_map.mp (by simpa [writeVarints_bytes] using hr)
    exact ⟨_, rfl, length_varintBytes v⟩

/-! ### Any sink

`write_varint` is one `write`, and its result is the result of that. Nobody who calls it looks at
the number in an `Ok`. -/

theorem writeVarints_eq_writes {σ : Type} [Write σ] (s : σ) (vs : List UInt64) :
    writeVarints s vs = Sink.writes s (vs.map varintBytes) := by
  induction vs generalizing s with
  | nil => rfl
  | cons v vs ih =>
    simp only [writeVarints, List.map_cons, Sink.writes, writeVarint_eq_write, ih]

/-- What a caller relies on who looks at nothing but whether `write_varint` is `Ok`: a call that is
`Ok` has left a whole code of its value in the sink, and calls that are all `Ok` have left one for
each of the values, from which `read_varint` gets them back. -/
structure Reported {σ : Type} [Sink σ] (s : σ) (vs : List UInt64) : Prop where
  whole : ∀ a v b, vs = a ++ v :: b → ∀ n s',
    writeVarint (writeVarints s a).2 v = (.ok n, s') →
      ∃ code, VarintCode code v ∧ Sink.held s' = Sink.held (writeVarints s a).2 ++ code
  recovered : (∀ r ∈ (writeVarints s vs).1, ∃ n, r = .ok n) →
    ∃ codes, List.Forall₂ VarintCode codes vs ∧
      Sink.held (writeVarints s vs).2 = Sink.held s ++ codes.flatten ∧
      ∀ t, readVarints vs.length (codes.flatten ++ t) = .ok vs t

theorem forall₂_varintBytes (vs : List UInt64) :
    List.Forall₂ VarintCode (vs.map varintBytes) vs := by
  induction vs with
  | nil => exact .nil
  | cons v vs ih => exact .cons (varintCode_varintBytes v) ih

section Sinks

variable {σ : Type} [Sink σ] {s : σ} {vs : List UInt64}

theorem reported_of_wholeWrites (h : Sink.WholeWrites s (vs.map varintBytes)) : Reported s vs := by
  constructor
  · intro a v b hvs n s' hwrite
    rw [writeVarint_eq_write] at hwrite
    have hcut : vs.map varintBytes = a.map varintBytes ++ varintBytes v :: b.map varintBytes := by
      rw [hvs, List.map_append, List.map_cons]
    have hwhole := Sink.wholeWrites_iff.mp h _ _ _ hcut
    rw [← writeVarints_eq_writes] at hwhole
    exact ⟨_, varintCode_varintBytes v, Sink.whole_iff.mp hwhole n s' hwrite⟩
  · intro hok
    rw [writeVarints_eq_writes] at hok ⊢
    have hheld := Sink.held_writes h
    rw [Sink.accepted_of_ok hok] at hheld
    refine ⟨_, forall₂_varintBytes vs, hheld, ?_⟩
    rw [← List.flatMap_def]
    exact readVarints_flatMap vs

/-- A part of a code is not a code, so an `Ok` that can be relied on is one for the whole code. -/
theorem wholeWrites_of_reported (h : Reported s vs) :
    Sink.WholeWrites s (vs.map varintBytes) := by
  rw [Sink.wholeWrites_iff]
  intro a' buf b' hcut
  obtain ⟨a, vb, rfl, rfl, hvb⟩ := List.map_eq_append_iff.mp hcut
  obtain ⟨v, b, rfl, rfl, rfl⟩ := List.map_eq_cons_iff.mp hvb
  rw [← writeVarints_eq_writes]
  intro n hn
  have hwrite : Write.write (writeVarints s a).2 (varintBytes v) = (.ok n, _) := Prod.ext hn rfl
  obtain ⟨hle, hheld⟩ := Sink.write_ok hwrite
  obtain ⟨code, hcode, hheld'⟩ := h.whole a v b rfl n _ ((writeVarint_eq_write _ v).trans hwrite)
  have htake : (varintBytes v).take n = code :=
    List.append_cancel_left (hheld.symm.trans hheld')
  have hwhole : code = varintBytes v :=
    hcode.eq_of_prefix (varintCode_varintBytes v) (htake ▸ List.take_prefix n _)
  rw [← List.length_take_of_le hle, htake, hwhole]

/-- **When an `Ok` of `write_varint` can be relied on**: exactly when the sink, handed the codes one
after another, takes each of them whole if it takes any of it. -/
theorem reported_iff {σ : Type} [Sink σ] (s : σ) (vs : List UInt64) :
    Reported s vs ↔ Sink.WholeWrites s (vs.map varintBytes) :=
  ⟨wholeWrites_of_reported, reported_of_wholeWrites⟩

/-- A slice with one byte, and a value that takes two: the call is `Ok`, and the value cannot be
read back. -/
theorem writeVarint_truncates :
    (writeVarints (SliceCursor.new [0]) [0x80]).1 = [.ok 1] ∧
      readVarints 1 (Sink.held (writeVarints (SliceCursor.new [0]) [0x80]).2)
        = .err .unexpectedEof [] ∧
      ¬ Reported (SliceCursor.new [0]) [0x80] := by
  have hresults : (writeVarints (SliceCursor.new [0]) [0x80]).1 = [.ok 1] := rfl
  refine ⟨hresults, rfl, fun h => ?_⟩
  obtain ⟨codes, -, hheld, hcodes⟩ := h.recovered (by simp [hresults])
  have hread : readVarints 1 (Sink.held (writeVarints (SliceCursor.new [0]) [0x80]).2)
      = .ok [0x80] [] := by
    rw [hheld, ← hcodes [], List.append_nil]
    rfl
  cases hread

end Sinks

/-- What is written to a vector, as `encode` does, is there. -/
theorem reported_bytes (s : Bytes) (vs : List UInt64) : Reported s vs :=
  reported_of_wholeWrites (wholeWrites_bytes s _)

/-- A slice has to have room for all of the codes. -/
theorem reported_sliceCursor_iff {c : SliceCursor} {vs : List UInt64} :
    Reported c vs ↔ (vs.flatMap varintBytes).length ≤ c.room := by
  rw [List.flatMap_def, ← SliceCursor.wholeWrites_iff]
  exact ⟨wholeWrites_of_reported, reported_of_wholeWrites⟩

/-- A sink that takes so much at a time has to take as much as the longest code. -/
theorem reported_portioned_iff {p : Portioned} {vs : List UInt64} :
    Reported p vs ↔ ∀ v ∈ vs, (varintBytes v).length ≤ p.limit := by
  have hmap : (∀ buf ∈ vs.map varintBytes, buf.length ≤ p.limit)
      ↔ ∀ v ∈ vs, (varintBytes v).length ≤ p.limit := List.forall_mem_map
  rw [← hmap, ← Portioned.wholeWrites_iff]
  exact ⟨wholeWrites_of_reported, reported_of_wholeWrites⟩

end MumbleBot
