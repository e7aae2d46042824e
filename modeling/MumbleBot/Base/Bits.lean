import MumbleBot.Base.Reader
import Mathlib.Data.Nat.Bitwise
import Mathlib.Tactic.Ring

/-!
# Machine words from bytes

The numbers that bytes spell when the most significant comes first, and the two facts that turn
the shifts and masks of byte-level code into arithmetic: an `or` of words that share no bits is
a sum, and a masked shift is a digit in base 256.

## Main results

* `and_high_eq_iff`, `toNat_and_low` — what a mask says about a byte
* `toNat_or_byte_shiftLeft` — reading one more byte of a big-endian number
* `digitsAfter_toBigEndian`, `ofBigEndian_toBigEndian` — the bytes of a number spell it
-/

namespace MumbleBot

/-! ### Disjoint words -/

/-- `or` adds when the bits of the second word lie below those of the first. -/
theorem toNat_or_of_dvd {a b : UInt64} (n : ℕ) (ha : 2 ^ n ∣ a.toNat) (hb : b.toNat < 2 ^ n) :
    (a ||| b).toNat = a.toNat + b.toNat := by
  obtain ⟨q, hq⟩ := ha
  rw [UInt64.toNat_or, hq, ← Nat.two_pow_add_eq_or_of_lt hb]

theorem toNat_shiftLeft_of_lt {a : UInt64} {s : UInt64} (hs : s.toNat < 64)
    (h : a.toNat * 2 ^ s.toNat < 2 ^ 64) : (a <<< s).toNat = a.toNat * 2 ^ s.toNat := by
  rw [UInt64.toNat_shiftLeft, Nat.mod_eq_of_lt hs, Nat.shiftLeft_eq, Nat.mod_eq_of_lt h]

/-- A byte moved up by at most seven bytes stays inside the word. -/
theorem toNat_byte_shiftLeft (b : UInt8) {s : UInt64} (hs : s.toNat ≤ 56) :
    (b.toUInt64 <<< s).toNat = b.toNat * 2 ^ s.toNat := by
  have hb : b.toUInt64.toNat = b.toNat := UInt8.toNat_toUInt64 b
  have hlt : b.toNat * 2 ^ s.toNat < 2 ^ 64 :=
    calc b.toNat * 2 ^ s.toNat
        ≤ 255 * 2 ^ 56 :=
          Nat.mul_le_mul (Nat.le_of_lt_succ b.toNat_lt) (Nat.pow_le_pow_right (by decide) hs)
      _ < 2 ^ 64 := by decide
  rw [toNat_shiftLeft_of_lt (by omega) (by rwa [hb]), hb]

/-- One more byte below the digits a word already holds. Reading a big-endian number is this
step, once for each byte. -/
theorem toNat_or_byte_shiftLeft {a : UInt64} {n : ℕ} (b : UInt8) {s : UInt64}
    (hs : s.toNat ≤ 56) (ha : a.toNat = n * 2 ^ (s.toNat + 8)) :
    (a ||| b.toUInt64 <<< s).toNat = (n * 256 + b.toNat) * 2 ^ s.toNat := by
  have hb := toNat_byte_shiftLeft b hs
  have hdvd : 2 ^ (s.toNat + 8) ∣ a.toNat := ⟨n, by rw [ha, Nat.mul_comm]⟩
  have hlt : (b.toUInt64 <<< s).toNat < 2 ^ (s.toNat + 8) := by
    rw [hb, Nat.pow_add, Nat.mul_comm]
    exact (Nat.mul_lt_mul_left (Nat.two_pow_pos _)).mpr b.toNat_lt
  rw [toNat_or_of_dvd _ hdvd hlt, ha, hb]
  ring

/-- The last byte of a big-endian number, which is not shifted. -/
theorem toNat_or_byte {a : UInt64} {n : ℕ} (b : UInt8) (ha : a.toNat = n * 2 ^ 8) :
    (a ||| b.toUInt64).toNat = n * 256 + b.toNat := by
  have hb : b.toUInt64.toNat = b.toNat := UInt8.toNat_toUInt64 b
  rw [toNat_or_of_dvd 8 ⟨n, by rw [ha, Nat.mul_comm]⟩ (by rw [hb]; exact b.toNat_lt), ha, hb]
  rfl

/-! ### Masked bytes

A mask over the high bits of a byte tells which block of length `2 ^ k` the byte is in, and a
mask over the low bits tells where in its block it is. -/

theorem and_shiftLeft (x m k : ℕ) : x &&& m <<< k = ((x >>> k) &&& m) <<< k := by
  apply Nat.eq_of_testBit_eq
  intro i
  by_cases hi : k ≤ i
  · simp [hi]
  · simp [hi]

/-- A test of all but the `k` lowest bits of a byte is a test of its block. -/
theorem and_high_eq_iff (b : UInt8) {mask tag : UInt64} (k q : ℕ) (hk : k ≤ 8)
    (hmask : mask.toNat = (2 ^ (8 - k) - 1) * 2 ^ k) (htag : tag.toNat = q * 2 ^ k) :
    b.toUInt64 &&& mask = tag ↔ q * 2 ^ k ≤ b.toNat ∧ b.toNat < (q + 1) * 2 ^ k := by
  have hblock : b.toNat / 2 ^ k < 2 ^ (8 - k) := by
    rw [Nat.div_lt_iff_lt_mul (Nat.two_pow_pos k), ← Nat.pow_add, Nat.sub_add_cancel hk]
    exact b.toNat_lt
  have hand : b.toNat &&& mask.toNat = b.toNat / 2 ^ k * 2 ^ k := by
    rw [hmask, ← Nat.shiftLeft_eq, and_shiftLeft, Nat.and_two_pow_sub_one_eq_mod,
      Nat.shiftRight_eq_div_pow, Nat.mod_eq_of_lt hblock, Nat.shiftLeft_eq]
  have hpos := Nat.two_pow_pos k
  rw [← UInt64.toNat_inj, UInt64.toNat_and, UInt8.toNat_toUInt64, hand, htag,
    Nat.mul_left_inj hpos.ne', Nat.div_eq_iff hpos, Nat.succ_mul]
  omega

theorem toNat_and_low (b : UInt8) {mask : UInt64} (k : ℕ) (hmask : mask.toNat = 2 ^ k - 1) :
    (b.toUInt64 &&& mask).toNat = b.toNat % 2 ^ k := by
  rw [UInt64.toNat_and, UInt8.toNat_toUInt64, hmask, Nat.and_two_pow_sub_one_eq_mod]

/-- The low bits of a byte, moved up without leaving the word. -/
theorem toNat_and_low_shiftLeft (b : UInt8) {mask s : UInt64} (k : ℕ)
    (hmask : mask.toNat = 2 ^ k - 1) (hs : k + s.toNat < 64) :
    ((b.toUInt64 &&& mask) <<< s).toNat = b.toNat % 2 ^ k * 2 ^ s.toNat := by
  have hlow := toNat_and_low b k hmask
  have hlt : b.toNat % 2 ^ k * 2 ^ s.toNat < 2 ^ 64 :=
    calc b.toNat % 2 ^ k * 2 ^ s.toNat
        < 2 ^ k * 2 ^ s.toNat :=
          (Nat.mul_lt_mul_right (Nat.two_pow_pos _)).mpr (Nat.mod_lt _ (Nat.two_pow_pos k))
      _ = 2 ^ (k + s.toNat) := (Nat.pow_add ..).symm
      _ ≤ 2 ^ 64 := Nat.pow_le_pow_right (by decide) hs.le
  rw [toNat_shiftLeft_of_lt (by omega) (by rwa [hlow]), hlow]

/-! ### Big-endian numbers -/

/-- The digits `bs` read after the number `n`, most significant byte first. -/
def digitsAfter (n : ℕ) (bs : Bytes) : ℕ := bs.foldl (fun n b => n * 256 + b.toNat) n

/-- The number that `bs` spells, most significant byte first. -/
def ofBigEndian (bs : Bytes) : ℕ := digitsAfter 0 bs

/-- The `k` low bytes of `n`, most significant first. -/
def toBigEndian : ℕ → ℕ → Bytes
  | 0, _ => []
  | k + 1, n => UInt8.ofNat (n / 256 ^ k) :: toBigEndian k n

@[simp] theorem digitsAfter_nil (n : ℕ) : digitsAfter n [] = n := rfl

@[simp] theorem digitsAfter_cons (n : ℕ) (b : UInt8) (bs : Bytes) :
    digitsAfter n (b :: bs) = digitsAfter (n * 256 + b.toNat) bs := rfl

@[simp] theorem length_toBigEndian (k n : ℕ) : (toBigEndian k n).length = k := by
  induction k with
  | zero => rfl
  | succ k ih => simp [toBigEndian, ih]

/-- Digits after `n` do not carry into it. -/
theorem digitsAfter_lt (n : ℕ) (bs : Bytes) : digitsAfter n bs < (n + 1) * 256 ^ bs.length := by
  induction bs generalizing n with
  | nil => simp
  | cons b bs ih =>
    have hb := b.toNat_lt
    calc digitsAfter n (b :: bs)
        < (n * 256 + b.toNat + 1) * 256 ^ bs.length := ih _
      _ ≤ ((n + 1) * 256) * 256 ^ bs.length := Nat.mul_le_mul_right _ (by omega)
      _ = (n + 1) * 256 ^ (b :: bs).length := by rw [List.length_cons, pow_succ]; ring

/-- Reading the low bytes of `n` after its high part gives `n` back. -/
theorem digitsAfter_toBigEndian (k n : ℕ) : digitsAfter (n / 256 ^ k) (toBigEndian k n) = n := by
  induction k with
  | zero => simp [toBigEndian]
  | succ k ih =>
    have hstep : n / 256 ^ (k + 1) * 256 + (UInt8.ofNat (n / 256 ^ k)).toNat = n / 256 ^ k := by
      rw [pow_succ, ← Nat.div_div_eq_div_mul, UInt8.toNat_ofNat']
      omega
    rw [toBigEndian, digitsAfter_cons, hstep, ih]

theorem ofBigEndian_toBigEndian {k n : ℕ} (h : n < 256 ^ k) :
    ofBigEndian (toBigEndian k n) = n := by
  simpa [ofBigEndian, Nat.div_eq_of_lt h] using digitsAfter_toBigEndian k n

theorem le_digitsAfter (n : ℕ) (bs : Bytes) : n * 256 ^ bs.length ≤ digitsAfter n bs := by
  induction bs generalizing n with
  | nil => simp
  | cons b bs ih =>
    calc n * 256 ^ (b :: bs).length
        = n * 256 * 256 ^ bs.length := by rw [List.length_cons, pow_succ]; ring
      _ ≤ (n * 256 + b.toNat) * 256 ^ bs.length := Nat.mul_le_mul_right _ (Nat.le_add_right _ _)
      _ ≤ digitsAfter n (b :: bs) := ih _

/-- The digits behind `n` are its low bytes. -/
theorem toBigEndian_digitsAfter (n : ℕ) (bs : Bytes) :
    toBigEndian bs.length (digitsAfter n bs) = bs := by
  induction bs generalizing n with
  | nil => rfl
  | cons b bs ih =>
    have hdiv : digitsAfter (n * 256 + b.toNat) bs / 256 ^ bs.length = n * 256 + b.toNat :=
      Nat.div_eq_of_lt_le (le_digitsAfter _ bs) (digitsAfter_lt _ bs)
    have hbyte : UInt8.ofNat (n * 256 + b.toNat) = b := by
      rw [← UInt8.toNat_inj, UInt8.toNat_ofNat']
      have hb := b.toNat_lt
      omega
    rw [List.length_cons, toBigEndian, digitsAfter_cons, hdiv, hbyte, ih]

theorem toBigEndian_ofBigEndian (bs : Bytes) : toBigEndian bs.length (ofBigEndian bs) = bs :=
  toBigEndian_digitsAfter 0 bs

theorem ofBigEndian_lt (bs : Bytes) : ofBigEndian bs < 256 ^ bs.length := by
  simpa [ofBigEndian] using digitsAfter_lt 0 bs

end MumbleBot
