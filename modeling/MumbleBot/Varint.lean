import MumbleBot.Base.Bits
import MumbleBot.Base.Sink

/-!
# `varint.rs`: variable-width integers

The reader and the writer of the integers in Mumble's voice packets, as the source computes
them: nine mask tests in order, of which one recurses, and a writer with eight size classes of
which the short negative numbers take two.

The two closures of the source, `next` and `decode`, are the readers below. `decode` recurses on
the byte it has just consumed, so the recursion is on the bytes left in the cursor.

## Main definitions

* `next`, `varintDecode`, `readVarint` — `VarintReader::read_varint`
* `writeVarint` — `VarintWriter::write_varint`, into any sink
-/

namespace MumbleBot

/-! ### Reading -/

/-- The closure `next` of `read_varint`: one byte, widened to a `u64`. -/
def next : Reader UInt64 := do
  let b ← readU8
  return b.toUInt64

@[simp] theorem next_bind_nil {β : Type} (f : UInt64 → Reader β) :
    (next >>= f) [] = .err .unexpectedEof [] := rfl

@[simp] theorem next_bind_cons {β : Type} (f : UInt64 → Reader β) (b : UInt8) (rest : Bytes) :
    (next >>= f) (b :: rest) = f b.toUInt64 rest := rfl

/-- The inner function `decode` of `read_varint`. Its first `next()?` is the case split on the
bytes left. -/
def varintDecode (i : UInt64) : Reader UInt64
  | [] => .err .unexpectedEof []
  | b :: rest =>
    let v := b.toUInt64
    if v &&& 0x80 = 0x00 then
      .ok (v &&& 0x7F) rest
    else if v &&& 0xC0 = 0x80 then
      (do return (v &&& 0x3F) <<< 8 ||| (← next) : Reader UInt64) rest
    else if v &&& 0xF0 = 0xF0 then
      if v &&& 0xFC = 0xF0 then
        (do return (← next) <<< 24 ||| (← next) <<< 16 ||| (← next) <<< 8 ||| (← next) :
          Reader UInt64) rest
      else if v &&& 0xFC = 0xF4 then
        (do return (← next) <<< 56 ||| (← next) <<< 48 ||| (← next) <<< 40 ||| (← next) <<< 32
              ||| (← next) <<< 24 ||| (← next) <<< 16 ||| (← next) <<< 8 ||| (← next) :
          Reader UInt64) rest
      else if v &&& 0xFC = 0xF8 then
        match varintDecode i rest with
        | .ok r rest => .ok (~~~r) rest
        | .err e rest => .err e rest
        | .panic => .panic
      else if v &&& 0xFC = 0xFC then
        .ok (~~~(v &&& 0x03)) rest
      else
        .panic
    else if v &&& 0xF0 = 0xE0 then
      (do return (v &&& 0x0F) <<< 24 ||| (← next) <<< 16 ||| (← next) <<< 8 ||| (← next) :
        Reader UInt64) rest
    else if v &&& 0xE0 = 0xC0 then
      (do return (v &&& 0x1F) <<< 16 ||| (← next) <<< 8 ||| (← next) : Reader UInt64) rest
    else
      .panic

/-- `VarintReader::read_varint`. -/
def readVarint : Reader UInt64 := varintDecode 0

/-! ### Writing -/

/-- The part of `write_varint` after the sign has been dealt with: the bytes `buf` gains for an
unsigned `i`. -/
def unsignedBytes (i : UInt64) : Bytes :=
  if i < 0x80 then
    -- Need top bit clear
    [i.toUInt8]
  else if i < 0x4000 then
    -- Need top two bits clear
    [((i >>> 8) ||| 0x80).toUInt8, (i &&& 0xFF).toUInt8]
  else if i < 0x200000 then
    -- Need top three bits clear
    [((i >>> 16) ||| 0xC0).toUInt8, ((i >>> 8) &&& 0xFF).toUInt8, (i &&& 0xFF).toUInt8]
  else if i < 0x10000000 then
    -- Need top four bits clear
    [((i >>> 24) ||| 0xE0).toUInt8, ((i >>> 16) &&& 0xFF).toUInt8, ((i >>> 8) &&& 0xFF).toUInt8,
      (i &&& 0xFF).toUInt8]
  else if i < 0x100000000 then
    -- It's a full 32-bit integer.
    [0xF0, ((i >>> 24) &&& 0xFF).toUInt8, ((i >>> 16) &&& 0xFF).toUInt8,
      ((i >>> 8) &&& 0xFF).toUInt8, (i &&& 0xFF).toUInt8]
  else
    -- It's a 64-bit value.
    [0xF4, ((i >>> 56) &&& 0xFF).toUInt8, ((i >>> 48) &&& 0xFF).toUInt8,
      ((i >>> 40) &&& 0xFF).toUInt8, ((i >>> 32) &&& 0xFF).toUInt8, ((i >>> 24) &&& 0xFF).toUInt8,
      ((i >>> 16) &&& 0xFF).toUInt8, ((i >>> 8) &&& 0xFF).toUInt8, (i &&& 0xFF).toUInt8]

/-- `VarintWriter::write_varint`: one `write` of the finished buffer, from either of the two
exits of the function. -/
def writeVarint {σ : Type} [Write σ] (s : σ) (value : UInt64) : Except IoError ℕ × σ :=
  if value &&& 0x8000000000000000 > 0 ∧ ~~~value < 0x100000000 then
    -- Signed number.
    let i := ~~~value
    if i ≤ 0x3 then
      -- Shortcase for -1 to -4
      Write.write s [0xFC ||| i.toUInt8]
    else
      Write.write s (0xF8 :: unsignedBytes i)
  else
    Write.write s (unsignedBytes value)

/-- The bytes `write_varint` hands to its sink. -/
def varintBytes (value : UInt64) : Bytes := (writeVarint ([] : Bytes) value).2

end MumbleBot
