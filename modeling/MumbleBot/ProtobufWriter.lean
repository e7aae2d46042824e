import MumbleBot.WireRecords
import MumbleBot.Base.Sink
import MumbleBot.Framing

/-!
# Generated protobuf writers

A generated message is written in two passes. `compute_size` adds up how many bytes its fields will
take, from the sizes the runtime gives and from constants of the generator; then
`write_to_with_cached_sizes` writes the fields into a slice that is exactly that long, and a byte
that does not fit would be an error. `GeneratedMessage` is a message type with both passes, whose
fields are a table: what is added up is what is written, and what is written is read back.

Unknown fields are left out: the messages that are written are made by `new`, which has none.

## Main definitions

* `writeUint32`, … — the fields as `CodedOutputStream` writes them
* `valueSize`, `stringSize` — the sizes the runtime gives
* `GeneratedMessage` — a message type with the writer that is generated for it
* `messageFrame` — a frame as the client builds it

## Main results

* `length_rawVarintBytes` — the size of a varint
* `messageFrame_total` — the client's buffers have the size they need
* `received_flatMap_messageBytes` — a message that is sent is received as it was
-/

namespace MumbleBot

/-! ### Sizes -/

/-- `compute_raw_varint64_size`. -/
def rawVarintSize (v : ℕ) : ℕ :=
  if v < 2 ^ 7 then 1
  else if v < 2 ^ 14 then 2
  else if v < 2 ^ 21 then 3
  else if v < 2 ^ 28 then 4
  else if v < 2 ^ 35 then 5
  else if v < 2 ^ 42 then 6
  else if v < 2 ^ 49 then 7
  else if v < 2 ^ 56 then 8
  else if v < 2 ^ 63 then 9
  else 10

/-- A number of `k + 1` digits in base 128 is written in as many bytes, and one of more digits than
there may be bytes in as many as there may be. -/
theorem length_rawVarintBytes_of {n k v : ℕ} (hk : k < n) (hle : 2 ^ (7 * k) ≤ v ∨ k = 0)
    (hlt : v < 2 ^ (7 * (k + 1)) ∨ n = k + 1) : (rawVarintBytes n v).length = k + 1 := by
  obtain ⟨n, rfl⟩ : ∃ m, n = m + 1 := ⟨n - 1, by omega⟩
  induction k generalizing n v with
  | zero =>
    rw [rawVarintBytes]
    split_ifs with hv
    · rfl
    · obtain rfl : n = 0 := by omega
      rfl
  | succ k ih =>
    have hpow : 2 ^ (7 * (k + 1)) = 0x80 * 2 ^ (7 * k) := by
      rw [Nat.mul_succ, Nat.pow_add, Nat.mul_comm]
    have hpow' : 2 ^ (7 * (k + 1 + 1)) = 0x80 * 2 ^ (7 * (k + 1)) := by
      rw [Nat.mul_succ, Nat.pow_add, Nat.mul_comm]
    have hpos := Nat.two_pow_pos (7 * k)
    obtain ⟨n, rfl⟩ : ∃ m, n = m + 1 := ⟨n - 1, by omega⟩
    rw [rawVarintBytes, if_neg (by omega), List.length_cons,
      ih (.inl (by omega)) n (by omega) (by omega)]

/-- The size of a varint is the number of its bytes. -/
theorem length_rawVarintBytes (v : ℕ) : (rawVarintBytes 10 v).length = rawVarintSize v := by
  rw [rawVarintSize]
  split_ifs
  · exact length_rawVarintBytes_of (k := 0) (by decide) (.inr rfl) (.inl (by omega))
  all_goals exact length_rawVarintBytes_of (by decide) (.inl (by omega)) (by omega)

/-- `rt::tag_size`. -/
def tagSize (number : UInt32) : ℕ := rawVarintSize (8 * number.toNat)

/-- The tag of a field with a small number is a byte; the constants of the generator count on it. -/
theorem tagSize_of_lt {number : UInt32} (h : number < 16) : tagSize number = 1 := by
  have hlt : number.toNat < 16 := UInt32.lt_iff_toNat_lt.mp h
  rw [tagSize, rawVarintSize, if_pos (by omega)]

/-- `rt::value_size` of a varint. -/
def valueSize (number : UInt32) (v : UInt64) : ℕ := tagSize number + rawVarintSize v.toNat

/-- `rt::bytes_size`. -/
def bytesSize (number : UInt32) (bs : Bytes) : ℕ :=
  tagSize number + (rawVarintSize bs.length + bs.length)

/-- The bytes of a string. -/
def utf8 (s : String) : Bytes := s.toUTF8.data.toList

theorem size_utf8Encode_le (l : List Char) : l.utf8Encode.size ≤ 4 * l.length := by
  induction l with
  | nil => simp
  | cons c l ih =>
    have hc : [c].utf8Encode.size = c.utf8Size := by simp [List.utf8Encode_singleton]
    have hle := c.utf8Size_le_four
    rw [List.utf8Encode_cons, ByteArray.size_append, List.length_cons, hc]
    omega

/-- A character takes at most four bytes. -/
theorem length_utf8_le (s : String) : (utf8 s).length ≤ 4 * s.length := by
  have hsize := size_utf8Encode_le s.toList
  rwa [String.utf8Encode_toList] at hsize

/-- `rt::string_size`. -/
def stringSize (number : UInt32) (s : String) : ℕ := bytesSize number (utf8 s)

theorem rawVarintSize_le (v : ℕ) : rawVarintSize v ≤ 10 := by
  rw [rawVarintSize]
  split_ifs <;> decide

/-- The three lowest bits do not make a varint longer. -/
theorem rawVarintSize_add (q : ℕ) {r : ℕ} (hr : r < 8) :
    rawVarintSize (8 * q + r) = rawVarintSize (8 * q) := by
  have hlt : ∀ k, 3 ≤ k → (8 * q + r < 2 ^ k ↔ 8 * q < 2 ^ k) := by
    intro k hk
    obtain ⟨m, rfl⟩ := Nat.exists_eq_add_of_le hk
    rw [Nat.pow_add]
    omega
  simp (disch := decide) only [rawVarintSize, hlt]

/-! ### Fields as they are written -/

/-- The number of a negative `i32` on the wire is that of the `i64`. -/
def int32Bits (v : Int32) : UInt64 := v.toInt64.toUInt64

/-- `write_uint32`. -/
def writeUint32 (number : UInt32) (h : IsFieldNumber number := by decide) (v : UInt32) :
    WireField := ⟨number, .varint v.toUInt64, h⟩

/-- `write_uint64`. -/
def writeUint64 (number : UInt32) (h : IsFieldNumber number := by decide) (v : UInt64) :
    WireField := ⟨number, .varint v, h⟩

/-- `write_int32`. -/
def writeInt32 (number : UInt32) (h : IsFieldNumber number := by decide) (v : Int32) :
    WireField := ⟨number, .varint (int32Bits v), h⟩

/-- `write_bool`. -/
def writeBool (number : UInt32) (h : IsFieldNumber number := by decide) (v : Bool) :
    WireField := ⟨number, .varint (if v then 1 else 0), h⟩

/-- `write_float`, of the bits of an `f32`. -/
def writeFloat (number : UInt32) (h : IsFieldNumber number := by decide) (v : UInt32) :
    WireField := ⟨number, .fixed32 v, h⟩

/-- `write_string`. -/
def writeString (number : UInt32) (h : IsFieldNumber number := by decide) (v : String) :
    WireField := ⟨number, .lengthDelimited (utf8 v), h⟩

/-- The wire type is in the lowest bits of the tag, so that it does not lengthen it. -/
theorem length_tagBytes (field : WireField) : field.tagBytes.length = tagSize field.number := by
  rw [WireField.tagBytes, length_rawVarintBytes, tagSize, WireField.tag]
  exact rawVarintSize_add _ field.payload.wireType.toNat_lt

@[simp] theorem length_writeUint32 (number : UInt32) (h : IsFieldNumber number) (v : UInt32) :
    (writeUint32 number h v).bytes.length = valueSize number v.toUInt64 := by
  rw [WireField.bytes, List.length_append, length_tagBytes]
  exact congrArg _ (length_rawVarintBytes _)

@[simp] theorem length_writeUint64 (number : UInt32) (h : IsFieldNumber number) (v : UInt64) :
    (writeUint64 number h v).bytes.length = valueSize number v := by
  rw [WireField.bytes, List.length_append, length_tagBytes]
  exact congrArg _ (length_rawVarintBytes _)

@[simp] theorem length_writeInt32 (number : UInt32) (h : IsFieldNumber number) (v : Int32) :
    (writeInt32 number h v).bytes.length = valueSize number (int32Bits v) := by
  rw [WireField.bytes, List.length_append, length_tagBytes]
  exact congrArg _ (length_rawVarintBytes _)

/-- The generator counts a `bool` as a byte. -/
@[simp] theorem length_writeBool (number : UInt32) (h : IsFieldNumber number) (v : Bool) :
    (writeBool number h v).bytes.length = tagSize number + 1 := by
  rw [WireField.bytes, List.length_append, length_tagBytes]
  cases v <;> rfl

@[simp] theorem length_writeFloat (number : UInt32) (h : IsFieldNumber number) (v : UInt32) :
    (writeFloat number h v).bytes.length = tagSize number + 4 := by
  rw [WireField.bytes, List.length_append, length_tagBytes]
  exact congrArg _ (length_toLittleEndian 4 v.toNat)

@[simp] theorem length_writeString (number : UInt32) (h : IsFieldNumber number) (v : String) :
    (writeString number h v).bytes.length = stringSize number v := by
  rw [WireField.bytes, List.length_append, length_tagBytes]
  refine congrArg _ ((List.length_append ..).trans ?_)
  rw [length_rawVarintBytes]

/-! ### What is written is read -/

theorem interpret_writeUint32 (number : UInt32) (h : IsFieldNumber number) (v : UInt32) :
    Kind.interpret .uint32 (writeUint32 number h v).payload = .ok v := by
  simp [writeUint32, Kind.interpret]

theorem interpret_writeUint64 (number : UInt32) (h : IsFieldNumber number) (v : UInt64) :
    Kind.interpret .uint64 (writeUint64 number h v).payload = .ok v := rfl

theorem interpret_writeBool (number : UInt32) (h : IsFieldNumber number) (v : Bool) :
    Kind.interpret .bool (writeBool number h v).payload = .ok v := by
  cases v <;> rfl

theorem interpret_writeFloat (number : UInt32) (h : IsFieldNumber number) (v : UInt32) :
    Kind.interpret .float (writeFloat number h v).payload = .ok v := rfl

theorem interpret_writeString (number : UInt32) (h : IsFieldNumber number) (v : String) :
    Kind.interpret .string (writeString number h v).payload = .ok v := by
  have hutf8 : String.fromUTF8? ⟨(utf8 v).toArray⟩ = some v := by
    have hbytes : (⟨(utf8 v).toArray⟩ : ByteArray) = v.toByteArray := rfl
    rw [hbytes, String.fromUTF8?, dif_pos v.isValidUTF8]
    rfl
  rw [writeString, Kind.interpret, hutf8]

/-- The low half of a number that has been sign-extended is the number. -/
theorem interpret_writeInt32 (number : UInt32) (h : IsFieldNumber number) (v : Int32) :
    Kind.interpret .repeatedUint32 (writeInt32 number h v).payload = .ok [v.toUInt32] := by
  have hbits : UInt32.ofNat (int32Bits v).toNat = v.toUInt32 := by
    rw [UInt32.ofNat_uInt64ToNat, ← UInt32.toBitVec_inj]
    change (v.toBitVec.signExtend 64).setWidth 32 = v.toBitVec
    ext i hi
    rw [BitVec.getElem_setWidth, BitVec.getLsbD_signExtend, if_pos hi]
    simp [hi, Nat.lt_trans hi (by decide : 32 < 64)]
  rw [writeInt32, Kind.interpret, hbits]

/-! ### Fields and what they are merged into -/

section Merges

variable {ν α : Type} [Message ν]

/-- Merging a record into `m` gives `m'`. -/
def Merges (record : List WireField) (m m' : ν) : Prop :=
  mergeRecord Message.fields m record = .ok m'

namespace Merges

theorem flatten_nil (m : ν) : Merges [].flatten m m := rfl

theorem flatten_cons {record : List WireField} {records : List (List WireField)} {m m₁ m₂ : ν}
    (h : Merges record m m₁) (h' : Merges records.flatten m₁ m₂) :
    Merges (record :: records).flatten m m₂ := by
  rw [Merges, List.flatten_cons, mergeRecord_append h]
  exact h'

theorem singleton {m m' : ν} {field : WireField} {known : Field ν} {v : known.kind.Value}
    (hknown : Message.fields field.number = some known)
    (hv : known.kind.interpret field.payload = .ok v) (hset : known.set m v = m') :
    Merges [field] m m' := by
  rw [Merges, mergeRecord, mergeWireField, hknown]
  simp only [hv, Except.map, hset]
  rfl

/-- A field that may be absent is written if it is there. -/
theorem optional {g : α → WireField} {m : ν} (put : ν → Option α → ν)
    (hnone : ∀ m, put m none = m) (hsome : ∀ m v, Merges [g v] m (put m (some v)))
    (o : Option α) : Merges (o.toList.map g) m (put m o) := by
  cases o with
  | none => exact congrArg Except.ok (hnone m).symm
  | some v => exact hsome m v

/-- The values of a repeated field are written, and added, one after another. -/
theorem repeated {g : α → WireField} {m : ν} (put : ν → List α → ν) (hnil : ∀ m, put m [] = m)
    (hcons : ∀ m a as, put m (a :: as) = put (put m [a]) as)
    (hone : ∀ m a, Merges [g a] m (put m [a])) (as : List α) :
    Merges (as.map g) m (put m as) := by
  induction as generalizing m with
  | nil => exact congrArg Except.ok (hnil m).symm
  | cons a as ih =>
    rw [hcons, Merges, List.map_cons, ← List.singleton_append, mergeRecord_append (hone m a)]
    exact ih

end Merges

end Merges

/-! ### Messages and their frames -/

/-- `my_size`, from what is added to it; the additions are checked. -/
def mySize (sizes : List ℕ) : Outcome UInt32 :=
  sizes.foldlM (fun mySize size => Outcome.u32Add mySize (UInt32.ofNat size)) 0

/-- A message type with the writer that is generated for it. -/
class GeneratedMessage (μ : Type) extends Message μ where
  /-- What `compute_size` adds up, in order. -/
  sizes : μ → List ℕ
  /-- What `write_to_with_cached_sizes` writes, in order. -/
  written : μ → List WireField
  sizes_eq : ∀ msg, sizes msg = (written msg).map fun field => field.bytes.length
  /-- What the fields of a message, as far as they are there, make of another one. -/
  merge : μ → μ → μ
  merges_written : ∀ m msg, Merges (written msg) m (merge m msg)
  merge_new : ∀ msg, merge new msg = msg

/-- `write_raw_bytes` of `CodedOutputStream::bytes`: what the slice has no room for is an error. -/
def writeRawBytes (os : SliceCursor) (bytes : Bytes) : Except ProtobufError SliceCursor :=
  if bytes.length ≤ os.room then .ok (os.overwrite bytes)
  else .error (.io (.other "given slice is too small to serialize the message"))

/-- `write_to_with_cached_sizes`; an error ends it. -/
def writeRecord (os : SliceCursor) : List WireField → Except ProtobufError SliceCursor
  | [] => .ok os
  | field :: record =>
    match writeRawBytes os field.bytes with
    | .ok os => writeRecord os record
    | .error e => .error e

variable {μ : Type} [GeneratedMessage μ]

/-- `compute_size`. -/
def computeSize (msg : μ) : Outcome UInt32 := mySize (GeneratedMessage.sizes msg)

/-- The bytes of a message. -/
def messageBytes (msg : μ) : Bytes := encodeRecord (GeneratedMessage.written msg)

/-- A frame as the Version step, the Authenticate step and `tcp_ping` build it: the size, a zeroed
buffer, the packet type, the size again, and the message in what is left of the buffer. -/
def messageFrame (packetType : UInt16) (msg : μ) : Outcome Bytes := do
  let s ← computeSize msg
  let size ← Outcome.u32Add s 6
  let buf := List.replicate size.toNat 0
  let buf ← writeAt buf 0 (toBigEndian 2 packetType.toNat)
  let buf ← writeAt buf 2 (toBigEndian 4 s.toNat)
  let os ← Outcome.unwrap
    (writeRecord (SliceCursor.new (buf.drop 6)) (GeneratedMessage.written msg))
  return buf.take 6 ++ os.slice

/-! ### The sizes are right -/

theorem foldlM_u32Add {n : ℕ} {sizes : List ℕ} (h : n + sizes.sum < 2 ^ 32) :
    sizes.foldlM (fun mySize size => Outcome.u32Add mySize (UInt32.ofNat size)) (UInt32.ofNat n)
      = .returned (UInt32.ofNat (n + sizes.sum)) := by
  induction sizes generalizing n with
  | nil => rfl
  | cons size sizes ih =>
    rw [List.sum_cons, ← Nat.add_assoc] at h ⊢
    have hn : (UInt32.ofNat n).toNat = n := by
      rw [UInt32.toNat_ofNat']
      omega
    have hsize : (UInt32.ofNat size).toNat = size := by
      rw [UInt32.toNat_ofNat']
      omega
    rw [List.foldlM_cons, Outcome.u32Add_of_lt (by omega), Outcome.returned_bind,
      ← UInt32.ofNat_add, ih h]

/-- What is added up is what is written. -/
theorem sum_sizes (msg : μ) : (GeneratedMessage.sizes msg).sum = (messageBytes msg).length := by
  rw [GeneratedMessage.sizes_eq, messageBytes, encodeRecord, List.length_flatMap]

/-- `compute_size` is the number of bytes that are written. -/
theorem computeSize_eq {msg : μ} (h : (messageBytes msg).length < 2 ^ 32) :
    computeSize msg = .returned (UInt32.ofNat (messageBytes msg).length) := by
  have hsum : 0 + (GeneratedMessage.sizes msg).sum < 2 ^ 32 := by rwa [Nat.zero_add, sum_sizes]
  have hsize := foldlM_u32Add hsum
  rwa [Nat.zero_add, sum_sizes] at hsize

theorem length_overwrite {c : SliceCursor} {bytes : Bytes} (h : bytes.length ≤ c.room) :
    (c.overwrite bytes).slice.length = c.slice.length := by
  have hpos := c.pos_le
  rw [SliceCursor.room] at h
  simp only [SliceCursor.overwrite, List.length_append, List.length_take, List.length_drop]
  omega

/-- A record that fits is written, behind what has been written before. -/
theorem writeRecord_spec {os : SliceCursor} {record : List WireField}
    (h : (encodeRecord record).length ≤ os.room) :
    ∃ os', writeRecord os record = .ok os' ∧ os'.slice.length = os.slice.length ∧
      os'.room = os.room - (encodeRecord record).length ∧
      os'.slice.take os'.pos = os.slice.take os.pos ++ encodeRecord record := by
  induction record generalizing os with
  | nil => exact ⟨os, rfl, rfl, rfl, (List.append_nil _).symm⟩
  | cons field record ih =>
    rw [encodeRecord_cons, List.length_append] at h
    have hfield : field.bytes.length ≤ os.room := by omega
    have hroom := os.room_overwrite field.bytes
    obtain ⟨os', hwrite, hlength, hrest, htake⟩ := @ih (os.overwrite field.bytes) (by omega)
    refine ⟨os', ?_, hlength.trans (length_overwrite hfield), ?_, ?_⟩
    · rw [writeRecord, writeRawBytes, if_pos hfield]
      exact hwrite
    · rw [hrest, hroom, encodeRecord_cons, List.length_append, Nat.sub_sub]
    · rw [htake, SliceCursor.take_overwrite, List.append_assoc, encodeRecord_cons]

/-- A slice of the right length is filled. -/
theorem writeRecord_new {slice : Bytes} {record : List WireField}
    (h : slice.length = (encodeRecord record).length) :
    ∃ os, writeRecord (SliceCursor.new slice) record = .ok os ∧ os.slice = encodeRecord record := by
  have hroom : (SliceCursor.new slice).room = slice.length := Nat.sub_zero _
  have hfits : (encodeRecord record).length ≤ (SliceCursor.new slice).room := by omega
  obtain ⟨os, hwrite, hlength, hrest, htake⟩ := writeRecord_spec hfits
  have hpos := os.pos_le
  rw [hroom, SliceCursor.room] at hrest
  refine ⟨os, hwrite, ?_⟩
  rw [List.take_of_length_le (by omega)] at htake
  exact htake

/-- A record is only written where there is room for all of it. -/
theorem length_le_of_writeRecord {os os' : SliceCursor} {record : List WireField}
    (h : writeRecord os record = .ok os') : (encodeRecord record).length ≤ os.room := by
  induction record generalizing os with
  | nil => exact Nat.zero_le _
  | cons field record ih =>
    rw [writeRecord, writeRawBytes] at h
    by_cases hfield : field.bytes.length ≤ os.room
    · rw [if_pos hfield] at h
      have hrest := ih h
      rw [os.room_overwrite] at hrest
      rw [encodeRecord_cons, List.length_append]
      omega
    · rw [if_neg hfield] at h
      cases h

theorem length_of_writeAt {buf buf' bytes : Bytes} {pos : ℕ}
    (h : writeAt buf pos bytes = .returned buf') : buf'.length = buf.length := by
  rw [writeAt] at h
  split_ifs at h with hle
  obtain rfl := Outcome.returned.inj h
  simp only [List.length_append, List.length_take, List.length_drop]
  omega

/-- A message that does not fit a frame is not sent: if its size does not overflow, the buffer is
too short for it. -/
theorem length_lt_of_messageFrame {packetType : UInt16} {msg : μ}
    (h : (messageFrame packetType msg).Returns) : (messageBytes msg).length < 2 ^ 32 - 6 := by
  obtain ⟨frame, h⟩ := h
  obtain ⟨s, -, h⟩ := Outcome.bind_eq_returned.mp h
  obtain ⟨size, -, h⟩ := Outcome.bind_eq_returned.mp h
  obtain ⟨buf₁, hbuf₁, h⟩ := Outcome.bind_eq_returned.mp h
  obtain ⟨buf₂, hbuf₂, h⟩ := Outcome.bind_eq_returned.mp h
  obtain ⟨os, hos, -⟩ := Outcome.bind_eq_returned.mp h
  have hle := length_le_of_writeRecord (Outcome.unwrap_eq_returned.mp hos)
  have hbuf : buf₂.length = size.toNat := by
    rw [length_of_writeAt hbuf₂, length_of_writeAt hbuf₁, List.length_replicate]
  have hroom : (SliceCursor.new (buf₂.drop 6)).room = size.toNat - 6 := by
    rw [← hbuf, ← List.length_drop]
    exact Nat.sub_zero _
  have hlt := size.toNat_lt
  rw [messageBytes]
  omega

/-- **The buffer has the size it needs**: no addition overflows and no assertion fails, for every
message that a frame can hold, and what is built is the frame of the message. -/
theorem messageFrame_eq (packetType : UInt16) {msg : μ}
    (h : (messageBytes msg).length < 2 ^ 32 - 6) :
    messageFrame packetType msg = .returned (frameBytes (packetType, messageBytes msg)) := by
  obtain ⟨n, hn⟩ : ∃ n, (messageBytes msg).length = n := ⟨_, rfl⟩
  rw [hn] at h
  have hs : (UInt32.ofNat n).toNat = n := by
    rw [UInt32.toNat_ofNat']
    omega
  have hsize : (UInt32.ofNat n + 6).toNat = 2 + (4 + n) := by
    rw [UInt32.toNat_add, hs]
    simp only [UInt32.reduceToNat]
    omega
  have h₁ := writeAt_append [] (toBigEndian 2 packetType.toNat) (n := 2 + (4 + n)) (by simp)
  have h₂ := writeAt_append (toBigEndian 2 packetType.toNat) (toBigEndian 4 n) (n := 4 + n)
    (by simp)
  simp only [length_toBigEndian, List.nil_append, List.length_nil, Nat.add_sub_cancel_left]
    at h₁ h₂
  have hslice : (List.replicate n (0 : UInt8)).length
      = (encodeRecord (GeneratedMessage.written msg)).length := by
    rw [List.length_replicate]
    exact hn.symm
  obtain ⟨os, hwrite, hos⟩ := writeRecord_new hslice
  have hheader : (toBigEndian 2 packetType.toNat ++ toBigEndian 4 n).length = 6 := by simp
  rw [messageFrame, computeSize_eq (by omega), hn]
  simp only [Outcome.returned_bind]
  rw [Outcome.u32Add_of_lt (by rw [hs]; simp only [UInt32.reduceToNat]; omega)]
  simp only [Outcome.returned_bind, hsize, h₁, hs, h₂]
  rw [List.drop_left' hheader, hwrite, List.take_left' hheader]
  simp only [Outcome.unwrap_ok, Outcome.returned_bind, Outcome.pure_eq, hos]
  rw [frameBytes, hn, List.append_assoc]
  rfl

/-- **A message that is sent is received as it was**, every field of it, by whatever runtime reads
the wire format. -/
theorem received_messageBytes {pb : CodedInputStream} (hpb : ReadsWireFormat pb) {msg : μ}
    (h : (messageBytes msg).length < 2 ^ 32) :
    received μ pb (messageBytes msg) = .returned msg := by
  have hfits := fits_of_length_encodeRecord_lt h
  have hmerge := GeneratedMessage.merges_written Message.new msg
  rw [Merges, GeneratedMessage.merge_new] at hmerge
  rw [received_eq_returned, messageBytes, mergeFrom_encodeRecord hpb _ _ hfits, hmerge]

/-- **Exactly which messages can be sent**: those that leave room for the header in a length of 32
bits. What is built of them is their frame, and of any other one nothing is. The size that is
computed first is the number of bytes that are written, where 32 bits hold that number. -/
theorem messageFrame_total (packetType : UInt16) (msg : μ) :
    messageFrame packetType msg
        = (if (messageBytes msg).length < 2 ^ 32 - 6 then
            .returned (frameBytes (packetType, messageBytes msg))
          else .panicked) ∧
      ((messageBytes msg).length < 2 ^ 32 →
        computeSize msg = .returned (UInt32.ofNat (messageBytes msg).length)) := by
  refine ⟨?_, computeSize_eq⟩
  split_ifs with h
  · exact messageFrame_eq packetType h
  · have hpanics : ¬ (messageFrame packetType msg).Returns := mt length_lt_of_messageFrame h
    rwa [Outcome.returns_iff_ne_panicked, not_not] at hpanics

theorem mergeRecord_flatMap_written (m : μ) (msgs : List μ) :
    mergeRecord Message.fields m (msgs.flatMap GeneratedMessage.written)
      = .ok (msgs.foldl GeneratedMessage.merge m) := by
  induction msgs generalizing m with
  | nil => rfl
  | cons msg msgs ih =>
    rw [List.flatMap_cons, mergeRecord_append (GeneratedMessage.merges_written m msg), ih,
      List.foldl_cons]

/-- **Messages that follow each other are merged**: a field that is there replaces what it was, and
the values of a repeated field are added. One message alone is received as it was sent, every field
of it; whatever runtime reads the wire format. -/
theorem received_flatMap_messageBytes {pb : CodedInputStream} (hpb : ReadsWireFormat pb)
    {msgs : List μ} (h : ∀ msg ∈ msgs, (messageBytes msg).length < 2 ^ 32) :
    received μ pb (msgs.flatMap messageBytes)
        = .returned (msgs.foldl GeneratedMessage.merge Message.new) ∧
      ∀ msg ∈ msgs, received μ pb (messageBytes msg) = .returned msg := by
  refine ⟨?_, fun msg hmsg => received_messageBytes hpb (h msg hmsg)⟩
  have hbytes : msgs.flatMap messageBytes
      = encodeRecord (msgs.flatMap GeneratedMessage.written) := by
    rw [encodeRecord, List.flatMap_assoc]
    rfl
  have hfits : ∀ field ∈ msgs.flatMap GeneratedMessage.written, field.payload.Fits := by
    intro field hfield
    obtain ⟨msg, hmsg, hmem⟩ := List.mem_flatMap.mp hfield
    exact fits_of_length_encodeRecord_lt (h msg hmsg) field hmem
  rw [received_eq_returned, hbytes, mergeFrom_encodeRecord hpb _ _ hfits,
    mergeRecord_flatMap_written]

end MumbleBot
