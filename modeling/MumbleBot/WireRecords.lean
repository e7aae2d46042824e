import MumbleBot.Protobuf

/-!
# Records on the wire

Below the types of its fields a protobuf message is a record: a list of numbered payloads, of which
a payload is a varint, four or eight bytes, or a counted string of bytes. A generated `merge_from`
goes through bytes; on the bytes of a record it is a fold over the record, in which a field that
the message knows is interpreted by its kind, and a field that it does not know is passed over.

What is asked of the runtime is that it reads the format, `ReadsWireFormat`.

## Main definitions

* `Payload`, `WireField` — what a record is made of
* `encodeRecord` — its bytes
* `Kind.interpret` — what a field of a message makes of a payload
* `mergeRecord` — what a parser makes of a record
* `ReadsWireFormat` — a runtime that reads the wire format

## Main results

* `readsWireFormat` — `wireFormat` does
* `mergeFrom_encodeRecord` — a generated parser is the fold
* `mergeRecord_eq_ok_iff` — exactly which records are accepted
-/

namespace MumbleBot

/-! ### Little-endian numbers -/

/-- The `k` low bytes of `n`, least significant first. -/
def toLittleEndian : ℕ → ℕ → Bytes
  | 0, _ => []
  | k + 1, n => UInt8.ofNat n :: toLittleEndian k (n / 256)

@[simp] theorem length_toLittleEndian (k n : ℕ) : (toLittleEndian k n).length = k := by
  induction k generalizing n with
  | zero => rfl
  | succ k ih => simp [toLittleEndian, ih]

/-- The bytes of a number spell it. -/
theorem foldr_toLittleEndian {k n : ℕ} (h : n < 256 ^ k) :
    (toLittleEndian k n).foldr (fun b n => b.toNat + 256 * n) 0 = n := by
  induction k generalizing n with
  | zero => simpa [toLittleEndian, eq_comm] using h
  | succ k ih =>
    have hdiv : n / 256 < 256 ^ k := by
      rw [Nat.div_lt_iff_lt_mul (by decide), ← Nat.pow_succ]
      exact h
    rw [toLittleEndian, List.foldr_cons, ih hdiv, UInt8.toNat_ofNat']
    omega

/-! ### Payloads and fields -/

/-- What follows a tag. -/
inductive Payload where
  | varint (v : UInt64)
  | fixed64 (v : UInt64)
  | lengthDelimited (bs : Bytes)
  | fixed32 (v : UInt32)
  deriving DecidableEq, Repr

namespace Payload

/-- The wire type that announces a payload. -/
def wireType : Payload → WireType
  | varint _ => .varint
  | fixed64 _ => .fixed64
  | lengthDelimited _ => .lengthDelimited
  | fixed32 _ => .fixed32

/-- A payload on the wire. -/
def bytes : Payload → Bytes
  | varint v => rawVarintBytes 10 v.toNat
  | fixed64 v => toLittleEndian 8 v.toNat
  | lengthDelimited bs => rawVarintBytes 10 bs.length ++ bs
  | fixed32 v => toLittleEndian 4 v.toNat

/-- The length a payload announces, if it does, fits its field. -/
def Fits : Payload → Prop
  | lengthDelimited bs => bs.length < 2 ^ 32
  | _ => True

theorem fits_of_length_lt {p : Payload} (h : p.bytes.length < 2 ^ 32) : p.Fits := by
  cases p with
  | lengthDelimited bs =>
    rw [bytes, List.length_append] at h
    exact Nat.lt_of_le_of_lt (Nat.le_add_left _ _) h
  | _ => exact trivial

end Payload

/-- The number of a wire type in a tag. -/
def WireType.toNat : WireType → ℕ
  | .varint => 0
  | .fixed64 => 1
  | .lengthDelimited => 2
  | .startGroup => 3
  | .endGroup => 4
  | .fixed32 => 5

theorem WireType.toNat_lt (wireType : WireType) : wireType.toNat < 8 := by
  cases wireType <;> decide

/-- The numbers a field may have. -/
def IsFieldNumber (number : UInt32) : Prop := 0 < number ∧ number < 0x20000000

instance (number : UInt32) : Decidable (IsFieldNumber number) :=
  inferInstanceAs (Decidable (_ ∧ _))

/-- A field on the wire. -/
structure WireField where
  number : UInt32
  payload : Payload
  isFieldNumber : IsFieldNumber number
  deriving DecidableEq

namespace WireField

/-- The tag of a field, as a number. -/
def tag (field : WireField) : ℕ := 8 * field.number.toNat + field.payload.wireType.toNat

/-- The tag on the wire. -/
def tagBytes (field : WireField) : Bytes := rawVarintBytes 10 field.tag

/-- A field on the wire: its tag and its payload. -/
def bytes (field : WireField) : Bytes := field.tagBytes ++ field.payload.bytes

theorem tag_lt (field : WireField) : field.tag < 2 ^ 32 := by
  have hnumber := UInt32.lt_iff_toNat_lt.mp field.isFieldNumber.2
  have htype := field.payload.wireType.toNat_lt
  simp only [UInt32.reduceToNat] at hnumber
  rw [tag]
  omega

theorem toNat_number_pos (field : WireField) : 0 < field.number.toNat := by
  simpa using UInt32.lt_iff_toNat_lt.mp field.isFieldNumber.1

end WireField

/-- A record on the wire. -/
def encodeRecord (record : List WireField) : Bytes := record.flatMap WireField.bytes

@[simp] theorem encodeRecord_cons (field : WireField) (record : List WireField) :
    encodeRecord (field :: record) = field.bytes ++ encodeRecord record := rfl

/-- The payloads of a record that is short enough to be sent fit. -/
theorem fits_of_length_encodeRecord_lt {record : List WireField}
    (h : (encodeRecord record).length < 2 ^ 32) : ∀ field ∈ record, field.payload.Fits := by
  induction record with
  | nil => simp
  | cons field record ih =>
    rw [encodeRecord_cons, List.length_append, WireField.bytes, List.length_append] at h
    exact List.forall_mem_cons.mpr ⟨Payload.fits_of_length_lt (by omega), ih (by omega)⟩

/-! ### What a parser makes of a record -/

/-- What a field of the given kind makes of a payload. -/
def Kind.interpret : (k : Kind) → Payload → Except ProtobufError k.Value
  | .uint32, .varint v => .ok (UInt32.ofNat v.toNat)
  | .uint64, .varint v => .ok v
  | .int32, .varint v => .ok (Int32.ofNat v.toNat)
  | .bool, .varint v => .ok (UInt32.ofNat v.toNat ≠ 0)
  | .float, .fixed32 v => .ok v
  | .string, .lengthDelimited bs =>
    match String.fromUTF8? ⟨bs.toArray⟩ with
    | some s => .ok s
    | none => .error .utf8
  | .bytes, .lengthDelimited bs => .ok bs
  | .repeatedUint32, .varint v => .ok [UInt32.ofNat v.toNat]
  | .repeatedUint32, .lengthDelimited bs => packed bs.length bs
  | _, p => .error (.unexpectedWireType p.wireType)

variable {μ : Type}

/-- What a parser does with a field of a record. -/
def mergeWireField (fields : UInt32 → Option (Field μ)) (msg : μ) (field : WireField) :
    Except ProtobufError μ :=
  match fields field.number with
  | some known => (known.kind.interpret field.payload).map (known.set msg)
  | none => .ok msg

/-- What a parser makes of a record. -/
def mergeRecord (fields : UInt32 → Option (Field μ)) (msg : μ) :
    List WireField → Except ProtobufError μ
  | [] => .ok msg
  | field :: record =>
    match mergeWireField fields msg field with
    | .ok msg => mergeRecord fields msg record
    | .error e => .error e

/-- A field of a record is one the message does not know, or one of the kind it should have. -/
def WellTyped (fields : UInt32 → Option (Field μ)) (field : WireField) : Prop :=
  ∀ known, fields field.number = some known → ∃ v, known.kind.interpret field.payload = .ok v

theorem exists_mergeWireField_iff {fields : UInt32 → Option (Field μ)} {msg : μ}
    {field : WireField} :
    (∃ msg', mergeWireField fields msg field = .ok msg') ↔ WellTyped fields field := by
  rw [mergeWireField, WellTyped]
  cases fields field.number with
  | none => simp
  | some known => cases hv : known.kind.interpret field.payload <;> simp [Except.map, hv]

/-- **Exactly which records are accepted**, whatever has been merged before: those in which every
known field has a payload that its kind can be read from. -/
theorem mergeRecord_eq_ok_iff {fields : UInt32 → Option (Field μ)} {msg : μ}
    {record : List WireField} :
    (∃ msg', mergeRecord fields msg record = .ok msg') ↔
      ∀ field ∈ record, WellTyped fields field := by
  induction record generalizing msg with
  | nil => simp [mergeRecord]
  | cons field record ih =>
    rw [List.forall_mem_cons, ← @exists_mergeWireField_iff _ fields msg, mergeRecord]
    cases hfield : mergeWireField fields msg field with
    | ok msg' => simpa using ih
    | error e => simp

/-- Two records one after the other are merged one after the other. -/
theorem mergeRecord_append {fields : UInt32 → Option (Field μ)} {msg msg' : μ}
    {record : List WireField} (h : mergeRecord fields msg record = .ok msg')
    (record' : List WireField) :
    mergeRecord fields msg (record ++ record') = mergeRecord fields msg' record' := by
  induction record generalizing msg with
  | nil =>
    obtain rfl := Except.ok.inj h
    rfl
  | cons field record ih =>
    rw [List.cons_append, mergeRecord]
    rw [mergeRecord] at h
    cases hfield : mergeWireField fields msg field with
    | ok msg₁ =>
      rw [hfield] at h
      exact ih h
    | error e =>
      rw [hfield] at h
      cases h

/-! ### A parser on the bytes of a record -/

/-- The runtime reads the wire format: what `CodedInputStream` is for. Which error it has for a
value that it cannot read is left open. -/
structure ReadsWireFormat (pb : CodedInputStream) : Prop where
  eof_cons : ∀ b is, pb.eof (b :: is) = .ok (false, b :: is)
  readTagUnpack : ∀ (field : WireField) is,
    pb.readTagUnpack (field.tagBytes ++ is) = .ok ((field.number, field.payload.wireType), is)
  read : ∀ (k : Kind) (p : Payload) is, p.Fits → k.wireType.getD p.wireType = p.wireType →
    (pb.read k p.wireType (p.bytes ++ is)).toOption = (k.interpret p).toOption.map fun v => (v, is)
  readUnknownOrSkipGroup : ∀ (number : UInt32) (p : Payload) is, p.Fits →
    pb.readUnknownOrSkipGroup number p.wireType (p.bytes ++ is) = .ok ((), is)

theorem toOption_eq_some_iff {ε α : Type} {r : Except ε α} {a : α} :
    r.toOption = some a ↔ r = .ok a := by
  cases r <;> simp [Except.toOption]

theorem toOption_eq_none_iff {ε α : Type} {r : Except ε α} :
    r.toOption = none ↔ ∃ e, r = .error e := by
  cases r <;> simp [Except.toOption]

theorem ProtobufReader.bind_of_ok {α β : Type} {x : ProtobufReader α} {a : α} {is is' : Bytes}
    (h : x is = .ok (a, is')) (f : α → ProtobufReader β) : (x >>= f) is = f a is' := by
  change (x is >>= fun p => f p.1 p.2) = _
  rw [h]
  rfl

theorem ProtobufReader.bind_of_error {α β : Type} {x : ProtobufReader α} {e : ProtobufError}
    {is : Bytes} (h : x is = .error e) (f : α → ProtobufReader β) : (x >>= f) is = .error e := by
  change (x is >>= fun p => f p.1 p.2) = _
  rw [h]
  rfl

theorem checkWireType_of_eq {k : Kind} {wireType : WireType}
    (h : k.wireType.getD wireType = wireType) (is : Bytes) :
    checkWireType k wireType is = .ok ((), is) := by
  rw [checkWireType]
  cases hk : k.wireType with
  | none => rfl
  | some expected =>
    rw [hk, Option.getD_some] at h
    simp only [h, ne_eq, not_true_eq_false, if_false]
    rfl

theorem checkWireType_of_ne {k : Kind} {wireType : WireType}
    (h : k.wireType.getD wireType ≠ wireType) (is : Bytes) :
    checkWireType k wireType is = .error (.unexpectedWireType wireType) := by
  rw [checkWireType]
  cases hk : k.wireType with
  | none => exact absurd (by rw [hk]; rfl) h
  | some expected =>
    rw [hk, Option.getD_some] at h
    simp only [ne_eq, h.symm, not_false_eq_true, if_true]
    rfl

/-- A payload of another wire type is refused by its kind. -/
theorem Kind.interpret_of_ne {k : Kind} {p : Payload}
    (h : k.wireType.getD p.wireType ≠ p.wireType) :
    k.interpret p = .error (.unexpectedWireType p.wireType) := by
  cases k <;> cases p <;> first | rfl | exact absurd rfl h

/-- The check of the wire type and the read after it find a payload of the right kind, or end the
parse. -/
theorem readField_bytes {pb : CodedInputStream} (h : ReadsWireFormat pb) (known : Field μ)
    (msg : μ) {p : Payload} (hfits : p.Fits) (is : Bytes) :
    (readField pb known p.wireType msg (p.bytes ++ is)).toOption
      = (known.kind.interpret p).toOption.map fun v => (known.set msg v, is) := by
  by_cases htype : known.kind.wireType.getD p.wireType = p.wireType
  · have hvalue := h.read known.kind p is hfits htype
    rw [readField, ProtobufReader.bind_of_ok (checkWireType_of_eq htype _)]
    cases hv : known.kind.interpret p with
    | ok v =>
      rw [hv] at hvalue
      rw [ProtobufReader.bind_of_ok (toOption_eq_some_iff.mp hvalue)]
      rfl
    | error e =>
      rw [hv] at hvalue
      obtain ⟨e', hread⟩ := toOption_eq_none_iff.mp hvalue
      rw [ProtobufReader.bind_of_error hread]
      rfl
  · rw [readField, ProtobufReader.bind_of_error (checkWireType_of_ne htype _),
      Kind.interpret_of_ne htype]
    rfl

/-- The turn of a parser's loop on a field: the step of the fold. -/
theorem mergeField_bytes {pb : CodedInputStream} (h : ReadsWireFormat pb)
    (fields : UInt32 → Option (Field μ)) (msg : μ) {field : WireField}
    (hfits : field.payload.Fits) (is : Bytes) :
    (mergeField pb fields msg (field.bytes ++ is)).toOption
      = (mergeWireField fields msg field).toOption.map fun msg => (some msg, is) := by
  obtain ⟨b, bs, hbytes⟩ : ∃ b bs, field.bytes ++ is = b :: bs := by
    rw [WireField.bytes, WireField.tagBytes, rawVarintBytes]
    split_ifs
    · exact ⟨_, _, rfl⟩
    · exact ⟨_, _, rfl⟩
  have heof : pb.eof (field.bytes ++ is) = .ok (false, field.bytes ++ is) := by
    rw [hbytes]
    exact h.eof_cons b bs
  have htag := h.readTagUnpack field (field.payload.bytes ++ is)
  rw [mergeField, ProtobufReader.bind_of_ok heof, WireField.bytes, List.append_assoc]
  simp only [Bool.false_eq_true, if_false]
  rw [ProtobufReader.bind_of_ok htag, mergeWireField]
  dsimp only
  cases hknown : fields field.number with
  | some known =>
    have hfield := readField_bytes h known msg hfits is
    dsimp only
    cases hv : known.kind.interpret field.payload with
    | ok v =>
      rw [hv] at hfield
      rw [ProtobufReader.bind_of_ok (toOption_eq_some_iff.mp hfield)]
      rfl
    | error e =>
      rw [hv] at hfield
      obtain ⟨e', hread⟩ := toOption_eq_none_iff.mp hfield
      rw [ProtobufReader.bind_of_error hread]
      rfl
  | none =>
    dsimp only
    rw [ProtobufReader.bind_of_ok (h.readUnknownOrSkipGroup _ _ is hfits)]
    rfl

/-- **A generated parser is the fold over the record**, for every record, every table of fields
and every message that is merged into. -/
theorem mergeFrom_encodeRecord {pb : CodedInputStream} (h : ReadsWireFormat pb)
    (fields : UInt32 → Option (Field μ)) (msg : μ) {record : List WireField}
    (hfits : ∀ field ∈ record, field.payload.Fits) {msg' : μ} :
    mergeFrom pb fields msg (encodeRecord record) = .returned (.ok msg') ↔
      mergeRecord fields msg record = .ok msg' := by
  induction record generalizing msg with
  | nil =>
    rw [show encodeRecord [] = [] from rfl, mergeFrom_nil pb fields msg, Outcome.returned.injEq]
    rfl
  | cons field record ih =>
    rw [List.forall_mem_cons] at hfits
    have hturn := mergeField_bytes h fields msg hfits.1 (encodeRecord record)
    rw [encodeRecord_cons, mergeRecord]
    cases hfield : mergeWireField fields msg field with
    | ok msg₁ =>
      rw [hfield] at hturn
      have hrun : mergeFrom pb fields msg (field.bytes ++ encodeRecord record)
          = mergeFrom pb fields msg₁ (encodeRecord record) :=
        (mergeLoop pb fields).run_of_continue (by
          simp only [mergeLoop, toOption_eq_some_iff.mp hturn])
      rw [hrun]
      exact ih msg₁ hfits.2
    | error e =>
      rw [hfield] at hturn
      obtain ⟨e', hbreak⟩ := toOption_eq_none_iff.mp hturn
      have hrun : mergeFrom pb fields msg (field.bytes ++ encodeRecord record)
          = .returned (.error e') :=
        (mergeLoop pb fields).run_of_break (by simp only [mergeLoop, hbreak])
      rw [hrun]
      simp

/-! ### The runtime of the model reads the format -/

/-- A varint of a machine word is read back. -/
theorem rawVarint_bytes {v : ℕ} (h : v < 2 ^ 64) (is : Bytes) :
    rawVarint 10 (rawVarintBytes 10 v ++ is) = .ok (v, is) :=
  rawVarint_rawVarintBytes (Nat.lt_trans h (by decide)) is

/-- The low half of a varint is what is read of it as 32 bits. -/
theorem rawVarint32_bytes {v : ℕ} (h : v < 2 ^ 64) (is : Bytes) :
    rawVarint32 (rawVarintBytes 10 v ++ is) = .ok (UInt32.ofNat v, is) :=
  ProtobufReader.bind_of_ok (rawVarint_bytes h is) _

theorem rawBytes_append (bs is : Bytes) : rawBytes bs.length (bs ++ is) = .ok (bs, is) := by
  rw [rawBytes, if_pos (by simp), List.take_left, List.drop_left]

theorem lengthDelimited_bytes {bs : Bytes} (h : bs.length < 2 ^ 32) (is : Bytes) :
    lengthDelimited .lengthDelimited ((Payload.lengthDelimited bs).bytes ++ is) = .ok (bs, is) := by
  rw [lengthDelimited, if_pos rfl, Payload.bytes, List.append_assoc,
    ProtobufReader.bind_of_ok (rawVarint32_bytes (Nat.lt_trans h (by decide)) _),
    UInt32.toNat_ofNat_of_lt' h]
  exact rawBytes_append bs is

theorem packedBytes_bytes {bs : Bytes} (h : bs.length < 2 ^ 32) (is : Bytes) :
    packedBytes .lengthDelimited ((Payload.lengthDelimited bs).bytes ++ is) = .ok (bs, is) := by
  have hlen : bs.length < 2 ^ 64 := Nat.lt_trans h (by decide)
  rw [packedBytes, if_pos rfl, Payload.bytes, List.append_assoc,
    ProtobufReader.bind_of_ok (rawVarint_bytes hlen _), Nat.mod_eq_of_lt hlen, List.take_left,
    List.drop_left]

theorem rawBytes_toLittleEndian (k n : ℕ) (is : Bytes) :
    rawBytes k (toLittleEndian k n ++ is) = .ok (toLittleEndian k n, is) := by
  have h := rawBytes_append (toLittleEndian k n) is
  rwa [length_toLittleEndian] at h

theorem WireType.ofTag_add (n : ℕ) (wireType : WireType) (is : Bytes) :
    WireType.ofTag (8 * n + wireType.toNat) is = .ok (wireType, is) := by
  have hmod : (8 * n + wireType.toNat) % 8 = wireType.toNat := by
    rw [Nat.mul_add_mod, Nat.mod_eq_of_lt wireType.toNat_lt]
  rw [WireType.ofTag, hmod]
  cases wireType <;> rfl

theorem wireTag_tagBytes (field : WireField) (is : Bytes) :
    wireTag (field.tagBytes ++ is) = .ok ((field.number, field.payload.wireType), is) := by
  have htag : (UInt32.ofNat field.tag).toNat = field.tag := UInt32.toNat_ofNat_of_lt' field.tag_lt
  have hdiv : UInt32.ofNat field.tag / 8 = field.number := by
    have := field.payload.wireType.toNat_lt
    rw [← UInt32.toNat_inj, UInt32.toNat_div, htag, WireField.tag]
    simp only [UInt32.reduceToNat]
    omega
  have hne : field.number ≠ 0 := by
    intro h
    exact Nat.ne_of_gt field.toNat_number_pos (congrArg UInt32.toNat h)
  have htype : WireType.ofTag (UInt32.ofNat field.tag).toNat is
      = .ok (field.payload.wireType, is) := by
    rw [htag]
    exact WireType.ofTag_add _ _ is
  rw [wireTag, WireField.tagBytes,
    ProtobufReader.bind_of_ok (rawVarint32_bytes (Nat.lt_trans field.tag_lt (by decide)) is),
    ProtobufReader.bind_of_ok htype, hdiv, if_neg hne]
  rfl

theorem wireRead_bytes (k : Kind) (p : Payload) (is : Bytes) (hfits : p.Fits)
    (htype : k.wireType.getD p.wireType = p.wireType) :
    wireRead k p.wireType (p.bytes ++ is) = (k.interpret p).map fun v => (v, is) := by
  cases p with
  | varint v =>
    have hv := rawVarint_bytes v.toNat_lt is
    have hv32 := rawVarint32_bytes v.toNat_lt is
    cases k with
    | uint64 =>
      refine (ProtobufReader.bind_of_ok hv _).trans ?_
      rw [UInt64.ofNat_toNat]
      rfl
    | int32 => exact ProtobufReader.bind_of_ok hv _
    | uint32 => exact hv32
    | bool | repeatedUint32 => exact ProtobufReader.bind_of_ok hv32 _
    | float => cases htype
    | string | bytes => rfl
  | fixed64 v =>
    cases k with
    | uint32 | uint64 | int32 | bool | float => cases htype
    | string | bytes | repeatedUint32 => rfl
  | lengthDelimited bs =>
    have hbs := lengthDelimited_bytes hfits is
    cases k with
    | uint32 | uint64 | int32 | bool | float => cases htype
    | bytes => exact hbs
    | string =>
      refine (ProtobufReader.bind_of_ok hbs _).trans ?_
      rw [Kind.interpret]
      cases String.fromUTF8? ⟨bs.toArray⟩ <;> rfl
    | repeatedUint32 =>
      refine (ProtobufReader.bind_of_ok (packedBytes_bytes hfits is) _).trans ?_
      rw [Kind.interpret]
      cases packed bs.length bs <;> rfl
  | fixed32 v =>
    cases k with
    | float =>
      refine (ProtobufReader.bind_of_ok (rawBytes_toLittleEndian 4 v.toNat is) _).trans ?_
      rw [foldr_toLittleEndian v.toNat_lt, UInt32.ofNat_toNat]
      rfl
    | uint32 | uint64 | int32 | bool => cases htype
    | string | bytes | repeatedUint32 => rfl

theorem wireSkip_bytes (p : Payload) (is : Bytes) (hfits : p.Fits) :
    wireSkip p.wireType (p.bytes ++ is) = .ok ((), is) := by
  cases p with
  | varint v => exact ProtobufReader.bind_of_ok (rawVarint_bytes v.toNat_lt is) _
  | fixed64 v => exact ProtobufReader.bind_of_ok (rawBytes_toLittleEndian 8 v.toNat is) _
  | lengthDelimited bs => exact ProtobufReader.bind_of_ok (lengthDelimited_bytes hfits is) _
  | fixed32 v => exact ProtobufReader.bind_of_ok (rawBytes_toLittleEndian 4 v.toNat is) _

/-- **The runtime of the model reads the wire format.** -/
theorem readsWireFormat : ReadsWireFormat wireFormat where
  eof_cons _ _ := rfl
  readTagUnpack := wireTag_tagBytes
  read k p is hfits htype := by
    have hread : wireFormat.read k p.wireType (p.bytes ++ is)
        = (k.interpret p).map fun v => (v, is) := wireRead_bytes k p is hfits htype
    rw [hread]
    cases k.interpret p <;> rfl
  readUnknownOrSkipGroup _ p is hfits := by
    have hgroup : p.wireType ≠ .startGroup := by
      intro h
      cases p <;> cases h
    exact (congrFun (if_neg hgroup) _).trans (wireSkip_bytes p is hfits)

end MumbleBot
