import MumbleBot.Base.Loop
import MumbleBot.Base.Reader

/-!
# Generated protobuf parsers

The parsers that `protobuf` generates all have one shape: while there is input, read a tag, look
its number up among the fields of the message, and read that field or skip it. `mergeFrom` is that
shape, with the fields of a message as a table.

The reads themselves belong to the runtime of the `protobuf` crate, which is not part of the
repository: `CodedInputStream` is their interface. What is promised is that no read moves
backwards and that a tag takes at least a byte, so that the loop ends.

## Main definitions

* `CodedInputStream` — the runtime
* `Kind`, `Field` — how the field of a message is read
* `mergeFrom` — a generated `merge_from`
* `wireFormat` — a runtime that reads the wire format

## Main results

* `returns_mergeFrom` — a generated parser does not panic
* `mergeFrom_nil` — a message without fields
* `rawVarint_rawVarintBytes` — a varint that is written is read back
-/

namespace MumbleBot

/-- `protobuf::wire_format::WireType`. -/
inductive WireType where
  | varint
  | fixed64
  | lengthDelimited
  | startGroup
  | endGroup
  | fixed32
  deriving DecidableEq, Repr

/-- `protobuf::ProtobufError`. -/
inductive ProtobufError where
  | io (error : IoError)
  | unexpectedWireType (wireType : WireType)
  | wire (message : String)
  | utf8
  deriving DecidableEq, Repr

/-- A read of the protobuf runtime, on the bytes left in its stream. -/
abbrev ProtobufReader := StateT Bytes (Except ProtobufError)

/-- The types of the fields of the messages. -/
inductive Kind where
  | uint32
  | uint64
  | int32
  | bool
  | float
  | string
  | bytes
  | repeatedUint32
  deriving DecidableEq, Repr

/-- The values of a field; a float is the bits of its `f32`. -/
abbrev Kind.Value : Kind → Type
  | .uint32 => UInt32
  | .uint64 => UInt64
  | .int32 => Int32
  | .bool => Bool
  | .float => UInt32
  | .string => String
  | .bytes => Bytes
  | .repeatedUint32 => List UInt32

/-- `protobuf::CodedInputStream` over a slice, and the functions of `protobuf::rt` on it. -/
structure CodedInputStream where
  /-- `eof`. -/
  eof : ProtobufReader Bool
  /-- `read_tag_unpack`. -/
  readTagUnpack : ProtobufReader (UInt32 × WireType)
  /-- `read_uint32`, `read_uint64`, `read_int32`, `read_bool` and `read_float`, and for the last
  three kinds `read_singular_string_into`, `read_singular_bytes_into` and
  `read_repeated_uint32_into`, which look at the wire type themselves. -/
  read : (k : Kind) → WireType → ProtobufReader k.Value
  /-- `read_unknown_or_skip_group`. -/
  readUnknownOrSkipGroup : UInt32 → WireType → ProtobufReader Unit
  eof_nil : eof [] = .ok (true, [])
  eof_le : ∀ is b is', eof is = .ok (b, is') → is'.length ≤ is.length
  readTagUnpack_lt : ∀ is tag is', readTagUnpack is = .ok (tag, is') → is'.length < is.length
  read_le : ∀ k wireType is v is', read k wireType is = .ok (v, is') → is'.length ≤ is.length
  readUnknownOrSkipGroup_le : ∀ n wireType is u is',
    readUnknownOrSkipGroup n wireType is = .ok (u, is') → is'.length ≤ is.length

/-! ### The fields of a message -/

/-- The wire type the generated code itself insists on. -/
def Kind.wireType : Kind → Option WireType
  | .uint32 | .uint64 | .int32 | .bool => some .varint
  | .float => some .fixed32
  | .string | .bytes | .repeatedUint32 => none

/-- A field of a message `μ`: its kind, and what becomes of a value that is read. -/
structure Field (μ : Type) where
  kind : Kind
  set : μ → kind.Value → μ

/-- `if wire_type != expected { return Err(unexpected_wire_type(wire_type)) }`, where the generated
code has it. -/
def checkWireType (k : Kind) (wireType : WireType) : ProtobufReader Unit :=
  match k.wireType with
  | some expected =>
    if wireType ≠ expected then throw (.unexpectedWireType wireType) else return ()
  | none => return ()

variable {μ : Type} (pb : CodedInputStream)

/-- A branch of the `match` on the field number. -/
def readField (field : Field μ) (wireType : WireType) (msg : μ) : ProtobufReader μ := do
  checkWireType field.kind wireType
  let tmp ← pb.read field.kind wireType
  return field.set msg tmp

/-- One turn of `while !is.eof()?`: nothing when there is no more input. -/
def mergeField (fields : UInt32 → Option (Field μ)) (msg : μ) : ProtobufReader (Option μ) := do
  let eof ← pb.eof
  if eof then
    return none
  else
    let (fieldNumber, wireType) ← pb.readTagUnpack
    match fields fieldNumber with
    | some field => do
      let msg ← readField pb field wireType msg
      return some msg
    | none => do
      pb.readUnknownOrSkipGroup fieldNumber wireType
      return some msg

/-! ### The loop -/

theorem ProtobufReader.bind_eq_ok {α β : Type} {x : ProtobufReader α} {f : α → ProtobufReader β}
    {is : Bytes} {r : β × Bytes} :
    (x >>= f) is = .ok r ↔ ∃ a is', x is = .ok (a, is') ∧ f a is' = .ok r := by
  change (x is >>= fun p => f p.1 p.2) = .ok r ↔ _
  cases hx : x is with
  | error e => simp [bind, Except.bind]
  | ok p =>
    obtain ⟨a, is'⟩ := p
    simp only [bind, Except.bind, Except.ok.injEq, Prod.mk.injEq]
    constructor
    · exact fun h => ⟨a, is', ⟨rfl, rfl⟩, h⟩
    · rintro ⟨_, _, ⟨rfl, rfl⟩, h⟩
      exact h

theorem ProtobufReader.pure_eq_ok {α : Type} {a b : α} {is is' : Bytes} :
    (pure a : ProtobufReader α) is = .ok (b, is') ↔ a = b ∧ is = is' := by
  change Except.ok (a, is) = .ok (b, is') ↔ _
  simp

variable {pb}

theorem checkWireType_eq_ok {k : Kind} {wireType : WireType} {u : Unit} {is is' : Bytes}
    (h : checkWireType k wireType is = .ok (u, is')) : is = is' := by
  rw [checkWireType] at h
  cases hk : k.wireType with
  | none =>
    rw [hk] at h
    exact (ProtobufReader.pure_eq_ok.mp h).2
  | some expected =>
    simp only [hk] at h
    split_ifs at h
    · cases h
    · exact (ProtobufReader.pure_eq_ok.mp h).2

/-- A turn that goes on has taken its tag off the stream. -/
theorem mergeField_lt {fields : UInt32 → Option (Field μ)} {msg msg' : μ} {is is' : Bytes}
    (h : mergeField pb fields msg is = .ok (some msg', is')) : is'.length < is.length := by
  obtain ⟨eof, is₁, heof, h⟩ := ProtobufReader.bind_eq_ok.mp h
  have hle := pb.eof_le _ _ _ heof
  split_ifs at h
  · exact absurd (ProtobufReader.pure_eq_ok.mp h).1 (by simp)
  · obtain ⟨tag, is₂, htag, h⟩ := ProtobufReader.bind_eq_ok.mp h
    have hlt := pb.readTagUnpack_lt _ _ _ htag
    dsimp only at h
    cases hfields : fields tag.1 with
    | some field =>
      rw [hfields] at h
      obtain ⟨msg₁, is₃, hfield, h⟩ := ProtobufReader.bind_eq_ok.mp h
      obtain ⟨_, is₄, hcheck, hread⟩ := ProtobufReader.bind_eq_ok.mp hfield
      obtain ⟨v, is₅, hv, hset⟩ := ProtobufReader.bind_eq_ok.mp hread
      obtain rfl := checkWireType_eq_ok hcheck
      have := pb.read_le _ _ _ _ _ hv
      rw [← (ProtobufReader.pure_eq_ok.mp h).2, ← (ProtobufReader.pure_eq_ok.mp hset).2]
      omega
    | none =>
      rw [hfields] at h
      obtain ⟨_, is₃, hskip, h⟩ := ProtobufReader.bind_eq_ok.mp h
      have := pb.readUnknownOrSkipGroup_le _ _ _ _ _ hskip
      rw [← (ProtobufReader.pure_eq_ok.mp h).2]
      omega

variable (pb)

/-- The loop of a generated `merge_from`; an error ends the function. -/
def mergeLoop (fields : UInt32 → Option (Field μ)) :
    Loop (μ × Bytes) (Except ProtobufError μ) where
  body s :=
    match mergeField pb fields s.1 s.2 with
    | .ok (some msg, is) => .returned (.continue_ (msg, is))
    | .ok (none, _) => .returned (.break_ (.ok s.1))
    | .error e => .returned (.break_ (.error e))
  left s := s.2.length
  left_lt s s' h := by
    cases hfield : mergeField pb fields s.1 s.2 with
    | error e => simp [hfield] at h
    | ok p =>
      obtain ⟨_ | msg, is⟩ := p
      · simp [hfield] at h
      · obtain rfl : (msg, is) = s' := by simpa [hfield] using h
        exact mergeField_lt hfield

/-- A generated `merge_from`, for a message with the given fields. -/
def mergeFrom (fields : UInt32 → Option (Field μ)) (msg : μ) (is : Bytes) :
    Outcome (Except ProtobufError μ) :=
  (mergeLoop pb fields).run (msg, is)

/-- A generated parser does not panic. -/
theorem returns_mergeFrom (fields : UInt32 → Option (Field μ)) (msg : μ) (is : Bytes) :
    (mergeFrom pb fields msg is).Returns := by
  have hbody : ∀ s, True → (∃ s', (mergeLoop pb fields).body s = .returned (.continue_ s') ∧ True) ∨
      ∃ r, (mergeLoop pb fields).body s = .returned (.break_ r) ∧ True := by
    intro s _
    simp only [mergeLoop]
    split
    · exact .inl ⟨_, rfl, trivial⟩
    · exact .inr ⟨_, rfl, trivial⟩
    · exact .inr ⟨_, rfl, trivial⟩
  obtain ⟨r, hr, -⟩ := (mergeLoop pb fields).run_spec hbody (s := (msg, is)) trivial
  exact ⟨r, hr⟩

/-- An empty payload leaves the message as it was. -/
theorem mergeFrom_nil (fields : UInt32 → Option (Field μ)) (msg : μ) :
    mergeFrom pb fields msg [] = .returned (.ok msg) := by
  have hfield : mergeField pb fields msg [] = .ok (none, []) :=
    ProtobufReader.bind_eq_ok.mpr ⟨true, [], pb.eof_nil, rfl⟩
  refine Loop.run_of_break _ ?_
  simp only [mergeLoop, hfield]

/-! ### The wire format

A runtime to run the model with, after the crate's own. It does not know how far into the stream it
is, against which the crate checks that the length of a packed field does not overflow. -/

/-- A read that does not move backwards. -/
def ProtobufReader.Forward {α : Type} (x : ProtobufReader α) : Prop :=
  ∀ is a is', x is = .ok (a, is') → is'.length ≤ is.length

theorem ProtobufReader.forward_pure {α : Type} (a : α) :
    ProtobufReader.Forward (pure a : ProtobufReader α) := by
  intro is b is' h
  exact Nat.le_of_eq (congrArg _ (ProtobufReader.pure_eq_ok.mp h).2.symm)

theorem ProtobufReader.forward_throw {α : Type} (e : ProtobufError) :
    ProtobufReader.Forward (throw e : ProtobufReader α) := by
  intro is b is' h
  cases h

theorem ProtobufReader.Forward.bind {α β : Type} {x : ProtobufReader α}
    {f : α → ProtobufReader β} (hx : x.Forward) (hf : ∀ a, (f a).Forward) :
    ProtobufReader.Forward (x >>= f) := by
  intro is b is' h
  obtain ⟨a, is₁, h₁, h₂⟩ := ProtobufReader.bind_eq_ok.mp h
  exact Nat.le_trans (hf a _ _ _ h₂) (hx _ _ _ h₁)

/-- `read_raw_varint64`, of at most the given number of bytes. -/
def rawVarint : ℕ → ProtobufReader ℕ
  | 0, _ => .error (.wire "incorrect varint")
  | _ + 1, [] => .error (.io .unexpectedEof)
  | n + 1, b :: is =>
    if b < 0x80 then .ok (b.toNat, is)
    else
      match rawVarint n is with
      | .ok (v, is) => .ok (b.toNat - 0x80 + 0x80 * v, is)
      | .error e => .error e

theorem rawVarint_lt {n v : ℕ} {is is' : Bytes} (h : rawVarint n is = .ok (v, is')) :
    is'.length < is.length := by
  induction n generalizing v is with
  | zero => cases h
  | succ n ih =>
    cases is with
    | nil => cases h
    | cons b is =>
      rw [rawVarint] at h
      split_ifs at h
      · cases h
        simp
      · cases hv : rawVarint n is with
        | error e => simp [hv] at h
        | ok p =>
          obtain ⟨rfl, rfl⟩ : _ = v ∧ _ = is' := by simpa [hv] using h
          have := ih hv
          simp only [List.length_cons]
          omega

/-- `read_raw_varint32`: the low half of a varint. -/
def rawVarint32 : ProtobufReader UInt32 := do return UInt32.ofNat (← rawVarint 10)

/-- `read_raw_bytes`. -/
def rawBytes (n : ℕ) : ProtobufReader Bytes := fun is =>
  if n ≤ is.length then .ok (is.take n, is.drop n) else .error (.io .unexpectedEof)

theorem forward_rawVarint (n : ℕ) : ProtobufReader.Forward (rawVarint n) :=
  fun _ _ _ h => Nat.le_of_lt (rawVarint_lt h)

theorem rawVarint32_lt {v : UInt32} {is is' : Bytes} (h : rawVarint32 is = .ok (v, is')) :
    is'.length < is.length := by
  obtain ⟨n, is₁, hn, h⟩ := ProtobufReader.bind_eq_ok.mp h
  rw [← (ProtobufReader.pure_eq_ok.mp h).2]
  exact rawVarint_lt hn

theorem forward_rawVarint32 : ProtobufReader.Forward rawVarint32 :=
  fun _ _ _ h => Nat.le_of_lt (rawVarint32_lt h)

theorem forward_rawBytes (n : ℕ) : ProtobufReader.Forward (rawBytes n) := by
  intro is a is' h
  rw [rawBytes] at h
  split_ifs at h
  cases h
  simp

/-- The wire type in the three low bits of a tag. -/
def WireType.ofTag (tag : ℕ) : ProtobufReader WireType :=
  match tag % 8 with
  | 0 => return .varint
  | 1 => return .fixed64
  | 2 => return .lengthDelimited
  | 3 => return .startGroup
  | 4 => return .endGroup
  | 5 => return .fixed32
  | _ => throw (.wire "incorrect tag")

/-- A length and as many bytes. -/
def lengthDelimited (wireType : WireType) : ProtobufReader Bytes :=
  if wireType = .lengthDelimited then do
    let n ← rawVarint32
    rawBytes n.toNat
  else throw (.unexpectedWireType wireType)

/-- The bytes of a packed field: a length, and as many bytes up to the end of the input
(`push_limit` does not mind a limit past it). -/
def packedBytes (wireType : WireType) : ProtobufReader Bytes :=
  if wireType = .lengthDelimited then do
    let n ← rawVarint 10
    fun is => .ok (is.take (n % 2 ^ 64), is.drop (n % 2 ^ 64))
  else throw (.unexpectedWireType wireType)

/-- The varints of a packed field. -/
def packed : ℕ → Bytes → Except ProtobufError (List UInt32)
  | 0, _ => .ok []
  | _ + 1, [] => .ok []
  | n + 1, b :: is => do
    let (v, is) ← rawVarint 10 (b :: is)
    return UInt32.ofNat v :: (← packed n is)

/-- The value of a field. -/
def wireRead : (k : Kind) → WireType → ProtobufReader k.Value
  | .uint32, _ => rawVarint32
  | .uint64, _ => do return UInt64.ofNat (← rawVarint 10)
  | .int32, _ => do return Int32.ofNat (← rawVarint 10)
  | .bool, _ => do return (← rawVarint32) ≠ 0
  | .float, _ => do
    let bs ← rawBytes 4
    return UInt32.ofNat (bs.foldr (fun b n => b.toNat + 256 * n) 0)
  | .bytes, wireType => lengthDelimited wireType
  | .string, wireType => do
    let bs ← lengthDelimited wireType
    match String.fromUTF8? ⟨bs.toArray⟩ with
    | some s => return s
    | none => throw .utf8
  | .repeatedUint32, .varint => do return [← rawVarint32]
  | .repeatedUint32, wireType => do
    let bs ← packedBytes wireType
    match packed bs.length bs with
    | .ok vs => return vs
    | .error e => throw e

/-- `read_unknown`: a field that is not known and not a group. -/
def wireSkip : WireType → ProtobufReader Unit
  | .varint => do let _ ← rawVarint 10
  | .fixed64 => do let _ ← rawBytes 8
  | .lengthDelimited => do let _ ← lengthDelimited .lengthDelimited
  | .fixed32 => do let _ ← rawBytes 4
  | wireType => throw (.unexpectedWireType wireType)

/-- A tag: a field number and a wire type. -/
def wireTag : ProtobufReader (UInt32 × WireType) := do
  let tag ← rawVarint32
  let wireType ← WireType.ofTag tag.toNat
  if tag / 8 = 0 then throw (.wire "incorrect tag") else return (tag / 8, wireType)

/-- `skip_group`: fields up to the end of the group. Each takes a byte at least, so that there are
no more turns than bytes. -/
def skipGroup : ℕ → ProtobufReader Unit
  | 0 => throw (.io .unexpectedEof)
  | n + 1 => do
    let (_, wireType) ← wireTag
    if wireType = .endGroup then return ()
    else
      wireSkip wireType
      skipGroup n

/-- `read_unknown_or_skip_group`. -/
def skipUnknown (wireType : WireType) : ProtobufReader Unit :=
  if wireType = .startGroup then fun is => skipGroup is.length is else wireSkip wireType

open ProtobufReader in
theorem forward_lengthDelimited (wireType : WireType) :
    (lengthDelimited wireType).Forward := by
  rw [lengthDelimited]
  split_ifs
  · exact forward_rawVarint32.bind fun n => forward_rawBytes n.toNat
  · exact forward_throw _

open ProtobufReader in
theorem forward_packedBytes (wireType : WireType) : (packedBytes wireType).Forward := by
  rw [packedBytes]
  split_ifs
  · refine (forward_rawVarint 10).bind fun n is bs is' h => ?_
    cases h
    rw [List.length_drop]
    exact Nat.sub_le _ _
  · exact forward_throw _

open ProtobufReader in
theorem forward_wireRead (k : Kind) (wireType : WireType) : (wireRead k wireType).Forward := by
  cases k with
  | uint32 => exact forward_rawVarint32
  | uint64 => exact (forward_rawVarint 10).bind fun _ => forward_pure _
  | int32 => exact (forward_rawVarint 10).bind fun _ => forward_pure _
  | bool => exact forward_rawVarint32.bind fun _ => forward_pure _
  | float => exact (forward_rawBytes 4).bind fun _ => forward_pure _
  | bytes => exact forward_lengthDelimited wireType
  | string =>
    refine (forward_lengthDelimited wireType).bind fun bs => ?_
    cases String.fromUTF8? ⟨bs.toArray⟩ with
    | none => exact forward_throw _
    | some s => exact forward_pure s
  | repeatedUint32 =>
    have hpacked : ∀ bs : Bytes, ProtobufReader.Forward
        (match packed bs.length bs with
          | .ok vs => pure vs
          | .error e => throw e : ProtobufReader (List UInt32)) := by
      intro bs
      cases packed bs.length bs with
      | ok vs => exact forward_pure vs
      | error e => exact forward_throw e
    cases wireType with
    | varint => exact forward_rawVarint32.bind fun _ => forward_pure _
    | fixed64 => exact (forward_packedBytes _).bind hpacked
    | lengthDelimited => exact (forward_packedBytes _).bind hpacked
    | startGroup => exact (forward_packedBytes _).bind hpacked
    | endGroup => exact (forward_packedBytes _).bind hpacked
    | fixed32 => exact (forward_packedBytes _).bind hpacked

open ProtobufReader in
theorem forward_wireSkip (wireType : WireType) : (wireSkip wireType).Forward := by
  cases wireType with
  | varint => exact (forward_rawVarint 10).bind fun _ => forward_pure _
  | fixed64 => exact (forward_rawBytes 8).bind fun _ => forward_pure _
  | lengthDelimited => exact (forward_lengthDelimited _).bind fun _ => forward_pure _
  | startGroup => exact forward_throw _
  | endGroup => exact forward_throw _
  | fixed32 => exact (forward_rawBytes 4).bind fun _ => forward_pure _

open ProtobufReader in
theorem wireTag_lt {is is' : Bytes} {tag : UInt32 × WireType} (h : wireTag is = .ok (tag, is')) :
    is'.length < is.length := by
  obtain ⟨n, is₁, hn, h⟩ := bind_eq_ok.mp h
  have hlt := rawVarint32_lt hn
  have hrest : ∀ wireType : WireType, ProtobufReader.Forward
      (if n / 8 = 0 then throw (.wire "incorrect tag")
        else pure (n / 8, wireType) : ProtobufReader (UInt32 × WireType)) := by
    intro wireType
    split_ifs
    · exact forward_throw _
    · exact forward_pure _
  have htype : (WireType.ofTag n.toNat).Forward := by
    rw [WireType.ofTag]
    split <;> first | exact forward_pure _ | exact forward_throw _
  exact Nat.lt_of_le_of_lt (htype.bind hrest _ _ _ h) hlt

open ProtobufReader in
theorem forward_skipGroup (n : ℕ) : (skipGroup n).Forward := by
  induction n with
  | zero => exact forward_throw _
  | succ n ih =>
    have htag : ProtobufReader.Forward wireTag := fun _ _ _ h => Nat.le_of_lt (wireTag_lt h)
    refine htag.bind fun tag => ?_
    dsimp only
    split_ifs
    · exact forward_pure _
    · exact (forward_wireSkip tag.2).bind fun _ => ih

open ProtobufReader in
theorem forward_skipUnknown (wireType : WireType) : (skipUnknown wireType).Forward := by
  rw [skipUnknown]
  split_ifs
  · exact fun is => forward_skipGroup is.length is
  · exact forward_wireSkip wireType

/-- The runtime that reads the wire format. -/
def wireFormat : CodedInputStream where
  eof := fun is => .ok (is.isEmpty, is)
  readTagUnpack := wireTag
  read := wireRead
  readUnknownOrSkipGroup _ wireType := skipUnknown wireType
  eof_nil := rfl
  eof_le is b is' h := by cases h; exact Nat.le_refl _
  readTagUnpack_lt _ _ _ h := wireTag_lt h
  read_le k wireType is v is' h := forward_wireRead k wireType is v is' h
  readUnknownOrSkipGroup_le _ wireType is u is' h := forward_skipUnknown wireType is u is' h

/-! ### Writing a varint -/

/-- `write_raw_varint64`, of at most the given number of bytes. -/
def rawVarintBytes : ℕ → ℕ → Bytes
  | 0, _ => []
  | n + 1, v =>
    if v < 0x80 then [UInt8.ofNat v]
    else UInt8.ofNat (0x80 + v % 0x80) :: rawVarintBytes n (v / 0x80)

/-- What is written is read back, whatever follows it. -/
theorem rawVarint_rawVarintBytes {n v : ℕ} (h : v < 0x80 ^ (n + 1)) (is : Bytes) :
    rawVarint (n + 1) (rawVarintBytes (n + 1) v ++ is) = .ok (v, is) := by
  have hbyte : ∀ b < 256, (UInt8.ofNat b).toNat = b := fun b hb => UInt8.toNat_ofNat_of_lt' hb
  have hlast : ∀ n' v', v' < 0x80 →
      rawVarint (n' + 1) (rawVarintBytes (n' + 1) v' ++ is) = .ok (v', is) := by
    intro n' v' hv
    have hlt : UInt8.ofNat v' < 0x80 := by
      rw [UInt8.lt_iff_toNat_lt, hbyte v' (by omega)]
      exact hv
    rw [rawVarintBytes, if_pos hv, List.singleton_append, rawVarint, if_pos hlt,
      hbyte v' (by omega)]
  induction n generalizing v with
  | zero => exact hlast 0 v (by simpa using h)
  | succ n ih =>
    rcases Nat.lt_or_ge v 0x80 with hv | hv
    · exact hlast (n + 1) v hv
    · have hlead := hbyte (0x80 + v % 0x80) (by omega)
      have hge : ¬ UInt8.ofNat (0x80 + v % 0x80) < 0x80 := by
        rw [UInt8.lt_iff_toNat_lt, hlead]
        exact Nat.not_lt.mpr (Nat.le_add_right _ _)
      have hdiv : v / 0x80 < 0x80 ^ (n + 1) := by
        rw [Nat.div_lt_iff_lt_mul (by decide), ← Nat.pow_succ]
        exact h
      rw [rawVarintBytes, if_neg (Nat.not_lt.mpr hv), List.cons_append, rawVarint, if_neg hge,
        ih hdiv, hlead, Nat.add_sub_cancel_left]
      simp only [Nat.mod_add_div]

end MumbleBot
