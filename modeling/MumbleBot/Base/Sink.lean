import MumbleBot.Base.Reader

/-!
# Sinks of bytes

A write hands a buffer to a sink. The sink takes a first part of the buffer and says how long that
part is, which need not be all of it, or it fails and has taken nothing.

Code that looks at nothing but whether a write is `Ok` is right about a sink that takes what it is
handed whole, if it takes it. That is a condition on the sink, and for the sinks below it comes
down to how much they have room for.

## Main definitions

* `Write` — one call of `write`
* `Sink` — a sink that holds what it has taken
* `Sink.writes`, `Sink.WholeWrites` — buffers handed over one after another
* `Sink.accepted` — the buffers whose writes are `Ok`
* `SliceCursor`, `Portioned` — a cursor over a slice, and a sink that takes so much at a time

## Main results

* `Sink.whole_iff` — an `Ok` says that the buffer is in the sink exactly if it takes it whole
* `Sink.held_writes` — what such a sink holds after a run, by the results alone
* `SliceCursor.wholeWrites_iff`, `Portioned.wholeWrites_iff` — what these sinks take whole
-/

namespace MumbleBot

/-- `std::io::Write`: one call of `write`, which may accept any part of the buffer. -/
class Write (σ : Type) where
  /-- Hand `buf` to the sink; the result is the number of bytes it took. -/
  write : σ → Bytes → Except IoError ℕ × σ

/-- A sink of which it is known what it holds: a write that is `Ok` adds the part of the buffer
that it reports, and one that fails adds nothing. -/
class Sink (σ : Type) extends Write σ where
  /-- The bytes the sink has taken. -/
  held : σ → Bytes
  write_ok : ∀ {s s' : σ} {buf : Bytes} {n : ℕ}, write s buf = (.ok n, s') →
    n ≤ buf.length ∧ held s' = held s ++ buf.take n
  write_error : ∀ {s s' : σ} {buf : Bytes} {e : IoError}, write s buf = (.error e, s') →
    held s' = held s

namespace Sink

/-! ### One write -/

/-- The sink takes `buf` whole, or fails. -/
def Whole {σ : Type} [Write σ] (s : σ) (buf : Bytes) : Prop :=
  ∀ n, (Write.write s buf).1 = .ok n → n = buf.length

variable {σ : Type} [Sink σ]

/-- An `Ok` says that the sink holds the buffer exactly where the sink takes it whole. -/
theorem whole_iff {s : σ} {buf : Bytes} : Whole s buf ↔
    ∀ n s', Write.write s buf = (.ok n, s') → held s' = held s ++ buf := by
  constructor
  · intro h n s' hwrite
    obtain rfl := h n (by rw [hwrite])
    rw [(write_ok hwrite).2, List.take_length]
  · intro h n hn
    obtain ⟨hle, hheld⟩ := write_ok (Prod.ext hn rfl : Write.write s buf = (.ok n, _))
    have htake : buf.take n = buf :=
      List.append_cancel_left (hheld.symm.trans (h n _ (Prod.ext hn rfl)))
    rw [← List.length_take_of_le hle, htake]

/-- A sink that takes as much as it has room for takes whole what fits. -/
theorem whole_iff_of_min {σ : Type} [Write σ] {s : σ} {buf : Bytes} {room : ℕ}
    (h : (Write.write s buf).1 = .ok (min buf.length room)) : Whole s buf ↔ buf.length ≤ room := by
  constructor
  · intro hwhole
    have hmin := hwhole _ h
    omega
  · intro hle n hn
    rw [h, Nat.min_eq_left hle] at hn
    exact (Except.ok.inj hn).symm

/-! ### Writes one after another -/

/-- Each buffer is handed over in one write, whatever has come of those before it. -/
def writes {σ : Type} [Write σ] (s : σ) : List Bytes → List (Except IoError ℕ) × σ
  | [] => ([], s)
  | buf :: bufs =>
    let (r, s) := Write.write s buf
    let (rs, s) := writes s bufs
    (r :: rs, s)

/-- The sink takes each of the buffers whole, or fails. -/
def WholeWrites {σ : Type} [Write σ] (s : σ) : List Bytes → Prop
  | [] => True
  | buf :: bufs => Whole s buf ∧ WholeWrites (Write.write s buf).2 bufs

theorem wholeWrites_iff {σ : Type} [Write σ] {s : σ} {bufs : List Bytes} : WholeWrites s bufs ↔
    ∀ a buf b, bufs = a ++ buf :: b → Whole (writes s a).2 buf := by
  induction bufs generalizing s with
  | nil => simp [WholeWrites]
  | cons buf bufs ih =>
    rw [WholeWrites, ih]
    constructor
    · rintro ⟨hbuf, hbufs⟩ a buf' b heq
      cases a with
      | nil =>
        obtain ⟨rfl, -⟩ := List.cons.inj heq
        exact hbuf
      | cons buf'' a =>
        obtain ⟨rfl, rfl⟩ := List.cons.inj heq
        exact hbufs a buf' b rfl
    · intro h
      exact ⟨h [] buf bufs rfl, fun a buf' b heq => h (buf :: a) buf' b (by rw [heq]; rfl)⟩

/-- The buffers whose writes are `Ok`. -/
def accepted : List (Except IoError ℕ) → List Bytes → List Bytes
  | .ok _ :: rs, buf :: bufs => buf :: accepted rs bufs
  | .error _ :: rs, _ :: bufs => accepted rs bufs
  | _, _ => []

/-- **The results tell what is there**, if the sink takes buffers whole: those whose writes are
`Ok`, one after another, and nothing of the others. -/
theorem held_writes {s : σ} {bufs : List Bytes} (h : WholeWrites s bufs) :
    held (writes s bufs).2 = held s ++ (accepted (writes s bufs).1 bufs).flatten := by
  induction bufs generalizing s with
  | nil => exact (List.append_nil _).symm
  | cons buf bufs ih =>
    obtain ⟨hbuf, hbufs⟩ := h
    rcases hwrite : Write.write s buf with ⟨_ | n, s'⟩
    · rw [hwrite] at hbufs
      rw [writes, hwrite, accepted, ih hbufs, write_error hwrite]
    · rw [hwrite] at hbufs
      rw [writes, hwrite, accepted, ih hbufs, whole_iff.mp hbuf n s' hwrite, List.append_assoc,
        List.flatten_cons]

theorem accepted_of_ok {σ : Type} [Write σ] {s : σ} {bufs : List Bytes}
    (hok : ∀ r ∈ (writes s bufs).1, ∃ n, r = .ok n) : accepted (writes s bufs).1 bufs = bufs := by
  induction bufs generalizing s with
  | nil => rfl
  | cons buf bufs ih =>
    change ∀ r ∈ (Write.write s buf).1 :: (writes (Write.write s buf).2 bufs).1, ∃ n, r = .ok n
      at hok
    obtain ⟨⟨n, hn⟩, hrest⟩ := List.forall_mem_cons.mp hok
    show accepted ((Write.write s buf).1 :: (writes (Write.write s buf).2 bufs).1) (buf :: bufs)
      = buf :: bufs
    rw [hn, accepted, ih hrest]

end Sink

/-! ### A vector -/

/-- A `Vec<u8>` grows by the whole buffer. -/
instance : Write Bytes := ⟨fun s buf => (.ok buf.length, s ++ buf)⟩

@[simp] theorem write_bytes (s buf : Bytes) : Write.write s buf = (.ok buf.length, s ++ buf) := rfl

instance : Sink Bytes where
  held s := s
  write_ok h := by
    obtain ⟨hn, rfl⟩ := Prod.mk.inj h
    obtain rfl := Except.ok.inj hn
    exact ⟨Nat.le_refl _, by rw [List.take_length]⟩
  write_error h := nomatch h

theorem wholeWrites_bytes (s : Bytes) (bufs : List Bytes) : Sink.WholeWrites s bufs := by
  induction bufs generalizing s with
  | nil => exact trivial
  | cons buf bufs ih => exact ⟨fun n hn => (Except.ok.inj hn).symm, ih _⟩

/-! ### A cursor over a slice -/

/-- A `Cursor<&mut [u8]>`. -/
structure SliceCursor where
  slice : Bytes
  pos : ℕ
  pos_le : pos ≤ slice.length

namespace SliceCursor

/-- `Cursor::new`. -/
def new (slice : Bytes) : SliceCursor := ⟨slice, 0, Nat.zero_le _⟩

/-- How many bytes there are from the position to the end of the slice. -/
def room (c : SliceCursor) : ℕ := c.slice.length - c.pos

/-- Put `bytes` over what is at the position, and go behind them. -/
def overwrite (c : SliceCursor) (bytes : Bytes) : SliceCursor where
  slice := c.slice.take c.pos ++ (bytes ++ c.slice.drop (c.pos + bytes.length))
  pos := c.pos + bytes.length
  pos_le := by
    have hpos := c.pos_le
    simp only [List.length_append, List.length_take, List.length_drop]
    omega

/-- As much of the buffer as there is room for; a full slice takes nothing, and that is `Ok`. -/
instance : Write SliceCursor where
  write c buf :=
    let amt := min buf.length c.room
    (.ok amt, c.overwrite (buf.take amt))

theorem take_overwrite (c : SliceCursor) (bytes : Bytes) :
    (c.overwrite bytes).slice.take (c.overwrite bytes).pos = c.slice.take c.pos ++ bytes := by
  have hlen : (c.slice.take c.pos ++ bytes).length = c.pos + bytes.length := by
    rw [List.length_append, List.length_take_of_le c.pos_le]
  show (c.slice.take c.pos ++ (bytes ++ c.slice.drop (c.pos + bytes.length))).take
    (c.pos + bytes.length) = _
  rw [← List.append_assoc]
  exact List.take_left' hlen

/-- The room goes down by what is written. -/
theorem room_overwrite (c : SliceCursor) (bytes : Bytes) :
    (c.overwrite bytes).room = c.room - bytes.length := by
  have hpos := c.pos_le
  simp only [overwrite, room, List.length_append, List.length_take, List.length_drop]
  omega

/-- What has been written is what lies before the position. -/
instance : Sink SliceCursor where
  held c := c.slice.take c.pos
  write_ok h := by
    obtain ⟨hn, rfl⟩ := Prod.mk.inj h
    obtain rfl := Except.ok.inj hn
    exact ⟨Nat.min_le_left .., take_overwrite ..⟩
  write_error h := nomatch h

/-- The buffers are taken whole exactly when there is room for all of them together. -/
theorem wholeWrites_iff {c : SliceCursor} {bufs : List Bytes} :
    Sink.WholeWrites c bufs ↔ bufs.flatten.length ≤ c.room := by
  induction bufs generalizing c with
  | nil => simp [Sink.WholeWrites]
  | cons buf bufs ih =>
    have hlen : (buf.take (min buf.length c.room)).length = min buf.length c.room :=
      List.length_take_of_le (Nat.min_le_left ..)
    have hroom : (Write.write c buf).2.room = c.room - min buf.length c.room :=
      (c.room_overwrite _).trans (by rw [hlen])
    have hwhole : Sink.Whole c buf ↔ buf.length ≤ c.room := Sink.whole_iff_of_min rfl
    rw [Sink.WholeWrites, hwhole, ih, hroom, List.flatten_cons, List.length_append]
    omega

end SliceCursor

/-! ### So much at a time -/

/-- A sink that takes at most `limit` bytes of each buffer. -/
structure Portioned where
  limit : ℕ
  taken : Bytes
  deriving DecidableEq, Repr

namespace Portioned

instance : Write Portioned where
  write p buf :=
    (.ok (min buf.length p.limit), { p with taken := p.taken ++ buf.take (min buf.length p.limit) })

instance : Sink Portioned where
  held p := p.taken
  write_ok h := by
    obtain ⟨hn, rfl⟩ := Prod.mk.inj h
    obtain rfl := Except.ok.inj hn
    exact ⟨Nat.min_le_left .., rfl⟩
  write_error h := nomatch h

/-- The buffers are taken whole exactly when none of them is longer than a portion. -/
theorem wholeWrites_iff {p : Portioned} {bufs : List Bytes} :
    Sink.WholeWrites p bufs ↔ ∀ buf ∈ bufs, buf.length ≤ p.limit := by
  induction bufs generalizing p with
  | nil => simp [Sink.WholeWrites]
  | cons buf bufs ih =>
    have hwhole : Sink.Whole p buf ↔ buf.length ≤ p.limit := Sink.whole_iff_of_min rfl
    rw [Sink.WholeWrites, hwhole, ih, List.forall_mem_cons]
    exact Iff.rfl

end Portioned

end MumbleBot
