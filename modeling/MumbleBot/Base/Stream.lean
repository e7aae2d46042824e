import MumbleBot.Base.Outcome
import Mathlib.Data.List.Basic

/-!
# Streams and their adaptors

A stream delivers items, possibly forever, and may come to an end. An adaptor takes a stream and
makes another one out of it: it has a state, it makes some items of each item it is given, and some
more of the end. Adaptors are chained, each being fed with what the one before it makes.

`feed` is what has come out when the items so far have gone in and the stream goes on; `drain` is
what comes out in all when it ends there.

## Main definitions

* `Adaptor`, `Adaptor.comp` — an adaptor, and two of them in a row
* `Adaptor.feed`, `Adaptor.drain` — what comes out
* `Adaptor.flatten`, `Adaptor.chunks`, `Adaptor.andThen` — the adaptors of that name
* `Grouped` — a list cut into groups of one size, and a rest

## Main results

* `Adaptor.feed_append`, `Adaptor.feed_comp` — item after item, and adaptor after adaptor
* `Adaptor.feed_flatten_comp` — how a stream is cut does not matter behind `flatten`
* `Adaptor.feed_chunks`, `Adaptor.drain_chunks` — what `chunks` makes of a stream
-/

namespace MumbleBot

/-- What becomes of a stream of `α`: the items of `β` for each item, and for the end. -/
structure Adaptor (σ α β : Type) where
  init : σ
  /-- What is made of an item. -/
  item : σ → α → Outcome (σ × List β)
  /-- What is made of the end. -/
  finish : σ → Outcome (List β)

namespace Adaptor

variable {σ τ α β γ : Type}

/-- Feed some items; the stream goes on. -/
def feed (p : Adaptor σ α β) (s : σ) : List α → Outcome (σ × List β)
  | [] => .returned (s, [])
  | a :: as => do
    let (s, bs) ← p.item s a
    let (s, bs') ← p.feed s as
    return (s, bs ++ bs')

/-- Feed a whole stream, with its end. -/
def drain (p : Adaptor σ α β) (as : List α) : Outcome (List β) := do
  let (s, bs) ← p.feed p.init as
  let bs' ← p.finish s
  return bs ++ bs'

/-- One adaptor after another. -/
def comp (p : Adaptor σ α β) (q : Adaptor τ β γ) : Adaptor (σ × τ) α γ where
  init := (p.init, q.init)
  item st a := do
    let (s, bs) ← p.item st.1 a
    let (t, cs) ← q.feed st.2 bs
    return ((s, t), cs)
  finish st := do
    let bs ← p.finish st.1
    let (t, cs) ← q.feed st.2 bs
    let cs' ← q.finish t
    return cs ++ cs'

@[simp] theorem feed_nil (p : Adaptor σ α β) (s : σ) : p.feed s [] = .returned (s, []) := rfl

theorem feed_cons_of_returned {p : Adaptor σ α β} {s s₁ s₂ : σ} {a : α} {as : List α}
    {bs bs' : List β} (h₁ : p.item s a = .returned (s₁, bs))
    (h₂ : p.feed s₁ as = .returned (s₂, bs')) :
    p.feed s (a :: as) = .returned (s₂, bs ++ bs') := by
  simp only [feed, h₁, h₂, Outcome.returned_bind, Outcome.pure_eq]

theorem drain_of_returned {p : Adaptor σ α β} {s : σ} {as : List α} {bs bs' : List β}
    (h : p.feed p.init as = .returned (s, bs)) (h' : p.finish s = .returned bs') :
    p.drain as = .returned (bs ++ bs') := by
  simp only [drain, h, h', Outcome.returned_bind, Outcome.pure_eq]

theorem drain_of_panicked {p : Adaptor σ α β} {s : σ} {as : List α} {bs : List β}
    (h : p.feed p.init as = .returned (s, bs)) (h' : p.finish s = .panicked) :
    p.drain as = .panicked := by
  simp only [drain, h, h', Outcome.returned_bind, Outcome.panicked_bind]

/-- Items fed in two goes are items fed in one. -/
theorem feed_append (p : Adaptor σ α β) (s : σ) (as as' : List α) :
    p.feed s (as ++ as') = p.feed s as >>= fun r =>
      p.feed r.1 as' >>= fun r' => .returned (r'.1, r.2 ++ r'.2) := by
  induction as generalizing s with
  | nil => exact (bind_pure (p.feed s as')).symm
  | cons a as ih =>
    cases h : p.item s a with
    | panicked => simp [feed, h]
    | returned r => simp [feed, h, ih, List.append_assoc]

/-- A chain of two adaptors is fed by feeding the second with what the first one makes. -/
theorem feed_comp {p : Adaptor σ α β} {q : Adaptor τ β γ} {s s' : σ} {t : τ} {as : List α}
    {bs : List β} (h : p.feed s as = .returned (s', bs)) :
    (p.comp q).feed (s, t) as = q.feed t bs >>= fun r => .returned ((s', r.1), r.2) := by
  induction as generalizing s t bs with
  | nil =>
    obtain ⟨rfl, rfl⟩ := Prod.mk.inj (Outcome.returned.inj h)
    rfl
  | cons a as ih =>
    obtain ⟨⟨s₁, bs₁⟩, h₁, h⟩ := Outcome.bind_eq_returned.mp h
    obtain ⟨⟨s₂, bs₂⟩, h₂, h⟩ := Outcome.bind_eq_returned.mp h
    obtain ⟨rfl, rfl⟩ := Prod.mk.inj (Outcome.returned.inj h)
    rw [feed, feed_append]
    cases hq : q.feed t bs₁ with
    | panicked => simp [comp, h₁, hq]
    | returned r =>
      have hrest := ih h₂ (t := r.1)
      simp [comp, h₁, hq] at hrest ⊢
      simp [hrest]

/-! ### `flatten` and `and_then` -/

/-- `flatten`: the items of each item. -/
def flatten : Adaptor Unit (List α) α where
  init := ()
  item _ as := .returned ((), as)
  finish _ := .returned []

/-- `and_then`, for a closure that is done at once. -/
def andThen (f : α → Outcome β) : Adaptor Unit α β where
  init := ()
  item _ a := do
    let b ← f a
    return ((), [b])
  finish _ := .returned []

theorem feed_flatten (ass : List (List α)) :
    flatten.feed () ass = .returned ((), ass.flatten) := by
  induction ass with
  | nil => rfl
  | cons as ass ih => exact feed_cons_of_returned rfl ih

/-- **How a stream is cut does not matter** to what comes behind `flatten`. -/
theorem feed_flatten_comp (p : Adaptor σ α β) (s : σ) (ass : List (List α)) :
    (flatten.comp p).feed ((), s) ass
      = p.feed s ass.flatten >>= fun r => .returned (((), r.1), r.2) :=
  feed_comp (feed_flatten ass)

theorem feed_andThen {f : α → Outcome β} {g : α → β} {as : List α}
    (h : ∀ a ∈ as, f a = .returned (g a)) :
    (andThen f).feed () as = .returned ((), as.map g) := by
  induction as with
  | nil => rfl
  | cons a as ih =>
    rw [List.forall_mem_cons] at h
    have hitem : (andThen f).item () a = .returned ((), [g a]) := by
      simp only [andThen, h.1, Outcome.returned_bind, Outcome.pure_eq]
    exact feed_cons_of_returned hitem (ih h.2)

end Adaptor

/-! ### `chunks` -/

/-- `Grouped n as groups rest`: cut from the front into groups of `n`, the list `as` is `groups` and
a rest that is shorter than that. -/
structure Grouped {α : Type} (n : ℕ) (as : List α) (groups : List (List α)) (rest : List α) :
    Prop where
  append_eq : groups.flatten ++ rest = as
  length_eq : ∀ g ∈ groups, g.length = n
  rest_lt : rest.length < n

theorem length_flatten_of_forall {α : Type} {n : ℕ} {groups : List (List α)}
    (h : ∀ g ∈ groups, g.length = n) : groups.flatten.length = n * groups.length := by
  induction groups with
  | nil => rfl
  | cons g groups ih =>
    rw [List.forall_mem_cons] at h
    rw [List.flatten_cons, List.length_append, h.1, ih h.2, List.length_cons, Nat.mul_succ,
      Nat.add_comm]

namespace Grouped

variable {α : Type} {n : ℕ} {as rest : List α} {groups : List (List α)}

theorem length_add (h : Grouped n as groups rest) :
    n * groups.length + rest.length = as.length := by
  rw [← h.append_eq, List.length_append, length_flatten_of_forall h.length_eq]

/-- There are as many groups as fit. -/
theorem length_groups (h : Grouped n as groups rest) : groups.length = as.length / n := by
  rw [← h.length_add, Nat.mul_add_div (Nat.zero_lt_of_lt h.rest_lt), Nat.div_eq_of_lt h.rest_lt,
    Nat.add_zero]

theorem length_rest (h : Grouped n as groups rest) : rest.length = as.length % n := by
  rw [← h.length_add, Nat.mul_add_mod, Nat.mod_eq_of_lt h.rest_lt]

end Grouped

namespace Adaptor

variable {α : Type}

/-- `chunks`: groups of `n` items, and what is left over at the end as a shorter one. -/
def chunks (n : ℕ) : Adaptor (List α) α (List α) where
  init := []
  item items a :=
    let items := items ++ [a]
    if items.length ≥ n then .returned ([], [items]) else .returned (items, [])
  finish items := if items.length > 0 then .returned [items] else .returned []

/-- **What `chunks` makes of a stream that goes on**: the groups, while the rest waits. -/
theorem feed_chunks {n : ℕ} {items : List α} (h : items.length < n) (as : List α) :
    ∃ groups rest, (chunks n).feed items as = .returned (rest, groups) ∧
      Grouped n (items ++ as) groups rest := by
  induction as generalizing items with
  | nil => exact ⟨[], items, rfl, by simp, by simp, h⟩
  | cons a as ih =>
    have hlength : (items ++ [a]).length = items.length + 1 := by simp
    by_cases hfull : (items ++ [a]).length ≥ n
    · have hempty : ([] : List α).length < n := Nat.zero_lt_of_lt h
      obtain ⟨groups, rest, hfeed, hgroups⟩ := ih hempty
      have hitem : (chunks n).item items a = .returned ([], [items ++ [a]]) := if_pos hfull
      refine ⟨(items ++ [a]) :: groups, rest, feed_cons_of_returned hitem hfeed, ?_, ?_,
        hgroups.rest_lt⟩
      · have happend := hgroups.append_eq
        rw [List.nil_append] at happend
        rw [List.flatten_cons, List.append_assoc, happend, List.append_assoc,
          List.singleton_append]
      · exact List.forall_mem_cons.mpr ⟨by omega, hgroups.length_eq⟩
    · obtain ⟨groups, rest, hfeed, hgroups⟩ := ih (Nat.not_le.mp hfull)
      have hitem : (chunks n).item items a = .returned (items ++ [a], []) := if_neg hfull
      refine ⟨groups, rest, feed_cons_of_returned hitem hfeed, ?_, hgroups.length_eq,
        hgroups.rest_lt⟩
      rw [hgroups.append_eq, List.append_assoc, List.singleton_append]

/-- Nothing is lost on a stream that ends: the rest is a last group. -/
theorem drain_chunks {n : ℕ} (hn : 0 < n) (as : List α) :
    ∃ groups, (chunks n).drain as = .returned groups ∧ groups.flatten = as := by
  have hempty : ([] : List α).length < n := hn
  obtain ⟨groups, rest, hfeed, hgrouped⟩ := feed_chunks hempty as
  have hfinish : (chunks n).finish rest = .returned (if rest.length > 0 then [rest] else []) := by
    simp only [chunks]
    split_ifs <;> rfl
  refine ⟨_, drain_of_returned hfeed hfinish, ?_⟩
  rw [List.flatten_append, ← List.nil_append as, ← hgrouped.append_eq]
  congr 1
  split_ifs with hpos
  · exact List.append_nil rest
  · exact (List.length_eq_zero_iff.mp (Nat.eq_zero_of_not_pos hpos)).symm

end Adaptor

end MumbleBot
