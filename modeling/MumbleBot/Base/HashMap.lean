import MumbleBot.Base.Outcome
import Mathlib.Data.List.Basic
import Mathlib.Data.List.Nodup
import Mathlib.Data.List.Perm.Basic
import Mathlib.Data.List.Lattice

/-!
# Hash maps without an order

A hash map promises what it contains and nothing about the order in which it lists it. The
order is fixed while the map is not modified, so it is a function of the map; what an insertion
or a removal does to it is left open, also for an insertion under a key that was there before.
Only the removal of a key that is not there modifies nothing.

`HashMap M κ ν` is that promise. A statement over every `M` with this interface is a statement
over every iteration order, including orders that depend on the whole history of the map.

`AssocMap` is the interface at work: an association list, newest entry first, whose keys are
distinct by construction.

## Main definitions

* `HashMap` — the interface, and `keys`, `get?`, `len`, `indexOf` over it
* `AssocMap` — an executable instance

## Main results

* `indexOf_of_mem`, `indexOf_of_not_mem` — a key's place in the enumeration
* `indexOf_inj` — different keys have different places
* `exists_indexOf_eq` — every place below the size is taken
* `exists_indexOf_remove_ne` — removing an entry moves another one
-/

namespace MumbleBot

/-- What is promised about a hash map from `κ` to `ν`. -/
class HashMap (M : Type) (κ ν : outParam Type) where
  /-- `HashMap::new`. -/
  new : M
  /-- `insert`, replacing the value of a key that is there. -/
  insert : M → κ → ν → M
  /-- `remove`, doing nothing for a key that is not there. -/
  remove : M → κ → M
  /-- The entries, in the order in which the map lists them. -/
  iter : M → List (κ × ν)
  iter_new : iter new = []
  nodup_iter : ∀ m, ((iter m).map Prod.fst).Nodup
  mem_iter_insert : ∀ m k v p, p ∈ iter (insert m k v) ↔ p = (k, v) ∨ p ∈ iter m ∧ p.1 ≠ k
  mem_iter_remove : ∀ m k p, p ∈ iter (remove m k) ↔ p ∈ iter m ∧ p.1 ≠ k
  remove_of_forall_ne : ∀ m k, (∀ p ∈ iter m, p.1 ≠ k) → remove m k = m

namespace HashMap

variable {M κ ν : Type} [HashMap M κ ν]

/-- `keys`, in iteration order. -/
def keys (m : M) : List κ := (iter m).map Prod.fst

/-- `len`. -/
def len (m : M) : ℕ := (iter m).length

/-- `get`. -/
def get? [DecidableEq κ] (m : M) (k : κ) : Option ν :=
  ((iter m).find? fun p => p.1 = k).map Prod.snd

/-- `keys().enumerate().find(|(_, key)| key == k)`: the place of a key in the enumeration. -/
def indexOf [DecidableEq κ] (m : M) (k : κ) : Option ℕ :=
  ((keys m).zipIdx.find? fun p => p.1 = k).map Prod.snd

/-- `entry(k).or_insert(v)`: the value under `k`, which is `v` if there was none. -/
def entryOrInsert [DecidableEq κ] (m : M) (k : κ) (v : ν) : ν × M :=
  match get? m k with
  | some w => (w, m)
  | none => (v, insert m k v)

theorem nodup_keys (m : M) : (keys m).Nodup := nodup_iter m

@[simp] theorem length_keys (m : M) : (keys m).length = len m := by simp [keys, len]

theorem mem_keys {m : M} {k : κ} : k ∈ keys m ↔ ∃ v, (k, v) ∈ iter m := by simp [keys]

@[simp] theorem keys_new : keys (new : M) = [] := by simp [keys, iter_new]

@[simp] theorem mem_keys_insert {m : M} {k k' : κ} {v : ν} :
    k' ∈ keys (insert m k v) ↔ k' = k ∨ k' ∈ keys m := by
  simp only [mem_keys, mem_iter_insert, Prod.mk.injEq]
  constructor
  · rintro ⟨_, ⟨rfl, -⟩ | ⟨h, -⟩⟩
    · exact .inl rfl
    · exact .inr ⟨_, h⟩
  · intro h
    by_cases hk : k' = k
    · exact ⟨v, .inl ⟨hk, rfl⟩⟩
    · obtain rfl | ⟨w, hw⟩ := h
      · exact absurd rfl hk
      · exact ⟨w, .inr ⟨hw, hk⟩⟩

@[simp] theorem mem_keys_remove {m : M} {k k' : κ} :
    k' ∈ keys (remove m k) ↔ k' ∈ keys m ∧ k' ≠ k := by
  simp only [mem_keys, mem_iter_remove, exists_and_right]

/-- Removing somebody who is not there changes nothing. -/
theorem remove_of_not_mem {m : M} {k : κ} (h : k ∉ keys m) : remove m k = m := by
  refine remove_of_forall_ne m k fun p hp hpk => h ?_
  rw [← hpk]
  exact List.mem_map_of_mem hp

/-! ### Lookup -/

section Lookup

variable [DecidableEq κ]

theorem get?_eq_some_iff {m : M} {k : κ} {v : ν} : get? m k = some v ↔ (k, v) ∈ iter m := by
  have hfind : (iter m).find? (fun p => p.1 = k) = some (k, v) ↔ (k, v) ∈ iter m := by
    refine ⟨List.mem_of_find?_eq_some, fun h => ?_⟩
    obtain ⟨p, hp⟩ := Option.isSome_iff_exists.mp
      (List.find?_isSome.mpr ⟨(k, v), h, by simp⟩ :
        ((iter m).find? fun p => p.1 = k).isSome = true)
    have hpk : p.1 = k := by simpa using List.find?_some hp
    rw [hp, List.inj_on_of_nodup_map (nodup_iter m) (List.mem_of_find?_eq_some hp) h hpk]
  rw [← hfind, get?]
  constructor
  · intro h
    obtain ⟨p, hp, rfl⟩ := Option.map_eq_some_iff.mp h
    have hpk : p.1 = k := by simpa using List.find?_some hp
    rw [hp, ← hpk]
  · intro h
    rw [h]
    rfl

theorem get?_eq_none_iff {m : M} {k : κ} : get? m k = none ↔ k ∉ keys m := by
  rw [mem_keys, not_exists, Option.eq_none_iff_forall_ne_some]
  exact forall_congr' fun v => not_congr get?_eq_some_iff

@[simp] theorem get?_new (k : κ) : get? (new : M) k = none := by simp [get?_eq_none_iff]

theorem get?_insert (m : M) (k k' : κ) (v : ν) :
    get? (insert m k v) k' = if k' = k then some v else get? m k' := by
  refine Option.ext fun w => ?_
  split_ifs with hk
  · subst hk
    simp [get?_eq_some_iff, mem_iter_insert, eq_comm (a := v)]
  · simp [get?_eq_some_iff, mem_iter_insert, hk]

theorem fst_entryOrInsert (m : M) (k : κ) (v : ν) :
    (entryOrInsert m k v).1 = (get? m k).getD v := by
  cases h : get? m k <;> simp [entryOrInsert, h]

theorem get?_entryOrInsert (m : M) (k k' : κ) (v : ν) :
    get? (entryOrInsert m k v).2 k' = if k' = k ∧ get? m k = none then some v else get? m k' := by
  cases h : get? m k with
  | none => simp [entryOrInsert, h, get?_insert]
  | some w => simp [entryOrInsert, h]

end Lookup

/-! ### Places in the enumeration

A key's place is a function of the map alone, so it is fixed while the map is. Nothing relates
the places in a map to those in the map after a change. -/

section Places

variable [DecidableEq κ]

theorem indexOf_eq (m : M) (k : κ) :
    indexOf m k = if k ∈ keys m then some ((keys m).idxOf k) else none := by
  have aux : ∀ (l : List κ) (n : ℕ), ((l.zipIdx n).find? fun p => p.1 = k).map Prod.snd
      = if k ∈ l then some (l.idxOf k + n) else none := by
    intro l
    induction l with
    | nil => simp
    | cons a l ih =>
      intro n
      by_cases hk : a = k
      · simp [hk]
      · have hk' : ¬ k = a := fun h => hk h.symm
        simp only [List.zipIdx_cons, List.find?_cons, hk, decide_false, ih, List.mem_cons, hk',
          false_or]
        rw [List.idxOf_cons_ne l hk, Nat.succ_add_eq_add_succ]
  simpa [indexOf] using aux (keys m) 0

theorem indexOf_of_mem {m : M} {k : κ} (h : k ∈ keys m) :
    indexOf m k = some ((keys m).idxOf k) := by
  rw [indexOf_eq, if_pos h]

theorem indexOf_of_not_mem {m : M} {k : κ} (h : k ∉ keys m) : indexOf m k = none := by
  rw [indexOf_eq, if_neg h]

theorem indexOf_lt {m : M} {k : κ} {n : ℕ} (h : indexOf m k = some n) : n < len m := by
  rw [indexOf_eq] at h
  split_ifs at h with hk
  rw [← Option.some.inj h, ← length_keys]
  exact List.idxOf_lt_length_of_mem hk

theorem indexOf_inj {m : M} {k k' : κ} {n : ℕ} (h : indexOf m k = some n)
    (h' : indexOf m k' = some n) : k = k' := by
  rw [indexOf_eq] at h h'
  split_ifs at h h' with hk hk'
  exact (List.idxOf_inj hk).mp (Option.some.inj (h.trans h'.symm))

/-- Every place below the size is somebody's. -/
theorem exists_indexOf_eq {m : M} {n : ℕ} (h : n < len m) :
    ∃ k ∈ keys m, indexOf m k = some n := by
  have hn : n < (keys m).length := by rwa [length_keys]
  have hmem : (keys m)[n] ∈ keys m := List.getElem_mem hn
  refine ⟨(keys m)[n], hmem, ?_⟩
  rw [indexOf_of_mem hmem, (nodup_keys m).idxOf_getElem]

/-! ### Sizes -/

theorem keys_remove_perm (m : M) (k : κ) : (keys (remove m k)).Perm ((keys m).erase k) := by
  refine (List.perm_ext_iff_of_nodup (nodup_keys _) ((nodup_keys m).erase k)).mpr fun k' => ?_
  rw [mem_keys_remove, (nodup_keys m).mem_erase_iff, and_comm]

theorem len_remove_of_mem {m : M} {k : κ} (h : k ∈ keys m) : len (remove m k) + 1 = len m := by
  rw [← length_keys, (keys_remove_perm m k).length_eq, List.length_erase_add_one h, length_keys]

/-- In a map of at least two entries there is one whose removal moves another one, whatever the
order: the last place is gone, and the entry that held it is still there. -/
theorem exists_indexOf_remove_ne {m : M} (h : 2 ≤ len m) :
    ∃ k ∈ keys m, ∃ k' ∈ keys m, k' ≠ k ∧ indexOf (remove m k) k' ≠ indexOf m k' := by
  obtain ⟨k', hk', hlast⟩ := exists_indexOf_eq (m := m) (n := len m - 1) (by omega)
  obtain ⟨k, hk, hfirst⟩ := exists_indexOf_eq (m := m) (n := 0) (by omega)
  have hne : k' ≠ k := by
    rintro rfl
    have := Option.some.inj (hlast.symm.trans hfirst)
    omega
  refine ⟨k, hk, k', hk', hne, fun hmoved => ?_⟩
  have hlt := indexOf_lt (hmoved.trans hlast)
  have hlen := len_remove_of_mem hk
  omega

end Places

end HashMap

/-! ### An executable map -/

/-- An association list whose keys are distinct, newest entry first. -/
structure AssocMap (κ ν : Type) where
  /-- The entries in iteration order. -/
  entries : List (κ × ν)
  nodup : (entries.map Prod.fst).Nodup

namespace AssocMap

variable {κ ν : Type} [DecidableEq κ]

/-- The entries under other keys than `k`. -/
def without (l : List (κ × ν)) (k : κ) : List (κ × ν) := l.filter fun p => p.1 ≠ k

theorem mem_without {l : List (κ × ν)} {k : κ} {p : κ × ν} :
    p ∈ without l k ↔ p ∈ l ∧ p.1 ≠ k := by
  simp [without]

theorem without_of_forall_ne {l : List (κ × ν)} {k : κ} (h : ∀ p ∈ l, p.1 ≠ k) :
    without l k = l :=
  List.filter_eq_self.mpr fun p hp => by simpa using h p hp

theorem nodup_without {l : List (κ × ν)} (h : (l.map Prod.fst).Nodup) (k : κ) :
    ((without l k).map Prod.fst).Nodup :=
  List.Nodup.sublist (List.Sublist.map Prod.fst List.filter_sublist) h

instance : HashMap (AssocMap κ ν) κ ν where
  new := ⟨[], List.nodup_nil⟩
  insert m k v := ⟨(k, v) :: without m.entries k, by
    refine List.nodup_cons.mpr ⟨fun h => ?_, nodup_without m.nodup k⟩
    obtain ⟨p, hp, hpk⟩ := List.mem_map.mp h
    exact (mem_without.mp hp).2 hpk⟩
  remove m k := ⟨without m.entries k, nodup_without m.nodup k⟩
  iter m := m.entries
  iter_new := rfl
  nodup_iter m := m.nodup
  mem_iter_insert m k v p := by rw [List.mem_cons, mem_without]
  mem_iter_remove m k p := mem_without
  remove_of_forall_ne m k h := by
    cases m
    exact (AssocMap.mk.injEq ..).mpr (without_of_forall_ne h)

end AssocMap

end MumbleBot
