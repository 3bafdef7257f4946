/-
The sharded map items are stored in.

`ConcurrentMap` hashes a key to one of its 32 shards and every operation goes
through that shard, so the map is the union of its shards and the model keeps
the union.  Every caller stores an item under its own key.  The structure
carries that fact, and an item read back under `k` is an item of key `k`.
-/
import HyperCache.Lib.Keyed
import HyperCache.Item

namespace HyperCache

structure ConcurrentMap (V : Type) where
  items : AList (fun _ : Key => Item V)
  keyed : ∀ k it, items.lookup k = some it → it.key = k

namespace ConcurrentMap

variable {V : Type}

/-- `New`. -/
def empty : ConcurrentMap V where
  items := ∅
  keyed := by simp

/-- `Get` and `GetCopy`. -/
def get (m : ConcurrentMap V) (k : Key) : Option (Item V) := m.items.lookup k

/-- `Set` of an item under its own key. -/
def set (m : ConcurrentMap V) (it : Item V) : ConcurrentMap V where
  items := m.items.insert it.key it
  keyed := by
    intro k jt h
    by_cases hk : k = it.key
    · subst hk
      rw [AList.lookup_insert, Option.some.injEq] at h
      rw [h]
    · rw [AList.lookup_insert_ne hk] at h
      exact m.keyed k jt h

def remove (m : ConcurrentMap V) (k : Key) : ConcurrentMap V where
  items := m.items.erase k
  keyed := by
    intro k' it h
    by_cases hk : k' = k
    · subst hk
      rw [AList.lookup_erase] at h
      exact absurd h (by simp)
    · rw [AList.lookup_erase_ne hk] at h
      exact m.keyed k' it h

def touch (m : ConcurrentMap V) (now : Time) (k : Key) : ConcurrentMap V × Bool :=
  match m.get k with
  | none => (m, false)
  | some it => (m.set (it.touch now), true)

def clear (_ : ConcurrentMap V) : ConcurrentMap V := empty

def count (m : ConcurrentMap V) : Nat := m.items.entries.length

/-- The items `All` yields, in some iteration order. -/
def all (m : ConcurrentMap V) : List (Item V) := m.items.entries.map (·.2)

/-- The keys `All` yields, in the same order. -/
def keys (m : ConcurrentMap V) : List Key := m.items.keys

@[simp] theorem get_set_self (m : ConcurrentMap V) (it : Item V) :
    (m.set it).get it.key = some it :=
  AList.lookup_insert _

theorem get_set_ne (m : ConcurrentMap V) {it : Item V} {k : Key} (h : k ≠ it.key) :
    (m.set it).get k = m.get k :=
  AList.lookup_insert_ne h

theorem get_set (m : ConcurrentMap V) (it : Item V) (k : Key) :
    (m.set it).get k = if k = it.key then some it else m.get k := by
  by_cases h : k = it.key
  · subst h
    rw [get_set_self, if_pos rfl]
  · rw [get_set_ne m h, if_neg h]

@[simp] theorem get_remove_self (m : ConcurrentMap V) (k : Key) : (m.remove k).get k = none :=
  AList.lookup_erase k m.items

theorem get_remove_ne (m : ConcurrentMap V) {k k' : Key} (h : k' ≠ k) :
    (m.remove k).get k' = m.get k' :=
  AList.lookup_erase_ne h

theorem key_of_get {m : ConcurrentMap V} {k : Key} {it : Item V} (h : m.get k = some it) :
    it.key = k :=
  m.keyed k it h

theorem mem_keys {m : ConcurrentMap V} {k : Key} : k ∈ m.keys ↔ ∃ it, m.get k = some it := by
  rw [keys, ← AList.mem_keys, ← AList.lookup_isSome, Option.isSome_iff_exists]
  rfl

theorem mem_all {m : ConcurrentMap V} {it : Item V} : it ∈ m.all ↔ m.get it.key = some it := by
  constructor
  · intro h
    obtain ⟨⟨k, jt⟩, hmem, rfl⟩ := List.mem_map.mp h
    have hget : m.get k = some jt := AList.mem_lookup_iff.mpr hmem
    rw [key_of_get hget]
    exact hget
  · intro h
    exact List.mem_map.mpr ⟨⟨it.key, it⟩, AList.mem_lookup_iff.mp h, rfl⟩

theorem map_key_all (m : ConcurrentMap V) : m.all.map Item.key = m.keys := by
  rw [all, keys, AList.keys, List.keys, List.map_map]
  apply List.map_congr_left
  intro e he
  exact key_of_get (m := m) (AList.mem_lookup_iff.mpr he)

theorem mem_keys_set {m : ConcurrentMap V} {it : Item V} {k : Key} :
    k ∈ (m.set it).keys ↔ k = it.key ∨ k ∈ m.keys :=
  AList.mem_insert m.items

theorem mem_keys_remove {m : ConcurrentMap V} {k k' : Key} :
    k' ∈ (m.remove k).keys ↔ k' ≠ k ∧ k' ∈ m.keys :=
  AList.mem_erase

theorem count_eq (m : ConcurrentMap V) : m.count = m.keys.length :=
  (List.length_map _).symm

theorem count_set (m : ConcurrentMap V) (it : Item V) :
    (m.set it).count = if it.key ∈ m.keys then m.count else m.count + 1 := by
  rw [count_eq, count_eq]
  exact (Keyed.length_keys_insert m.items it.key it).trans (if_congr Iff.rfl rfl rfl)

theorem count_remove (m : ConcurrentMap V) (k : Key) :
    (m.remove k).count = if k ∈ m.keys then m.count - 1 else m.count := by
  rw [count_eq, count_eq]
  exact (Keyed.length_keys_erase m.items k).trans (if_congr Iff.rfl rfl rfl)

theorem keys_nodup (m : ConcurrentMap V) : m.keys.Nodup := m.items.keys_nodup

end ConcurrentMap

end HyperCache
