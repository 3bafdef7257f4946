/-
A linked list in memory together with a map from keys to its cells.

`Holds mem items ends ps` says that the cells `ps` form a list and that `items`
finds each of them by its key and nothing else. What such a structure stores is
the list of its entries, front to back; removing, inserting and moving a cell to
the front are operations on that list. Cells that are not in use come from a
pool, which hands out any free address or a new one.
-/
import Mathlib.Data.List.AList
import HyperCache.Lib.LinkedList

namespace LinkedList

variable {κ β : Type} [DecidableEq κ]

structure Holds (mem : Memory κ β) (items : AList fun _ : κ => Nat) (ends : Ends)
    (ps : List Nat) : Prop extends IsList mem ends ps where
  index : ∀ k p, items.lookup k = some p ↔ p ∈ ps ∧ (mem p).key = k

def entry (c : Cell κ β) : Σ _ : κ, β := ⟨c.key, c.value⟩

def entries (mem : Memory κ β) (ps : List Nat) : List (Σ _ : κ, β) := ps.map fun p => entry (mem p)

section Contents

variable {mem mem' : Memory κ β} {items : AList fun _ : κ => Nat} {ends : Ends}
  {ps l r : List Nat} {p q : Nat} {k : κ}

omit [DecidableEq κ] in
@[simp] theorem length_entries : (entries mem ps).length = ps.length := List.length_map _

omit [DecidableEq κ] in
theorem entries_append : entries mem (l ++ r) = entries mem l ++ entries mem r := List.map_append

omit [DecidableEq κ] in
theorem entries_cons : entries mem (p :: ps) = entry (mem p) :: entries mem ps := rfl

omit [DecidableEq κ] in
theorem keys_entries : (entries mem ps).keys = ps.map fun p => (mem p).key := by
  rw [entries, List.keys, List.map_map]
  rfl

omit [DecidableEq κ] in
theorem entries_congr (h : ∀ p ∈ ps, entry (mem' p) = entry (mem p)) :
    entries mem' ps = entries mem ps := List.map_congr_left h

theorem holds_nil : Holds mem ∅ ⟨none, none⟩ [] :=
  ⟨isList_nil, by simp⟩

theorem Holds.frame (h : Holds mem items ends ps) (hmem : ∀ p ∈ ps, mem' p = mem p) :
    Holds mem' items ends ps := by
  refine ⟨h.toIsList.frame ?_ ?_, ?_⟩
  · intro p hp
    rw [hmem p hp]
  · intro p hp
    rw [hmem p hp]
  · intro k p
    rw [h.index]
    constructor
    · rintro ⟨hp, hk⟩
      exact ⟨hp, by rw [hmem p hp, hk]⟩
    · rintro ⟨hp, hk⟩
      exact ⟨hp, by rw [← hmem p hp, hk]⟩

theorem Holds.key_inj (h : Holds mem items ends ps) (hp : p ∈ ps) (hq : q ∈ ps)
    (hk : (mem p).key = (mem q).key) : p = q := by
  have h₁ := (h.index (mem p).key p).mpr ⟨hp, rfl⟩
  have h₂ := (h.index (mem p).key q).mpr ⟨hq, hk.symm⟩
  rw [h₁] at h₂
  exact Option.some.inj h₂

theorem Holds.nodupKeys (h : Holds mem items ends ps) : (entries mem ps).NodupKeys := by
  rw [List.NodupKeys, keys_entries]
  exact h.nodup.map_on fun p hp q hq hk => h.key_inj hp hq hk

theorem Holds.mem_keys (h : Holds mem items ends ps) : k ∈ (entries mem ps).keys ↔ k ∈ items := by
  rw [keys_entries, List.mem_map, ← AList.lookup_isSome, Option.isSome_iff_exists]
  simp only [h.index]

theorem Holds.dlookup (h : Holds mem items ends ps) :
    (entries mem ps).dlookup k = (items.lookup k).map fun p => (mem p).value := by
  cases hk : items.lookup k with
  | none =>
      have hmem : k ∉ (entries mem ps).keys := by
        rw [h.mem_keys, ← AList.lookup_eq_none]
        exact hk
      exact List.dlookup_eq_none.mpr hmem
  | some p =>
      obtain ⟨hp, hkey⟩ := (h.index k p).mp hk
      refine List.mem_dlookup h.nodupKeys (List.mem_map.mpr ⟨p, hp, ?_⟩)
      subst hkey
      rfl

theorem Holds.perm_keys (h : Holds mem items ends ps) : items.keys.Perm (entries mem ps).keys := by
  refine (List.perm_ext_iff_of_nodup items.keys_nodup h.nodupKeys).mpr ?_
  intro k
  rw [h.mem_keys]
  rfl

theorem Holds.length_keys (h : Holds mem items ends ps) : items.keys.length = ps.length := by
  rw [h.perm_keys.length_eq, keys_entries, List.length_map]

theorem Holds.kerase (h : Holds mem items ends ps) (hp : p ∈ ps) :
    (entries mem ps).kerase (mem p).key = entries mem (ps.erase p) := by
  obtain ⟨l, r, rfl⟩ := List.append_of_mem hp
  have hl : (mem p).key ∉ (entries mem l).keys := by
    rw [keys_entries, List.mem_map]
    rintro ⟨q, hq, hkey⟩
    have hqp := h.key_inj (List.mem_append_left _ hq) hp hkey
    obtain ⟨-, -, hdisj⟩ := List.nodup_append'.mp h.nodup
    exact hdisj hq (hqp ▸ List.mem_cons_self)
  have hr : List.kerase (mem p).key (entry (mem p) :: entries mem r) = entries mem r :=
    List.kerase_cons_eq rfl
  rw [h.toIsList.erase_eq, entries_append, entries_cons, List.kerase_append_right hl, hr,
    ← entries_append]

end Contents

section Operations

variable {mem mem' : Memory κ β} {items : AList fun _ : κ => Nat} {ends : Ends}
  {ps : List Nat} {p : Nat}

theorem Holds.remove (h : Holds mem items ends ps) (hp : p ∈ ps) :
    Holds (unlink p mem) (items.erase (mem p).key) (ends.drop mem p) (ps.erase p) := by
  refine ⟨h.toIsList.unlink hp, ?_⟩
  intro k q
  rw [unlink_key, h.nodup.mem_erase_iff]
  by_cases hk : k = (mem p).key
  · subst hk
    rw [AList.lookup_erase]
    constructor
    · intro hnone
      cases hnone
    · rintro ⟨⟨hqp, hq⟩, hkey⟩
      exact absurd (h.key_inj hq hp hkey) hqp
  · rw [AList.lookup_erase_ne hk, h.index]
    grind

/-- The cell `p`, with a key not in use, goes to the front. -/
theorem Holds.insert (h : Holds mem items ends ps) (hp : p ∉ ps) (hk : (mem p).key ∉ items) :
    Holds (pushFront ends.head p mem) (items.insert (mem p).key p)
      ⟨some p, ends.tail.or (some p)⟩ (p :: ps) := by
  refine ⟨h.toIsList.pushFront hp, ?_⟩
  intro k q
  rw [pushFront_key]
  by_cases hkey : k = (mem p).key
  · subst hkey
    rw [AList.lookup_insert]
    have hnone := AList.lookup_eq_none.mpr hk
    have := h.index (mem p).key q
    grind
  · rw [AList.lookup_insert_ne hkey, h.index]
    grind

/-- The cell `p` of the list goes to its front; the map stays. -/
theorem Holds.moveToFront (h : Holds mem items ends ps) (hp : p ∈ ps) :
    Holds (pushFront (ends.drop mem p).head p (unlink p mem)) items
      ⟨some p, (ends.drop mem p).tail.or (some p)⟩ (p :: ps.erase p) := by
  have hnot : p ∉ ps.erase p := h.nodup.not_mem_erase
  refine ⟨(h.toIsList.unlink hp).pushFront hnot, ?_⟩
  intro k q
  rw [pushFront_key, unlink_key, h.index, List.mem_cons, h.nodup.mem_erase_iff]
  grind

theorem Holds.setValue (h : Holds mem items ends ps) (f : β → β) :
    Holds (setValue p f mem) items ends ps := by
  refine ⟨h.toIsList.frame ?_ ?_, ?_⟩
  · intro q _
    rw [setValue_prev]
  · intro q _
    rw [setValue_next]
  · intro k q
    rw [h.index, setValue_key]

end Operations

section Pools

/-- Addresses given back, and the first address never handed out. -/
structure Pool where
  free : List Nat
  fresh : Nat

namespace Pool

/-- Any free address may be handed out again; a pool may also forget those it has. -/
def get (pick : Option Nat) (pool : Pool) : Nat × Pool :=
  match pick.filter pool.free.contains with
  | some p => (p, { pool with free := pool.free.erase p })
  | none => (pool.fresh, { pool with fresh := pool.fresh + 1 })

def put (p : Nat) (pool : Pool) : Pool := { pool with free := p :: pool.free }

/-- The addresses in use are not in the pool. -/
structure Apart (pool : Pool) (ps : List Nat) : Prop where
  nodup : pool.free.Nodup
  free_lt : ∀ p ∈ pool.free, p < pool.fresh
  used : ∀ p ∈ ps, p < pool.fresh ∧ p ∉ pool.free

variable {pool : Pool} {ps qs : List Nat} {p : Nat}

theorem Apart.mono (h : pool.Apart ps) (hqs : qs ⊆ ps) : pool.Apart qs :=
  ⟨h.nodup, h.free_lt, fun p hp => h.used p (hqs hp)⟩

theorem Apart.get (h : pool.Apart ps) (pick : Option Nat) :
    (pool.get pick).1 ∉ ps ∧ (pool.get pick).2.Apart ((pool.get pick).1 :: ps) := by
  rw [Pool.get]
  split
  case h_1 p hp =>
    have hfree : p ∈ pool.free := by
      have := (Option.filter_eq_some_iff.mp hp).2
      simpa using this
    have hps : p ∉ ps := fun hmem => (h.used p hmem).2 hfree
    refine ⟨hps, h.nodup.erase p, ?_, ?_⟩
    · intro q hq
      exact h.free_lt q (List.mem_of_mem_erase hq)
    · intro q hq
      rcases List.mem_cons.mp hq with rfl | hq
      · exact ⟨h.free_lt q hfree, h.nodup.not_mem_erase⟩
      · exact ⟨(h.used q hq).1, fun hf => (h.used q hq).2 (List.mem_of_mem_erase hf)⟩
  case h_2 =>
    refine ⟨fun hmem => absurd (h.used _ hmem).1 (Nat.lt_irrefl _), h.nodup, ?_, ?_⟩
    · intro q hq
      exact Nat.lt_succ_of_lt (h.free_lt q hq)
    · intro q hq
      rcases List.mem_cons.mp hq with rfl | hq
      · exact ⟨Nat.lt_succ_self _, fun hf => absurd (h.free_lt _ hf) (Nat.lt_irrefl _)⟩
      · exact ⟨Nat.lt_succ_of_lt (h.used q hq).1, (h.used q hq).2⟩

theorem Apart.put (h : pool.Apart ps) (hnd : ps.Nodup) (hp : p ∈ ps) :
    (pool.put p).Apart (ps.erase p) := by
  refine ⟨List.nodup_cons.mpr ⟨(h.used p hp).2, h.nodup⟩, ?_, ?_⟩
  · intro q hq
    rcases List.mem_cons.mp hq with rfl | hq
    · exact (h.used q hp).1
    · exact h.free_lt q hq
  · intro q hq
    obtain ⟨hne, hq⟩ := hnd.mem_erase_iff.mp hq
    refine ⟨(h.used q hq).1, ?_⟩
    intro hf
    rcases List.mem_cons.mp hf with rfl | hf
    · exact hne rfl
    · exact (h.used q hq).2 hf

end Pool

end Pools

end LinkedList
