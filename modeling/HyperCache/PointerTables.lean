/-
LRU and CAWOLFU as linked lists reply as their tables do.

The cache over an eviction algorithm is modelled with the tables. What is proved of it
is about the code's lists and maps by the theorems here, and by that of
`LfuRefinement` for the heap.
-/
import HyperCache.Lib.RecencyTable
import HyperCache.PointerCawolfu

namespace HyperCache

open Tables

variable {V : Type}

namespace AlgOp

/-- The table of LRU is its recency list. -/
theorem respond_lru (t : Table Key (Option V)) (op : AlgOp V) :
    ∃ t', op.respond (Algorithm.lru ⟨t⟩) =
        some (.lru ⟨t'⟩, op.reply (Algorithm.lru ⟨t⟩)) ∧ t'.capacity = t.capacity ∧
      op.onRecencyList t.capacity t.entries.entries =
        some (t'.entries.entries, op.reply (Algorithm.lru ⟨t⟩)) := by
  cases op with
  | set key value =>
      refine ⟨_, rfl, t.capacity_set _ _ _ _, ?_⟩
      rw [onRecencyList, Table.set_last_eq (f := fun _ => value) rfl fun _ => rfl]
      rfl
  | get key =>
      refine ⟨_, rfl, rfl, ?_⟩
      rw [onRecencyList, Table.get_eq]
      rfl
  | delete key => exact ⟨_, rfl, rfl, rfl⟩
  | evict =>
      refine ⟨_, rfl, t.capacity_evict _, ?_⟩
      rw [onRecencyList, Table.evict_last_eq]
      rfl

/-- The table of CAWOLFU is the recency list with the counts. -/
theorem respond_cawolfu (t : Table Key (CAWOLFUNode V)) (op : AlgOp V) :
    ∃ t', op.respond (Algorithm.cawolfu ⟨t⟩) =
        some (.cawolfu ⟨t'⟩, op.reply (Algorithm.cawolfu ⟨t⟩)) ∧ t'.capacity = t.capacity ∧
      op.onCountedList t.capacity t.entries.entries =
        some (t'.entries.entries, op.reply (Algorithm.cawolfu ⟨t⟩)) := by
  cases op with
  | set key value =>
      refine ⟨_, rfl, t.capacity_set _ _ _ _, ?_⟩
      rw [onCountedList, Table.set_last_eq rfl fun _ => rfl]
      rfl
  | get key =>
      refine ⟨_, rfl, rfl, ?_⟩
      rw [onCountedList, Table.get_eq]
      rfl
  | delete key => exact ⟨_, rfl, rfl, rfl⟩
  | evict =>
      refine ⟨_, rfl, t.capacity_evict _, ?_⟩
      rw [onCountedList, Table.evict_last_eq]
      rfl

end AlgOp

namespace Pointers

/-- LRU replies as its table does and holds the entries of that table. -/
theorem lru_refines_table {capacity : Int} {lru : LRU V}
    (hnew : newLRUAlgorithm capacity = .ok lru) (calls : List (PooledCall V)) :
    ∃ lru' t replies, Machines.run LRU.exec lru calls = some (lru', replies) ∧
      Machines.run AlgOp.respond (Algorithm.lru ⟨.new capacity.toNat⟩) (calls.map PooledCall.op) =
        some (.lru ⟨t⟩, replies) ∧
      lru'.Refines t.capacity t.entries.entries := by
  have hstep : ∀ (lru : LRU V) a (call : PooledCall V),
      (∃ t, a = Algorithm.lru ⟨t⟩ ∧ lru.Refines t.capacity t.entries.entries) →
      ∃ lru' a' r, lru.exec call = some (lru', r) ∧ call.op.respond a = some (a', r) ∧
        ∃ t, a' = Algorithm.lru ⟨t⟩ ∧ lru'.Refines t.capacity t.entries.entries := by
    rintro lru a call ⟨t, rfl, h⟩
    obtain ⟨lru', l, r, hexec, hlist, h'⟩ := LRU.exec_refines h call
    obtain ⟨t', hrespond, hcap, htable⟩ := AlgOp.respond_lru t call.op
    obtain ⟨rfl, rfl⟩ := Prod.mk.inj (Option.some.inj (hlist.symm.trans htable))
    exact ⟨lru', _, _, hexec, hrespond, t', rfl, hcap ▸ h'⟩
  obtain ⟨lru', a, replies, hrun, hrespond, t, rfl, h⟩ :=
    Machines.run_sim hstep ⟨.new capacity.toNat, rfl, LRU.new_refines hnew⟩ calls
  exact ⟨lru', t, replies, hrun, hrespond, h⟩

theorem lru_refines_table_reusing :
    ∃ lru : LRU Str, newLRUAlgorithm 2 = .ok lru ∧
      ∃ lru' t replies, Machines.run LRU.exec lru reusingCalls = some (lru', replies) ∧
        Machines.run AlgOp.respond (Algorithm.lru ⟨.new 2⟩) (reusingCalls.map PooledCall.op) =
          some (.lru ⟨t⟩, replies) ∧
        lru'.Refines t.capacity t.entries.entries :=
  ⟨_, rfl, @lru_refines_table Str 2 _ rfl reusingCalls⟩

/-- CAWOLFU replies as its table does and holds the entries of that table. -/
theorem cawolfu_refines_table {capacity : Int} {c : CAWOLFU V}
    (hnew : newCAWOLFU capacity = .ok c) (calls : List (PooledCall V)) :
    ∃ c' t replies, Machines.run CAWOLFU.exec c calls = some (c', replies) ∧
      Machines.run AlgOp.respond (Algorithm.cawolfu ⟨.new capacity.toNat⟩)
          (calls.map PooledCall.op) =
        some (.cawolfu ⟨t⟩, replies) ∧
      c'.Refines t.capacity t.entries.entries := by
  have hstep : ∀ (c : CAWOLFU V) a (call : PooledCall V),
      (∃ t, a = Algorithm.cawolfu ⟨t⟩ ∧ c.Refines t.capacity t.entries.entries) →
      ∃ c' a' r, c.exec call = some (c', r) ∧ call.op.respond a = some (a', r) ∧
        ∃ t, a' = Algorithm.cawolfu ⟨t⟩ ∧ c'.Refines t.capacity t.entries.entries := by
    rintro c a call ⟨t, rfl, h⟩
    obtain ⟨c', l, r, hexec, hlist, h'⟩ := CAWOLFU.exec_refines h call
    obtain ⟨t', hrespond, hcap, htable⟩ := AlgOp.respond_cawolfu t call.op
    obtain ⟨rfl, rfl⟩ := Prod.mk.inj (Option.some.inj (hlist.symm.trans htable))
    exact ⟨c', _, _, hexec, hrespond, t', rfl, hcap ▸ h'⟩
  obtain ⟨c', a, replies, hrun, hrespond, t, rfl, h⟩ :=
    Machines.run_sim hstep ⟨.new capacity.toNat, rfl, CAWOLFU.new_refines hnew⟩ calls
  exact ⟨c', t, replies, hrun, hrespond, h⟩

theorem cawolfu_refines_table_busyKey :
    ∃ c : CAWOLFU Str, newCAWOLFU 2 = .ok c ∧
      ∃ c' t replies, Machines.run CAWOLFU.exec c busyKeyCalls = some (c', replies) ∧
        Machines.run AlgOp.respond (Algorithm.cawolfu ⟨.new 2⟩) (busyKeyCalls.map PooledCall.op) =
          some (.cawolfu ⟨t⟩, replies) ∧
        c'.Refines t.capacity t.entries.entries :=
  ⟨_, rfl, @cawolfu_refines_table Str 2 _ rfl busyKeyCalls⟩

end Pointers

end HyperCache
