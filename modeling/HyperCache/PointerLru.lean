/-
LRU as the code has it: a map of items, a doubly linked list and a pool.

The list is kept by hand through `prev` and `next`, and an item that leaves goes
to a pool and comes back under another key. The reference is the recency list of
`Lib.RecencyList`. Which item the pool returns is not up to the algorithm, so
every call carries the pool's choice.
-/
import HyperCache.Lib.LinkedStore
import HyperCache.Lib.Machines
import HyperCache.Lib.RecencyList
import HyperCache.Replacement

namespace HyperCache

open LinkedList Pointwise

variable {V : Type}

/-- What a call of an algorithm returns. -/
inductive Reply (V : Type) where
  | done
  | found (value : Option (Option V))
  | victim (key : Option Key)
deriving DecidableEq

def AlgOp.reply {A : Type} [EvictionAlgorithm V A] (a : A) : AlgOp V → Reply V
  | .set _ _ => .done
  | .get key => .found (EvictionAlgorithm.get key a).2
  | .delete _ => .done
  | .evict => .victim (EvictionAlgorithm.evict a).2

/-- The calls on an algorithm as a table, which never fail. -/
def AlgOp.respond {A : Type} [EvictionAlgorithm V A] (a : A) (op : AlgOp V) :
    Option (A × Reply V) := some (op.step a, op.reply a)

/-- A call, and what the pool has for it. -/
structure PooledCall (V : Type) where
  op : AlgOp V
  pick : Option Nat

/-- The operations on the reference list. -/
def AlgOp.onRecencyList (capacity : Nat) (l : List (Σ _ : Key, Option V)) :
    AlgOp V → Option (List (Σ _ : Key, Option V) × Reply V)
  | .set key value => some (RecencyList.set capacity key (fun _ => value) l, .done)
  | .get key => some ((RecencyList.get key id l).1, .found (RecencyList.get key id l).2)
  | .delete key => some (RecencyList.delete key l, .done)
  | .evict => some ((RecencyList.evict l).1, .victim (RecencyList.evict l).2)

namespace Pointers

structure LRU (V : Type) extends Store Key (Option V) where
  capacity : Nat

namespace LRU

def blank : Cell Key (Option V) := ⟨[], none, none, none⟩

end LRU

def newLRUAlgorithm (capacity : Int) : Except Err (LRU V) :=
  if capacity < 0 then .error .invalidCapacity
  else
    .ok
      { head := none
        tail := none
        items := ∅
        pool := ⟨[], 0⟩
        mem := fun _ => LRU.blank
        capacity := capacity.toNat }

namespace LRU

/-! ## The list -/

def removeFromList (item : Nat) (lru : LRU V) : LRU V :=
  let lru :=
    if lru.head = some item then { lru with head := (lru.mem item).next }
    else { lru with mem := linkNext (lru.mem item).prev (lru.mem item).next lru.mem }
  let lru :=
    if lru.tail = some item then { lru with tail := (lru.mem item).prev }
    else { lru with mem := linkPrev (lru.mem item).next (lru.mem item).prev lru.mem }
  { lru with mem := setNext item none (setPrev item none lru.mem) }

def addToFront (item : Nat) (lru : LRU V) : LRU V :=
  match lru.head with
  | none => { lru with head := some item, tail := some item }
  | some head =>
      { lru with
        mem := setPrev head (some item) (setNext item (some head) lru.mem)
        head := some item }

def moveToFront (item : Nat) (lru : LRU V) : LRU V :=
  if lru.head = some item then lru else (lru.removeFromList item).addToFront item

/-! ## The calls -/

def get (key : Key) (lru : LRU V) : LRU V × Option (Option V) :=
  match lru.items.lookup key with
  | none => (lru, none)
  | some item =>
      let lru := lru.moveToFront item
      (lru, some (lru.mem item).value)

/-- `resetLRUItem`, and the `Put` that follows it everywhere. -/
def recycle (item : Nat) (lru : LRU V) : LRU V :=
  { lru with
    mem := modify lru.mem item fun _ => blank
    pool := lru.pool.put item }

/-- The eviction in `Set`. -/
def makeRoom (lru : LRU V) : LRU V :=
  if lru.items.keys.length = lru.capacity then
    match lru.tail with
    | none => lru
    | some tailItem =>
        let lru := { lru with items := lru.items.erase (lru.mem tailItem).key }
        (lru.removeFromList tailItem).recycle tailItem
  else lru

/-- The insertion in `Set`, of an item from the pool. -/
def insertNew (key : Key) (value : Option V) (pick : Option Nat) (lru : LRU V) : LRU V :=
  let (item, pool) := lru.pool.get pick
  { lru with
    pool
    mem := modify lru.mem item fun _ => ⟨key, value, none, none⟩
    items := lru.items.insert key item }.addToFront item

def set (key : Key) (value : Option V) (pick : Option Nat) (lru : LRU V) : LRU V :=
  if lru.capacity = 0 then lru
  else
    match lru.items.lookup key with
    | some item =>
        { lru with mem := setValue item (fun _ => value) lru.mem }.moveToFront item
    | none => lru.makeRoom.insertNew key value pick

def evict (lru : LRU V) : LRU V × Option Key :=
  if lru.capacity = 0 then (lru, none)
  else
    match lru.tail with
    | none => (lru, none)
    | some tailItem =>
        let key := (lru.mem tailItem).key
        let lru := lru.removeFromList tailItem
        ({ lru with items := lru.items.erase key }.recycle tailItem, some key)

def delete (key : Key) (lru : LRU V) : LRU V :=
  match lru.items.lookup key with
  | none => lru
  | some item =>
      let lru := lru.removeFromList item
      { lru with items := lru.items.erase key }.recycle item

/-- Every link is checked before it is followed, so no call fails. -/
def exec (lru : LRU V) (call : PooledCall V) : Option (LRU V × Reply V) :=
  match call.op with
  | .set key value => some (lru.set key value call.pick, .done)
  | .get key => some ((lru.get key).1, .found (lru.get key).2)
  | .delete key => some (lru.delete key, .done)
  | .evict => some (lru.evict.1, .victim lru.evict.2)

/-! ## The list stays a list -/

variable {lru : LRU V} {ps : List Nat} {item : Nat}

theorem removeFromList_eq (h : IsList lru.mem lru.toEnds ps) (hitem : item ∈ ps) :
    lru.removeFromList item =
      { lru with toEnds := lru.toEnds.drop lru.mem item, mem := unlink item lru.mem } := by
  have hself := h.prev_ne_self hitem
  by_cases hhead : lru.head = some item
  · have hprev := h.prev_of_head hhead
    by_cases htail : lru.tail = some item
    · have hnext := h.next_of_tail htail
      simp [removeFromList, Ends.drop, unlink, linkNext, linkPrev, hhead, htail, hprev, hnext]
    · simp [removeFromList, Ends.drop, unlink, linkNext, hhead, htail, hprev]
  · by_cases htail : lru.tail = some item
    · have hnext := h.next_of_tail htail
      simp [removeFromList, Ends.drop, unlink, linkPrev, hhead, htail, hnext]
    · simp [removeFromList, Ends.drop, unlink, hhead, htail, hself]

/-- An item whose links are nil is pushed. -/
theorem addToFront_eq (h : IsList lru.mem lru.toEnds ps) (hprev : (lru.mem item).prev = none)
    (hnext : (lru.mem item).next = none) :
    lru.addToFront item =
      { lru with
        toEnds := ⟨some item, lru.tail.or (some item)⟩
        mem := pushFront lru.head item lru.mem } := by
  rw [addToFront, pushFront, setPrev_same hprev]
  have hhead := h.head
  have htail := h.tail
  cases ps with
  | nil =>
      simp only [List.head?_nil, List.getLast?_nil] at hhead htail
      simp [hhead, htail, linkPrev, setNext_same hnext]
  | cons p qs =>
      obtain ⟨z, hz⟩ := Option.ne_none_iff_exists'.mp (show (p :: qs).getLast? ≠ none by simp)
      rw [hz] at htail
      simp [hhead, htail, linkPrev]

theorem moveToFront_eq (h : IsList lru.mem lru.toEnds ps) (hitem : item ∈ ps)
    (hhead : lru.head ≠ some item) :
    lru.moveToFront item = { lru with toStore := lru.toStore.promote item } := by
  have hlist := h.unlink hitem
  rw [moveToFront, if_neg hhead, removeFromList_eq h hitem,
    addToFront_eq hlist (by simp [unlink]) (by simp [unlink])]
  rfl

theorem value_moveToFront (item : Nat) (lru : LRU V) (q : Nat) :
    ((lru.moveToFront item).mem q).value = (lru.mem q).value := by
  rw [moveToFront]
  split
  · rfl
  · rw [addToFront]
    split <;> simp [removeFromList] <;> split <;> split <;> simp

/-! ## Refinement -/

/-- The structure holds the reference list, which is within the capacity. -/
structure Refines (capacity : Nat) (lru : LRU V) (l : List (Σ _ : Key, Option V)) : Prop where
  capacity_eq : lru.capacity = capacity
  stores : lru.Stores l
  length_le : l.length ≤ capacity

variable {capacity : Nat} {l : List (Σ _ : Key, Option V)}

theorem Refines.eq_nil (h : lru.Refines capacity l) (hzero : lru.capacity = 0) : l = [] := by
  have hlen := h.length_le
  rw [← h.capacity_eq, hzero] at hlen
  exact List.eq_nil_of_length_eq_zero (Nat.le_zero.mp hlen)

theorem moveToFront_refines {key : Key} (f : Option V → Option V) (h : lru.Refines capacity l)
    (hkey : lru.items.lookup key = some item) :
    ({ lru with mem := setValue item f lru.mem }.moveToFront item).Refines capacity
      (⟨key, f (lru.mem item).value⟩ :: l.kerase key) := by
  have hmem : key ∈ l.keys := by
    rw [h.stores.mem_keys, ← AList.lookup_isSome, hkey]
    rfl
  have hlen := RecencyList.length_kerase_of_mem hmem
  have hle : (⟨key, f (lru.mem item).value⟩ :: l.kerase key).length ≤ capacity :=
    hlen.trans_le h.length_le
  by_cases hhead : lru.head = some item
  · rw [moveToFront, if_pos hhead]
    exact ⟨h.capacity_eq, h.stores.update_head hkey hhead f, hle⟩
  · obtain ⟨ps, hat, -⟩ := h.stores
    have hitem := ((hat.index key item).mp hkey).1
    have hlist : IsList ({ lru with mem := setValue item f lru.mem } : LRU V).mem lru.toEnds ps :=
      (hat.toHolds.setValue f).toIsList
    rw [moveToFront_eq hlist hitem hhead]
    exact ⟨h.capacity_eq, h.stores.promote hkey f, hle⟩

theorem get_refines (h : lru.Refines capacity l) (key : Key) :
    (lru.get key).1.Refines capacity (RecencyList.get key id l).1 ∧
      (lru.get key).2 = (RecencyList.get key id l).2 := by
  have hlookup := h.stores.dlookup (k := key)
  rw [get]
  cases hkey : lru.items.lookup key with
  | none =>
      rw [hkey, Option.map_none] at hlookup
      rw [RecencyList.get_of_notMem id hlookup]
      exact ⟨h, rfl⟩
  | some item =>
      rw [hkey, Option.map_some] at hlookup
      rw [RecencyList.get_of_mem id hlookup]
      have hid : setValue item id lru.mem = lru.mem := modify_id lru.mem item
      have hmove := moveToFront_refines id h hkey
      rw [hid] at hmove
      exact ⟨hmove, congrArg some (value_moveToFront item lru item)⟩

theorem discard_refines {key : Key} (h : lru.Refines capacity l)
    (hkey : lru.items.lookup key = some item) :
    ({ lru with toStore := lru.discard blank item } : LRU V).Refines capacity (l.kerase key) := by
  refine ⟨h.capacity_eq, h.stores.discard hkey blank, ?_⟩
  exact (List.kerase_sublist key l).length_le.trans h.length_le

theorem delete_refines (h : lru.Refines capacity l) (key : Key) :
    (lru.delete key).Refines capacity (RecencyList.delete key l) := by
  rw [delete, RecencyList.delete]
  cases hkey : lru.items.lookup key with
  | none =>
      have hmem : key ∉ l.keys := by
        rw [h.stores.mem_keys, ← AList.lookup_eq_none]
        exact hkey
      rw [List.kerase_of_notMem_keys hmem]
      exact h
  | some item =>
      obtain ⟨ps, hat, -⟩ := h.stores
      obtain ⟨hitem, rfl⟩ := (hat.index key item).mp hkey
      have := discard_refines h hkey
      simp only [removeFromList_eq hat.toIsList hitem]
      exact this

theorem discard_tail_refines (h : lru.Refines capacity l) (htail : lru.tail = some item) :
    ({ lru with toStore := lru.discard blank item } : LRU V).Refines capacity l.dropLast := by
  refine ⟨h.capacity_eq, h.stores.discard_tail htail blank, ?_⟩
  exact (List.dropLast_sublist l).length_le.trans h.length_le

theorem evict_refines (h : lru.Refines capacity l) :
    lru.evict.1.Refines capacity (RecencyList.evict l).1 ∧
      lru.evict.2 = (RecencyList.evict l).2 := by
  have hlast := h.stores.tail
  rw [evict, RecencyList.evict]
  split
  · -- at capacity zero the list is empty
    rename_i hzero
    obtain rfl := h.eq_nil hzero
    exact ⟨h, rfl⟩
  · cases htail : lru.tail with
    | none =>
        rw [htail, Option.map_none, eq_comm, List.getLast?_eq_none_iff] at hlast
        subst hlast
        exact ⟨h, rfl⟩
    | some item =>
        rw [htail, Option.map_some] at hlast
        obtain ⟨ps, hat, -⟩ := h.stores
        have hitem : item ∈ ps := List.mem_of_getLast? (hat.tail.symm.trans htail)
        simp only [removeFromList_eq hat.toIsList hitem]
        refine ⟨discard_tail_refines h htail, ?_⟩
        rw [← hlast]
        rfl

theorem makeRoom_refines (h : lru.Refines capacity l) (hpos : 0 < capacity) :
    lru.makeRoom.Refines capacity (if l.length = capacity then l.dropLast else l) := by
  obtain rfl := h.capacity_eq
  rw [makeRoom, h.stores.length_keys]
  split
  · rename_i hfull
    have hlast := h.stores.tail
    cases htail : lru.tail with
    | none =>
        rw [htail, Option.map_none, eq_comm, List.getLast?_eq_none_iff] at hlast
        subst hlast
        rw [List.length_nil] at hfull
        omega
    | some item =>
        obtain ⟨ps, hat, -⟩ := h.stores
        have hitem : item ∈ ps := List.mem_of_getLast? (hat.tail.symm.trans htail)
        have hlist : IsList ({ lru with items := lru.items.erase (lru.mem item).key } : LRU V).mem
            lru.toEnds ps := hat.toIsList
        simp only [removeFromList_eq hlist hitem]
        exact discard_tail_refines h htail
  · exact h

theorem insertNew_refines {key : Key} (h : lru.Refines capacity l) (hkey : key ∉ l.keys)
    (hroom : l.length < capacity) (value : Option V) (pick : Option Nat) :
    (lru.insertNew key value pick).Refines capacity (⟨key, value⟩ :: l) := by
  obtain ⟨ps, hat, -⟩ := h.stores
  have hadd := h.stores.add (mt h.stores.mem_keys.mpr hkey) pick value
  have hnew := (hat.apart.get pick).1
  rw [Store.add] at hadd
  rw [insertNew]
  rcases hget : lru.pool.get pick with ⟨item, pool⟩
  rw [hget] at hadd hnew
  have hlist : IsList (modify lru.mem item fun _ => ⟨key, value, none, none⟩) lru.toEnds ps := by
    refine (hat.toHolds.frame ?_).toIsList
    intro q hq
    exact modify_ne lru.mem _ fun heq => hnew (heq ▸ hq)
  have hlist' : IsList ({ lru with
      pool
      mem := modify lru.mem item fun _ => ⟨key, value, none, none⟩
      items := lru.items.insert key item } : LRU V).mem lru.toEnds ps := hlist
  change Refines capacity (addToFront item _) _
  rw [addToFront_eq hlist' (by simp) (by simp)]
  exact ⟨h.capacity_eq, hadd, hroom⟩

theorem set_refines (h : lru.Refines capacity l) (key : Key) (value : Option V)
    (pick : Option Nat) :
    (lru.set key value pick).Refines capacity
      (RecencyList.set capacity key (fun _ => value) l) := by
  have hlookup := h.stores.dlookup (k := key)
  rw [set]
  split
  · rename_i hzero
    have hnil := h.eq_nil hzero
    obtain rfl := h.capacity_eq
    rw [RecencyList.set, hzero, List.take_zero, ← hnil]
    exact hzero ▸ h
  · rename_i hcap
    have hpos : 0 < capacity := Nat.pos_of_ne_zero (h.capacity_eq ▸ hcap)
    cases hkey : lru.items.lookup key with
    | some item =>
        rw [hkey, Option.map_some] at hlookup
        rw [RecencyList.set_of_mem _ hlookup h.length_le]
        exact moveToFront_refines (fun _ => value) h hkey
    | none =>
        rw [hkey, Option.map_none] at hlookup
        have hmem := List.dlookup_eq_none.mp hlookup
        have hroom := makeRoom_refines h hpos
        by_cases hfull : l.length = capacity
        · rw [if_pos hfull] at hroom
          rw [RecencyList.set_of_full _ hmem hfull hpos]
          refine insertNew_refines hroom ?_ ?_ value pick
          · exact fun hk => hmem (((List.dropLast_sublist l).map Sigma.fst).subset hk)
          · rw [List.length_dropLast]
            omega
        · rw [if_neg hfull] at hroom
          have hlt := Nat.lt_of_le_of_ne h.length_le hfull
          rw [RecencyList.set_of_room _ hmem hlt]
          exact insertNew_refines hroom hmem hlt value pick

theorem exec_refines (h : lru.Refines capacity l) (call : PooledCall V) :
    ∃ lru' l' r, lru.exec call = some (lru', r) ∧
      call.op.onRecencyList capacity l = some (l', r) ∧ lru'.Refines capacity l' := by
  rcases call with ⟨op, pick⟩
  cases op with
  | set key value => exact ⟨_, _, _, rfl, rfl, set_refines h key value pick⟩
  | get key =>
      obtain ⟨hget, hvalue⟩ := get_refines h key
      exact ⟨_, _, _, rfl, by rw [hvalue]; rfl, hget⟩
  | delete key => exact ⟨_, _, _, rfl, rfl, delete_refines h key⟩
  | evict =>
      obtain ⟨hevict, hkey⟩ := evict_refines h
      exact ⟨_, _, _, rfl, by rw [hkey]; rfl, hevict⟩

theorem new_refines {capacity : Int} (h : newLRUAlgorithm capacity = .ok lru) :
    lru.Refines capacity.toNat [] := by
  rw [newLRUAlgorithm] at h
  split at h
  · cases h
  · obtain rfl := Except.ok.inj h
    exact ⟨rfl, Store.stores_empty _, Nat.zero_le _⟩

end LRU

/-- LRU replies as the reference list does, whatever the pool returns, and its list and
its map hold the entries of that list. -/
theorem lru_refines_recencyList {capacity : Int} {lru : LRU V}
    (hnew : newLRUAlgorithm capacity = .ok lru) (calls : List (PooledCall V)) :
    ∃ lru' l replies, Machines.run LRU.exec lru calls = some (lru', replies) ∧
      Machines.run (AlgOp.onRecencyList capacity.toNat) [] (calls.map PooledCall.op) =
        some (l, replies) ∧
      l.NodupKeys ∧ l.length ≤ capacity.toNat ∧
      ∃ ps, Holds lru'.mem lru'.items lru'.toEnds ps ∧ entries lru'.mem ps = l := by
  obtain ⟨lru', l, replies, hrun, href, h⟩ :=
    Machines.run_sim (fun _ _ call h => LRU.exec_refines h call) (LRU.new_refines hnew) calls
  obtain ⟨ps, hat, hentries⟩ := h.stores
  exact ⟨lru', l, replies, hrun, href, h.stores.nodupKeys, h.length_le, ps, hat.toHolds, hentries⟩

/-- The item of the key that goes comes back from the pool for the next one. -/
def reusingCalls : List (PooledCall Str) :=
  [⟨.set [97] (some [1]), none⟩, ⟨.set [98] (some [2]), none⟩, ⟨.get [97], none⟩,
    ⟨.set [99] (some [3]), some 1⟩, ⟨.get [98], none⟩, ⟨.delete [97], none⟩, ⟨.evict, none⟩]

theorem lru_refines_recencyList_reusing :
    ∃ lru : LRU Str, newLRUAlgorithm 2 = .ok lru ∧
      ∃ lru' l replies, Machines.run LRU.exec lru reusingCalls = some (lru', replies) ∧
        Machines.run (AlgOp.onRecencyList 2) [] (reusingCalls.map PooledCall.op) =
          some (l, replies) ∧
        l.NodupKeys ∧ l.length ≤ 2 ∧
        ∃ ps, Holds lru'.mem lru'.items lru'.toEnds ps ∧ entries lru'.mem ps = l :=
  ⟨_, rfl, @lru_refines_recencyList Str 2 _ rfl reusingCalls⟩

example : (Machines.run (AlgOp.onRecencyList 2) [] (reusingCalls.map PooledCall.op)).map Prod.snd =
    some [.done, .done, .found (some (some [1])), .done, .found none, .done,
      .victim (some [99])] := by
  decide

end Pointers

end HyperCache
