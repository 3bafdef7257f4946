/-
CAWOLFU as the code has it, compared with LRU.

Its list is another one than that of LRU: it removes by the position of the node,
moves a node to the front in place and counts the accesses. The counts are never
read, so the algorithm is LRU under another name.
-/
import HyperCache.PointerLru

namespace HyperCache

open LinkedList Pointwise

variable {V : Type}

/-- What a node becomes when its key is read. -/
def CAWOLFUNode.accessed (node : CAWOLFUNode V) : CAWOLFUNode V :=
  { node with count := node.bump }

/-- What it becomes when its key is written. -/
def CAWOLFUNode.written (value : Option V) : Option (CAWOLFUNode V) → CAWOLFUNode V
  | none => { value, count := 1 }
  | some node => { value, count := node.bump }

/-- The operations on the recency list that counts the accesses of each key. -/
def AlgOp.onCountedList (capacity : Nat) (l : List (Σ _ : Key, CAWOLFUNode V)) :
    AlgOp V → Option (List (Σ _ : Key, CAWOLFUNode V) × Reply V)
  | .set key value => some (RecencyList.set capacity key (CAWOLFUNode.written value) l, .done)
  | .get key =>
      some ((RecencyList.get key CAWOLFUNode.accessed l).1,
        .found ((RecencyList.get key CAWOLFUNode.accessed l).2.map CAWOLFUNode.value))
  | .delete key => some (RecencyList.delete key l, .done)
  | .evict => some ((RecencyList.evict l).1, .victim (RecencyList.evict l).2)

/-- Without the counts it is the recency list. -/
theorem AlgOp.onCountedList_sim (capacity : Nat) (l : List (Σ _ : Key, CAWOLFUNode V))
    (op : AlgOp V) :
    ∃ l' r, op.onCountedList capacity l = some (l', r) ∧
      op.onRecencyList capacity (RecencyList.mapValues CAWOLFUNode.value l) =
        some (RecencyList.mapValues CAWOLFUNode.value l', r) := by
  cases op with
  | set key value =>
      refine ⟨_, _, rfl, ?_⟩
      rw [onRecencyList, RecencyList.mapValues_set _ capacity key]
      intro node
      cases node <;> rfl
  | get key =>
      have hget : RecencyList.get key id (RecencyList.mapValues CAWOLFUNode.value l) =
          (RecencyList.mapValues CAWOLFUNode.value (RecencyList.get key CAWOLFUNode.accessed l).1,
            (RecencyList.get key CAWOLFUNode.accessed l).2.map CAWOLFUNode.value) := by
        apply RecencyList.mapValues_get
        intro node
        rfl
      refine ⟨_, _, rfl, ?_⟩
      rw [onRecencyList, hget]
  | delete key =>
      refine ⟨_, _, rfl, ?_⟩
      rw [onRecencyList, RecencyList.delete, RecencyList.kerase_mapValues]
      rfl
  | evict =>
      refine ⟨_, _, rfl, ?_⟩
      rw [onRecencyList, RecencyList.mapValues_evict]

namespace Pointers

structure CAWOLFU (V : Type) extends Store Key (CAWOLFUNode V) where
  length : Int
  cap : Nat

namespace CAWOLFU

def blank : Cell Key (CAWOLFUNode V) := ⟨[], ⟨none, 0⟩, none, none⟩

end CAWOLFU

def newCAWOLFU (capacity : Int) : Except Err (CAWOLFU V) :=
  if capacity < 0 then .error .invalidCapacity
  else
    .ok
      { head := none
        tail := none
        items := ∅
        pool := ⟨[], 0⟩
        mem := fun _ => CAWOLFU.blank
        length := 0
        cap := capacity.toNat }

namespace CAWOLFU

/-! ## The list -/

def addToFront (node : Nat) (c : CAWOLFU V) : CAWOLFU V :=
  let mem := setNext node c.head (setPrev node none c.mem)
  { c with
    mem := linkPrev c.head (some node) mem
    head := some node
    tail := c.tail.or (some node) }

/-- The nodes come from the map, so the check for nil has nothing to do. -/
def moveToFront (node : Nat) (c : CAWOLFU V) : CAWOLFU V :=
  if c.head = some node then c
  else
    let c := if c.tail = some node then { c with tail := (c.mem node).prev } else c
    let mem := linkNext (c.mem node).prev (c.mem node).next c.mem
    let mem := linkPrev (mem node).next (mem node).prev mem
    let mem := setNext node c.head (setPrev node none mem)
    { c with
      mem := linkPrev c.head (some node) mem
      head := some node
      tail := c.tail.or (some node) }

/-- What `Evict`, `Set` and `Delete` do to a node that goes: it leaves list and map, is reset
and goes to the pool. -/
def drop (node : Nat) (key : Key) (c : CAWOLFU V) : Option (CAWOLFU V) := do
  let (ends, mem) ← LinkedList.remove node c.toEnds c.mem
  some
    { c with
      toEnds := ends
      items := c.items.erase key
      length := c.length - 1
      mem := modify mem node fun _ => blank
      pool := c.pool.put node }

/-! ## The calls -/

def evict (c : CAWOLFU V) : Option (CAWOLFU V × Option Key) :=
  if c.cap = 0 ∨ c.length = 0 then some (c, none)
  else
    match c.tail with
    | none => some (c, none)
    | some node => do
        let key := (c.mem node).key
        some (← c.drop node key, some key)

/-- The insertion in `Set`, of a node from the pool. -/
def insertNew (key : Key) (value : Option V) (pick : Option Nat) (c : CAWOLFU V) : CAWOLFU V :=
  let (node, pool) := c.pool.get pick
  let c :=
    { c with
      pool
      mem := modify c.mem node fun n => { n with key, value := { value, count := 1 } }
      items := c.items.insert key node }.addToFront node
  { c with length := c.length + 1 }

def set (key : Key) (value : Option V) (pick : Option Nat) (c : CAWOLFU V) :
    Option (CAWOLFU V) :=
  if c.cap = 0 then some c
  else
    match c.items.lookup key with
    | some node =>
        let touch := fun n : CAWOLFUNode V => { value, count := n.bump }
        some ({ c with mem := setValue node touch c.mem }.moveToFront node)
    | none =>
        if c.length = c.cap then
          match c.tail with
          | none => some c
          | some evicted => do
              let evictedKey := (c.mem evicted).key
              let c ← c.drop evicted evictedKey
              if evictedKey = key then some c else some (c.insertNew key value pick)
        else some (c.insertNew key value pick)

def get (key : Key) (c : CAWOLFU V) : CAWOLFU V × Option (Option V) :=
  match c.items.lookup key with
  | none => (c, none)
  | some node =>
      let touch := fun n : CAWOLFUNode V => { n with count := n.bump }
      let c := { c with mem := setValue node touch c.mem }.moveToFront node
      (c, some (c.mem node).value.value)

def delete (key : Key) (c : CAWOLFU V) : Option (CAWOLFU V) :=
  match c.items.lookup key with
  | none => some c
  | some node => c.drop node key

def exec (c : CAWOLFU V) (call : PooledCall V) : Option (CAWOLFU V × Reply V) :=
  match call.op with
  | .set key value => do some (← c.set key value call.pick, .done)
  | .get key => some ((c.get key).1, .found (c.get key).2)
  | .delete key => do some (← c.delete key, .done)
  | .evict => do
      let (c, key) ← c.evict
      some (c, .victim key)

/-! ## The list stays a list -/

variable {c : CAWOLFU V} {ps : List Nat} {node : Nat}

theorem moveToFront_eq (h : IsList c.mem c.toEnds ps) (hnode : node ∈ ps)
    (hhead : c.head ≠ some node) :
    c.moveToFront node = { c with toStore := c.toStore.promote node } := by
  have hself := h.prev_ne_self hnode
  rw [moveToFront, if_neg hhead, Store.promote, pushFront_unlink]
  by_cases htail : c.tail = some node
  · simp [Ends.drop, hhead, htail, hself]
  · simp [Ends.drop, hhead, htail, hself]

/-- The links a node has from the pool are overwritten. -/
theorem insertNew_eq (key : Key) (value : Option V) (pick : Option Nat) (c : CAWOLFU V) :
    c.insertNew key value pick =
      { c with
        toStore := c.toStore.add pick key { value, count := 1 }
        length := c.length + 1 } := by
  rw [insertNew, Store.add]
  rcases c.pool.get pick with ⟨node, pool⟩
  simp only [addToFront, pushFront]
  congr 3
  funext q
  by_cases hq : q = node
  · subst hq
    ext1 <;> simp
  · ext1 <;> simp [hq, modify_ne]

theorem drop_eq (h : IsList c.mem c.toEnds ps) (hnode : node ∈ ps) :
    c.drop node (c.mem node).key =
      some { c with toStore := c.toStore.discard blank node, length := c.length - 1 } := by
  rw [drop, h.remove_eq hnode]
  rfl

theorem value_moveToFront (node : Nat) (c : CAWOLFU V) (q : Nat) :
    ((c.moveToFront node).mem q).value = (c.mem q).value := by
  rw [moveToFront]
  split
  · rfl
  · split <;> simp

/-! ## Refinement -/

structure Refines (capacity : Nat) (c : CAWOLFU V) (l : List (Σ _ : Key, CAWOLFUNode V)) :
    Prop where
  cap_eq : c.cap = capacity
  stores : c.Stores l
  length_eq : c.length = l.length
  length_le : l.length ≤ capacity

variable {capacity : Nat} {l : List (Σ _ : Key, CAWOLFUNode V)}

theorem moveToFront_refines {key : Key} (f : CAWOLFUNode V → CAWOLFUNode V)
    (h : c.Refines capacity l) (hkey : c.items.lookup key = some node) :
    ({ c with mem := setValue node f c.mem }.moveToFront node).Refines capacity
      (⟨key, f (c.mem node).value⟩ :: l.kerase key) := by
  have hmem : key ∈ l.keys := by
    rw [h.stores.mem_keys, ← AList.lookup_isSome, hkey]
    rfl
  have hlen : (⟨key, f (c.mem node).value⟩ :: l.kerase key).length = l.length :=
    RecencyList.length_kerase_of_mem hmem
  by_cases hhead : c.head = some node
  · rw [moveToFront, if_pos hhead]
    exact ⟨h.cap_eq, h.stores.update_head hkey hhead f, by rw [hlen]; exact h.length_eq,
      hlen.trans_le h.length_le⟩
  · obtain ⟨ps, hat, -⟩ := h.stores
    have hnode := ((hat.index key node).mp hkey).1
    have hlist : IsList ({ c with mem := setValue node f c.mem } : CAWOLFU V).mem c.toEnds ps :=
      (hat.toHolds.setValue f).toIsList
    rw [moveToFront_eq hlist hnode hhead]
    exact ⟨h.cap_eq, h.stores.promote hkey f, by rw [hlen]; exact h.length_eq,
      hlen.trans_le h.length_le⟩

theorem get_refines (h : c.Refines capacity l) (key : Key) :
    (c.get key).1.Refines capacity (RecencyList.get key CAWOLFUNode.accessed l).1 ∧
      (c.get key).2 =
        (RecencyList.get key CAWOLFUNode.accessed l).2.map CAWOLFUNode.value := by
  have hlookup := h.stores.dlookup (k := key)
  rw [get]
  cases hkey : c.items.lookup key with
  | none =>
      rw [hkey, Option.map_none] at hlookup
      rw [RecencyList.get_of_notMem _ hlookup]
      exact ⟨h, rfl⟩
  | some node =>
      rw [hkey, Option.map_some] at hlookup
      rw [RecencyList.get_of_mem _ hlookup]
      refine ⟨moveToFront_refines _ h hkey, ?_⟩
      simp only [value_moveToFront, setValue_value, if_pos]
      rfl

theorem drop_refines {key : Key} (h : c.Refines capacity l)
    (hkey : c.items.lookup key = some node) :
    ∃ c', c.drop node key = some c' ∧ c'.Refines capacity (l.kerase key) := by
  obtain ⟨ps, hat, -⟩ := h.stores
  have hmem : key ∈ l.keys := by
    rw [h.stores.mem_keys, ← AList.lookup_isSome, hkey]
    rfl
  have hlen := RecencyList.length_kerase_of_mem hmem
  have hstores := h.stores.discard hkey blank
  obtain ⟨hnode, rfl⟩ := (hat.index key node).mp hkey
  refine ⟨_, drop_eq hat.toIsList hnode, h.cap_eq, hstores, ?_, ?_⟩
  · have := h.length_eq
    show c.length - 1 = _
    omega
  · have := h.length_le
    omega

theorem drop_tail_refines (h : c.Refines capacity l) (htail : c.tail = some node) :
    ∃ c', c.drop node (c.mem node).key = some c' ∧ c'.Refines capacity l.dropLast := by
  obtain ⟨ps, hat, -⟩ := h.stores
  have hlast := h.stores.tail
  rw [htail, Option.map_some] at hlast
  have hpos := List.length_pos_of_mem (List.mem_of_getLast? hlast.symm)
  have hnode : node ∈ ps := List.mem_of_getLast? (hat.tail.symm.trans htail)
  refine ⟨_, drop_eq hat.toIsList hnode, h.cap_eq, h.stores.discard_tail htail blank, ?_, ?_⟩
  · have := h.length_eq
    show c.length - 1 = _
    rw [List.length_dropLast]
    omega
  · rw [List.length_dropLast]
    have := h.length_le
    omega

theorem delete_refines (h : c.Refines capacity l) (key : Key) :
    ∃ c', c.delete key = some c' ∧ c'.Refines capacity (RecencyList.delete key l) := by
  rw [delete, RecencyList.delete]
  cases hkey : c.items.lookup key with
  | none =>
      have hmem : key ∉ l.keys := by
        rw [h.stores.mem_keys, ← AList.lookup_eq_none]
        exact hkey
      rw [List.kerase_of_notMem_keys hmem]
      exact ⟨c, rfl, h⟩
  | some node => exact drop_refines h hkey

theorem Refines.eq_nil (h : c.Refines capacity l) (hzero : c.cap = 0) : l = [] := by
  have hlen := h.length_le
  rw [← h.cap_eq, hzero] at hlen
  exact List.eq_nil_of_length_eq_zero (Nat.le_zero.mp hlen)

theorem evict_refines (h : c.Refines capacity l) :
    ∃ c', c.evict = some (c', (RecencyList.evict l).2) ∧
      c'.Refines capacity (RecencyList.evict l).1 := by
  have hlast := h.stores.tail
  rw [evict, RecencyList.evict]
  split
  · rename_i hzero
    have hnil : l = [] := by
      rcases hzero with hzero | hzero
      · exact h.eq_nil hzero
      · have := h.length_eq
        exact List.eq_nil_of_length_eq_zero (by omega)
    subst hnil
    exact ⟨c, rfl, h⟩
  · cases htail : c.tail with
    | none =>
        rw [htail, Option.map_none, eq_comm, List.getLast?_eq_none_iff] at hlast
        subst hlast
        exact ⟨c, rfl, h⟩
    | some node =>
        rw [htail, Option.map_some] at hlast
        obtain ⟨c', hdrop, hrefines⟩ := drop_tail_refines h htail
        refine ⟨c', ?_, hrefines⟩
        rw [← hlast]
        simp [hdrop, entry]

theorem insertNew_refines {key : Key} (h : c.Refines capacity l) (hkey : key ∉ l.keys)
    (hroom : l.length < capacity) (value : Option V) (pick : Option Nat) :
    (c.insertNew key value pick).Refines capacity (⟨key, { value, count := 1 }⟩ :: l) := by
  rw [insertNew_eq]
  refine ⟨h.cap_eq, h.stores.add (mt h.stores.mem_keys.mpr hkey) pick _, ?_, hroom⟩
  have := h.length_eq
  show c.length + 1 = _
  rw [List.length_cons]
  omega

/-- The key that is written was not in the map, so it is not the one evicted for it. -/
theorem set_refines (h : c.Refines capacity l) (key : Key) (value : Option V)
    (pick : Option Nat) :
    ∃ c', c.set key value pick = some c' ∧
      c'.Refines capacity (RecencyList.set capacity key (CAWOLFUNode.written value) l) := by
  have hlookup := h.stores.dlookup (k := key)
  rw [set]
  split
  · rename_i hzero
    have hnil := h.eq_nil hzero
    obtain rfl := h.cap_eq
    refine ⟨c, rfl, ?_⟩
    rw [RecencyList.set, hzero, List.take_zero, ← hnil]
    exact hzero ▸ h
  · rename_i hcap
    have hpos : 0 < capacity := Nat.pos_of_ne_zero (h.cap_eq ▸ hcap)
    cases hkey : c.items.lookup key with
    | some node =>
        rw [hkey, Option.map_some] at hlookup
        rw [RecencyList.set_of_mem _ hlookup h.length_le]
        exact ⟨_, rfl, moveToFront_refines _ h hkey⟩
    | none =>
        rw [hkey, Option.map_none] at hlookup
        have hmem := List.dlookup_eq_none.mp hlookup
        by_cases hfull : l.length = capacity
        · have hlen : c.length = c.cap := by rw [h.length_eq, h.cap_eq, hfull]
          have hlast := h.stores.tail
          rw [RecencyList.set_of_full _ hmem hfull hpos]
          simp only [hlen, if_true]
          cases htail : c.tail with
          | none =>
              rw [htail, Option.map_none, eq_comm, List.getLast?_eq_none_iff] at hlast
              subst hlast
              rw [List.length_nil] at hfull
              omega
          | some evicted =>
              rw [htail, Option.map_some] at hlast
              obtain ⟨c', hdrop, hrefines⟩ := drop_tail_refines h htail
              have hne : (c.mem evicted).key ≠ key := by
                intro heq
                exact hmem (heq ▸ List.mem_keys_of_mem (List.mem_of_getLast? hlast.symm))
              refine ⟨_, by simp [hdrop, hne], insertNew_refines hrefines ?_ ?_ value pick⟩
              · exact fun hk => hmem (((List.dropLast_sublist l).map Sigma.fst).subset hk)
              · rw [List.length_dropLast]
                omega
        · have hlen : c.length ≠ c.cap := by
            rw [h.length_eq, h.cap_eq]
            omega
          have hlt := Nat.lt_of_le_of_ne h.length_le hfull
          rw [RecencyList.set_of_room _ hmem hlt]
          simp only [hlen, if_false]
          exact ⟨_, rfl, insertNew_refines h hmem hlt value pick⟩

theorem exec_refines (h : c.Refines capacity l) (call : PooledCall V) :
    ∃ c' l' r, c.exec call = some (c', r) ∧
      call.op.onCountedList capacity l = some (l', r) ∧ c'.Refines capacity l' := by
  rcases call with ⟨op, pick⟩
  cases op with
  | set key value =>
      obtain ⟨c', hset, hrefines⟩ := set_refines h key value pick
      exact ⟨c', _, _, by simp [exec, hset], rfl, hrefines⟩
  | get key =>
      obtain ⟨hget, hvalue⟩ := get_refines h key
      exact ⟨_, _, _, rfl, by rw [hvalue]; rfl, hget⟩
  | delete key =>
      obtain ⟨c', hdelete, hrefines⟩ := delete_refines h key
      exact ⟨c', _, _, by simp [exec, hdelete], rfl, hrefines⟩
  | evict =>
      obtain ⟨c', hevict, hrefines⟩ := evict_refines h
      exact ⟨c', _, _, by simp [exec, hevict], rfl, hrefines⟩

theorem new_refines {capacity : Int} (h : newCAWOLFU capacity = .ok c) :
    c.Refines capacity.toNat [] := by
  rw [newCAWOLFU] at h
  split at h
  · cases h
  · obtain rfl := Except.ok.inj h
    exact ⟨rfl, Store.stores_empty _, rfl, Nat.zero_le _⟩

/-- The recency list kept by CAWOLFU, without the counts. -/
def RefinesRecency (capacity : Nat) (c : CAWOLFU V) (l : List (Σ _ : Key, Option V)) : Prop :=
  ∃ counted, c.Refines capacity counted ∧ RecencyList.mapValues CAWOLFUNode.value counted = l

theorem exec_refinesRecency {l : List (Σ _ : Key, Option V)} (h : c.RefinesRecency capacity l)
    (call : PooledCall V) :
    ∃ c' l' r, c.exec call = some (c', r) ∧
      call.op.onRecencyList capacity l = some (l', r) ∧ c'.RefinesRecency capacity l' := by
  obtain ⟨counted, hrefines, rfl⟩ := h
  obtain ⟨c', counted', r, hexec, href, hrefines'⟩ := exec_refines hrefines call
  obtain ⟨l', r', hcounted, hrecency⟩ := call.op.onCountedList_sim capacity counted
  rw [href, Option.some.injEq, Prod.mk.injEq] at hcounted
  obtain ⟨rfl, rfl⟩ := hcounted
  exact ⟨c', _, r, hexec, hrecency, counted', hrefines', rfl⟩

theorem RefinesRecency.mem_keys {l : List (Σ _ : Key, Option V)} (h : c.RefinesRecency capacity l)
    {key : Key} : key ∈ l.keys ↔ key ∈ c.items := by
  obtain ⟨counted, hrefines, rfl⟩ := h
  rw [← hrefines.stores.mem_keys, RecencyList.keys_mapValues]

end CAWOLFU

/-- CAWOLFU and LRU of one capacity reply alike in every run, each with its own pool, and
hold the same keys after it. -/
theorem cawolfu_replies_as_lru {capacity : Int} {c : CAWOLFU V} {lru : LRU V}
    (hc : newCAWOLFU capacity = .ok c) (hlru : newLRUAlgorithm capacity = .ok lru)
    {calls calls' : List (PooledCall V)}
    (hops : calls.map PooledCall.op = calls'.map PooledCall.op) :
    ∃ c' lru' replies, Machines.run CAWOLFU.exec c calls = some (c', replies) ∧
      Machines.run LRU.exec lru calls' = some (lru', replies) ∧
      ∀ key, key ∈ c'.items ↔ key ∈ lru'.items := by
  have hempty : c.RefinesRecency capacity.toNat [] := ⟨[], CAWOLFU.new_refines hc, rfl⟩
  obtain ⟨c', l, replies, hrun, href, h⟩ :=
    Machines.run_sim (fun _ _ call h => CAWOLFU.exec_refinesRecency h call) hempty calls
  obtain ⟨lru', l', replies', hrun', href', h'⟩ :=
    Machines.run_sim (fun _ _ call h => LRU.exec_refines h call) (LRU.new_refines hlru) calls'
  rw [← hops, href, Option.some.injEq, Prod.mk.injEq] at href'
  obtain ⟨rfl, rfl⟩ := href'
  refine ⟨c', lru', replies, hrun, hrun', ?_⟩
  intro key
  rw [← h.mem_keys, h'.stores.mem_keys]

theorem cawolfu_replies_as_lru_reusing :
    ∃ (c : CAWOLFU Str) (lru : LRU Str), newCAWOLFU 2 = .ok c ∧ newLRUAlgorithm 2 = .ok lru ∧
      ∃ c' lru' replies, Machines.run CAWOLFU.exec c reusingCalls = some (c', replies) ∧
        Machines.run LRU.exec lru (reusingCalls.map fun call => ⟨call.op, none⟩) =
          some (lru', replies) ∧
        ∀ key, key ∈ c'.items ↔ key ∈ lru'.items :=
  ⟨_, _, rfl, rfl, @cawolfu_replies_as_lru Str 2 _ _ rfl rfl reusingCalls _ rfl⟩

end Pointers

/-! ## The counts -/

/-- The operation takes out the last entry of the list, if there is one. -/
def AlgOp.MakesRoom (capacity : Nat) (l : List (Σ _ : Key, CAWOLFUNode V)) : AlgOp V → Prop
  | .set key _ => key ∉ l.keys ∧ l.length = capacity
  | .evict => True
  | _ => False

/-- Where the operation makes room, the key used least recently is also used least often. -/
def AlgOp.LeastRecentIsLeastUsed (capacity : Nat) (l : List (Σ _ : Key, CAWOLFUNode V))
    (op : AlgOp V) : Prop :=
  op.MakesRoom capacity l → ∀ e, l.getLast? = some e → ∀ e' ∈ l, e.2.count ≤ e'.2.count

/-- The keys an operation other than `Delete` takes out. -/
theorem AlgOp.gone_iff {capacity : Nat} {l l' : List (Σ _ : Key, CAWOLFUNode V)} {r : Reply V}
    (hnd : l.NodupKeys) (hle : l.length ≤ capacity) {op : AlgOp V} (hop : ∀ k, op ≠ .delete k)
    (h : op.onCountedList capacity l = some (l', r)) {key : Key} (hkey : key ∈ l.keys) :
    key ∉ l'.keys ↔ op.MakesRoom capacity l ∧ ∃ e, l.getLast? = some e ∧ e.1 = key := by
  cases op with
  | set k value =>
      obtain ⟨rfl, -⟩ := Prod.mk.inj (Option.some.inj h)
      exact RecencyList.gone_of_set hnd hle _ hkey
  | get k =>
      obtain ⟨rfl, -⟩ := Prod.mk.inj (Option.some.inj h)
      rw [RecencyList.mem_keys_get]
      simp [MakesRoom, hkey]
  | delete k => exact absurd rfl (hop k)
  | evict =>
      obtain ⟨rfl, -⟩ := Prod.mk.inj (Option.some.inj h)
      rw [RecencyList.evict]
      cases he : l.getLast? with
      | none =>
          rw [List.getLast?_eq_none_iff] at he
          subst he
          cases hkey
      | some e =>
          rw [RecencyList.mem_keys_dropLast hnd he]
          simp [MakesRoom, hkey, eq_comm]

namespace Pointers

namespace CAWOLFU

def count (key : Key) (c : CAWOLFU V) : Int :=
  (c.items.lookup key).elim 0 fun node => (c.mem node).value.count

/-- The key that an `Evict` or a `Set` takes out has the smallest count of all keys. -/
def RemovesLeastUsed (c : CAWOLFU V) (call : PooledCall V) : Prop :=
  ∀ c' r, c.exec call = some (c', r) → (∀ key, call.op ≠ .delete key) →
    ∀ key ∈ c.items, key ∉ c'.items → ∀ other ∈ c.items, c.count key ≤ c.count other

variable {c : CAWOLFU V} {capacity : Nat} {l : List (Σ _ : Key, CAWOLFUNode V)}

theorem Refines.count_eq (h : c.Refines capacity l) {e : Σ _ : Key, CAWOLFUNode V} (he : e ∈ l) :
    c.count e.1 = e.2.count := by
  have hlookup := h.stores.dlookup (k := e.1)
  rw [List.mem_dlookup h.stores.nodupKeys he] at hlookup
  obtain ⟨node, hnode, hvalue⟩ := Option.map_eq_some_iff.mp hlookup.symm
  rw [count, hnode, ← hvalue]
  rfl

theorem removesLeastUsed_iff (h : c.Refines capacity l) (call : PooledCall V) :
    c.RemovesLeastUsed call ↔ call.op.LeastRecentIsLeastUsed capacity l := by
  obtain ⟨c', l', r, hexec, href, h'⟩ := exec_refines h call
  constructor
  · intro hleast hroom e he e' he'
    have hmem := List.mem_of_getLast? he
    have hop : ∀ key, call.op ≠ .delete key := by
      intro key heq
      rw [heq] at hroom
      exact hroom
    have hgone := (AlgOp.gone_iff h.stores.nodupKeys h.length_le hop href
      (List.mem_keys_of_mem hmem)).mpr ⟨hroom, e, he, rfl⟩
    rw [← h.count_eq hmem, ← h.count_eq he']
    refine hleast c' r hexec hop e.1 ?_ ?_ e'.1 ?_
    · exact h.stores.mem_keys.mp (List.mem_keys_of_mem hmem)
    · exact mt h'.stores.mem_keys.mpr hgone
    · exact h.stores.mem_keys.mp (List.mem_keys_of_mem he')
  · intro hleast c₁ r₁ hexec₁ hop key hkey hgone other hother
    rw [hexec] at hexec₁
    obtain ⟨rfl, -⟩ := Prod.mk.inj (Option.some.inj hexec₁)
    have hgone' := (AlgOp.gone_iff h.stores.nodupKeys h.length_le hop href
      (h.stores.mem_keys.mpr hkey)).mp (mt h'.stores.mem_keys.mp hgone)
    obtain ⟨hroom, e, he, rfl⟩ := hgone'
    obtain ⟨e', he', rfl⟩ := List.mem_map.mp (h.stores.mem_keys.mpr hother)
    rw [h.count_eq (List.mem_of_getLast? he), h.count_eq he']
    exact hleast hroom e he e' he'

end CAWOLFU

/-- The keys that CAWOLFU takes out in a run are those with the smallest counts exactly when
room is made only where the key used least recently has the smallest count. -/
theorem cawolfu_removes_least_used_iff {capacity : Int} {c : CAWOLFU V}
    (hc : newCAWOLFU capacity = .ok c) (calls : List (PooledCall V)) :
    Machines.Along CAWOLFU.exec CAWOLFU.RemovesLeastUsed c calls ↔
      Machines.Along (AlgOp.onCountedList capacity.toNat)
        (AlgOp.LeastRecentIsLeastUsed capacity.toNat) [] (calls.map PooledCall.op) :=
  Machines.along_sim (fun _ _ call h => CAWOLFU.exec_refines h call)
    (fun _ _ call h => CAWOLFU.removesLeastUsed_iff h call) (CAWOLFU.new_refines hc) calls

/-- The key used least recently is used least, and goes for a third one. -/
theorem cawolfu_removes_least_used_idleKey :
    ∃ c : CAWOLFU Str, newCAWOLFU 2 = .ok c ∧
      Machines.Along CAWOLFU.exec CAWOLFU.RemovesLeastUsed c
        [⟨.set [97] (some [1]), none⟩, ⟨.set [98] (some [2]), none⟩, ⟨.get [98], none⟩,
          ⟨.set [99] (some [3]), none⟩] := by
  refine ⟨_, rfl, (@cawolfu_removes_least_used_iff Str 2 _ rfl _).mpr ?_⟩
  refine ⟨(fun _ _ he => nomatch he), _, _, rfl, ?_, _, _, rfl, ?_, _, _, rfl, ?_, _, _, rfl,
    trivial⟩
  all_goals
    intro _ e he
    cases he
    decide

def busyKeyCalls : List (PooledCall Str) :=
  [⟨.set [97] (some [1]), none⟩, ⟨.get [97], none⟩, ⟨.set [98] (some [2]), none⟩, ⟨.evict, none⟩]

/-- The key used twice goes before the one used once. -/
theorem cawolfu_removes_busy_key :
    ∃ c : CAWOLFU Str, newCAWOLFU 2 = .ok c ∧
      ¬ Machines.Along CAWOLFU.exec CAWOLFU.RemovesLeastUsed c busyKeyCalls := by
  refine ⟨_, rfl, ?_⟩
  rintro ⟨-, c₁, _, h₁, -, c₂, _, h₂, -, c₃, _, h₃, hleast, -⟩
  cases h₁
  cases h₂
  cases h₃
  have hcount := hleast _ _ rfl (fun key h => by cases h) [97] (by decide) (by decide) [98]
    (by decide)
  revert hcount
  decide

end Pointers

end HyperCache
