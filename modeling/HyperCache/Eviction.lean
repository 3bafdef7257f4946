/-
The eviction algorithms and the sharded wrapper around them.

An algorithm keeps a map from keys to nodes and an order on the nodes, a linked
list or a heap, that always hold the same nodes.  LRU, LFU and CAWOLFU are tables
of such nodes and differ in what a node holds and in the node that goes first.
Clock keeps its slots and a hand, and may refuse to evict.  `Sharded` hashes keys
to instances of one algorithm and evicts from them in turn.
-/
import HyperCache.Lib.Table
import HyperCache.Lib.Masks
import HyperCache.Expiration

namespace HyperCache

open Tables Pointwise

variable {V : Type}

/-- The whole of `IAlgorithm`.  Values are of type `any`, which may be nil. -/
class EvictionAlgorithm (V : outParam Type) (A : Type) extends IAlgorithm A where
  evict : A → A × Option Key
  set : Key → Option V → A → A
  get : Key → A → A × Option (Option V)

/-! ## LRU -/

structure LRU (V : Type) where
  table : Table Key (Option V)

namespace LRU

def get (key : Key) (lru : LRU V) : LRU V × Option (Option V) :=
  let (table, value) := lru.table.get id key
  (⟨table⟩, value)

def set (key : Key) (value : Option V) (lru : LRU V) : LRU V :=
  ⟨lru.table.set .last (fun _ => value) value key⟩

def evict (lru : LRU V) : LRU V × Option Key :=
  let (table, key) := lru.table.evict .last
  (⟨table⟩, key)

def delete (key : Key) (lru : LRU V) : LRU V := ⟨lru.table.erase key⟩

end LRU

/-! ## LFU -/

/-- `Node` of the frequency heap. -/
structure LFUNode (V : Type) where
  value : Option V
  count : Nat
  last : UInt64

/-- `FrequencyHeap.Less`. -/
def LFUNode.rank (node : LFUNode V) : ℕ ×ₗ UInt64 := toLex (node.count, node.last)

structure LFUAlgorithm (V : Type) where
  table : Table Key (LFUNode V)
  seq : UInt64 := 0

namespace LFUAlgorithm

def internalEvict (l : LFUAlgorithm V) : LFUAlgorithm V × Option Key :=
  let (table, key) := l.table.evict (.least LFUNode.rank)
  ({ l with table }, key)

def evict (l : LFUAlgorithm V) : LFUAlgorithm V × Option Key :=
  if l.table.capacity = 0 then (l, none) else l.internalEvict

def set (key : Key) (value : Option V) (l : LFUAlgorithm V) : LFUAlgorithm V :=
  if l.table.capacity = 0 then l
  else
    let seq := l.seq + 1
    { table := l.table.set (.least LFUNode.rank)
        (fun node => { value, count := node.count + 1, last := seq })
        { value, count := 1, last := seq } key
      seq }

def get (key : Key) (l : LFUAlgorithm V) : LFUAlgorithm V × Option (Option V) :=
  let seq := l.seq + 1
  match l.table.get (fun node => { node with count := node.count + 1, last := seq }) key with
  | (_, none) => (l, none)
  | (table, some node) => (⟨table, seq⟩, some node.value)

def delete (key : Key) (l : LFUAlgorithm V) : LFUAlgorithm V :=
  { l with table := l.table.erase key }

end LFUAlgorithm

/-! ## CAWOLFU -/

structure CAWOLFUNode (V : Type) where
  value : Option V
  count : Int

/-- `count++`, which wraps. -/
def CAWOLFUNode.bump (node : CAWOLFUNode V) : Int := (node.count + 1).bmod 0x10000000000000000

structure CAWOLFU (V : Type) where
  table : Table Key (CAWOLFUNode V)

namespace CAWOLFU

def evict (c : CAWOLFU V) : CAWOLFU V × Option Key :=
  let (table, key) := c.table.evict .last
  (⟨table⟩, key)

def set (key : Key) (value : Option V) (c : CAWOLFU V) : CAWOLFU V :=
  ⟨c.table.set .last (fun node => { value, count := node.bump }) { value, count := 1 } key⟩

def get (key : Key) (c : CAWOLFU V) : CAWOLFU V × Option (Option V) :=
  let (table, node) := c.table.get (fun node => { node with count := node.bump }) key
  (⟨table⟩, node.map CAWOLFUNode.value)

def delete (key : Key) (c : CAWOLFU V) : CAWOLFU V := ⟨c.table.erase key⟩

end CAWOLFU

/-! ## Clock -/

structure ClockItem (V : Type) where
  key : Key
  value : Option V
  accessCount : UInt32

structure ClockAlgorithm (V : Type) where
  items : Nat → Option (ClockItem V) := fun _ => none
  keys : AList (fun _ : Key => Nat) := ∅
  capacity : Nat
  hand : Nat := 0

namespace ClockAlgorithm

def advanceHand (c : ClockAlgorithm V) : ClockAlgorithm V :=
  { c with hand := (c.hand + 1) % c.capacity }

def setSlot (item : Option (ClockItem V)) (c : ClockAlgorithm V) : ClockAlgorithm V :=
  { c with items := modify c.items c.hand (fun _ => item) }

/-- The sweep of `Evict`, with the number of slots left to look at. -/
def sweep : Nat → ClockAlgorithm V → ClockAlgorithm V × Option Key
  | 0, c => (c, none)
  | n + 1, c =>
      match c.items c.hand with
      | none => sweep n c.advanceHand
      | some item =>
          if item.accessCount > 0 then
            sweep n (c.setSlot (some
              { item with accessCount := item.accessCount - 1 })).advanceHand
          else ({ c.setSlot none with keys := c.keys.erase item.key }, some item.key)

def evict (c : ClockAlgorithm V) : ClockAlgorithm V × Option Key :=
  if c.capacity = 0 then (c, none) else c.sweep c.capacity

def insertHere (key : Key) (value : Option V) (c : ClockAlgorithm V) : ClockAlgorithm V :=
  { c.setSlot (some ⟨key, value, 1⟩) with keys := c.keys.insert key c.hand }

/-- `tryInsertInFreeSlot`, with the number of slots left to look at. -/
def tryInsertInFreeSlot (key : Key) (value : Option V) :
    Nat → ClockAlgorithm V → ClockAlgorithm V × Bool
  | 0, c => (c, false)
  | n + 1, c =>
      match c.items c.hand with
      | none => (c.insertHere key value, true)
      | some _ => tryInsertInFreeSlot key value n c.advanceHand

/-- `evictAndInsert`, with the number of slots left to look at. -/
def evictAndInsert (key : Key) (value : Option V) :
    Nat → ClockAlgorithm V → ClockAlgorithm V
  | 0, c => c
  | n + 1, c =>
      match c.items c.hand with
      | none => evictAndInsert key value n c.advanceHand
      | some item =>
          if item.accessCount > 0 then
            evictAndInsert key value n (c.setSlot (some
              { item with accessCount := item.accessCount - 1 })).advanceHand
          else
            ({ c with keys := c.keys.erase item.key }.insertHere key value).advanceHand

def set (key : Key) (value : Option V) (c : ClockAlgorithm V) : ClockAlgorithm V :=
  if c.capacity = 0 then c
  else
    match c.keys.lookup key with
    | some idx =>
        { c with items := modify c.items idx (Option.map fun item =>
            { item with value, accessCount := item.accessCount + 1 }) }
    | none =>
        match c.tryInsertInFreeSlot key value c.capacity with
        | (c, true) => c.advanceHand
        | (c, false) => c.evictAndInsert key value c.capacity

def get (key : Key) (c : ClockAlgorithm V) : ClockAlgorithm V × Option (Option V) :=
  match c.keys.lookup key with
  | none => (c, none)
  | some idx =>
      ({ c with items := modify c.items idx (Option.map fun item =>
          { item with accessCount := item.accessCount + 1 }) },
        (c.items idx).map ClockItem.value)

def delete (key : Key) (c : ClockAlgorithm V) : ClockAlgorithm V :=
  match c.keys.lookup key with
  | none => c
  | some idx =>
      { c with keys := c.keys.erase key, items := modify c.items idx (fun _ => none) }

end ClockAlgorithm

/-! ## The registry -/

/-- An instance of one of the registered algorithms. -/
inductive Algorithm (V : Type) where
  | lru (a : LRU V)
  | clock (a : ClockAlgorithm V)
  | lfu (a : LFUAlgorithm V)
  | cawolfu (a : CAWOLFU V)

namespace Algorithm

def evict : Algorithm V → Algorithm V × Option Key
  | .lru a => (.lru a.evict.1, a.evict.2)
  | .clock a => (.clock a.evict.1, a.evict.2)
  | .lfu a => (.lfu a.evict.1, a.evict.2)
  | .cawolfu a => (.cawolfu a.evict.1, a.evict.2)

def set (key : Key) (value : Option V) : Algorithm V → Algorithm V
  | .lru a => .lru (a.set key value)
  | .clock a => .clock (a.set key value)
  | .lfu a => .lfu (a.set key value)
  | .cawolfu a => .cawolfu (a.set key value)

def get (key : Key) : Algorithm V → Algorithm V × Option (Option V)
  | .lru a => (.lru (a.get key).1, (a.get key).2)
  | .clock a => (.clock (a.get key).1, (a.get key).2)
  | .lfu a => (.lfu (a.get key).1, (a.get key).2)
  | .cawolfu a => (.cawolfu (a.get key).1, (a.get key).2)

def delete (key : Key) : Algorithm V → Algorithm V
  | .lru a => .lru (a.delete key)
  | .clock a => .clock (a.delete key)
  | .lfu a => .lfu (a.delete key)
  | .cawolfu a => .cawolfu (a.delete key)

instance : EvictionAlgorithm V (Algorithm V) where
  delete := delete
  evict := evict
  set := set
  get := get

/-- The constructors of `getDefaultAlgorithms`. -/
def create (capacity : Nat) : String → Option (Algorithm V)
  | "lru" => some (.lru ⟨.new capacity⟩)
  | "clock" => some (.clock { capacity })
  | "lfu" => some (.lfu { table := .new capacity })
  | "cawolfu" => some (.cawolfu ⟨.new capacity⟩)
  | _ => none

end Algorithm

def newEvictionAlgorithm (name : String) (capacity : Int) : Except Err (Algorithm V) :=
  if name = "" then .error (.wrapped .paramCannotBeEmpty "algorithmName")
  else if capacity < 0 then .error (.wrapped .invalidCapacity "capacity")
  else
    match Algorithm.create capacity.toNat name with
    | none => .error (.wrapped .algorithmNotFound name)
    | some a => .ok a

/-! ## Sharding -/

/-- `Hash`: the two halves of the 64-bit hash, folded. -/
def hash (sum64 : Str → UInt64) (key : Key) : UInt32 :=
  let h := sum64 key
  ((h ^^^ (h >>> 32)) &&& 0xFFFFFFFF).toUInt32

def maxUint32 : Nat := 0xFFFFFFFF

/-- What the shards use of libraries: the hash of a key, and `converters.ToUint32` on the numbers
that are not negative, which refuses those that do not fit. -/
structure ShardLib where
  sum64 : Str → UInt64
  toUint32 : Nat → Option UInt32
  toUint32_fits : ∀ n ≤ maxUint32, toUint32 n = some (UInt32.ofNat n)
  toUint32_overflow : ∀ n > maxUint32, toUint32 n = none

namespace ShardLib

theorem toUint32_some {lib : ShardLib} {n : Nat} {m : UInt32} (h : lib.toUint32 n = some m) :
    n ≤ maxUint32 ∧ m.toNat = n := by
  by_cases hfits : n ≤ maxUint32
  · rw [lib.toUint32_fits n hfits] at h
    cases h
    exact ⟨hfits, UInt32.toNat_ofNat_of_lt (Nat.lt_succ_of_le hfits)⟩
  · rw [lib.toUint32_overflow n (Nat.lt_of_not_le hfits)] at h
    cases h

/-- The conversion that compares first. -/
def checked (sum64 : Str → UInt64) : ShardLib where
  sum64 := sum64
  toUint32 n := if n ≤ maxUint32 then some (UInt32.ofNat n) else none
  toUint32_fits := fun _ h => if_pos h
  toUint32_overflow := fun _ h => if_neg (Nat.not_le_of_gt h)

end ShardLib

/-- `Sharded`.  `shards` is read at the indices up to `mask` only. -/
structure Sharded (A : Type) where
  lib : ShardLib
  shards : UInt32 → A
  shardCount : Nat
  mask : UInt32
  evictCursor : UInt32 := 0
  powerOfTwo : shardCount = 2 ^ shardCount.log2
  mask_eq : mask.toNat = shardCount - 1

namespace Sharded

variable {A : Type}

def shardFor (key : Key) (s : Sharded A) : UInt32 := hash s.lib.sum64 key &&& s.mask

def setShard (i : UInt32) (a : A) (s : Sharded A) : Sharded A :=
  { s with shards := Function.update s.shards i a }

variable [EvictionAlgorithm V A]

def set (key : Key) (value : Option V) (s : Sharded A) : Sharded A :=
  s.setShard (s.shardFor key) (EvictionAlgorithm.set key value (s.shards (s.shardFor key)))

def get (key : Key) (s : Sharded A) : Sharded A × Option (Option V) :=
  let (a, value) := EvictionAlgorithm.get key (s.shards (s.shardFor key))
  (s.setShard (s.shardFor key) a, value)

def delete (key : Key) (s : Sharded A) : Sharded A :=
  s.setShard (s.shardFor key) (IAlgorithm.delete key (s.shards (s.shardFor key)))

/-- The loop of `Evict`, with the number of shards left to try. -/
def evictFrom (start : UInt32) : Nat → UInt32 → Sharded A → Sharded A × Option Key
  | 0, _, s => (s, none)
  | n + 1, i, s =>
      let idx := (start + i) &&& s.mask
      match EvictionAlgorithm.evict (s.shards idx) with
      | (a, some key) => (s.setShard idx a, some key)
      | (a, none) => evictFrom start n (i + 1) (s.setShard idx a)

/-- `Evict`, which converts the number of shards to 32 bits first. -/
def evict (s : Sharded A) : Sharded A × Option Key :=
  match s.lib.toUint32 s.shardCount with
  | none => (s, none)
  | some n => evictFrom s.evictCursor n.toNat 0 { s with evictCursor := s.evictCursor + 1 }

theorem evict_eq (s : Sharded A) :
    s.evict = if s.shardCount > maxUint32 then (s, none)
      else evictFrom s.evictCursor s.shardCount 0 { s with evictCursor := s.evictCursor + 1 } := by
  rw [evict]
  split
  case h_1 hnone =>
    refine (if_pos (Nat.lt_of_not_le fun hfits => ?_)).symm
    rw [s.lib.toUint32_fits _ hfits] at hnone
    cases hnone
  case h_2 n hsome =>
    obtain ⟨hfits, hn⟩ := ShardLib.toUint32_some hsome
    rw [if_neg (Nat.not_lt.mpr hfits), hn]

instance : EvictionAlgorithm V (Sharded A) where
  delete := delete
  evict := evict
  set := set
  get := get

end Sharded

/-- The per-shard capacity, in 64-bit arithmetic. -/
def perShard (totalCapacity shardCount : Int) : Int :=
  ((totalCapacity + shardCount - 1).bmod 0x10000000000000000).tdiv shardCount

def newSharded (lib : ShardLib) (name : String) (totalCapacity shardCount : Int) :
    Except Err (Sharded (Algorithm V)) :=
  let n := shardCount.toNat
  if h : shardCount ≤ 0 ∨ n &&& (n - 1) ≠ 0 then
    .error (.wrapped .invalidCapacity
      s!"shardCount {shardCount} must be a positive power of two")
  else if totalCapacity < 0 then .error .invalidCapacity
  else
    match newEvictionAlgorithm name (perShard totalCapacity shardCount) with
    | .error e => .error (.wrapped e "shard 0")
    | .ok shard =>
        match hmask : lib.toUint32 (n - 1) with
        | none => .error (.wrapped .overflow s!"shardCount {shardCount}")
        | some mask =>
            .ok
              { lib
                shards := fun _ => shard
                shardCount := n
                mask
                powerOfTwo :=
                  Masks.eq_two_pow_of_and_pred (by omega) (by simpa using (not_or.mp h).2)
                mask_eq := (ShardLib.toUint32_some hmask).2 }

/-- The algorithm of a cache: one instance, or a sharded one. -/
inductive Evictor (V : Type) where
  | single (a : Algorithm V)
  | sharded (s : Sharded (Algorithm V))

namespace Evictor

def evict : Evictor V → Evictor V × Option Key
  | .single a => (.single a.evict.1, a.evict.2)
  | .sharded s => (.sharded s.evict.1, s.evict.2)

def set (key : Key) (value : Option V) : Evictor V → Evictor V
  | .single a => .single (a.set key value)
  | .sharded s => .sharded (s.set key value)

def get (key : Key) : Evictor V → Evictor V × Option (Option V)
  | .single a => (.single (a.get key).1, (a.get key).2)
  | .sharded s => (.sharded (s.get key).1, (s.get key).2)

def delete (key : Key) : Evictor V → Evictor V
  | .single a => .single (a.delete key)
  | .sharded s => .sharded (s.delete key)

instance : EvictionAlgorithm V (Evictor V) where
  delete := delete
  evict := evict
  set := set
  get := get

end Evictor

end HyperCache
