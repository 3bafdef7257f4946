/-
The operations of a cache over its backend.

`Set` and the miss of `GetOrSet` size the item, take its size into the memory
account, store it, tell the eviction algorithm and, with an eviction interval of
zero, evict one item when the backend is over its capacity.  `Remove`, evictions
and expiration passes all go through the `Remove` of the expiration module.  A
read of an expired item asks for an expiration pass, which is an operation of its
own here.  Contexts are never cancelled.
-/
import Mathlib.Algebra.Order.Ring.Int
import HyperCache.Eviction

namespace HyperCache

/-- `Item.SetSize`, as far as it depends on the value: the encoded size, and nothing when the
value cannot be encoded.  A nil value can be, and a `Sizer` may report anything. -/
class SetSize (V : Type) where
  setSize : Option V → Option Int

instance : SetSize Str where
  setSize
    | some s => some s.length
    | none => some 1

variable {V A : Type}

namespace Backend

/-- `Set`.  An error comes with the size the item is left with: the in-memory backend puts a
refused item back into its pool, which clears it. -/
def set [SizedValue V] (net : Net) (item : Item V) :
    Backend V → Backend V × Option (Err × Int)
  | .inMemory b =>
      match item.valid with
      | some e => (.inMemory b, some (e, 0))
      | none => (.inMemory ⟨b.items.set item⟩, none)
  | .distMemory d =>
      let (w, err) := World.set d.cluster net d.self item d.world
      (.distMemory { d with world := w }, err.map (·, item.size))

def touch (net : Net) (key : Key) : Backend V → Backend V
  | .inMemory b => .inMemory ⟨(b.items.touch net.now key).1⟩
  | .distMemory d =>
      .distMemory { d with world := Pointwise.modify d.world d.self (fun st =>
        { st with shard := { st.shard with
          items := (st.shard.items.touch net.now key).1 } }) }

def count (b : Backend V) : Nat := b.stored.count

def clear : Backend V → Backend V
  | .inMemory b => .inMemory ⟨b.items.clear⟩
  | .distMemory d =>
      .distMemory { d with world := Pointwise.modify d.world d.self (fun st =>
        { st with shard := { st.shard with items := st.shard.items.clear } }) }

end Backend

/-- What the operations read of the configuration, with the capacity of the backend. -/
structure Settings where
  capacity : Int
  shouldEvict : Bool
  maxEvictionCount : Nat
  maxCacheSize : Int := 0

namespace Cache

variable [EvictionAlgorithm V A]

/-- `evictItem`, with the evicted key. -/
def evictItem (net : Net) (hc : Cache V A) : Cache V A × Option Key :=
  match EvictionAlgorithm.evict hc.evictionAlgorithm with
  | (a, none) => ({ hc with evictionAlgorithm := a }, none)
  | (a, some key) =>
      match ({ hc with evictionAlgorithm := a } : Cache V A).remove net [key] with
      | (hc, some _) => (hc, none)
      | (hc, none) => (hc, some key)

variable [SizedValue V] [SetSize V]

def set (st : Settings) (net : Net) (key : Key) (value : Option V) (expiration : Duration)
    (hc : Cache V A) : Cache V A × Option Err :=
  match SetSize.setSize value with
  | none => (hc, some .invalidSize)
  | some size =>
      let item : Item V := { key, value, expiration, lastAccess := net.now, size }
      let allocation := hc.memoryAllocation + size
      if st.maxCacheSize > 0 ∧ allocation > st.maxCacheSize then
        ({ hc with memoryAllocation := allocation - size }, some .cacheFull)
      else
        match hc.backend.set net item with
        | (backend, some (e, left)) =>
            ({ hc with backend, memoryAllocation := allocation - left }, some e)
        | (backend, none) =>
            let hc : Cache V A :=
              { backend
                memoryAllocation := allocation
                evictionAlgorithm := EvictionAlgorithm.set key value hc.evictionAlgorithm }
            if st.shouldEvict ∧ hc.backend.count > st.capacity then ((hc.evictItem net).1, none)
            else (hc, none)

def get (net : Net) (key : Key) (hc : Cache V A) : Cache V A × Option (Option V) :=
  match hc.backend.get net key with
  | (backend, none) => ({ hc with backend }, none)
  | (backend, some item) =>
      if item.expired net.now then ({ hc with backend }, none)
      else ({ hc with backend := backend.touch net key }, some item.value)

/-- `GetOrSet`, whose miss goes on as `Set` does. -/
def getOrSet (st : Settings) (net : Net) (key : Key) (value : Option V) (expiration : Duration)
    (hc : Cache V A) : Cache V A × Except Err (Option V) :=
  match hc.backend.get net key with
  | (backend, some item) =>
      if item.expired net.now then ({ hc with backend }, .error .keyExpired)
      else ({ hc with backend := backend.touch net key }, .ok item.value)
  | (backend, none) =>
      match ({ hc with backend } : Cache V A).set st net key value expiration with
      | (hc, some e) => (hc, .error e)
      | (hc, none) => (hc, .ok value)

def clear (s : ItemSorts V) (hc : Cache V A) : Cache V A × Option Err :=
  match hc.backend.list s [] with
  | .error e => (hc, some e)
  | .ok items =>
      ({ backend := hc.backend.clear
         memoryAllocation := 0
         evictionAlgorithm := items.foldl (fun a item => IAlgorithm.delete item.key a)
          hc.evictionAlgorithm }, none)

/-- The loop of `evictionLoop`, with the number of evictions it may still make. -/
def evictUpTo (st : Settings) (net : Net) : Nat → Cache V A → Cache V A × Option Err
  | 0, hc => (hc, none)
  | n + 1, hc =>
      if hc.backend.count > st.capacity then
        match EvictionAlgorithm.evict hc.evictionAlgorithm with
        | (a, none) => ({ hc with evictionAlgorithm := a }, none)
        | (a, some key) =>
            match ({ hc with evictionAlgorithm := a } : Cache V A).remove net [key] with
            | (hc, some e) => (hc, some e)
            | (hc, none) => evictUpTo st net n hc
      else (hc, none)

/-- The job `evictionLoop` enqueues. -/
def evictionLoop (st : Settings) (net : Net) (hc : Cache V A) : Cache V A × Option Err :=
  hc.evictUpTo st net st.maxEvictionCount

end Cache

/-! ## Runs -/

/-- An operation with the surroundings it runs in. -/
inductive CacheOp (V : Type) where
  | set (net : Net) (key : Key) (value : Option V) (expiration : Duration)
  | getOrSet (net : Net) (key : Key) (value : Option V) (expiration : Duration)
  | get (net : Net) (key : Key)
  | remove (net : Net) (keys : List Key)
  | clear (s : ItemSorts V)
  | evictionLoop (net : Net)
  | expirationLoop (s : ItemSorts V) (now : Time) (nets : Key → Net)

namespace CacheOp

variable [EvictionAlgorithm V A] [SizedValue V] [SetSize V]

/-- The cache after the operation and the error it returns. -/
def exec (st : Settings) (hc : Cache V A) : CacheOp V → Cache V A × Option Err
  | .set net key value expiration => hc.set st net key value expiration
  | .getOrSet net key value expiration =>
      match hc.getOrSet st net key value expiration with
      | (hc, .ok _) => (hc, none)
      | (hc, .error e) => (hc, some e)
  | .get net key => ((hc.get net key).1, none)
  | .remove net keys => hc.remove net keys
  | .clear s => hc.clear s
  | .evictionLoop net => hc.evictionLoop st net
  | .expirationLoop s now nets => hc.expirationLoop s now nets

def step (st : Settings) (hc : Cache V A) (op : CacheOp V) : Cache V A := (op.exec st hc).1

end CacheOp

/-! ## Over the in-memory backend -/

namespace ConcurrentMap

/-- The size of the item under a key. -/
def sizeAt (m : ConcurrentMap V) (k : Key) : Int := (m.get k).elim 0 Item.size

/-- Take those of the keys that are stored out of an eviction algorithm. -/
def untrack [IAlgorithm A] (m : ConcurrentMap V) (keys : List Key) (a : A) : A :=
  keys.foldl (fun a k => if (m.get k).isSome then IAlgorithm.delete k a else a) a

end ConcurrentMap

namespace Cache

/-- A read leaves the cache alone or touches the item it finds. -/
theorem get_cases (net : Net) (key : Key) {hc : Cache V A} {m : ConcurrentMap V}
    (hb : hc.backend = .inMemory ⟨m⟩) :
    (hc.get net key).1 = hc ∨ ∃ it, m.get key = some it ∧ (hc.get net key).1 =
      { hc with backend := .inMemory ⟨m.set (it.touch net.now)⟩ } := by
  have hget : hc.backend.get net key = (hc.backend, m.get key) := by
    rw [hb]
    rfl
  rw [get, hget]
  cases hit : m.get key with
  | none => exact Or.inl rfl
  | some it =>
      dsimp only
      split
      · exact Or.inl rfl
      · refine Or.inr ⟨it, rfl, ?_⟩
        rw [hb, Backend.touch, ConcurrentMap.touch, hit]

section

variable [IAlgorithm A]

theorem release_inMemory (net : Net) (m : ConcurrentMap V) (keys : List Key) (hc : Cache V A)
    (hb : hc.backend = .inMemory ⟨m⟩) :
    release net keys hc =
      { backend := .inMemory ⟨m⟩
        memoryAllocation := hc.memoryAllocation - (keys.map m.sizeAt).sum
        evictionAlgorithm := m.untrack keys hc.evictionAlgorithm } := by
  induction keys generalizing hc with
  | nil =>
      rw [release, List.map_nil, List.sum_nil, Int.sub_zero]
      exact congrArg (Cache.mk · _ _) hb
  | cons key rest ih =>
      have hget : hc.backend.get net key = (.inMemory ⟨m⟩, m.get key) := by
        rw [hb]
        rfl
      rw [release, hget, List.map_cons, List.sum_cons, ConcurrentMap.untrack, List.foldl_cons,
        ConcurrentMap.sizeAt]
      cases m.get key with
      | none =>
          dsimp only
          rw [ih _ rfl]
          simp [ConcurrentMap.untrack]
      | some item =>
          dsimp only
          rw [ih _ rfl]
          simp [ConcurrentMap.untrack, Int.sub_sub]

theorem remove_inMemory (net : Net) (m : ConcurrentMap V) (keys : List Key) {hc : Cache V A}
    (hb : hc.backend = .inMemory ⟨m⟩) :
    hc.remove net keys =
      ({ backend := .inMemory ⟨keys.foldl ConcurrentMap.remove m⟩
         memoryAllocation := hc.memoryAllocation - (keys.map m.sizeAt).sum
         evictionAlgorithm := m.untrack keys hc.evictionAlgorithm }, none) := by
  rw [remove, release_inMemory net m keys hc hb]
  rfl

end

variable [EvictionAlgorithm V A]

/-- An eviction finds nothing, or is a `Remove` of the key it finds. -/
theorem evictItem_cases (net : Net) (hc : Cache V A) {m : ConcurrentMap V}
    (hb : hc.backend = .inMemory ⟨m⟩) :
    ((EvictionAlgorithm.evict hc.evictionAlgorithm).2 = none ∧ (hc.evictItem net).1 =
        { hc with evictionAlgorithm := (EvictionAlgorithm.evict hc.evictionAlgorithm).1 }) ∨
      ∃ key, (EvictionAlgorithm.evict hc.evictionAlgorithm).2 = some key ∧
        (hc.evictItem net).1 =
          (({ hc with evictionAlgorithm := (EvictionAlgorithm.evict hc.evictionAlgorithm).1 } :
            Cache V A).remove net [key]).1 := by
  unfold evictItem
  generalize EvictionAlgorithm.evict hc.evictionAlgorithm = res
  obtain ⟨a, _ | key⟩ := res
  · exact Or.inl ⟨rfl, rfl⟩
  · refine Or.inr ⟨key, rfl, ?_⟩
    have hb' : ({ hc with evictionAlgorithm := a } : Cache V A).backend = .inMemory ⟨m⟩ := hb
    dsimp only
    rw [remove_inMemory net m [key] hb']

theorem backend_evictItem (net : Net) {hc : Cache V A} {m : ConcurrentMap V}
    (hb : hc.backend = .inMemory ⟨m⟩) {key : Key}
    (h : (EvictionAlgorithm.evict hc.evictionAlgorithm).2 = some key) :
    (hc.evictItem net).1.backend = .inMemory ⟨m.remove key⟩ := by
  rcases evictItem_cases net hc hb with ⟨hnone, -⟩ | ⟨key', hsome, hresult⟩
  · rw [hnone] at h
    cases h
  · rw [hsome, Option.some.injEq] at h
    subst h
    have hb' : ({ hc with evictionAlgorithm := (EvictionAlgorithm.evict hc.evictionAlgorithm).1 } :
      Cache V A).backend = .inMemory ⟨m⟩ := hb
    rw [hresult, remove_inMemory net m [key'] hb']
    rfl

/-- What every single `Remove` and every eviction keeps, the loops keep. -/
theorem evictUpTo_keeps {I : Cache V A → Prop} (hmem : ∀ hc, I hc → ∃ m, hc.backend =
    .inMemory ⟨m⟩) (st : Settings) (net : Net) (hevict : ∀ hc, I hc → I (hc.evictItem net).1)
    (n : Nat) {hc : Cache V A} (h : I hc) : I (hc.evictUpTo st net n).1 := by
  induction n generalizing hc with
  | zero => exact h
  | succ n ih =>
      have hone := hevict hc h
      obtain ⟨m, hb⟩ := hmem hc h
      rw [evictUpTo]
      split
      · unfold evictItem at hone
        generalize EvictionAlgorithm.evict hc.evictionAlgorithm = res at hone ⊢
        obtain ⟨a, _ | key⟩ := res
        · exact hone
        · have hb' : ({ hc with evictionAlgorithm := a } : Cache V A).backend = .inMemory ⟨m⟩ := hb
          dsimp only at hone ⊢
          rw [remove_inMemory net m [key] hb'] at hone ⊢
          exact ih hone
      · exact h

theorem expirationLoop_keeps {I : Cache V A → Prop} (s : ItemSorts V) (now : Time)
    (nets : Key → Net) (hremove : ∀ hc key, I hc → I (hc.remove (nets key) [key]).1)
    {hc : Cache V A} (h : I hc) : I (hc.expirationLoop s now nets).1 := by
  have hlisted : ∀ (items : List (Item V)) (hc : Cache V A), I hc →
      I (removeListed nets items hc).1 := by
    intro items
    induction items with
    | nil => exact fun hc h => h
    | cons item rest ih =>
        intro hc h
        have hone := hremove hc item.key h
        rw [removeListed]
        split
        · rename_i hc' e heq
          rw [heq] at hone
          exact hone
        · rename_i hc' heq
          rw [heq] at hone
          exact ih hc' hone
  rw [expirationLoop]
  split
  · exact h
  · exact hlisted _ hc h

theorem clear_inMemory (s : ItemSorts V) {hc : Cache V A} {m : ConcurrentMap V}
    (hb : hc.backend = .inMemory ⟨m⟩) :
    hc.clear s =
      ({ backend := .inMemory ⟨.empty⟩
         memoryAllocation := 0
         evictionAlgorithm := m.all.foldl (fun a item => IAlgorithm.delete item.key a)
          hc.evictionAlgorithm }, none) := by
  rw [clear, hb]
  rfl

variable [SizedValue V] [SetSize V]

/-- A `Set` fails and leaves the store and the algorithm alone, or stores an item of the size
of the value and evicts if the store is over its capacity. -/
theorem set_cases (st : Settings) (net : Net) (key : Key) (value : Option V)
    (expiration : Duration) {hc : Cache V A} {m : ConcurrentMap V}
    (hb : hc.backend = .inMemory ⟨m⟩) :
    (∃ e allocation, hc.set st net key value expiration =
        ({ hc with memoryAllocation := allocation }, some e)) ∨
      ∃ item : Item V, ∃ hc' : Cache V A, item.key = key ∧ hc' =
          { backend := .inMemory ⟨m.set item⟩
            memoryAllocation := hc.memoryAllocation + item.size
            evictionAlgorithm := EvictionAlgorithm.set key value hc.evictionAlgorithm } ∧
        hc.set st net key value expiration =
          (if st.shouldEvict ∧ hc'.backend.count > st.capacity then (hc'.evictItem net).1
            else hc', none) := by
  unfold set
  cases SetSize.setSize value with
  | none => exact Or.inl ⟨.invalidSize, hc.memoryAllocation, rfl⟩
  | some size =>
      dsimp only
      split
      · exact Or.inl ⟨.cacheFull, _, rfl⟩
      · obtain ⟨item, hitem⟩ : ∃ item : Item V, item =
            { key, value, expiration, lastAccess := net.now, size } := ⟨_, rfl⟩
        have hkey : item.key = key := by rw [hitem]
        have hsize : item.size = size := by rw [hitem]
        rw [← hitem, hb, Backend.set, ← hsize]
        cases item.valid with
        | some e => exact Or.inl ⟨e, _, rfl⟩
        | none =>
            refine Or.inr ⟨item, _, hkey, rfl, ?_⟩
            dsimp only
            split <;> rfl

end Cache

namespace CacheOp

variable [EvictionAlgorithm V A] [SizedValue V] [SetSize V]

/-- A `GetOrSet` that finds the key reads it, or fails, and otherwise is a `Set`. -/
theorem getOrSet_cases (st : Settings) (net : Net) (key : Key) (value : Option V)
    (expiration : Duration) {hc : Cache V A} {m : ConcurrentMap V}
    (hb : hc.backend = .inMemory ⟨m⟩) :
    (m.get key ≠ none ∧
        (CacheOp.getOrSet net key value expiration).step st hc = (hc.get net key).1) ∨
      m.get key = none ∧ (CacheOp.getOrSet net key value expiration).exec st hc =
        hc.set st net key value expiration := by
  have hget : hc.backend.get net key = (hc.backend, m.get key) := by
    rw [hb]
    rfl
  rw [step, exec, Cache.getOrSet, Cache.get, hget]
  cases hit : m.get key with
  | none =>
      refine Or.inr ⟨rfl, ?_⟩
      dsimp only
      generalize hc.set st net key value expiration = res
      obtain ⟨hc', _ | e⟩ := res <;> rfl
  | some it =>
      refine Or.inl ⟨Option.some_ne_none it, ?_⟩
      dsimp only
      by_cases hexpired : it.expired net.now = true
      · rw [if_pos hexpired, if_pos hexpired]
      · rw [if_neg hexpired, if_neg hexpired]

end CacheOp

/-! ## Construction -/

/-- The configuration of a cache over the in-memory backend, with the options applied. -/
structure Config where
  capacity : Int
  evictionInterval : Duration := 600000000000
  evictionAlgorithmName : String := ""
  evictionShardCount : Int := 32
  maxEvictionCount : Nat := 0
  maxCacheSize : Int := 0

def maxInt : Nat := 0x7fffffffffffffff

def configureEvictionSettings (cfg : Config) : Settings where
  capacity := cfg.capacity
  shouldEvict := cfg.evictionInterval = 0 ∧ cfg.capacity > 0
  maxEvictionCount :=
    if cfg.maxEvictionCount = 0 then
      if cfg.capacity < 0 then 1 else cfg.capacity.toNat
    else cfg.maxEvictionCount
  maxCacheSize := max 0 cfg.maxCacheSize

def initEvictionAlgorithm (lib : ShardLib) (cfg : Config) (maxEvictionCount : Nat) :
    Except Err (Evictor V) :=
  if maxEvictionCount > maxInt then .error .overflow
  else
    let name := if cfg.evictionAlgorithmName = "" then "lru" else cfg.evictionAlgorithmName
    if cfg.evictionShardCount > 1 then
      (newSharded lib name maxEvictionCount cfg.evictionShardCount).map .sharded
    else (newEvictionAlgorithm name maxEvictionCount).map .single

/-- `New` over the in-memory backend. -/
def Cache.new (lib : ShardLib) (cfg : Config) :
    Except Err (Settings × Cache V (Evictor V)) :=
  if cfg.capacity < 0 then .error .invalidCapacity
  else
    let st := configureEvictionSettings cfg
    (initEvictionAlgorithm lib cfg st.maxEvictionCount).map (fun alg =>
      (st, { backend := .inMemory ⟨.empty⟩, memoryAllocation := 0, evictionAlgorithm := alg }))

end HyperCache
