/-
The capacity of a cache that evicts on every `Set`.

With an eviction interval of zero a `Set` that takes the backend over its
capacity evicts one item.  One is enough because the algorithm tracks stored keys
only, so that its victim is an item that is there to go, and tracks at least the
key that has just come.
-/
import HyperCache.Lib.Runs
import HyperCache.Tracking
import HyperCache.FrontEnd

namespace HyperCache

open Runs

variable {V A : Type}

theorem ConcurrentMap.mem_keys_foldl_remove {m : ConcurrentMap V} {keys : List Key} {k : Key} :
    k ∈ (keys.foldl remove m).keys ↔ k ∈ m.keys ∧ k ∉ keys := by
  induction keys generalizing m with
  | nil => simp
  | cons key rest ih =>
      rw [List.foldl_cons, ih, mem_keys_remove, List.mem_cons, not_or]
      tauto

theorem ConcurrentMap.count_foldl_remove_le (m : ConcurrentMap V) (keys : List Key) :
    (keys.foldl remove m).count ≤ m.count := by
  induction keys generalizing m with
  | nil => exact Nat.le_refl _
  | cons key rest ih =>
      have hone := m.count_remove key
      have hrest := ih (m.remove key)
      rw [List.foldl_cons]
      split at hone <;> omega

namespace Cache

variable [EvictionAlgorithm V A] [Tracking V A]

/-- A cache over the in-memory backend whose algorithm serves and tracks stored keys only. -/
structure Holds (m : ConcurrentMap V) (hc : Cache V A) : Prop where
  backend : hc.backend = .inMemory ⟨m⟩
  serves : Tracking.Serves hc.evictionAlgorithm
  stored : ∀ k ∈ Tracking.keys hc.evictionAlgorithm, k ∈ m.keys

def Within (capacity : Int) (hc : Cache V A) : Prop := ∃ m, Holds m hc ∧ m.count ≤ capacity

section

variable {P : A → Prop}

/-- What `Delete` keeps is kept when the stored ones of some keys are taken out. -/
theorem untrack_spec (hdelete : ∀ {a : A} (k : Key), P a → P (IAlgorithm.delete k a) ∧
    Tracking.keys (IAlgorithm.delete k a) = Tracking.keys a \ {k}) (m : ConcurrentMap V)
    (keys : List Key) {a : A} (h : P a) (hstored : ∀ k ∈ Tracking.keys a, k ∈ m.keys) :
    P (m.untrack keys a) ∧
      ∀ k, k ∈ Tracking.keys (m.untrack keys a) ↔ k ∈ Tracking.keys a ∧ k ∉ keys := by
  induction keys generalizing a with
  | nil => exact ⟨h, fun k => ⟨fun hk => ⟨hk, List.not_mem_nil⟩, And.left⟩⟩
  | cons key rest ih =>
      rw [ConcurrentMap.untrack, List.foldl_cons]
      split
      · obtain ⟨h', hkeys⟩ := hdelete key h
        obtain ⟨hrest, hmem⟩ := ih h' (fun k hk => by
          rw [hkeys] at hk
          exact hstored k hk.1)
        refine ⟨hrest, fun k => (hmem k).trans ?_⟩
        rw [hkeys, Set.mem_sdiff, Set.mem_singleton_iff, List.mem_cons, not_or, and_assoc]
      case isFalse habsent =>
        obtain ⟨hrest, hmem⟩ := ih h hstored
        refine ⟨hrest, fun k => (hmem k).trans (and_congr_right fun hold => ?_)⟩
        -- A key that is not stored was not tracked.
        have hne : k ≠ key := by
          rintro rfl
          obtain ⟨it, hit⟩ := ConcurrentMap.mem_keys.mp (hstored k hold)
          rw [hit] at habsent
          exact habsent rfl
        rw [List.mem_cons, not_or]
        exact ⟨fun hnot => ⟨hne, hnot⟩, And.right⟩

theorem foldl_delete_spec (hdelete : ∀ {a : A} (k : Key), P a → P (IAlgorithm.delete k a) ∧
    Tracking.keys (IAlgorithm.delete k a) = Tracking.keys a \ {k}) (items : List (Item V)) {a : A}
    (h : P a) :
    P (items.foldl (fun a item => IAlgorithm.delete item.key a) a) ∧
      ∀ k ∈ Tracking.keys (items.foldl (fun a item => IAlgorithm.delete item.key a) a),
        k ∈ Tracking.keys a ∧ k ∉ items.map Item.key := by
  induction items generalizing a with
  | nil => exact ⟨h, fun k hk => ⟨hk, List.not_mem_nil⟩⟩
  | cons item rest ih =>
      obtain ⟨h', hkeys⟩ := hdelete item.key h
      obtain ⟨hrest, hmem⟩ := ih h'
      refine ⟨hrest, fun k hk => ?_⟩
      obtain ⟨hdel, hnot⟩ := hmem k hk
      rw [hkeys] at hdel
      rw [List.map_cons, List.mem_cons, not_or]
      exact ⟨hdel.1, hdel.2, hnot⟩

end

theorem holds_remove (net : Net) (keys : List Key) {m : ConcurrentMap V} {hc : Cache V A}
    (h : Holds m hc) : Holds (keys.foldl ConcurrentMap.remove m) (hc.remove net keys).1 := by
  obtain ⟨hserves, hkeys⟩ := untrack_spec Tracking.delete_spec m keys h.serves h.stored
  rw [remove_inMemory net m keys h.backend]
  refine ⟨rfl, hserves, fun k hk => ?_⟩
  obtain ⟨hold, hnot⟩ := (hkeys k).mp hk
  exact ConcurrentMap.mem_keys_foldl_remove.mpr ⟨h.stored k hold, hnot⟩

theorem within_remove (net : Net) (keys : List Key) {capacity : Int} {hc : Cache V A}
    (h : Within capacity hc) : Within capacity (hc.remove net keys).1 := by
  obtain ⟨m, hholds, hcount⟩ := h
  refine ⟨_, holds_remove net keys hholds, ?_⟩
  have hle := m.count_foldl_remove_le keys
  omega

/-- An eviction takes one stored item out as long as any key is tracked. -/
theorem holds_evictItem (net : Net) {m : ConcurrentMap V} {hc : Cache V A} (h : Holds m hc) :
    (Tracking.keys hc.evictionAlgorithm = ∅ ∧ Holds m (hc.evictItem net).1) ∨
      ∃ k ∈ m.keys, Holds (m.remove k) (hc.evictItem net).1 := by
  obtain ⟨hserves, hcases⟩ := Tracking.evict_spec h.serves
  rcases evictItem_cases net hc h.backend with ⟨hnone, hresult⟩ | ⟨key, hsome, hresult⟩
  · rcases hcases with ⟨-, hempty, hempty'⟩ | ⟨k, -, hsome, -⟩
    · rw [hresult]
      exact Or.inl ⟨hempty, h.backend, hserves, fun k hk => by rw [hempty'] at hk; cases hk⟩
    · rw [hnone] at hsome
      cases hsome
  · rcases hcases with ⟨hnone, -⟩ | ⟨k, hk, hsome', hkeys⟩
    · rw [hnone] at hsome
      cases hsome
    · rw [hsome', Option.some.injEq] at hsome
      subst hsome
      rw [hresult]
      have hafter : Holds m
          { hc with evictionAlgorithm := (EvictionAlgorithm.evict hc.evictionAlgorithm).1 } :=
        ⟨h.backend, hserves, fun k' hk' => h.stored k' (by rw [hkeys] at hk'; exact hk'.1)⟩
      exact Or.inr ⟨k, h.stored k hk, holds_remove net [k] hafter⟩

theorem within_evictItem (net : Net) {capacity : Int} {hc : Cache V A}
    (h : Within capacity hc) : Within capacity (hc.evictItem net).1 := by
  obtain ⟨m, hholds, hcount⟩ := h
  rcases holds_evictItem net hholds with ⟨-, hsame⟩ | ⟨k, hk, hless⟩
  · exact ⟨m, hsame, hcount⟩
  · refine ⟨_, hless, ?_⟩
    rw [ConcurrentMap.count_remove, if_pos hk]
    omega

theorem within_get (net : Net) (key : Key) {capacity : Int} {hc : Cache V A}
    (h : Within capacity hc) : Within capacity (hc.get net key).1 := by
  obtain ⟨m, hholds, hcount⟩ := h
  rcases get_cases net key hholds.backend with hsame | ⟨it, hit, htouch⟩
  · rw [hsame]
    exact ⟨m, hholds, hcount⟩
  · have hkey : it.key = key := ConcurrentMap.key_of_get hit
    have hmem : (it.touch net.now).key ∈ m.keys :=
      ConcurrentMap.mem_keys.mpr ⟨it, by rw [← hit, ← hkey]; rfl⟩
    rw [htouch]
    refine ⟨_, ⟨rfl, hholds.serves, fun k hk => ?_⟩, ?_⟩
    · exact ConcurrentMap.mem_keys_set.mpr (Or.inr (hholds.stored k hk))
    · rw [ConcurrentMap.count_set, if_pos hmem]
      exact hcount

theorem within_clear (s : ItemSorts V) {capacity : Int} (hcap : 0 ≤ capacity) {hc : Cache V A}
    (h : Within capacity hc) : Within capacity (hc.clear s).1 := by
  obtain ⟨m, hholds, -⟩ := h
  obtain ⟨hserves, hkeys⟩ := foldl_delete_spec Tracking.delete_spec m.all hholds.serves
  rw [clear_inMemory s hholds.backend]
  refine ⟨.empty, ⟨rfl, hserves, fun k hk => ?_⟩, hcap⟩
  obtain ⟨hold, hnot⟩ := hkeys k hk
  rw [ConcurrentMap.map_key_all] at hnot
  exact absurd (hholds.stored k hold) hnot

variable [SizedValue V] [SetSize V]

/-- After a `Set` the cache is within its capacity again. -/
theorem within_set {st : Settings} (hevict : st.shouldEvict = true) (net : Net) (key : Key)
    (value : Option V) (expiration : Duration) {hc : Cache V A} (h : Within st.capacity hc) :
    Within st.capacity (hc.set st net key value expiration).1 := by
  obtain ⟨m, hholds, hcount⟩ := h
  rcases set_cases st net key value expiration hholds.backend with
    ⟨e, a, herr⟩ | ⟨item, hc', rfl, hhc', hset⟩
  · rw [herr]
    exact ⟨m, ⟨hholds.backend, hholds.serves, hholds.stored⟩, hcount⟩
  · obtain ⟨hserves, hnew, hsub⟩ := Tracking.set_spec item.key value hholds.serves
    have hholds' : Holds (m.set item) hc' := by
      rw [hhc']
      refine ⟨rfl, hserves, fun k hk => ConcurrentMap.mem_keys_set.mpr ?_⟩
      exact (hsub hk).imp_right (hholds.stored k)
    have hbackend : hc'.backend.count = (m.set item).count := by
      rw [hholds'.backend]
      rfl
    rw [hset]
    dsimp only
    split
    · rcases holds_evictItem net hholds' with ⟨hempty, -⟩ | ⟨k, hk, hless⟩
      · -- The key just set is tracked, so the algorithm is not empty.
        rw [hhc'] at hempty
        change Tracking.keys (EvictionAlgorithm.set item.key value hc.evictionAlgorithm) = ∅
          at hempty
        rw [hempty] at hnew
        cases hnew
      · refine ⟨_, hless, ?_⟩
        have hone := m.count_set item
        rw [ConcurrentMap.count_remove, if_pos hk]
        split at hone <;> omega
    case isFalse hroom =>
      refine ⟨_, hholds', ?_⟩
      rw [hevict, hbackend] at hroom
      simpa using hroom

end Cache

namespace CacheOp

variable [EvictionAlgorithm V A] [Tracking V A] [SizedValue V] [SetSize V]

theorem within_step {st : Settings} (hevict : st.shouldEvict = true) (hcap : 0 ≤ st.capacity)
    {hc : Cache V A} (op : CacheOp V) (h : hc.Within st.capacity) :
    (op.step st hc).Within st.capacity := by
  cases op with
  | set net key value expiration => exact Cache.within_set hevict net key value expiration h
  | getOrSet net key value expiration =>
      have hbackend := h.choose_spec.1.backend
      rcases getOrSet_cases st net key value expiration hbackend with ⟨-, hread⟩ | ⟨-, hset⟩
      · rw [hread]
        exact Cache.within_get net key h
      · rw [step, hset]
        exact Cache.within_set hevict net key value expiration h
  | get net key => exact Cache.within_get net key h
  | remove net keys => exact Cache.within_remove net keys h
  | clear s => exact Cache.within_clear s hcap h
  | evictionLoop net =>
      exact Cache.evictUpTo_keeps (fun _ h => ⟨_, h.choose_spec.1.backend⟩) st net
        (fun _ => Cache.within_evictItem net) st.maxEvictionCount h
  | expirationLoop s now nets =>
      exact Cache.expirationLoop_keeps s now nets
        (fun _ key => Cache.within_remove (nets key) [key]) h

end CacheOp

/-! ## From the configuration -/

/-- A shard has room for a key unless the sum overflows, and then it has a negative capacity and
is refused. -/
theorem perShard_ne_zero {total shardCount : Int} (htotal : 0 < total) (hmax : total ≤ maxInt)
    (hpos : 0 < shardCount) (hfits : shardCount ≤ maxUint32 + 1) :
    perShard total shardCount ≠ 0 := by
  rw [maxInt] at hmax
  rw [maxUint32] at hfits
  have hlarge : shardCount ≤
      (((total + shardCount - 1).bmod 0x10000000000000000).natAbs : Int) := by
    rw [Int.bmod_def]
    split <;> omega
  intro hzero
  have habs := congrArg Int.natAbs hzero
  rw [perShard, Int.natAbs_tdiv, Int.natAbs_zero] at habs
  have hone : 1 ≤ ((total + shardCount - 1).bmod 0x10000000000000000).natAbs /
      shardCount.natAbs :=
    (Nat.le_div_iff_mul_le (by omega)).mpr (by omega)
  exact absurd habs (Nat.ne_of_gt hone)

theorem serves_newSharded {lib : ShardLib} {name : String}
    (hname : Algorithm.servingNames.contains name = true) {total shardCount : Int}
    (htotal : 0 < total) (hmax : total ≤ maxInt) (hshards : shardCount ≠ 0x100000000)
    {s : Sharded (Algorithm V)} (h : newSharded lib name total shardCount = .ok s) :
    Tracking.Serves s ∧ Tracking.keys s = ∅ := by
  obtain ⟨hpos, hfits, hcount, shard, hshard, hsame⟩ := newSharded_ok h
  obtain ⟨hserves, hempty⟩ := Algorithm.serves_new hname
    (perShard_ne_zero htotal hmax hpos hfits) hshard
  have hfits' : s.shardCount ≤ maxUint32 := by
    rw [hcount]
    rw [maxUint32] at hfits ⊢
    omega
  have hnone : ∀ i, Tracking.keys (s.shards i) = ∅ := by
    intro i
    rw [hsame]
    exact hempty
  refine ⟨⟨hfits', fun i => ?_, fun i k hk => ?_⟩, Set.eq_empty_of_forall_notMem ?_⟩
  · rw [hsame]
    exact hserves
  · rw [hnone] at hk
    cases hk
  · intro k hk
    change k ∈ s.tracked at hk
    rw [Sharded.mem_tracked, hnone] at hk
    exact hk

theorem initEvictionAlgorithm_ok {lib : ShardLib} {cfg : Config} {n : Nat} {e : Evictor V}
    (h : initEvictionAlgorithm lib cfg n = .ok e) :
    n ≤ maxInt ∧ ∃ name, (name =
        if cfg.evictionAlgorithmName = "" then "lru" else cfg.evictionAlgorithmName) ∧
      ((1 < cfg.evictionShardCount ∧
          ∃ s, newSharded lib name n cfg.evictionShardCount = .ok s ∧ e = .sharded s) ∨
        (cfg.evictionShardCount ≤ 1 ∧
          ∃ a, newEvictionAlgorithm name n = .ok a ∧ e = .single a)) := by
  unfold initEvictionAlgorithm at h
  split at h
  · cases h
  case isFalse hmax =>
    refine ⟨Nat.le_of_not_lt hmax, _, rfl, ?_⟩
    dsimp only at h
    split at h
    case isTrue hshards =>
      generalize newSharded lib _ _ _ = res at h ⊢
      cases res with
      | error err => cases h
      | ok s =>
          cases h
          exact Or.inl ⟨hshards, s, rfl, rfl⟩
    case isFalse hshards =>
      generalize newEvictionAlgorithm _ _ = res at h ⊢
      cases res with
      | error err => cases h
      | ok a =>
          cases h
          exact Or.inr ⟨Int.not_lt.mp hshards, a, rfl, rfl⟩

theorem serves_initEvictionAlgorithm {lib : ShardLib} {cfg : Config} {n : Nat}
    (hname : (("" : String) :: Algorithm.servingNames).contains cfg.evictionAlgorithmName = true)
    (hshards : cfg.evictionShardCount ≠ 0x100000000) (hn : n ≠ 0) {e : Evictor V}
    (h : initEvictionAlgorithm lib cfg n = .ok e) :
    Tracking.Serves e ∧ Tracking.keys e = ∅ := by
  obtain ⟨hmax, name, rfl, hcases⟩ := initEvictionAlgorithm_ok h
  have hname' : Algorithm.servingNames.contains
      (if cfg.evictionAlgorithmName = "" then "lru" else cfg.evictionAlgorithmName) = true := by
    split
    · rfl
    case isFalse hne => simpa [hne] using hname
  rcases hcases with ⟨-, s, hs, rfl⟩ | ⟨-, a, ha, rfl⟩
  · exact serves_newSharded hname' (by omega) (by omega) hshards hs
  · exact Algorithm.serves_new hname' (by omega) ha

theorem Cache.new_ok {lib : ShardLib} {cfg : Config} {st : Settings}
    {hc : Cache V (Evictor V)} (h : Cache.new lib cfg = .ok (st, hc)) :
    st = configureEvictionSettings cfg ∧ hc.backend = .inMemory ⟨.empty⟩ ∧
      initEvictionAlgorithm lib cfg st.maxEvictionCount = .ok hc.evictionAlgorithm := by
  unfold Cache.new at h
  split at h
  · cases h
  · dsimp only at h
    generalize ha : initEvictionAlgorithm lib cfg _ = res at h
    cases res with
    | error e => cases h
    | ok a =>
        cases h
        exact ⟨rfl, rfl, ha⟩

theorem maxEvictionCount_ne_zero {cfg : Config} (hcap : 0 < cfg.capacity) :
    (configureEvictionSettings cfg).maxEvictionCount ≠ 0 := by
  unfold configureEvictionSettings
  dsimp only
  split
  · split <;> omega
  case isFalse h => exact h

/-! ## Too many shards -/

namespace Evictor

/-- More shards than the conversion in `Evict` lets through. -/
def Stuck : Evictor V → Prop
  | .single _ => False
  | .sharded s => s.shardCount > maxUint32

theorem stuck_set {e : Evictor V} (key : Key) (value : Option V) (h : e.Stuck) :
    (EvictionAlgorithm.set key value e).Stuck := by
  cases e with
  | single a => cases h
  | sharded s => exact h

theorem evict_stuck {e : Evictor V} (h : e.Stuck) : EvictionAlgorithm.evict e = (e, none) := by
  cases e with
  | single a => cases h
  | sharded s =>
      have hmany : s.shardCount > maxUint32 := h
      show (Evictor.sharded s.evict.1, s.evict.2) = _
      rw [Sharded.evict_eq, if_pos hmany]

theorem stuck_initEvictionAlgorithm {lib : ShardLib} {cfg : Config} {n : Nat}
    (hshards : cfg.evictionShardCount = 0x100000000) {e : Evictor V}
    (h : initEvictionAlgorithm lib cfg n = .ok e) : e.Stuck := by
  obtain ⟨-, name, -, hcases⟩ := initEvictionAlgorithm_ok h
  rcases hcases with ⟨-, s, hs, rfl⟩ | ⟨hone, -⟩
  · obtain ⟨-, -, hcount, -⟩ := newSharded_ok hs
    show s.shardCount > maxUint32
    rw [hcount, hshards]
    decide
  · omega

end Evictor

/-- Distinct keys, none of them blank. -/
def fillKey (i : Nat) : Key := List.replicate (i + 1) 97

theorem fillKey_injective {i j : Nat} (h : fillKey i = fillKey j) : i = j := by
  have hlen := congrArg List.length h
  rw [fillKey, fillKey, List.length_replicate, List.length_replicate] at hlen
  omega

def fill (value : V) (n : Nat) : List (CacheOp V) :=
  (List.range n).map (fun i => .set World.allUp (fillKey i) (some value) 0)

theorem fill_succ (value : V) (n : Nat) :
    fill value (n + 1) = fill value n ++ [.set World.allUp (fillKey n) (some value) 0] := by
  rw [fill, List.range_succ, List.map_append]
  rfl

section

variable [SizedValue V] [SetSize V]

theorem set_fillKey_ok {st : Settings} (hmax : st.maxCacheSize = 0) {value : V} {size : Int}
    (hsize : SetSize.setSize (some value) = some size) (i : Nat) {hc : Cache V (Evictor V)}
    {m : ConcurrentMap V} (hb : hc.backend = .inMemory ⟨m⟩) :
    (hc.set st World.allUp (fillKey i) (some value) 0).2 = none := by
  have hvalid : ∀ now : Time, (Item.mk (fillKey i) (some value) now 0 size 0 0 0 []).valid =
      none := fun _ => rfl
  unfold Cache.set
  rw [hsize]
  dsimp only
  rw [if_neg (by omega), hb, Backend.set, hvalid]
  dsimp only
  split <;> rfl

/-- Nothing is ever evicted, so the cache holds everything it is given. -/
theorem fill_spec {st : Settings} (hmax : st.maxCacheSize = 0) {value : V} {size : Int}
    (hsize : SetSize.setSize (some value) = some size) {hc : Cache V (Evictor V)}
    (hb : hc.backend = .inMemory ⟨.empty⟩) (hstuck : hc.evictionAlgorithm.Stuck) (n : Nat) :
    ∃ m, ((fill value n).foldl (CacheOp.step st) hc).backend = .inMemory ⟨m⟩ ∧
      ((fill value n).foldl (CacheOp.step st) hc).evictionAlgorithm.Stuck ∧
      m.count = n ∧ ∀ i, fillKey i ∈ m.keys → i < n := by
  induction n with
  | zero => exact ⟨.empty, hb, hstuck, rfl, fun i hi => absurd hi List.not_mem_nil⟩
  | succ n ih =>
      obtain ⟨m, hm, hstuck', hcount, hkeys⟩ := ih
      rw [fill_succ, List.foldl_append]
      generalize (fill value n).foldl (CacheOp.step st) hc = hc₁ at hm hstuck' ⊢
      have hok := set_fillKey_ok hmax hsize n hm
      show ∃ m, (hc₁.set st World.allUp (fillKey n) (some value) 0).1.backend = _ ∧
        (hc₁.set st World.allUp (fillKey n) (some value) 0).1.evictionAlgorithm.Stuck ∧ _
      rcases Cache.set_cases st World.allUp (fillKey n) (some value) 0 hm with
        ⟨e, a, herr⟩ | ⟨item, hc₂, hkey, hhc₂, hset⟩
      · rw [herr] at hok
        cases hok
      · have hstuck₂ : hc₂.evictionAlgorithm.Stuck := by
          rw [hhc₂]
          exact Evictor.stuck_set _ _ hstuck'
        have hevict : (hc₂.evictItem World.allUp).1 = hc₂ := by
          unfold Cache.evictItem
          rw [Evictor.evict_stuck hstuck₂]
        have hresult : (hc₁.set st World.allUp (fillKey n) (some value) 0).1 = hc₂ := by
          rw [hset, hevict]
          exact ite_self hc₂
        rw [hresult]
        refine ⟨m.set item, by rw [hhc₂], hstuck₂, ?_, fun i hi => ?_⟩
        · rw [ConcurrentMap.count_set, hkey, if_neg (fun h => Nat.lt_irrefl n (hkeys n h)), hcount]
        · rcases ConcurrentMap.mem_keys_set.mp hi with heq | hold
          · rw [hkey] at heq
            rw [fillKey_injective heq]
            exact Nat.lt_succ_self n
          · exact Nat.lt_succ_of_lt (hkeys i hold)

/-- A cache that evicts on `Set` and runs LRU, LFU or CAWOLFU holds at most as many items as its
capacity after every operation of every run, unless it has `2 ^ 32` eviction shards.  With that
many shards nothing is evicted and, where the size of the cache is not limited, some run takes it
over its capacity. -/
theorem count_le_capacity_iff {lib : ShardLib} {cfg : Config} {st : Settings}
    {hc : Cache V (Evictor V)} (hnew : Cache.new lib cfg = .ok (st, hc))
    (hcap : 0 < cfg.capacity) (hinterval : cfg.evictionInterval = 0)
    (hname : (("" : String) :: Algorithm.servingNames).contains cfg.evictionAlgorithmName =
      true) :
    (cfg.evictionShardCount ≠ 0x100000000 → ∀ ops, Along (CacheOp.step st)
      (fun hc op => (op.step st hc).backend.count ≤ cfg.capacity) hc ops) ∧
    (cfg.evictionShardCount = 0x100000000 → cfg.maxCacheSize ≤ 0 →
      ∀ (value : V) (size : Int), SetSize.setSize (some value) = some size → ∃ ops,
        ¬Along (CacheOp.step st)
          (fun hc op => (op.step st hc).backend.count ≤ cfg.capacity) hc ops) := by
  obtain ⟨rfl, hb, hinit⟩ := Cache.new_ok hnew
  refine ⟨fun hshards ops => ?_, fun hshards hmax value size hsize => ?_⟩
  · obtain ⟨hserves, hempty⟩ := serves_initEvictionAlgorithm hname hshards
      (maxEvictionCount_ne_zero hcap) hinit
    have hevict : (configureEvictionSettings cfg).shouldEvict = true :=
      decide_eq_true ⟨hinterval, hcap⟩
    have hstart : hc.Within cfg.capacity :=
      ⟨.empty, ⟨hb, hserves, fun k hk => by rw [hempty] at hk; cases hk⟩, hcap.le⟩
    have hstep : ∀ (hc : Cache V (Evictor V)) (op : CacheOp V), hc.Within cfg.capacity →
        (op.step (configureEvictionSettings cfg) hc).Within cfg.capacity :=
      fun hc op h => CacheOp.within_step hevict hcap.le op h
    refine along_of_invariant hstep (fun hc op h => ?_) hstart ops
    obtain ⟨m, hholds, hcount⟩ := hstep hc op h
    rw [hholds.backend]
    exact hcount
  · have hstuck : hc.evictionAlgorithm.Stuck := Evictor.stuck_initEvictionAlgorithm hshards hinit
    have hmax' : (configureEvictionSettings cfg).maxCacheSize = 0 := max_eq_left hmax
    refine ⟨fill value (cfg.capacity.toNat + 1), fun hbounded => ?_⟩
    obtain ⟨m, hm, -, hcount, -⟩ := fill_spec hmax' hsize hb hstuck (cfg.capacity.toNat + 1)
    rw [fill_succ, along_append] at hbounded
    rw [fill_succ, List.foldl_append] at hm
    have hlast := hbounded.2.1
    change (([CacheOp.set World.allUp (fillKey cfg.capacity.toNat) (some value) 0].foldl
      (CacheOp.step (configureEvictionSettings cfg)) _).backend.count : Int) ≤ _ at hlast
    rw [hm] at hlast
    change (m.count : Int) ≤ _ at hlast
    omega

end

/-- LRU over the default number of shards. -/
def threeItems : Config := { capacity := 3, evictionInterval := 0 }

/-- The bound holds even for a hash that puts all keys into one shard. -/
theorem count_le_capacity_one_shard_used :
    ∃ st hc, Cache.new (V := Str) (.checked fun _ => 0) threeItems = .ok (st, hc) ∧
      ∀ ops, Along (CacheOp.step st) (fun hc op => (op.step st hc).backend.count ≤ (3 : Int)) hc
        ops := by
  have hcap : 0 < threeItems.capacity := by decide
  exact ⟨_, _, rfl, (@count_le_capacity_iff Str _ _ (.checked fun _ => 0) threeItems _ _ rfl hcap
    rfl rfl).1 (by decide)⟩

/-- With `2 ^ 32` shards a cache for one item takes two. -/
theorem count_over_capacity :
    ∃ st hc, Cache.new (V := Str) (.checked fun _ => 0)
        { capacity := 1, evictionInterval := 0, evictionShardCount := 0x100000000 } =
          .ok (st, hc) ∧
      Along (CacheOp.step st) (fun hc op => (op.exec st hc).2 = none) hc (fill [1] 2) ∧
      ((fill [1] 2).foldl (CacheOp.step st) hc).backend.count = 2 :=
  ⟨_, _, rfl, ⟨rfl, rfl, trivial⟩, rfl⟩

end HyperCache
