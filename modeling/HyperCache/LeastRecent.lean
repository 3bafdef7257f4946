/-
The victim of a cache that runs LRU.

The algorithm learns of writes only: `Set` and the miss of `GetOrSet` tell it of the
key, a read does not.  So the key that goes when the cache overflows is the one
written least recently, which need not be the one used least recently.  This holds
as long as the algorithm has room for more keys than the cache has; otherwise it
forgets the oldest keys itself and never names them.
-/
import HyperCache.Lib.RecencyTable
import HyperCache.Coverage

namespace HyperCache

open Runs Tables

variable {V A : Type}

/-! ## The order of the writes -/

namespace Evictor

/-- LRU in one shard, with its keys in the order of the writes. -/
def RunsLru (capacity : Nat) (writes : List Key) (e : Evictor V) : Prop :=
  ∃ t : Table Key (Option V), e = .single (.lru ⟨t⟩) ∧ t.capacity = capacity ∧
    Recency.Sorted writes t.keys ∧ ∀ k ∈ t.keys, k ∈ writes

variable {capacity : Nat} {writes : List Key} {e : Evictor V}

theorem RunsLru.set (h : e.RunsLru capacity writes) (key : Key) (value : Option V) :
    (EvictionAlgorithm.set key value e).RunsLru capacity (key :: writes) := by
  obtain ⟨t, rfl, hcap, hsorted, hwritten⟩ := h
  have hsub : (t.set .last (fun _ => value) value key).keys.Sublist
      (Recency.touch key t.keys) := by
    rw [t.keys_set_last]
    exact List.take_sublist _ _
  refine ⟨_, rfl, (t.capacity_set ..).trans hcap, (hsorted.touch key).sublist hsub, fun k hk => ?_⟩
  rcases Recency.mem_of_mem_touch (hsub.subset hk) with rfl | hold
  · exact List.mem_cons_self
  · exact List.mem_cons_of_mem _ (hwritten k hold)

theorem RunsLru.delete (k : Key) (h : e.RunsLru capacity writes) :
    (IAlgorithm.delete k e).RunsLru capacity writes ∧
      Tracking.keys (IAlgorithm.delete k e) = Tracking.keys e \ {k} := by
  obtain ⟨t, rfl, hcap, hsorted, hwritten⟩ := h
  have hsub := t.sublist_keys_erase k
  exact ⟨⟨_, rfl, hcap, hsorted.sublist hsub, fun k' hk' => hwritten k' (hsub.subset hk')⟩,
    Algorithm.keys_erase_spec k⟩

theorem RunsLru.evict (h : e.RunsLru capacity writes) :
    (EvictionAlgorithm.evict e).1.RunsLru capacity writes := by
  obtain ⟨t, rfl, hcap, hsorted, hwritten⟩ := h
  have hsub : (t.evict .last).1.keys.Sublist t.keys := by
    rw [t.keys_evict_last.2]
    exact List.dropLast_sublist _
  exact ⟨_, rfl, (t.capacity_evict _).trans hcap, hsorted.sublist hsub,
    fun k' hk' => hwritten k' (hsub.subset hk')⟩

/-- The victim is the key written least recently. -/
theorem RunsLru.victim (h : e.RunsLru capacity writes) (hne : (Tracking.keys e).Nonempty) :
    ∃ v, (EvictionAlgorithm.evict e).2 = some v ∧ Recency.Oldest writes (Tracking.keys e) v := by
  obtain ⟨t, rfl, -, hsorted, -⟩ := h
  obtain ⟨k, hk⟩ := hne
  have hk' : k ∈ t.keys := hk
  obtain ⟨v, hv⟩ := Option.ne_none_iff_exists'.mp
    (mt List.getLast?_eq_none_iff.mp (List.ne_nil_of_mem hk'))
  exact ⟨v, t.keys_evict_last.1.trans hv, hsorted.oldest hv⟩

end Evictor

/-! ## Operations that write and operations that use -/

namespace Cache

/-- A read does not reach the algorithm. -/
theorem algorithm_get {hc : Cache V A} {m : ConcurrentMap V} (hb : hc.backend = .inMemory ⟨m⟩)
    (net : Net) (key : Key) : (hc.get net key).1.evictionAlgorithm = hc.evictionAlgorithm := by
  rcases get_cases net key hb with hsame | ⟨it, -, htouch⟩
  · rw [hsame]
  · rw [htouch]

variable [EvictionAlgorithm V A] [Tracking V A] [Policy V A] {P : A → Prop}
  {m : ConcurrentMap V} {hc : Cache V A}

theorem algorithm_remove (hdelete : ∀ {a : A} (k : Key), P a → P (IAlgorithm.delete k a) ∧
    Tracking.keys (IAlgorithm.delete k a) = Tracking.keys a \ {k}) (net : Net) (keys : List Key)
    (hm : hc.Mirrors m) (h : P hc.evictionAlgorithm) :
    P (hc.remove net keys).1.evictionAlgorithm := by
  rw [remove_inMemory net m keys hm.backend]
  exact (untrack_spec hdelete m keys h hm.stored).1

theorem algorithm_evictItem (hdelete : ∀ {a : A} (k : Key), P a → P (IAlgorithm.delete k a) ∧
    Tracking.keys (IAlgorithm.delete k a) = Tracking.keys a \ {k})
    (hevict : ∀ {a : A}, P a → P (EvictionAlgorithm.evict a).1) (net : Net) (hm : hc.Mirrors m)
    (h : P hc.evictionAlgorithm) : P (hc.evictItem net).1.evictionAlgorithm := by
  rcases evictItem_cases net hc hm.backend with ⟨-, hresult⟩ | ⟨key, hsome, hresult⟩
  · rw [hresult]
    exact hevict h
  · have hkeys := (Policy.of_evict_some hm.sound hsome).2
    have hmid : Mirrors m
        { hc with evictionAlgorithm := (EvictionAlgorithm.evict hc.evictionAlgorithm).1 } :=
      ⟨hm.backend, (Policy.evict_spec hm.sound).1, fun k hk => hm.stored k (by
        rw [hkeys] at hk
        exact hk.1)⟩
    rw [hresult]
    exact algorithm_remove hdelete net [key] hmid (hevict h)

end Cache

namespace CacheOp

variable [EvictionAlgorithm V A] [SizedValue V] [SetSize V]

/-- The key a successful `Set`, `Get` or `GetOrSet` uses. -/
def used (st : Settings) (hc : Cache V A) (op : CacheOp V) : List Key :=
  match op with
  | .set _ key _ _ => if (op.exec st hc).2.isNone then [key] else []
  | .getOrSet _ key _ _ => if (op.exec st hc).2.isNone then [key] else []
  | .get net key => if (hc.get net key).2.isSome then [key] else []
  | _ => []

/-- The key a successful `Set`, or `GetOrSet` of a key that is not stored, writes. -/
def written (st : Settings) (hc : Cache V A) (op : CacheOp V) : List Key :=
  match op with
  | .set _ _ _ _ => op.used st hc
  | .getOrSet _ key _ _ => if (hc.backend.stored.get key).isSome then [] else op.used st hc
  | _ => []

/-- A `Set` that fails does not reach the algorithm. -/
theorem algorithm_set_error (st : Settings) {hc : Cache V A} {m : ConcurrentMap V}
    (hb : hc.backend = .inMemory ⟨m⟩) (net : Net) (key : Key) (value : Option V)
    (expiration : Duration) : (hc.set st net key value expiration).2 = none ∨
      (hc.set st net key value expiration).2.isNone = false ∧
        (hc.set st net key value expiration).1.evictionAlgorithm = hc.evictionAlgorithm := by
  rcases Cache.set_cases st net key value expiration hb with
    ⟨e, a, herr⟩ | ⟨item, hc', -, -, hset⟩
  · rw [herr]
    exact Or.inr ⟨rfl, rfl⟩
  · rw [hset]
    exact Or.inl rfl

/-- What is not a successful `Set` leaves the algorithm alone or takes keys out of it. -/
theorem written_cases (st : Settings) {hc : Cache V A} {m : ConcurrentMap V}
    (hb : hc.backend = .inMemory ⟨m⟩) (op : CacheOp V) :
    (∃ net key value expiration, op.written st hc = [key] ∧ op.used st hc = [key] ∧
        op.step st hc = (hc.set st net key value expiration).1 ∧
        (hc.set st net key value expiration).2 = none) ∨
      op.written st hc = [] ∧ ((op.step st hc).evictionAlgorithm = hc.evictionAlgorithm ∨
        (∃ net keys, op = .remove net keys) ∨ (∃ s, op = .clear s) ∨
        (∃ net, op = .evictionLoop net) ∨ ∃ s now nets, op = .expirationLoop s now nets) := by
  cases op with
  | set net key value expiration =>
      rcases algorithm_set_error st hb net key value expiration with hok | ⟨herr, hsame⟩
      · have hused : (CacheOp.set net key value expiration).used st hc = [key] := by
          rw [used, exec, hok]
          rfl
        exact Or.inl ⟨net, key, value, expiration, hused, hused, rfl, hok⟩
      · refine Or.inr ⟨?_, Or.inl hsame⟩
        rw [written, used, exec, herr]
        rfl
  | getOrSet net key value expiration =>
      have hstored : hc.backend.stored = m := by
        rw [hb]
        rfl
      rcases getOrSet_cases st net key value expiration hb with ⟨hfound, hstep⟩ | ⟨hmiss, hexec⟩
      · refine Or.inr ⟨?_, Or.inl ?_⟩
        · rw [written, hstored, if_pos (Option.isSome_iff_ne_none.mpr hfound)]
        · rw [hstep]
          exact Cache.algorithm_get hb net key
      · have hwritten : (CacheOp.getOrSet net key value expiration).written st hc =
            (CacheOp.getOrSet net key value expiration).used st hc := by
          rw [written, hstored, hmiss]
          rfl
        rcases algorithm_set_error st hb net key value expiration with hok | ⟨herr, hsame⟩
        · have hused : (CacheOp.getOrSet net key value expiration).used st hc = [key] := by
            rw [used, hexec, hok]
            rfl
          refine Or.inl ⟨net, key, value, expiration, hwritten.trans hused, hused, ?_, hok⟩
          rw [step, hexec]
        · refine Or.inr ⟨?_, Or.inl ?_⟩
          · rw [hwritten, used, hexec, herr]
            rfl
          · rw [step, hexec]
            exact hsame
  | get net key => exact Or.inr ⟨rfl, Or.inl (Cache.algorithm_get hb net key)⟩
  | remove net keys => exact Or.inr ⟨rfl, Or.inr (Or.inl ⟨net, keys, rfl⟩)⟩
  | clear s => exact Or.inr ⟨rfl, Or.inr (Or.inr (Or.inl ⟨s, rfl⟩))⟩
  | evictionLoop net => exact Or.inr ⟨rfl, Or.inr (Or.inr (Or.inr (Or.inl ⟨net, rfl⟩)))⟩
  | expirationLoop s now nets =>
      exact Or.inr ⟨rfl, Or.inr (Or.inr (Or.inr (Or.inr ⟨s, now, nets, rfl⟩)))⟩

section

variable [Tracking V A] [Policy V A] {P : A → Prop} {m : ConcurrentMap V} {hc : Cache V A}

/-- What deletions and evictions keep is kept by every operation that writes nothing. -/
theorem algorithm_step (hdelete : ∀ {a : A} (k : Key), P a → P (IAlgorithm.delete k a) ∧
    Tracking.keys (IAlgorithm.delete k a) = Tracking.keys a \ {k})
    (hevict : ∀ {a : A}, P a → P (EvictionAlgorithm.evict a).1) (st : Settings) (op : CacheOp V)
    (hm : hc.Mirrors m) (h : P hc.evictionAlgorithm) (hwritten : op.written st hc = []) :
    P (op.step st hc).evictionAlgorithm := by
  rcases written_cases st hm.backend op with
    ⟨net, key, value, expiration, hkey, -⟩ | ⟨-, hsame | ⟨net, keys, rfl⟩ | ⟨s, rfl⟩ | hloop⟩
  · rw [hkey] at hwritten
    cases hwritten
  · rw [hsame]
    exact h
  · exact Cache.algorithm_remove hdelete net keys hm h
  · show P (hc.clear s).1.evictionAlgorithm
    rw [Cache.clear_inMemory s hm.backend]
    exact (Cache.foldl_delete_spec hdelete m.all h).1
  · rcases hloop with ⟨net, rfl⟩ | ⟨s, now, nets, rfl⟩
    · refine (Cache.evictUpTo_keeps
        (I := fun hc => (∃ m, hc.Mirrors m) ∧ P hc.evictionAlgorithm) ?_ st net ?_
        st.maxEvictionCount ⟨⟨m, hm⟩, h⟩).2
      · rintro hc ⟨⟨m, hm⟩, -⟩
        exact ⟨m, hm.backend⟩
      · rintro hc ⟨⟨m, hm⟩, h⟩
        exact ⟨(Cache.mirrors_evictItem net hm).1,
          Cache.algorithm_evictItem hdelete hevict net hm h⟩
    · refine (Cache.expirationLoop_keeps
        (I := fun hc => (∃ m, hc.Mirrors m) ∧ P hc.evictionAlgorithm) s now nets ?_
        ⟨⟨m, hm⟩, h⟩).2
      rintro hc key ⟨⟨m, hm⟩, h⟩
      exact ⟨⟨_, (Cache.mirrors_remove (nets key) [key] hm).1⟩,
        Cache.algorithm_remove hdelete (nets key) [key] hm h⟩

end

end CacheOp

/-! ## Watched runs -/

/-- A cache with the keys written and the keys used so far, newest first. -/
structure Watched (V : Type) where
  cache : Cache V (Evictor V)
  writes : List Key := []
  uses : List Key := []

namespace Watched

/-- The keys that are stored before a victim is chosen. -/
def candidates (w : Watched V) (key : Key) : Set Key :=
  insert key {k | k ∈ w.cache.backend.stored.keys}

/-- All stored keys are tracked, in the order of the writes. -/
structure Ordered (st : Settings) (w : Watched V) : Prop where
  mirrors : ∃ m, w.cache.Mirrors m
  covered : w.cache.Covered
  within : w.cache.Within st.capacity
  lru : w.cache.evictionAlgorithm.RunsLru st.maxEvictionCount w.writes

variable {st : Settings} {w : Watched V}

/-- The algorithm has room for a key more than the cache holds. -/
theorem Ordered.hasRoom (h : w.Ordered st) (hmax : st.capacity < st.maxEvictionCount) (key : Key) :
    Policy.HasRoom key w.cache.evictionAlgorithm := by
  obtain ⟨m, hholds, hcount⟩ := h.within
  obtain ⟨t, ht, hcap, hsorted, -⟩ := h.lru
  have hsub : t.keys ⊆ m.keys := by
    intro k hk
    refine hholds.stored k ?_
    rw [ht]
    exact hk
  have hle : t.keys.length ≤ m.keys.length := (List.subperm_of_subset hsorted.nodup hsub).length_le
  rw [← m.count_eq] at hle
  rw [ht]
  show t.keys.length < t.capacity
  omega

variable [SizedValue V] [SetSize V]

def step (st : Settings) (w : Watched V) (op : CacheOp V) : Watched V where
  cache := op.step st w.cache
  writes := op.written st w.cache ++ w.writes
  uses := op.used st w.cache ++ w.uses

/-- The operation writes a new key into a full cache. -/
def Overflows (st : Settings) (w : Watched V) (op : CacheOp V) (key : Key) : Prop :=
  key ∈ op.written st w.cache ∧ key ∉ w.cache.backend.stored.keys ∧
    w.cache.backend.count + 1 > st.capacity

/-- An operation that overflows the cache removes the key used least recently and no other. -/
def EvictsOldest (st : Settings) (w : Watched V) (op : CacheOp V) : Prop :=
  ∀ key, w.Overflows st op key → ∃ v, Recency.Oldest (w.step st op).uses (w.candidates key) v ∧
    {k | k ∈ (w.step st op).cache.backend.stored.keys} = w.candidates key \ {v}

/-- Where an operation overflows the cache, the key written least recently is the key used least
recently. -/
def WrittenAsUsed (st : Settings) (w : Watched V) (op : CacheOp V) : Prop :=
  ∀ key, w.Overflows st op key → ∀ v, Recency.Oldest (w.step st op).writes (w.candidates key) v →
    Recency.Oldest (w.step st op).uses (w.candidates key) v

theorem Ordered.step (hevict : st.shouldEvict = true) (hcap : 0 ≤ st.capacity)
    (hmax : st.capacity < st.maxEvictionCount) (h : w.Ordered st) (op : CacheOp V) :
    (w.step st op).Ordered st := by
  obtain ⟨m, hm⟩ := h.mirrors
  obtain ⟨hmirrors, hcovered⟩ := CacheOp.covered_step st op hm h.covered
  refine ⟨hmirrors, hcovered.mpr fun _ key _ => Or.inr (h.hasRoom hmax key),
    CacheOp.within_step hevict hcap op h.within, ?_⟩
  show (op.step st w.cache).evictionAlgorithm.RunsLru _ (op.written st w.cache ++ w.writes)
  rcases CacheOp.written_cases st hm.backend op with
    ⟨net, key, value, expiration, hwritten, -, hstep, hok⟩ | ⟨hwritten, -⟩
  · rw [hwritten, hstep]
    rcases Cache.set_cases st net key value expiration hm.backend with
      ⟨e, a, herr⟩ | ⟨item, hc', rfl, hhc', hset⟩
    · rw [herr] at hok
      cases hok
    · have hlru : hc'.evictionAlgorithm.RunsLru st.maxEvictionCount (item.key :: w.writes) :=
        hhc' ▸ h.lru.set item.key value
      rw [hset]
      dsimp only
      split
      · exact Cache.algorithm_evictItem Evictor.RunsLru.delete Evictor.RunsLru.evict net
          (hhc' ▸ hm.store item value _) hlru
      · exact hlru
  · rw [hwritten]
    exact CacheOp.algorithm_step Evictor.RunsLru.delete Evictor.RunsLru.evict st op hm h.lru
      hwritten

/-- The key that goes is the key written least recently. -/
theorem Ordered.victim (hevict : st.shouldEvict = true) (hmax : st.capacity < st.maxEvictionCount)
    (h : w.Ordered st) {op : CacheOp V} {key : Key} (hover : w.Overflows st op key) :
    ∃ v, Recency.Oldest (w.step st op).writes (w.candidates key) v ∧
      {k | k ∈ (w.step st op).cache.backend.stored.keys} = w.candidates key \ {v} := by
  obtain ⟨m, hm⟩ := h.mirrors
  obtain ⟨hkey, hnew, hfull⟩ := hover
  have hstored : w.cache.backend.stored = m := by
    rw [hm.backend]
    rfl
  rw [hstored] at hnew
  rcases CacheOp.written_cases st hm.backend op with
    ⟨net, key', value, expiration, hwritten, -, hstep, hok⟩ | ⟨hwritten, -⟩
  · rw [hwritten, List.mem_singleton] at hkey
    subst hkey
    rw [Watched.step]
    dsimp only
    rw [hwritten, hstep]
    rcases Cache.set_cases st net key value expiration hm.backend with
      ⟨e, a, herr⟩ | ⟨item, hc', rfl, hhc', hset⟩
    · rw [herr] at hok
      cases hok
    · have hm' : hc'.Mirrors (m.set item) := hhc' ▸ hm.store item value _
      have hlru : hc'.evictionAlgorithm.RunsLru st.maxEvictionCount (item.key :: w.writes) :=
        hhc' ▸ h.lru.set item.key value
      -- All candidates are tracked.
      have hkeys : Tracking.keys hc'.evictionAlgorithm = w.candidates item.key := by
        have htracked : Tracking.keys w.cache.evictionAlgorithm = {k | k ∈ m.keys} :=
          Set.Subset.antisymm hm.stored (hm.covered_iff.mp h.covered)
        rw [candidates, hstored, ← htracked, hhc']
        exact (Policy.set_spec item.key value hm.sound).2.2.mpr (Or.inr (h.hasRoom hmax item.key))
      obtain ⟨v, hv, holdest⟩ := hlru.victim ⟨item.key, hkeys ▸ Set.mem_insert _ _⟩
      rw [hkeys] at holdest
      have hcount : hc'.backend.count > st.capacity := by
        have hone := m.count_set item
        rw [if_neg hnew] at hone
        rw [hm.backend] at hfull
        rw [hm'.backend]
        show ((m.set item).count : Int) > st.capacity
        rw [hone]
        exact hfull
      refine ⟨v, holdest, ?_⟩
      rw [hset]
      dsimp only
      rw [if_pos ⟨hevict, hcount⟩]
      rw [Cache.backend_evictItem net hm'.backend hv]
      ext k
      show k ∈ ((m.set item).remove v).keys ↔ _
      rw [ConcurrentMap.mem_keys_remove, ConcurrentMap.mem_keys_set, candidates, hstored,
        Set.mem_sdiff, and_comm]
      exact Iff.rfl
  · rw [hwritten] at hkey
    cases hkey

theorem Ordered.candidates_written (h : w.Ordered st) {op : CacheOp V} {key : Key}
    (hkey : key ∈ op.written st w.cache) : ∀ k ∈ w.candidates key, k ∈ (w.step st op).writes := by
  rintro k (rfl | hk)
  · exact List.mem_append_left _ hkey
  · obtain ⟨t, ht, -, -, hwritten⟩ := h.lru
    have htracked := h.covered k hk
    rw [ht] at htracked
    exact List.mem_append_right _ (hwritten k htracked)

/-- The right key goes exactly when the order of the writes agrees with the order of the uses
about it. -/
theorem Ordered.evictsOldest_iff (hevict : st.shouldEvict = true)
    (hmax : st.capacity < st.maxEvictionCount) (h : w.Ordered st) (op : CacheOp V) :
    w.EvictsOldest st op ↔ w.WrittenAsUsed st op := by
  refine forall₂_congr fun key hover => ?_
  obtain ⟨v, holdest, hafter⟩ := h.victim hevict hmax hover
  constructor
  · rintro ⟨v', hused, hafter'⟩ v'' holdest'
    have hv'' : v'' = v := holdest'.unique holdest (h.candidates_written hover.1)
    have hv' : v' = v := by
      by_contra hne
      have hmem : v' ∈ w.candidates key \ {v} := ⟨hused.mem, hne⟩
      rw [← hafter, hafter'] at hmem
      exact hmem.2 rfl
    rwa [hv'', ← hv']
  · intro hagree
    exact ⟨v, hagree v holdest, hafter⟩

end Watched

/-! ## An algorithm with too little room -/

/-- The keys of a filled cache, newest first. -/
def fillKeys : Nat → List Key
  | 0 => []
  | n + 1 => fillKey n :: fillKeys n

theorem mem_fillKeys {n : Nat} {k : Key} : k ∈ fillKeys n ↔ ∃ i < n, k = fillKey i := by
  induction n with
  | zero => simp [fillKeys]
  | succ n ih =>
      rw [fillKeys, List.mem_cons, ih]
      constructor
      · rintro (rfl | ⟨i, hi, rfl⟩)
        · exact ⟨n, by omega, rfl⟩
        · exact ⟨i, by omega, rfl⟩
      · rintro ⟨i, hi, rfl⟩
        by_cases hin : i = n
        · exact Or.inl (hin ▸ rfl)
        · exact Or.inr ⟨i, by omega, rfl⟩

theorem fillKey_notMem (n : Nat) : fillKey n ∉ fillKeys n := by
  intro hmem
  obtain ⟨i, hi, heq⟩ := mem_fillKeys.mp hmem
  have hni := fillKey_injective heq
  omega

theorem nodup_fillKeys (n : Nat) : (fillKeys n).Nodup := by
  induction n with
  | zero => exact List.nodup_nil
  | succ n ih => exact List.nodup_cons.mpr ⟨fillKey_notMem n, ih⟩

theorem getLast?_fillKeys (n : Nat) : (fillKeys (n + 1)).getLast? = some (fillKey 0) := by
  induction n with
  | zero => rfl
  | succ n ih => rw [fillKeys, List.getLast?_cons, ih, Option.getD_some]

theorem length_fillKeys (n : Nat) : (fillKeys n).length = n := by
  induction n with
  | zero => rfl
  | succ n ih => rw [fillKeys, List.length_cons, ih]

/-- The first key is out of reach of fewer than all. -/
theorem fillKey_zero_notMem_take {n max : Nat} (h : max ≤ n) :
    fillKey 0 ∉ (fillKeys (n + 1)).take max := by
  obtain ⟨front, hfront⟩ := List.getLast?_eq_some_iff.mp (getLast?_fillKeys n)
  have hnodup := nodup_fillKeys (n + 1)
  have hlen := length_fillKeys (n + 1)
  rw [hfront] at hnodup hlen
  rw [List.length_append, List.length_singleton] at hlen
  rw [hfront, List.take_append_of_le_length (by omega)]
  intro hmem
  exact List.disjoint_of_nodup_append hnodup (List.mem_of_mem_take hmem) List.mem_cons_self

/-- A cache after so many `Set`s of new keys, none of them evicted, over LRU with room for
`max`. -/
structure Filled (max n : Nat) (m : ConcurrentMap V) (t : Table Key (Option V))
    (hc : Cache V (Evictor V)) : Prop where
  backend : hc.backend = .inMemory ⟨m⟩
  stored : ∀ k, k ∈ m.keys ↔ k ∈ fillKeys n
  count : m.count = n
  algorithm : hc.evictionAlgorithm = .single (.lru ⟨t⟩)
  capacity : t.capacity = max
  tracked : t.keys = (fillKeys n).take max

namespace Filled

variable {max n : Nat} {m : ConcurrentMap V} {t : Table Key (Option V)}
  {hc : Cache V (Evictor V)}

theorem store (h : Filled max n m t hc) {item : Item V} (hkey : item.key = fillKey n)
    (value : Option V) (allocation : Int) :
    Filled max (n + 1) (m.set item) (t.set .last (fun _ => value) value (fillKey n))
      { backend := .inMemory ⟨m.set item⟩
        memoryAllocation := allocation
        evictionAlgorithm := EvictionAlgorithm.set (fillKey n) value hc.evictionAlgorithm } where
  backend := rfl
  stored := by
    intro k
    rw [ConcurrentMap.mem_keys_set, h.stored, hkey, fillKeys, List.mem_cons]
  count := by
    rw [ConcurrentMap.count_set, hkey, if_neg (mt (h.stored _).mp (fillKey_notMem n)), h.count]
  algorithm := by
    rw [h.algorithm]
    rfl
  capacity := (t.capacity_set ..).trans h.capacity
  tracked := by
    have hnew : fillKey n ∉ t.keys := by
      rw [h.tracked]
      exact fun hmem => fillKey_notMem n (List.mem_of_mem_take hmem)
    rw [t.keys_set_last, Recency.touch_of_notMem hnew, h.tracked, h.capacity, fillKeys]
    cases max with
    | zero => rfl
    | succ max => rw [List.take_succ_cons, List.take_succ_cons, List.take_take, Nat.min_eq_left
        (Nat.le_succ max)]

theorem candidates_eq {w : Watched V} (h : Filled max n m t w.cache) :
    w.candidates (fillKey n) = {k | k ∈ fillKeys (n + 1)} := by
  have hstored : w.cache.backend.stored = m := by
    rw [h.backend]
    rfl
  ext k
  rw [Watched.candidates, hstored, Set.mem_insert_iff, Set.mem_ofPred_eq, h.stored,
    Set.mem_ofPred_eq, fillKeys, List.mem_cons]

/-- The algorithm has forgotten the first key, so it names another one or none. -/
theorem first_kept (h : Filled max (n + 1) m t hc) (hmax : max ≤ n) :
    fillKey 0 ∈ (hc.evictItem World.allUp).1.backend.stored.keys := by
  have hmem : fillKey 0 ∈ m.keys :=
    (h.stored _).mpr (List.mem_of_getLast? (getLast?_fillKeys n))
  cases hvictim : (EvictionAlgorithm.evict hc.evictionAlgorithm).2 with
  | none =>
      rcases Cache.evictItem_cases World.allUp hc h.backend with ⟨-, hresult⟩ | ⟨k, hk, -⟩
      · rw [hresult]
        dsimp only
        rw [h.backend]
        exact hmem
      · rw [hk] at hvictim
        cases hvictim
  | some k =>
      rw [Cache.backend_evictItem World.allUp h.backend hvictim]
      show fillKey 0 ∈ (m.remove k).keys
      refine ConcurrentMap.mem_keys_remove.mpr ⟨fun heq => ?_, hmem⟩
      subst heq
      rw [h.algorithm] at hvictim
      have hlast : t.keys.getLast? = some (fillKey 0) := t.keys_evict_last.1.symm.trans hvictim
      have htracked := List.mem_of_getLast? hlast
      rw [h.tracked] at htracked
      exact fillKey_zero_notMem_take hmax htracked

variable [SizedValue V] [SetSize V] {st : Settings} {value : V} {size : Int}

/-- The next `Set` succeeds, and evicts if it goes over the capacity. -/
theorem set (h : Filled max n m t hc) (st : Settings) (hlimit : st.maxCacheSize = 0)
    (hsize : SetSize.setSize (some value) = some size) :
    ∃ m' t' hc', Filled max (n + 1) m' t' hc' ∧
      hc.set st World.allUp (fillKey n) (some value) 0 =
        (if st.shouldEvict ∧ (n : Int) + 1 > st.capacity then (hc'.evictItem World.allUp).1
          else hc', none) := by
  have hok := set_fillKey_ok hlimit hsize n h.backend
  rcases Cache.set_cases st World.allUp (fillKey n) (some value) 0 h.backend with
    ⟨e, a, herr⟩ | ⟨item, hc', hkey, hhc', hset⟩
  · rw [herr] at hok
    cases hok
  · have hnext := h.store hkey (some value) (hc.memoryAllocation + item.size)
    rw [← hhc'] at hnext
    refine ⟨_, _, hc', hnext, ?_⟩
    rw [hset, hnext.backend]
    show (if st.shouldEvict ∧ ((m.set item).count : Int) > st.capacity then _ else _, none) = _
    rw [hnext.count]
    rfl

theorem used_set (h : Filled max n m t hc) (st : Settings) (hlimit : st.maxCacheSize = 0)
    (hsize : SetSize.setSize (some value) = some size) :
    (CacheOp.set World.allUp (fillKey n) (some value) 0).used st hc = [fillKey n] := by
  have hok := set_fillKey_ok hlimit hsize n h.backend
  rw [CacheOp.used, CacheOp.exec, hok]
  rfl

/-- Filling the cache up to its capacity evicts nothing. -/
theorem run {w : Watched V} (h : Filled max 0 m t w.cache) (st : Settings) (huses : w.uses = [])
    (hlimit : st.maxCacheSize = 0) (hsize : SetSize.setSize (some value) = some size) {n : Nat}
    (hn : n ≤ st.capacity) :
    ((fill value n).foldl (Watched.step st) w).uses = fillKeys n ∧
      ∃ m t, Filled max n m t ((fill value n).foldl (Watched.step st) w).cache := by
  induction n with
  | zero => exact ⟨huses, m, t, h⟩
  | succ n ih =>
      obtain ⟨huses', m', t', h'⟩ := ih (by omega)
      rw [fill_succ, List.foldl_append]
      generalize (fill value n).foldl (Watched.step st) w = w' at huses' h' ⊢
      obtain ⟨m'', t'', hc'', hnext, hset⟩ := h'.set st hlimit hsize
      rw [if_neg (by omega)] at hset
      refine ⟨?_, m'', t'', ?_⟩
      · show (CacheOp.set _ _ _ _).used st w'.cache ++ w'.uses = _
        rw [h'.used_set st hlimit hsize, huses']
        rfl
      · show Filled max (n + 1) m'' t'' (w'.cache.set st _ _ _ _).1
        rw [hset]
        exact hnext

theorem overflows {w : Watched V} (h : Filled max n m t w.cache) (hlimit : st.maxCacheSize = 0)
    (hsize : SetSize.setSize (some value) = some size) (hn : n = st.capacity) :
    w.Overflows st (.set World.allUp (fillKey n) (some value) 0) (fillKey n) := by
  have hstored : w.cache.backend.stored = m := by
    rw [h.backend]
    rfl
  refine ⟨?_, ?_, ?_⟩
  · show fillKey n ∈ (CacheOp.set _ _ _ _).used st w.cache
    rw [h.used_set st hlimit hsize]
    exact List.mem_cons_self
  · rw [hstored, h.stored]
    exact fillKey_notMem n
  · rw [Backend.count, hstored, h.count]
    omega

/-- One key more, and a key other than the oldest goes. -/
theorem not_evictsOldest {w : Watched V} (h : Filled max n m t w.cache)
    (huses : w.uses = fillKeys n) (hlimit : st.maxCacheSize = 0)
    (hsize : SetSize.setSize (some value) = some size) (hevict : st.shouldEvict = true)
    (hn : n = st.capacity) (hmax : max ≤ n) :
    ¬w.EvictsOldest st (.set World.allUp (fillKey n) (some value) 0) := by
  intro hoff
  obtain ⟨v, holdest, hafter⟩ := hoff _ (h.overflows hlimit hsize hn)
  rw [h.candidates_eq] at holdest hafter
  -- By the uses, the first key is the oldest.
  have hfirst : Recency.Oldest (fillKeys (n + 1)) {k | k ∈ fillKeys (n + 1)} (fillKey 0) :=
    (Recency.sorted_self (nodup_fillKeys (n + 1))).oldest (getLast?_fillKeys n)
  have huses' : (w.step st (.set World.allUp (fillKey n) (some value) 0)).uses =
      fillKeys (n + 1) := by
    rw [Watched.step]
    dsimp only
    rw [h.used_set st hlimit hsize, huses]
    rfl
  rw [huses'] at holdest
  have hv : v = fillKey 0 := holdest.unique hfirst (fun k hk => hk)
  obtain ⟨m', t', hc', hnext, hset⟩ := h.set st hlimit hsize
  rw [if_pos ⟨hevict, by omega⟩] at hset
  have hkept : fillKey 0 ∈
      (w.step st (.set World.allUp (fillKey n) (some value) 0)).cache.backend.stored.keys := by
    show fillKey 0 ∈ (w.cache.set st _ _ _ _).1.backend.stored.keys
    rw [hset]
    exact hnext.first_kept hmax
  have hgone : fillKey 0 ∈ {k | k ∈ fillKeys (n + 1)} \ {v} := hafter ▸ hkept
  exact hgone.2 hv.symm

end Filled

/-! ## From the configuration -/

theorem lru_initEvictionAlgorithm {lib : ShardLib} {cfg : Config} {n : Nat} {e : Evictor V}
    (hname : cfg.evictionAlgorithmName = "" ∨ cfg.evictionAlgorithmName = "lru")
    (hshards : cfg.evictionShardCount ≤ 1) (h : initEvictionAlgorithm lib cfg n = .ok e) :
    e = .single (.lru ⟨.new n⟩) := by
  obtain ⟨-, name, hlru, hcases⟩ := initEvictionAlgorithm_ok h
  rcases hcases with ⟨hmany, -⟩ | ⟨-, a, ha, rfl⟩
  · omega
  · have hname' : name = "lru" := by
      rcases hname with heq | heq
      · rw [hlru, heq]
        rfl
      · rw [hlru, heq]
        rfl
    rw [hname'] at ha
    cases ha
    rfl

section

variable [SizedValue V] [SetSize V]

/-- With LRU in one shard and room for more keys than the cache has, the key an overflow removes
is the one used least recently all along a run exactly when it is the one written least recently
each time.  With less room, which is the default, and no limit on the size, some run of `Set`s
removes another key. -/
theorem evictsOldest_run_iff {lib : ShardLib} {cfg : Config} {st : Settings}
    {hc : Cache V (Evictor V)} (hnew : Cache.new lib cfg = .ok (st, hc))
    (hcap : 0 < cfg.capacity) (hinterval : cfg.evictionInterval = 0)
    (hname : cfg.evictionAlgorithmName = "" ∨ cfg.evictionAlgorithmName = "lru")
    (hshards : cfg.evictionShardCount ≤ 1) :
    (cfg.capacity < st.maxEvictionCount → ∀ ops,
      Along (Watched.step st) (Watched.EvictsOldest st) { cache := hc } ops ↔
        Along (Watched.step st) (Watched.WrittenAsUsed st) { cache := hc } ops) ∧
    (st.maxEvictionCount ≤ cfg.capacity → cfg.maxCacheSize ≤ 0 →
      ∀ (value : V) (size : Int), SetSize.setSize (some value) = some size → ∃ ops,
        ¬Along (Watched.step st) (Watched.EvictsOldest st) { cache := hc } ops) := by
  obtain ⟨rfl, hb, hinit⟩ := Cache.new_ok hnew
  have hlru := lru_initEvictionAlgorithm hname hshards hinit
  have hevict : (configureEvictionSettings cfg).shouldEvict = true :=
    decide_eq_true ⟨hinterval, hcap⟩
  have hnone : ∀ k, k ∉ Tracking.keys hc.evictionAlgorithm := by
    intro k hk
    rw [hlru] at hk
    exact List.not_mem_nil hk
  refine ⟨fun hmax ops => ?_, fun hmax hlimit value size hsize => ?_⟩
  · have hstart : Watched.Ordered (configureEvictionSettings cfg)
        ({ cache := hc } : Watched V) := by
      refine ⟨⟨.empty, hb, ?_, fun k hk => absurd hk (hnone k)⟩, fun k hk => ?_,
        ⟨.empty, ⟨hb, ?_, fun k hk => absurd hk (hnone k)⟩, hcap.le⟩, ?_⟩
      · rw [hlru]
        trivial
      · rw [hb] at hk
        exact absurd hk List.not_mem_nil
      · rw [hlru]
        exact maxEvictionCount_ne_zero hcap
      · exact ⟨_, hlru, rfl, List.Pairwise.nil, fun k hk => absurd hk List.not_mem_nil⟩
    exact along_congr (I := Watched.Ordered (configureEvictionSettings cfg))
      (fun w op h => h.step hevict hcap.le hmax op)
      (fun w op h => h.evictsOldest_iff hevict hmax op) hstart ops
  · have hlimit' : (configureEvictionSettings cfg).maxCacheSize = 0 := max_eq_left hlimit
    have hn : (cfg.capacity.toNat : Int) = cfg.capacity := Int.toNat_of_nonneg hcap.le
    have hempty : Filled (configureEvictionSettings cfg).maxEvictionCount 0 .empty
        (.new (configureEvictionSettings cfg).maxEvictionCount) hc :=
      ⟨hb, fun k => Iff.rfl, rfl, hlru, rfl, (List.take_nil).symm⟩
    obtain ⟨huses, m, t, hfull⟩ := Filled.run (w := { cache := hc }) hempty
      (configureEvictionSettings cfg) rfl hlimit' hsize hn.le
    refine ⟨fill value (cfg.capacity.toNat + 1), fun halong => ?_⟩
    rw [fill_succ, along_append] at halong
    exact hfull.not_evictsOldest huses hlimit' hsize hevict hn (by omega) halong.2.1

end

/-- LRU with room for a key more than the cache has. -/
def roomyLru : Config :=
  { capacity := 2, evictionInterval := 0, evictionShardCount := 1, maxEvictionCount := 3 }

/-- Three `Set`s remove the first key. -/
theorem evictsOldest_run_sets :
    ∃ st hc, Cache.new (V := Str) (.checked fun _ => 0) roomyLru = .ok (st, hc) ∧
      Along (Watched.step st) (Watched.EvictsOldest st) { cache := hc } (fill [1] 3) := by
  have hcap : 0 < roomyLru.capacity := by decide
  have hshards : roomyLru.evictionShardCount ≤ 1 := by decide
  have hrun := @evictsOldest_run_iff Str _ _ (.checked fun _ => 0) roomyLru _ _ rfl hcap rfl
    (Or.inl rfl) hshards
  refine ⟨_, _, rfl, (hrun.1 (by decide) _).mpr ?_⟩
  exact ⟨fun _ _ _ h => h, fun _ _ _ h => h, fun _ _ _ h => h, trivial⟩

/-- Two `Set`s, a `Get` of the first key and a `Set` of a third. -/
def readBeforeSet : List (CacheOp Str) :=
  fill [1] 2 ++ [.get World.allUp (fillKey 0), .set World.allUp (fillKey 2) (some [1]) 0]

/-- The first key goes although the second was not used since. -/
theorem evictsOldest_run_read :
    ∃ st hc, Cache.new (V := Str) (.checked fun _ => 0) roomyLru = .ok (st, hc) ∧
      Along (Watched.step st) (fun w op => (op.exec st w.cache).2 = none) { cache := hc }
        readBeforeSet ∧
      (readBeforeSet.foldl (Watched.step st) { cache := hc }).uses =
        [fillKey 2, fillKey 0, fillKey 1, fillKey 0] ∧
      (readBeforeSet.foldl (Watched.step st) { cache := hc }).cache.backend.stored.keys =
        [fillKey 2, fillKey 1] :=
  ⟨_, _, rfl, ⟨rfl, rfl, rfl, rfl, trivial⟩, rfl, rfl⟩

end HyperCache
