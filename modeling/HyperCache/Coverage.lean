/-
Whether every stored key can still be evicted.

A cache finds its victims through its eviction algorithm only, so an item whose key
the algorithm does not track stays until it expires or is removed by name.  The
algorithm tracks stored keys only, whatever the cache does.  It tracks all of them
exactly as long as no `Set` makes it drop one: the algorithm drops a key of its own
accord when it is full, and the cache is not told.
-/
import HyperCache.Replacement
import HyperCache.Capacity

namespace HyperCache

open Runs

variable {V A : Type}

namespace Cache

variable [EvictionAlgorithm V A] [Tracking V A]

/-- Every stored key is tracked. -/
def Covered (hc : Cache V A) : Prop :=
  ∀ k ∈ hc.backend.stored.keys, k ∈ Tracking.keys hc.evictionAlgorithm

variable [Policy V A]

/-- A cache over the in-memory backend whose algorithm tracks stored keys only. -/
structure Mirrors (m : ConcurrentMap V) (hc : Cache V A) : Prop where
  backend : hc.backend = .inMemory ⟨m⟩
  sound : Policy.Sound hc.evictionAlgorithm
  stored : ∀ k ∈ Tracking.keys hc.evictionAlgorithm, k ∈ m.keys

variable {m : ConcurrentMap V} {hc : Cache V A}

theorem Mirrors.covered_iff (h : Mirrors m hc) :
    hc.Covered ↔ ∀ k ∈ m.keys, k ∈ Tracking.keys hc.evictionAlgorithm := by
  rw [Covered, h.backend]
  rfl

theorem mirrors_remove (net : Net) (keys : List Key) (h : Mirrors m hc) :
    Mirrors (keys.foldl ConcurrentMap.remove m) (hc.remove net keys).1 ∧
      ((hc.remove net keys).1.Covered ↔
        ∀ k ∈ m.keys, k ∉ keys → k ∈ Tracking.keys hc.evictionAlgorithm) := by
  obtain ⟨hsound, hkeys⟩ := untrack_spec Policy.delete_spec m keys h.sound h.stored
  have hafter : Mirrors (keys.foldl ConcurrentMap.remove m) (hc.remove net keys).1 := by
    rw [remove_inMemory net m keys h.backend]
    refine ⟨rfl, hsound, fun k hk => ?_⟩
    obtain ⟨hold, hnot⟩ := (hkeys k).mp hk
    exact ConcurrentMap.mem_keys_foldl_remove.mpr ⟨h.stored k hold, hnot⟩
  refine ⟨hafter, hafter.covered_iff.trans (forall_congr' fun k => ?_)⟩
  rw [ConcurrentMap.mem_keys_foldl_remove, remove_inMemory net m keys h.backend]
  show _ → k ∈ Tracking.keys (m.untrack keys hc.evictionAlgorithm) ↔ _
  rw [hkeys]
  tauto

theorem Mirrors.store (h : Mirrors m hc) (item : Item V) (value : Option V) (allocation : Int) :
    Mirrors (m.set item)
      { backend := .inMemory ⟨m.set item⟩
        memoryAllocation := allocation
        evictionAlgorithm := EvictionAlgorithm.set item.key value hc.evictionAlgorithm } := by
  obtain ⟨hsound, hsub, -⟩ := Policy.set_spec item.key value h.sound
  refine ⟨rfl, hsound, fun k hk => ConcurrentMap.mem_keys_set.mpr ?_⟩
  exact (hsub hk).imp_right (h.stored k)

theorem mirrors_evictItem (net : Net) (h : Mirrors m hc) :
    (∃ m', Mirrors m' (hc.evictItem net).1) ∧ ((hc.evictItem net).1.Covered ↔ hc.Covered) := by
  have hsound := (Policy.evict_spec h.sound).1
  rcases evictItem_cases net hc h.backend with ⟨hnone, hresult⟩ | ⟨key, hsome, hresult⟩
  · obtain ⟨-, hkeys⟩ := Policy.of_evict_none h.sound hnone
    rw [hresult]
    refine ⟨⟨m, h.backend, hsound, fun k hk => h.stored k (hkeys ▸ hk)⟩, ?_⟩
    rw [Covered, Covered]
    dsimp only
    rw [hkeys]
  · obtain ⟨hloose, hkeys⟩ := Policy.of_evict_some h.sound hsome
    have hkey := Policy.loose_subset h.sound hloose
    have hmid : Mirrors m
        { hc with evictionAlgorithm := (EvictionAlgorithm.evict hc.evictionAlgorithm).1 } :=
      ⟨h.backend, hsound, fun k hk => h.stored k (by rw [hkeys] at hk; exact hk.1)⟩
    obtain ⟨hafter, hcovered⟩ := mirrors_remove net [key] hmid
    rw [hresult]
    refine ⟨⟨_, hafter⟩, hcovered.trans ?_⟩
    rw [h.covered_iff]
    refine forall₂_congr fun k _ => ?_
    show (_ → k ∈ Tracking.keys (EvictionAlgorithm.evict hc.evictionAlgorithm).1) ↔ _
    rw [hkeys, List.mem_singleton, Set.mem_sdiff, Set.mem_singleton_iff]
    -- The victim was tracked, and every other key is where it was.
    by_cases hk : k = key
    · rw [hk]
      exact ⟨fun _ => hkey, fun _ hne => absurd rfl hne⟩
    · exact ⟨fun hall => (hall hk).1, fun hold _ => ⟨hold, hk⟩⟩

theorem mirrors_get (net : Net) (key : Key) (h : Mirrors m hc) :
    (∃ m', Mirrors m' (hc.get net key).1) ∧ ((hc.get net key).1.Covered ↔ hc.Covered) := by
  rcases get_cases net key h.backend with hsame | ⟨it, hit, htouch⟩
  · rw [hsame]
    exact ⟨⟨m, h⟩, Iff.rfl⟩
  · have hmem : (it.touch net.now).key ∈ m.keys :=
      ConcurrentMap.mem_keys.mpr ⟨it, by rw [← hit, ← ConcurrentMap.key_of_get hit]; rfl⟩
    have hkeys : ∀ k, k ∈ (m.set (it.touch net.now)).keys ↔ k ∈ m.keys := by
      intro k
      rw [ConcurrentMap.mem_keys_set]
      exact ⟨fun hor => hor.elim (fun heq => heq ▸ hmem) id, Or.inr⟩
    have hafter : Mirrors (m.set (it.touch net.now)) (hc.get net key).1 := by
      rw [htouch]
      exact ⟨rfl, h.sound, fun k hk => (hkeys k).mpr (h.stored k hk)⟩
    refine ⟨⟨_, hafter⟩, ?_⟩
    rw [hafter.covered_iff, h.covered_iff, htouch]
    exact forall_congr' fun k => imp_congr_left (hkeys k)

theorem mirrors_clear (s : ItemSorts V) (h : Mirrors m hc) :
    (∃ m', Mirrors m' (hc.clear s).1) ∧ (hc.clear s).1.Covered := by
  obtain ⟨hsound, hkeys⟩ := foldl_delete_spec Policy.delete_spec m.all h.sound
  rw [clear_inMemory s h.backend]
  refine ⟨⟨.empty, rfl, hsound, fun k hk => ?_⟩, fun k hk => absurd hk List.not_mem_nil⟩
  obtain ⟨hold, hnot⟩ := hkeys k hk
  rw [ConcurrentMap.map_key_all] at hnot
  exact absurd (h.stored k hold) hnot

variable [SizedValue V] [SetSize V]

theorem mirrors_after_set (st : Settings) (net : Net) (key : Key) (value : Option V)
    (expiration : Duration) (h : Mirrors m hc) :
    ∃ m', Mirrors m' (hc.set st net key value expiration).1 := by
  rcases set_cases st net key value expiration h.backend with
    ⟨e, a, herr⟩ | ⟨item, hc', rfl, hhc', hset⟩
  · rw [herr]
    exact ⟨m, h.backend, h.sound, h.stored⟩
  · have hmid : Mirrors (m.set item) hc' := hhc' ▸ h.store item value _
    rw [hset]
    dsimp only
    split
    · exact (mirrors_evictItem net hmid).1
    · exact ⟨_, hmid⟩

/-- A `Set` into a covered cache leaves it covered exactly if it fails or the algorithm takes the
key without dropping another. -/
theorem mirrors_set (st : Settings) (net : Net) (key : Key) (value : Option V)
    (expiration : Duration) (h : Mirrors m hc) (hcov : hc.Covered) :
    (∃ m', Mirrors m' (hc.set st net key value expiration).1) ∧
      ((hc.set st net key value expiration).1.Covered ↔
        ((hc.set st net key value expiration).2 = none →
          key ∈ Tracking.keys hc.evictionAlgorithm ∨
            Policy.HasRoom key hc.evictionAlgorithm)) := by
  refine ⟨mirrors_after_set st net key value expiration h, ?_⟩
  rcases set_cases st net key value expiration h.backend with
    ⟨e, a, herr⟩ | ⟨item, hc', rfl, hhc', hset⟩
  · rw [herr]
    refine ⟨fun _ hok => ?_, fun _ => hcov⟩
    cases hok
  · obtain ⟨-, hsub, hiff⟩ := Policy.set_spec item.key value h.sound
    have hmid : Mirrors (m.set item) hc' := hhc' ▸ h.store item value _
    have hstored : {k | k ∈ (m.set item).keys} =
        insert item.key (Tracking.keys hc.evictionAlgorithm) := by
      ext k
      rw [Set.mem_ofPred_eq, ConcurrentMap.mem_keys_set, Set.mem_insert_iff]
      exact or_congr Iff.rfl ⟨h.covered_iff.mp hcov k, h.stored k⟩
    have hcovered : hc'.Covered ↔ item.key ∈ Tracking.keys hc.evictionAlgorithm ∨
        Policy.HasRoom item.key hc.evictionAlgorithm := by
      rw [← hiff, hmid.covered_iff, hhc']
      refine ⟨fun hall => hsub.antisymm (hstored ▸ hall), fun heq k hk => ?_⟩
      show k ∈ Tracking.keys (EvictionAlgorithm.set item.key value hc.evictionAlgorithm)
      rw [heq, ← hstored]
      exact hk
    rw [hset]
    dsimp only
    rw [forall_prop_of_true rfl]
    split
    · exact (mirrors_evictItem net hmid).2.trans hcovered
    · exact hcovered

end Cache

namespace CacheOp

/-- The key of a `Set` or `GetOrSet`. -/
def target : CacheOp V → Option Key
  | .set _ key _ _ => some key
  | .getOrSet _ key _ _ => some key
  | _ => none

variable [EvictionAlgorithm V A] [Tracking V A] [Policy V A] [SizedValue V] [SetSize V]

/-- An operation that stores a key without an error finds it tracked or finds room for it. -/
def FindsRoom (st : Settings) (hc : Cache V A) (op : CacheOp V) : Prop :=
  (op.exec st hc).2 = none → ∀ key ∈ op.target,
    key ∈ Tracking.keys hc.evictionAlgorithm ∨ Policy.HasRoom key hc.evictionAlgorithm

theorem findsRoom_of_target_none (st : Settings) (hc : Cache V A) {op : CacheOp V}
    (h : op.target = none) : op.FindsRoom st hc := by
  intro _ key hkey
  rw [h] at hkey
  cases hkey

theorem findsRoom_iff (st : Settings) (hc : Cache V A) {op : CacheOp V} {key : Key}
    (h : op.target = some key) :
    op.FindsRoom st hc ↔ ((op.exec st hc).2 = none →
      key ∈ Tracking.keys hc.evictionAlgorithm ∨ Policy.HasRoom key hc.evictionAlgorithm) := by
  rw [FindsRoom, h]
  refine imp_congr_right fun _ => ⟨fun hall => hall key rfl, fun hkey key' heq => ?_⟩
  cases heq
  exact hkey

/-- Whatever the cache does, the algorithm tracks stored keys only. -/
theorem mirrors_step (st : Settings) {m : ConcurrentMap V} {hc : Cache V A} (op : CacheOp V)
    (h : hc.Mirrors m) : ∃ m', (op.step st hc).Mirrors m' := by
  cases op with
  | set net key value expiration => exact Cache.mirrors_after_set st net key value expiration h
  | getOrSet net key value expiration =>
      rcases getOrSet_cases st net key value expiration h.backend with ⟨-, hread⟩ | ⟨-, hset⟩
      · rw [hread]
        exact (Cache.mirrors_get net key h).1
      · rw [step, hset]
        exact Cache.mirrors_after_set st net key value expiration h
  | get net key => exact (Cache.mirrors_get net key h).1
  | remove net keys => exact ⟨_, (Cache.mirrors_remove net keys h).1⟩
  | clear s => exact (Cache.mirrors_clear s h).1
  | evictionLoop net =>
      refine Cache.evictUpTo_keeps (I := fun hc => ∃ m, hc.Mirrors m) ?_ st net ?_
        st.maxEvictionCount ⟨m, h⟩
      · rintro hc ⟨m, hm⟩
        exact ⟨m, hm.backend⟩
      · rintro hc ⟨m, hm⟩
        exact (Cache.mirrors_evictItem net hm).1
  | expirationLoop s now nets =>
      refine Cache.expirationLoop_keeps (I := fun hc => ∃ m, hc.Mirrors m) s now nets ?_ ⟨m, h⟩
      rintro hc key ⟨m, hm⟩
      exact ⟨_, (Cache.mirrors_remove (nets key) [key] hm).1⟩

/-- What an operation does to a covered cache. -/
theorem covered_step (st : Settings) {m : ConcurrentMap V} {hc : Cache V A} (op : CacheOp V)
    (h : hc.Mirrors m) (hcov : hc.Covered) :
    (∃ m', (op.step st hc).Mirrors m') ∧ ((op.step st hc).Covered ↔ op.FindsRoom st hc) := by
  refine ⟨mirrors_step st op h, ?_⟩
  -- An operation without a target keeps the cache covered.
  have hother : ∀ {op : CacheOp V}, op.target = none → (op.step st hc).Covered →
      ((op.step st hc).Covered ↔ op.FindsRoom st hc) :=
    fun htarget hkept => ⟨fun _ => findsRoom_of_target_none st hc htarget, fun _ => hkept⟩
  cases op with
  | set net key value expiration =>
      rw [findsRoom_iff st hc rfl]
      exact (Cache.mirrors_set st net key value expiration h hcov).2
  | getOrSet net key value expiration =>
      rcases getOrSet_cases st net key value expiration h.backend with ⟨hfound, hread⟩ | ⟨-, hset⟩
      · have hkey : key ∈ m.keys :=
          ConcurrentMap.mem_keys.mpr (Option.ne_none_iff_exists'.mp hfound)
        rw [hread]
        refine ⟨fun _ => (findsRoom_iff st hc rfl).mpr fun _ => ?_,
          fun _ => (Cache.mirrors_get net key h).2.mpr hcov⟩
        exact Or.inl (h.covered_iff.mp hcov key hkey)
      · rw [findsRoom_iff st hc rfl, step, hset]
        exact (Cache.mirrors_set st net key value expiration h hcov).2
  | get net key => exact hother rfl ((Cache.mirrors_get net key h).2.mpr hcov)
  | remove net keys =>
      obtain ⟨-, hiff⟩ := Cache.mirrors_remove net keys h
      exact hother rfl (hiff.mpr fun k hk _ => h.covered_iff.mp hcov k hk)
  | clear s => exact hother rfl (Cache.mirrors_clear s h).2
  | evictionLoop net =>
      refine hother rfl (Cache.evictUpTo_keeps
        (I := fun hc => (∃ m, hc.Mirrors m) ∧ hc.Covered) ?_ st net ?_ st.maxEvictionCount
        ⟨⟨m, h⟩, hcov⟩).2
      · rintro hc ⟨⟨m, hm⟩, -⟩
        exact ⟨m, hm.backend⟩
      · rintro hc ⟨⟨m, hm⟩, hcov⟩
        obtain ⟨hafter, hsame⟩ := Cache.mirrors_evictItem net hm
        exact ⟨hafter, hsame.mpr hcov⟩
  | expirationLoop s now nets =>
      refine hother rfl (Cache.expirationLoop_keeps
        (I := fun hc => (∃ m, hc.Mirrors m) ∧ hc.Covered) s now nets ?_ ⟨⟨m, h⟩, hcov⟩).2
      rintro hc key ⟨⟨m, hm⟩, hcov⟩
      obtain ⟨hafter, hiff⟩ := Cache.mirrors_remove (nets key) [key] hm
      exact ⟨⟨_, hafter⟩, hiff.mpr fun k hk _ => hm.covered_iff.mp hcov k hk⟩

end CacheOp

theorem sound_initEvictionAlgorithm {lib : ShardLib} {cfg : Config} {n : Nat}
    {e : Evictor V} (h : initEvictionAlgorithm lib cfg n = .ok e) :
    Policy.Sound e ∧ Tracking.keys e = ∅ := by
  obtain ⟨-, name, -, hcases⟩ := initEvictionAlgorithm_ok h
  rcases hcases with ⟨-, s, hs, rfl⟩ | ⟨-, a, ha, rfl⟩
  · exact sound_newSharded hs
  · obtain ⟨hsound, hempty, -⟩ := Algorithm.new_spec ha
    exact ⟨hsound, hempty⟩

end HyperCache
