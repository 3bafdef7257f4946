/-
Caches over the in-memory backend whose capacity changes.

`SetCapacity` changes the capacity of the backend and whether `Set` evicts. The limit on
evictions per pass and the size of the eviction algorithm stay as they were built. A
pass is the job of `evictionLoop`: it runs when the ticker, `TriggerEviction` or
`SetCapacity` has put it into the worker pool, so here at any point of a run.
-/
import Mathlib.Data.Set.Card
import HyperCache.LeastRecent

namespace HyperCache

open Runs

variable {V A : Type}

/-- A cache with the settings that are in force. -/
structure Resizable (V A : Type) where
  evictionInterval : Duration
  settings : Settings
  cache : Cache V A

namespace Resizable

def new (lib : ShardLib) (cfg : Config) : Except Err (Resizable V (Evictor V)) :=
  (Cache.new lib cfg).map fun r => ⟨cfg.evictionInterval, r.1, r.2⟩

/-- `SetCapacity`, and whether it starts a pass. The backend ignores a negative capacity. -/
def setCapacity (capacity : Int) (r : Resizable V A) : Resizable V A × Bool :=
  let capacity := if capacity < 0 then r.settings.capacity else capacity
  let settings :=
    { r.settings with
      capacity
      shouldEvict := r.evictionInterval = 0 ∧ capacity > 0 }
  ({ r with settings }, r.cache.backend.count > capacity)

def keys (r : Resizable V A) : List Key := r.cache.backend.stored.keys

variable [EvictionAlgorithm V A]

def pass (net : Net) (r : Resizable V A) : Resizable V A :=
  { r with cache := (r.cache.evictionLoop r.settings net).1 }

/-- `SetCapacity` and the pass it starts, with nothing in between. -/
def resize (net : Net) (capacity : Int) (r : Resizable V A) : Resizable V A :=
  let (r, started) := r.setCapacity capacity
  if started then r.pass net else r

end Resizable

inductive ResizableOp (V : Type) where
  | call (op : CacheOp V)
  | setCapacity (capacity : Int)

namespace ResizableOp

/-- The operation is a pass. -/
def IsPass : ResizableOp V → Prop
  | .call (.evictionLoop _) => True
  | _ => False

variable [EvictionAlgorithm V A] [SizedValue V] [SetSize V]

def step (r : Resizable V A) : ResizableOp V → Resizable V A
  | .call op => { r with cache := op.step r.settings r.cache }
  | .setCapacity capacity => (r.setCapacity capacity).1

variable [Tracking V A] [Policy V A]

/-- An operation that stores a key without an error finds it tracked or finds room for it. -/
def FindsRoom (r : Resizable V A) : ResizableOp V → Prop
  | .call op => op.FindsRoom r.settings r.cache
  | .setCapacity _ => True

end ResizableOp

/-! ## One pass -/

/-- The algorithm finds `n` victims in a row, each of which is then removed from the cache. -/
def Yields [EvictionAlgorithm V A] : Nat → A → Prop
  | 0, _ => True
  | n + 1, a => ∃ key, (EvictionAlgorithm.evict a).2 = some key ∧
      Yields n (IAlgorithm.delete key (EvictionAlgorithm.evict a).1)

section

variable [EvictionAlgorithm V A] [Tracking V A] [Policy V A] {a : A}

/-- What is left to evict after an eviction and the removal of its victim. -/
theorem Policy.after_victim (h : Policy.Sound a) {key : Key}
    (hkey : (EvictionAlgorithm.evict a).2 = some key) :
    Policy.Sound (IAlgorithm.delete key (EvictionAlgorithm.evict a).1) ∧
      Tracking.keys (IAlgorithm.delete key (EvictionAlgorithm.evict a).1) =
        Tracking.keys a \ {key} := by
  obtain ⟨hsound, hkeys⟩ := Policy.delete_spec key (Policy.evict_spec h).1
  refine ⟨hsound, hkeys.trans ?_⟩
  rw [(Policy.of_evict_some h hkey).2, Set.sdiff_sdiff, Set.union_self]

/-- Every loose key is a victim if it comes to that. -/
theorem yields_of_le (h : Policy.Sound a) (hfinite : (Tracking.keys a).Finite) {n : Nat}
    (hn : n ≤ (Policy.loose a).ncard) : Yields n a := by
  induction n generalizing a with
  | zero => trivial
  | succ n ih =>
      have hloose := hfinite.subset (Policy.loose_subset h)
      obtain ⟨-, ⟨-, hempty, -⟩ | ⟨key, hkey, hsome, -⟩⟩ := Policy.evict_spec h
      · rw [hempty, Set.ncard_empty] at hn
        omega
      · obtain ⟨hsound, hkeys⟩ := Policy.after_victim h hsome
        have hfinite' := hkeys ▸ hfinite.sdiff
        have hcard := Set.ncard_sdiff_singleton_add_one hkey hloose
        have hleft := Set.ncard_le_ncard (Policy.loose_evict h hsome)
          (hfinite'.subset (Policy.loose_subset hsound))
        exact ⟨key, hsome, ih hsound hfinite' (by omega)⟩

/-- Only tracked keys are victims, and each of them once. -/
theorem le_of_yields (h : Policy.Sound a) (hfinite : (Tracking.keys a).Finite) {n : Nat}
    (hn : Yields n a) : n ≤ (Tracking.keys a).ncard := by
  induction n generalizing a with
  | zero => exact Nat.zero_le _
  | succ n ih =>
      obtain ⟨key, hsome, hrest⟩ := hn
      obtain ⟨hsound, hkeys⟩ := Policy.after_victim h hsome
      have hmem := Policy.loose_subset h (Policy.of_evict_some h hsome).1
      have hcard := Set.ncard_sdiff_singleton_add_one hmem hfinite
      have hle := ih hsound (hkeys ▸ hfinite.sdiff) hrest
      rw [hkeys] at hle
      omega

omit [Policy V A] in
/-- An algorithm that evicts whatever it tracks finds as many victims as it tracks keys. -/
theorem yields_of_serves (h : Tracking.Serves a) (hfinite : (Tracking.keys a).Finite) {n : Nat}
    (hn : n ≤ (Tracking.keys a).ncard) : Yields n a := by
  induction n generalizing a with
  | zero => trivial
  | succ n ih =>
      obtain ⟨hserves, ⟨-, hempty, -⟩ | ⟨key, hkey, hsome, hkeys⟩⟩ := Tracking.evict_spec h
      · rw [hempty, Set.ncard_empty] at hn
        omega
      · obtain ⟨hserves', hkeys'⟩ := Tracking.delete_spec key hserves
        rw [hkeys, Set.sdiff_sdiff, Set.union_self] at hkeys'
        have hcard := Set.ncard_sdiff_singleton_add_one hkey hfinite
        exact ⟨key, hsome, ih hserves' (hkeys' ▸ hfinite.sdiff) (by rw [hkeys']; omega)⟩

end

namespace Cache

variable [EvictionAlgorithm V A] {m : ConcurrentMap V} {hc : Cache V A}

theorem evictUpTo_succ_none {st : Settings} (net : Net) (n : Nat)
    (hkey : (EvictionAlgorithm.evict hc.evictionAlgorithm).2 = none) :
    (hc.evictUpTo st net (n + 1)).1.backend = hc.backend := by
  rw [evictUpTo]
  split
  · generalize EvictionAlgorithm.evict hc.evictionAlgorithm = res at hkey ⊢
    obtain ⟨a, o⟩ := res
    obtain rfl : o = none := hkey
    rfl
  · rfl

variable [Tracking V A] [Policy V A]

theorem Mirrors.count_backend (h : hc.Mirrors m) : hc.backend.count = m.count := by
  rw [h.backend]
  rfl

/-- A turn of the loop that finds a victim. -/
theorem evictUpTo_succ_some (st : Settings) (net : Net) (n : Nat) (h : hc.Mirrors m)
    (hover : st.capacity < m.count) {key : Key}
    (hkey : (EvictionAlgorithm.evict hc.evictionAlgorithm).2 = some key) :
    key ∈ m.keys ∧ ∃ hc' : Cache V A, hc.evictUpTo st net (n + 1) = hc'.evictUpTo st net n ∧
      hc'.Mirrors (m.remove key) ∧ hc'.evictionAlgorithm =
        IAlgorithm.delete key (EvictionAlgorithm.evict hc.evictionAlgorithm).1 := by
  obtain ⟨hloose, hkeys⟩ := Policy.of_evict_some h.sound hkey
  have hmem : key ∈ m.keys := h.stored key (Policy.loose_subset h.sound hloose)
  have hmid : Mirrors m
      { hc with evictionAlgorithm := (EvictionAlgorithm.evict hc.evictionAlgorithm).1 } :=
    ⟨h.backend, (Policy.evict_spec h.sound).1, fun k hk => h.stored k (by
      rw [hkeys] at hk
      exact hk.1)⟩
  have hafter := (mirrors_remove net [key] hmid).1
  have hremove := remove_inMemory net m [key] hmid.backend
  refine ⟨hmem, _, ?_, hafter, ?_⟩
  · rw [evictUpTo, h.count_backend, if_pos hover]
    generalize EvictionAlgorithm.evict hc.evictionAlgorithm = res at hkey hremove ⊢
    obtain ⟨a, o⟩ := res
    obtain rfl : o = some key := hkey
    dsimp only at hremove ⊢
    rw [hremove]
  · obtain ⟨it, hit⟩ := ConcurrentMap.mem_keys.mp hmem
    rw [hremove]
    simp [ConcurrentMap.untrack, hit]

theorem evictUpTo_of_le {st : Settings} (net : Net) (n : Nat) (h : hc.Mirrors m)
    (hle : (m.count : Int) ≤ st.capacity) : (hc.evictUpTo st net n).1 = hc := by
  cases n with
  | zero => rfl
  | succ n => rw [evictUpTo, h.count_backend, if_neg (by omega)]

/-- A pass gets within the capacity exactly if it may evict as many items as are too many and
the algorithm finds as many victims. -/
theorem count_evictUpTo_le_iff {st : Settings} (net : Net) (n : Nat) (h : hc.Mirrors m) {c : Nat}
    (hc' : st.capacity = c) :
    (hc.evictUpTo st net n).1.backend.count ≤ c ↔
      m.count - c ≤ n ∧ Yields (m.count - c) hc.evictionAlgorithm := by
  induction n generalizing m hc with
  | zero =>
      rw [evictUpTo, h.count_backend]
      constructor
      · intro hle
        have hzero : m.count - c = 0 := by omega
        rw [hzero]
        exact ⟨Nat.le_refl 0, trivial⟩
      · rintro ⟨hle, -⟩
        omega
  | succ n ih =>
      by_cases hle : m.count ≤ c
      · have hzero : m.count - c = 0 := by omega
        rw [evictUpTo_of_le net (n + 1) h (by omega), h.count_backend, hzero]
        exact ⟨fun _ => ⟨Nat.zero_le _, trivial⟩, fun _ => hle⟩
      · obtain ⟨e, he⟩ : ∃ e, m.count - c = e + 1 := ⟨m.count - c - 1, by omega⟩
        rw [he, Yields]
        cases hkey : (EvictionAlgorithm.evict hc.evictionAlgorithm).2 with
        | none =>
            rw [evictUpTo_succ_none net n hkey, h.count_backend]
            constructor
            · exact fun hle' => absurd hle' hle
            · rintro ⟨-, key, hsome, -⟩
              cases hsome
        | some key =>
            obtain ⟨hmem, next, hloop, hafter, halg⟩ :=
              evictUpTo_succ_some st net n h (by omega) hkey
            have hless := m.count_remove key
            rw [if_pos hmem] at hless
            have hrest : (m.remove key).count - c = e := by omega
            rw [hloop, ih hafter, hrest, halg]
            simp

theorem evict_eq_none_iff (h : hc.Mirrors m) :
    (EvictionAlgorithm.evict hc.evictionAlgorithm).2 = none ↔
      Policy.loose hc.evictionAlgorithm = ∅ := by
  constructor
  · exact fun hnone => (Policy.of_evict_none h.sound hnone).1
  · intro hempty
    by_contra hne
    obtain ⟨key, hkey⟩ := Option.ne_none_iff_exists'.mp hne
    have hloose := (Policy.of_evict_some h.sound hkey).1
    rw [hempty] at hloose
    cases hloose

theorem Mirrors.stored_backend (h : hc.Mirrors m) : hc.backend.stored = m := by
  rw [h.backend]
  rfl

/-- A pass brings no key back. -/
theorem notMem_evictUpTo (st : Settings) (net : Net) (n : Nat) {key : Key} (h : hc.Mirrors m)
    (hkey : key ∉ m.keys) : key ∉ (hc.evictUpTo st net n).1.backend.stored.keys := by
  induction n generalizing m hc with
  | zero =>
      rw [evictUpTo, h.stored_backend]
      exact hkey
  | succ n ih =>
      by_cases hle : (m.count : Int) ≤ st.capacity
      · rw [evictUpTo_of_le net (n + 1) h hle, h.stored_backend]
        exact hkey
      · cases hgone : (EvictionAlgorithm.evict hc.evictionAlgorithm).2 with
        | none =>
            rw [evictUpTo_succ_none net n hgone, h.stored_backend]
            exact hkey
        | some gone =>
            obtain ⟨-, next, hloop, hafter, -⟩ :=
              evictUpTo_succ_some st net n h (Int.not_le.mp hle) hgone
            rw [hloop]
            exact ih hafter fun hk => hkey (ConcurrentMap.mem_keys_remove.mp hk).2

/-- A pass over a cache of capacity zero removes nothing exactly if it may evict nothing or
finds no victim. -/
theorem evictionLoop_keeps_iff {st : Settings} (net : Net) (h : hc.Mirrors m)
    (hcap : st.capacity = 0) :
    (∀ k ∈ m.keys, k ∈ (hc.evictionLoop st net).1.backend.stored.keys) ↔
      st.maxEvictionCount = 0 ∨ Policy.loose hc.evictionAlgorithm = ∅ := by
  have hstored := h.stored_backend
  rw [evictionLoop, ← evict_eq_none_iff h]
  cases hmax : st.maxEvictionCount with
  | zero =>
      refine ⟨fun _ => Or.inl rfl, fun _ k hk => ?_⟩
      rw [evictUpTo, hstored]
      exact hk
  | succ n =>
      cases hkey : (EvictionAlgorithm.evict hc.evictionAlgorithm).2 with
      | none =>
          refine ⟨fun _ => Or.inr rfl, fun _ k hk => ?_⟩
          rw [evictUpTo_succ_none net n hkey, hstored]
          exact hk
      | some key =>
          have hloose := (Policy.of_evict_some h.sound hkey).1
          have hpos : 0 < m.count := by
            rw [m.count_eq]
            exact List.length_pos_of_mem (h.stored key (Policy.loose_subset h.sound hloose))
          obtain ⟨hmem, next, hloop, hafter, -⟩ := evictUpTo_succ_some st net n h (by omega) hkey
          have hgone := notMem_evictUpTo st net n hafter
            (fun hk => (ConcurrentMap.mem_keys_remove.mp hk).1 rfl)
          constructor
          · intro hall
            rw [hloop] at hall
            exact absurd (hall key hmem) hgone
          · rintro (hzero | hnone)
            · cases hzero
            · cases hnone

end Cache

/-! ## Runs -/

namespace Resizable

theorem capacity_setCapacity (c : Nat) (r : Resizable V A) :
    (r.setCapacity c).1.settings.capacity = c := by
  show (if (c : Int) < 0 then r.settings.capacity else (c : Int)) = c
  exact if_neg (by omega)

section

variable [EvictionAlgorithm V A] [Tracking V A] [Policy V A] {r : Resizable V A}

/-- Whether `SetCapacity` starts the pass makes no difference: it would do nothing. -/
theorem cache_resize {m : ConcurrentMap V} (h : r.cache.Mirrors m) (net : Net) (c : Nat) :
    (r.resize net c).cache = (r.cache.evictionLoop (r.setCapacity c).1.settings net).1 := by
  have hstarted : (r.setCapacity c).2 =
      decide (r.cache.backend.count > (r.setCapacity c).1.settings.capacity) := rfl
  show (if (r.setCapacity c).2 = true then (r.setCapacity c).1.pass net
    else (r.setCapacity c).1).cache = _
  split
  · rfl
  · rename_i hle
    rw [hstarted, decide_eq_true_eq, h.count_backend] at hle
    exact (Cache.evictUpTo_of_le net _ h (Int.not_lt.mp hle)).symm

theorem count_resize_le_iff {m : ConcurrentMap V} (h : r.cache.Mirrors m) (net : Net) (c : Nat) :
    (r.resize net c).cache.backend.count ≤ c ↔
      m.count - c ≤ r.settings.maxEvictionCount ∧
        Yields (m.count - c) r.cache.evictionAlgorithm := by
  rw [cache_resize h net c]
  exact Cache.count_evictUpTo_le_iff net _ h (capacity_setCapacity c r)

variable [SizedValue V] [SetSize V]

theorem mirrors_step (op : ResizableOp V) (h : ∃ m, r.cache.Mirrors m) :
    ∃ m, (op.step r).cache.Mirrors m := by
  cases op with
  | call op => exact CacheOp.mirrors_step r.settings op h.choose_spec
  | setCapacity capacity => exact h

theorem mirrors_run (ops : List (ResizableOp V))
    (h : ∃ m, r.cache.Mirrors m) : ∃ m, (ops.foldl ResizableOp.step r).cache.Mirrors m := by
  induction ops generalizing r with
  | nil => exact h
  | cons op rest ih => exact ih (mirrors_step op h)

theorem serves_step (op : ResizableOp V) (h : ∃ m, r.cache.Mirrors m)
    (hserves : Tracking.Serves r.cache.evictionAlgorithm) :
    Tracking.Serves (op.step r).cache.evictionAlgorithm := by
  obtain ⟨m, h⟩ := h
  have hevict : ∀ {a : A}, Tracking.Serves a → Tracking.Serves (EvictionAlgorithm.evict a).1 :=
    fun ha => (Tracking.evict_spec ha).1
  cases op with
  | setCapacity capacity => exact hserves
  | call op =>
      show Tracking.Serves (op.step r.settings r.cache).evictionAlgorithm
      rcases CacheOp.written_cases r.settings h.backend op with
        ⟨net, key, value, expiration, -, -, hstep, hok⟩ | ⟨hwritten, -⟩
      · rw [hstep]
        rcases Cache.set_cases r.settings net key value expiration h.backend with
          ⟨e, a, herr⟩ | ⟨item, hc', rfl, hhc', hset⟩
        · rw [herr] at hok
          cases hok
        · have hmid : hc'.Mirrors (m.set item) := hhc' ▸ h.store item value _
          have hserves' : Tracking.Serves hc'.evictionAlgorithm :=
            hhc' ▸ (Tracking.set_spec item.key value hserves).1
          rw [hset]
          dsimp only
          split
          · exact Cache.algorithm_evictItem Tracking.delete_spec hevict net hmid hserves'
          · exact hserves'
      · exact CacheOp.algorithm_step Tracking.delete_spec hevict r.settings op h hserves hwritten

theorem serves_run (ops : List (ResizableOp V)) (h : ∃ m, r.cache.Mirrors m)
    (hserves : Tracking.Serves r.cache.evictionAlgorithm) :
    Tracking.Serves (ops.foldl ResizableOp.step r).cache.evictionAlgorithm := by
  induction ops generalizing r with
  | nil => exact hserves
  | cons op rest ih => exact ih (mirrors_step op h) (serves_step op h hserves)

end

variable {lib : ShardLib} {cfg : Config} {r : Resizable V (Evictor V)}

theorem cache_new (h : Resizable.new lib cfg = .ok r) :
    Cache.new lib cfg = .ok (r.settings, r.cache) := by
  rw [Resizable.new] at h
  cases hnew : Cache.new (V := V) lib cfg with
  | error e =>
      rw [hnew] at h
      cases h
  | ok res =>
      rw [hnew] at h
      obtain rfl := Except.ok.inj h
      rfl

theorem new_ok (h : Resizable.new lib cfg = .ok r) :
    r.settings = configureEvictionSettings cfg ∧ ∃ m, r.cache.Mirrors m := by
  obtain ⟨hset, hb, hinit⟩ := Cache.new_ok (cache_new h)
  obtain ⟨hsound, hempty⟩ := sound_initEvictionAlgorithm hinit
  refine ⟨hset, .empty, hb, hsound, fun k hk => ?_⟩
  rw [hempty] at hk
  cases hk

theorem covered_new (h : Resizable.new lib cfg = .ok r) : r.cache.Covered := by
  obtain ⟨-, hb, -⟩ := Cache.new_ok (cache_new h)
  intro k hk
  rw [hb] at hk
  exact absurd hk List.not_mem_nil

theorem serves_new (h : Resizable.new lib cfg = .ok r)
    (hname : (("" : String) :: Algorithm.servingNames).contains cfg.evictionAlgorithmName = true)
    (hshards : cfg.evictionShardCount ≠ 0x100000000)
    (hmax : (configureEvictionSettings cfg).maxEvictionCount ≠ 0) :
    Tracking.Serves r.cache.evictionAlgorithm := by
  obtain ⟨hset, -, hinit⟩ := Cache.new_ok (cache_new h)
  rw [hset] at hinit
  exact (serves_initEvictionAlgorithm hname hshards hmax hinit).1

variable [SizedValue V] [SetSize V]

theorem maxEvictionCount_run (h : Resizable.new lib cfg = .ok r) (ops : List (ResizableOp V)) :
    (ops.foldl ResizableOp.step r).settings.maxEvictionCount =
      (configureEvictionSettings cfg).maxEvictionCount := by
  obtain ⟨hset, -⟩ := new_ok h
  rw [← hset]
  clear h hset
  induction ops generalizing r with
  | nil => rfl
  | cons op rest ih =>
      refine (ih (r := op.step r)).trans ?_
      cases op with
      | call op => rfl
      | setCapacity capacity => rfl

/-- What an operation does to a covered cache. -/
theorem covered_step {m : ConcurrentMap V} (op : ResizableOp V) (h : r.cache.Mirrors m)
    (hcov : r.cache.Covered) : (op.step r).cache.Covered ↔ op.FindsRoom r := by
  cases op with
  | call op => exact (CacheOp.covered_step r.settings op h hcov).2
  | setCapacity capacity => exact iff_of_true hcov trivial

/-- A pass over a cache of capacity zero removes nothing. -/
def SparesUnlimited (r : Resizable V (Evictor V)) (op : ResizableOp V) : Prop :=
  r.settings.capacity = 0 → op.IsPass → ∀ k ∈ r.keys, k ∈ (op.step r).keys

/-- A pass over a cache of capacity zero may evict nothing or finds no victim. -/
def HasNothingToEvict (r : Resizable V (Evictor V)) (op : ResizableOp V) : Prop :=
  r.settings.capacity = 0 → op.IsPass →
    r.settings.maxEvictionCount = 0 ∨ Policy.loose r.cache.evictionAlgorithm = ∅

theorem sparesUnlimited_iff {m : ConcurrentMap V} (h : r.cache.Mirrors m) (op : ResizableOp V) :
    r.SparesUnlimited op ↔ r.HasNothingToEvict op := by
  rw [SparesUnlimited, HasNothingToEvict]
  refine imp_congr_right fun hcap => ?_
  cases op with
  | setCapacity capacity => exact imp_congr_right False.elim
  | call op =>
      cases op with
      | evictionLoop net =>
          rw [keys, h.stored_backend]
          exact imp_congr_right fun _ => Cache.evictionLoop_keeps_iff net h hcap
      | _ => exact imp_congr_right False.elim

end Resizable

section

variable [SizedValue V] [SetSize V] {lib : ShardLib} {cfg : Config}
  {r : Resizable V (Evictor V)}

/-- Every stored key is tracked after every operation of a run exactly when every operation that
stores a key finds it tracked or finds room for it. -/
theorem covered_run_iff (hnew : Resizable.new lib cfg = .ok r) (ops : List (ResizableOp V)) :
    Along ResizableOp.step (fun r op => (op.step r).cache.Covered) r ops ↔
      Along ResizableOp.step (fun r op => op.FindsRoom r) r ops := by
  have hstep : ∀ (r : Resizable V (Evictor V)) (op : ResizableOp V),
      (∃ m, r.cache.Mirrors m) ∧ r.cache.Covered →
        (∃ m, (op.step r).cache.Mirrors m) ∧
          ((op.step r).cache.Covered ↔ op.FindsRoom r) :=
    fun r op h => ⟨Resizable.mirrors_step op h.1, Resizable.covered_step op h.1.choose_spec h.2⟩
  have hstart := And.intro (Resizable.new_ok hnew).2 (Resizable.covered_new hnew)
  refine (along_invariant_iff (I := fun r : Resizable V _ => (∃ m, r.cache.Mirrors m) ∧
    r.cache.Covered) (fun r op h => ?_) hstart).symm.trans
      (along_invariant_iff (I := fun r : Resizable V _ => (∃ m, r.cache.Mirrors m) ∧
        r.cache.Covered) (fun r op h => ?_) hstart)
  · exact and_iff_right (hstep r op h).1
  · exact (and_iff_right (hstep r op h).1).trans (hstep r op h).2

/-- No pass of a run removes an item while the capacity is zero exactly when each of those may
evict nothing or finds no victim. -/
theorem unlimited_spared_iff (hnew : Resizable.new lib cfg = .ok r)
    (ops : List (ResizableOp V)) :
    Along ResizableOp.step Resizable.SparesUnlimited r ops ↔
      Along ResizableOp.step Resizable.HasNothingToEvict r ops :=
  along_congr (I := fun r => ∃ m, r.cache.Mirrors m)
    (fun _ op h => Resizable.mirrors_step op h)
    (fun _ op ⟨_, h⟩ => Resizable.sparesUnlimited_iff h op)
    (Resizable.new_ok hnew).2 ops

/-- After `SetCapacity` and its pass the cache is within its capacity if as many items as were
too many may be evicted in a pass and the algorithm has as many loose keys: those it tracks, in
Clock those with no access left.  It is not if more items were too many than may be evicted or
are tracked, or some were and no key is loose.  With LRU, LFU and CAWOLFU the tracked keys
decide. -/
theorem resize_count_le_iff (hnew : Resizable.new lib cfg = .ok r) {ops : List (ResizableOp V)}
    {r₁ : Resizable V (Evictor V)} (hrun : ops.foldl ResizableOp.step r = r₁) (net : Net)
    (c : Nat) {excess : Nat} (hexcess : r₁.cache.backend.count - c = excess) :
    (excess ≤ (configureEvictionSettings cfg).maxEvictionCount →
        excess ≤ (Policy.loose r₁.cache.evictionAlgorithm).ncard →
        (r₁.resize net c).cache.backend.count ≤ c) ∧
      ((r₁.resize net c).cache.backend.count ≤ c →
        excess ≤ (configureEvictionSettings cfg).maxEvictionCount ∧
          excess ≤ (Tracking.keys r₁.cache.evictionAlgorithm).ncard ∧
          (excess ≠ 0 → (Policy.loose r₁.cache.evictionAlgorithm).Nonempty)) ∧
      ((("" : String) :: Algorithm.servingNames).contains cfg.evictionAlgorithmName = true →
        cfg.evictionShardCount ≠ 0x100000000 →
        ((r₁.resize net c).cache.backend.count ≤ c ↔
          excess ≤ (configureEvictionSettings cfg).maxEvictionCount ∧
            excess ≤ (Tracking.keys r₁.cache.evictionAlgorithm).ncard)) := by
  obtain ⟨hset, hstart⟩ := Resizable.new_ok hnew
  obtain ⟨m, h⟩ := Resizable.mirrors_run ops hstart
  have hmax := Resizable.maxEvictionCount_run hnew ops
  rw [hrun] at h hmax
  have hfinite : (Tracking.keys r₁.cache.evictionAlgorithm).Finite :=
    m.keys.finite_toSet.subset h.stored
  have hiff := Resizable.count_resize_le_iff h net c
  rw [← h.count_backend, hexcess, hmax] at hiff
  rw [hiff]
  refine ⟨fun hle hloose => ⟨hle, yields_of_le h.sound hfinite hloose⟩, ?_, ?_⟩
  · rintro ⟨hle, hyields⟩
    refine ⟨hle, le_of_yields h.sound hfinite hyields, fun hne => ?_⟩
    obtain ⟨n, rfl⟩ := Nat.exists_eq_succ_of_ne_zero hne
    obtain ⟨key, hsome, -⟩ := hyields
    exact ⟨key, (Policy.of_evict_some h.sound hsome).1⟩
  · intro hname hshards
    refine and_congr_right fun hle => ⟨le_of_yields h.sound hfinite, fun htracked => ?_⟩
    by_cases hzero : (configureEvictionSettings cfg).maxEvictionCount = 0
    · obtain rfl : excess = 0 := by omega
      trivial
    · have hserves := Resizable.serves_run ops hstart
        (Resizable.serves_new hnew hname hshards hzero)
      rw [hrun] at hserves
      exact yields_of_serves hserves hfinite htracked

end

/-- LRU for two items in one shard. -/
def twoItems : Config := { capacity := 2, evictionInterval := 0, evictionShardCount := 1 }

/-- Two keys fill the algorithm and stay tracked, also when the capacity grows in between. -/
theorem covered_run_two_keys :
    ∃ r, Resizable.new (V := Str) (.checked fun _ => 0) twoItems = .ok r ∧
      Along ResizableOp.step (fun r op => (op.step r).cache.Covered) r
        (.setCapacity 3 :: (fill [1] 2).map .call) := by
  refine ⟨_, rfl, (@covered_run_iff Str _ _ (.checked fun _ => 0) twoItems _ rfl _).mpr ?_⟩
  have hroom : ∀ n < 2, n < (configureEvictionSettings twoItems).maxEvictionCount := by decide
  exact ⟨trivial, fun _ _ _ => Or.inr (hroom 0 (by omega)),
    fun _ _ _ => Or.inr (hroom 1 (by omega)), trivial⟩

/-- A third key makes LRU drop the first, and the eviction that follows takes the second: the
first is stored and can no longer be evicted. -/
theorem uncovered_run_three_keys :
    ∃ r, Resizable.new (V := Str) (.checked fun _ => 0) twoItems = .ok r ∧
      Along (CacheOp.step r.settings) (fun hc op => (op.exec r.settings hc).2 = none) r.cache
        (fill [1] 3) ∧
      ∃ r₁, ((fill [1] 3).map ResizableOp.call).foldl ResizableOp.step r = r₁ ∧
        r₁.keys = [fillKey 2, fillKey 0] ∧
        fillKey 0 ∉ Tracking.keys r₁.cache.evictionAlgorithm := by
  refine ⟨_, rfl, ⟨rfl, rfl, rfl, trivial⟩, _, rfl, rfl, ?_⟩
  show fillKey 0 ∉ [fillKey 2]
  decide

/-- LRU over the default number of shards, without a capacity. -/
def noCapacity : Config := { capacity := 0 }

/-- Without a capacity there is nothing that a pass may evict. -/
theorem unlimited_spared_iff_default :
    ∃ r, Resizable.new (V := Str) (.checked fun _ => 0) noCapacity = .ok r ∧
      Along ResizableOp.step Resizable.SparesUnlimited r
        [.call (.set World.allUp [97] (some [1]) 0), .call (.evictionLoop World.allUp)] := by
  refine ⟨_, rfl, (@unlimited_spared_iff Str _ _ (.checked fun _ => 0) noCapacity _ rfl _).mpr ?_⟩
  refine ⟨?_, ?_, trivial⟩
  · exact fun _ hpass => hpass.elim
  · exact fun _ _ => Or.inl rfl

/-- A cache for two items that is set to capacity zero loses the item it has. -/
theorem unlimited_pass_removes :
    ∃ r, Resizable.new (V := Str) (.checked fun _ => 0) twoItems = .ok r ∧
      ∃ r₁, [ResizableOp.call (.set World.allUp [97] (some [1]) 0)].foldl ResizableOp.step r = r₁ ∧
        r₁.keys = [[97]] ∧ (r₁.setCapacity 0).2 = true ∧
        (r₁.setCapacity 0).1.settings.capacity = 0 ∧
        ((r₁.setCapacity 0).1.pass World.allUp).keys = [] :=
  ⟨_, rfl, _, rfl, rfl, rfl, rfl, rfl⟩

/-- A cache for two items that is set to capacity one gives one up. -/
theorem resize_count_le_iff_twoItems :
    ∃ r, Resizable.new (V := Str) (.checked fun _ => 0) twoItems = .ok r ∧
      ∃ r₁, ((fill [1] 2).map ResizableOp.call).foldl ResizableOp.step r = r₁ ∧
        r₁.cache.backend.count = 2 ∧ (r₁.resize World.allUp 1).cache.backend.count ≤ 1 :=
  ⟨_, rfl, _, rfl, rfl,
    ((@resize_count_le_iff Str _ _ (.checked fun _ => 0) twoItems _ rfl _ _ rfl World.allUp 1 1
      rfl).2.2 rfl (by decide)).mpr ⟨by decide, (Set.ncard_pos (List.finite_toSet _)).mpr
        ⟨fillKey 0, by decide⟩⟩⟩

/-- A cache built without a capacity keeps both its items when it is set to capacity one. -/
theorem resize_keeps_excess :
    ∃ r, Resizable.new (V := Str) (.checked fun _ => 0) noCapacity = .ok r ∧
      ∃ r₁, ((fill [1] 2).map ResizableOp.call).foldl ResizableOp.step r = r₁ ∧
        (r₁.setCapacity 1).2 = true ∧ (r₁.resize World.allUp 1).cache.backend.count = 2 :=
  ⟨_, rfl, _, rfl, rfl, rfl⟩

end HyperCache
