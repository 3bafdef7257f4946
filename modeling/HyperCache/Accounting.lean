/-
The memory account of a cache.

The counter is moved where items are stored and removed, away from the store.
`drift` is how far it is from the sum of the sizes of the stored items.  A `Set`
does not take out the size of the item it replaces, a `Remove` takes the size of
a key out as often as the key is listed, and everything else keeps the drift or,
like `Clear`, sets both sides to zero.
-/
import Mathlib.Data.List.Dedup
import HyperCache.Lib.Runs
import HyperCache.FrontEnd

namespace HyperCache

open Runs

variable {V A : Type}

namespace ConcurrentMap

/-- The sum of the sizes of the stored items. -/
def totalSize (m : ConcurrentMap V) : Int := (m.all.map Item.size).sum

theorem sum_kerase (k : Key) (l : List (Sigma fun _ : Key => Item V)) :
    ((l.kerase k).map (fun e => e.2.size)).sum =
      (l.map (fun e => e.2.size)).sum - (l.dlookup k).elim 0 Item.size := by
  induction l with
  | nil => simp
  | cons e rest ih =>
      rw [List.map_cons, List.sum_cons]
      by_cases hk : k = e.1
      · subst hk
        have hlookup : (e :: rest).dlookup e.1 = some e.2 := List.dlookup_cons_eq rest e.1 e.2
        rw [List.kerase_cons_eq rfl, hlookup, Option.elim_some]
        omega
      · rw [List.kerase_cons_ne hk, List.dlookup_cons_ne rest e hk, List.map_cons,
          List.sum_cons, ih]
        omega

theorem totalSize_eq (m : ConcurrentMap V) :
    m.totalSize = (m.items.entries.map (fun e => e.2.size)).sum := by
  rw [totalSize, all, List.map_map]
  rfl

theorem totalSize_remove (m : ConcurrentMap V) (k : Key) :
    (m.remove k).totalSize = m.totalSize - m.sizeAt k := by
  rw [totalSize_eq, totalSize_eq]
  exact sum_kerase k m.items.entries

theorem totalSize_set (m : ConcurrentMap V) (it : Item V) :
    (m.set it).totalSize = m.totalSize - m.sizeAt it.key + it.size := by
  have hinsert : (m.set it).items.entries = ⟨it.key, it⟩ :: m.items.entries.kerase it.key :=
    AList.entries_insert
  rw [totalSize_eq, totalSize_eq, hinsert, List.map_cons, List.sum_cons, sum_kerase, Int.add_comm]
  rfl

theorem sizeAt_remove (m : ConcurrentMap V) (k : Key) :
    (m.remove k).sizeAt = Function.update m.sizeAt k 0 := by
  funext k'
  by_cases hk : k' = k
  · subst hk
    rw [Function.update_self, sizeAt, get_remove_self]
    rfl
  · rw [Function.update_of_ne hk, sizeAt, get_remove_ne m hk]
    rfl

theorem sum_map_update {f : Key → Int} {k : Key} {l : List Key} (hl : l.Nodup) :
    (l.map (Function.update f k 0)).sum = (l.map f).sum - if k ∈ l then f k else 0 := by
  induction l with
  | nil => rfl
  | cons k' rest ih =>
      obtain ⟨hnew, hrest⟩ := List.nodup_cons.mp hl
      rw [List.map_cons, List.sum_cons, List.map_cons, List.sum_cons, ih hrest]
      by_cases hk : k' = k
      · subst hk
        rw [Function.update_self, if_neg hnew, if_pos List.mem_cons_self]
        omega
      · have hmem : k ∈ k' :: rest ↔ k ∈ rest := by simp [Ne.symm hk]
        rw [Function.update_of_ne hk]
        simp only [hmem]
        omega

theorem totalSize_foldl_remove (m : ConcurrentMap V) (keys : List Key) :
    (keys.foldl remove m).totalSize = m.totalSize - (keys.dedup.map m.sizeAt).sum := by
  induction keys generalizing m with
  | nil => simp
  | cons k rest ih =>
      rw [List.foldl_cons, ih, totalSize_remove, sizeAt_remove,
        sum_map_update (List.nodup_dedup rest)]
      simp only [List.mem_dedup]
      by_cases hk : k ∈ rest
      · rw [List.dedup_cons_of_mem hk, if_pos hk]
        omega
      · rw [List.dedup_cons_of_notMem hk, if_neg hk, List.map_cons, List.sum_cons]
        omega

/-- What the repeated keys of a list weigh. -/
def overcount (m : ConcurrentMap V) (keys : List Key) : Int :=
  (keys.map m.sizeAt).sum - (keys.dedup.map m.sizeAt).sum

end ConcurrentMap

namespace Cache

def OverInMemory (hc : Cache V A) : Prop := ∃ m, hc.backend = .inMemory ⟨m⟩

/-- The counter equals the sum of the sizes of the stored items. -/
def Accounted (hc : Cache V A) : Prop := hc.memoryAllocation = hc.backend.stored.totalSize

def drift (hc : Cache V A) : Int := hc.memoryAllocation - hc.backend.stored.totalSize

theorem accounted_iff_drift {hc : Cache V A} : hc.Accounted ↔ hc.drift = 0 := by
  unfold Accounted drift
  omega

theorem drift_eq {hc : Cache V A} {m : ConcurrentMap V} (hb : hc.backend = .inMemory ⟨m⟩) :
    hc.drift = hc.memoryAllocation - m.totalSize := by
  rw [drift, hb]
  rfl

/-- A cache over the in-memory backend with a given drift. -/
def HasDrift (d : Int) (hc : Cache V A) : Prop := hc.OverInMemory ∧ hc.drift = d

theorem hasDrift_remove [IAlgorithm A] (net : Net) (keys : List Key) {hc : Cache V A}
    (h : hc.OverInMemory) :
    HasDrift (hc.drift - hc.backend.stored.overcount keys) (hc.remove net keys).1 := by
  obtain ⟨m, hb⟩ := h
  rw [remove_inMemory net m keys hb, hb]
  refine ⟨⟨_, rfl⟩, ?_⟩
  rw [drift_eq hb, drift_eq rfl, ConcurrentMap.totalSize_foldl_remove]
  show _ = _ - ((keys.map m.sizeAt).sum - (keys.dedup.map m.sizeAt).sum)
  dsimp only
  omega

theorem hasDrift_remove_one [IAlgorithm A] (net : Net) (key : Key) {d : Int} {hc : Cache V A}
    (h : HasDrift d hc) : HasDrift d (hc.remove net [key]).1 := by
  have hremove := hasDrift_remove net [key] h.1
  rw [h.2] at hremove
  simpa [ConcurrentMap.overcount] using hremove

theorem hasDrift_touch {d : Int} {now : Time} {m : ConcurrentMap V} {it : Item V}
    {key : Key} (hit : m.get key = some it) {hc : Cache V A} (hb : hc.backend = .inMemory ⟨m⟩)
    (hd : hc.drift = d) :
    HasDrift d { hc with backend := .inMemory ⟨m.set (it.touch now)⟩ } := by
  refine ⟨⟨_, rfl⟩, ?_⟩
  rw [drift_eq hb] at hd
  have hkey : it.key = key := ConcurrentMap.key_of_get hit
  have hsize : m.sizeAt (it.touch now).key = (it.touch now).size := by
    show (m.get it.key).elim 0 Item.size = it.size
    rw [hkey, hit]
    rfl
  rw [drift_eq rfl, ConcurrentMap.totalSize_set, hsize]
  dsimp only
  omega

theorem hasDrift_get (net : Net) (key : Key) {d : Int} {hc : Cache V A} (h : HasDrift d hc) :
    HasDrift d (hc.get net key).1 := by
  obtain ⟨⟨m, hb⟩, hd⟩ := h
  rcases get_cases net key hb with hsame | ⟨it, hit, htouch⟩
  · rw [hsame]
    exact ⟨⟨m, hb⟩, hd⟩
  · rw [htouch]
    exact hasDrift_touch hit hb hd

variable [EvictionAlgorithm V A]

theorem hasDrift_evictItem (net : Net) {d : Int} {hc : Cache V A} (h : HasDrift d hc) :
    HasDrift d (hc.evictItem net).1 := by
  obtain ⟨m, hb⟩ := h.1
  rcases evictItem_cases net hc hb with ⟨-, hnone⟩ | ⟨key, -, hsome⟩
  · rw [hnone]
    exact h
  · rw [hsome]
    exact hasDrift_remove_one net key (show HasDrift d { hc with evictionAlgorithm := _ } from h)

theorem hasDrift_clear (s : ItemSorts V) {hc : Cache V A} (h : hc.OverInMemory) :
    HasDrift 0 (hc.clear s).1 := by
  obtain ⟨m, hb⟩ := h
  rw [clear_inMemory s hb]
  exact ⟨⟨_, rfl⟩, rfl⟩

variable [SizedValue V] [SetSize V]

theorem hasDrift_set (st : Settings) (net : Net) (key : Key) (value : Option V)
    (expiration : Duration) {hc : Cache V A} (h : hc.OverInMemory)
    (hok : (hc.set st net key value expiration).2 = none) :
    HasDrift (hc.drift + hc.backend.stored.sizeAt key)
      (hc.set st net key value expiration).1 := by
  obtain ⟨m, hb⟩ := h
  rcases set_cases st net key value expiration hb with ⟨e, a, herr⟩ | ⟨item, hc', rfl, hhc', hset⟩
  · rw [herr] at hok
    cases hok
  · have hdrift : HasDrift (hc.drift + hc.backend.stored.sizeAt item.key) hc' := by
      have hb' : hc'.backend = .inMemory ⟨m.set item⟩ := by rw [hhc']
      have halloc : hc'.memoryAllocation = hc.memoryAllocation + item.size := by rw [hhc']
      refine ⟨⟨_, hb'⟩, ?_⟩
      rw [drift_eq hb, drift_eq hb', ConcurrentMap.totalSize_set, halloc, hb]
      show _ = _ + m.sizeAt item.key
      omega
    rw [hset]
    dsimp only
    split
    · exact hasDrift_evictItem net hdrift
    · exact hdrift

end Cache

namespace CacheOp

variable [EvictionAlgorithm V A] [SizedValue V] [SetSize V]

/-- A `Set` replaces no item that has a size, and the repeated keys of a `Remove` weigh
nothing. -/
def Settled (hc : Cache V A) : CacheOp V → Prop
  | .set _ key _ _ => hc.backend.stored.sizeAt key = 0
  | .remove _ keys => hc.backend.stored.overcount keys = 0
  | _ => True

theorem accounted_step_iff (st : Settings) {hc : Cache V A} (hmem : hc.OverInMemory)
    (hacc : hc.Accounted) {op : CacheOp V} (hok : (op.exec st hc).2 = none) :
    (op.step st hc).OverInMemory ∧ ((op.step st hc).Accounted ↔ op.Settled hc) := by
  rw [Cache.accounted_iff_drift] at hacc ⊢
  have h : Cache.HasDrift 0 hc := ⟨hmem, hacc⟩
  -- An operation that keeps the drift is settled whatever its arguments.
  have hkeeps : ∀ {hc' : Cache V A}, Cache.HasDrift 0 hc' →
      hc'.OverInMemory ∧ (hc'.drift = 0 ↔ True) :=
    fun h' => ⟨h'.1, iff_of_true h'.2 trivial⟩
  cases op with
  | set net key value expiration =>
      obtain ⟨hmem', hdrift⟩ := Cache.hasDrift_set st net key value expiration hmem hok
      refine ⟨hmem', ?_⟩
      show (hc.set st net key value expiration).1.drift = 0 ↔ hc.backend.stored.sizeAt key = 0
      rw [hdrift, hacc, Int.zero_add]
  | getOrSet net key value expiration =>
      obtain ⟨m, hb⟩ := hmem
      rcases getOrSet_cases st net key value expiration hb with ⟨-, hread⟩ | ⟨hmiss, hset⟩
      · rw [hread]
        exact hkeeps (Cache.hasDrift_get net key h)
      · rw [hset] at hok
        have hdrift := Cache.hasDrift_set st net key value expiration ⟨m, hb⟩ hok
        have hzero : hc.backend.stored.sizeAt key = 0 := by
          rw [hb]
          show (m.get key).elim 0 Item.size = 0
          rw [hmiss]
          rfl
        rw [hacc, hzero] at hdrift
        rw [step, hset]
        exact hkeeps hdrift
  | get net key => exact hkeeps (Cache.hasDrift_get net key h)
  | remove net keys =>
      obtain ⟨hmem', hdrift⟩ := Cache.hasDrift_remove net keys hmem
      refine ⟨hmem', ?_⟩
      show (hc.remove net keys).1.drift = 0 ↔ hc.backend.stored.overcount keys = 0
      rw [hdrift, hacc]
      omega
  | clear s => exact hkeeps (Cache.hasDrift_clear s hmem)
  | evictionLoop net =>
      exact hkeeps (Cache.evictUpTo_keeps (fun _ h => h.1) st net
        (fun _ => Cache.hasDrift_evictItem net) st.maxEvictionCount h)
  | expirationLoop s now nets =>
      exact hkeeps (Cache.expirationLoop_keeps s now nets
        (fun _ key => Cache.hasDrift_remove_one (nets key) key) h)

/-- Along a run without errors the counter equals the sum of the stored sizes after every
operation exactly when every operation is settled. -/
theorem accounted_run_iff (st : Settings) {hc : Cache V A} (hmem : hc.OverInMemory)
    (hacc : hc.Accounted) {ops : List (CacheOp V)}
    (hok : Along (step st) (fun hc op => (op.exec st hc).2 = none) hc ops) :
    Along (step st) (fun hc op => (op.step st hc).Accounted) hc ops ↔
      Along (step st) (fun hc op => op.Settled hc) hc ops := by
  induction ops generalizing hc with
  | nil => exact Iff.rfl
  | cons op rest ih =>
      obtain ⟨hop, hrest⟩ := hok
      obtain ⟨hmem', hiff⟩ := accounted_step_iff st hmem hacc hop
      rw [Along, Along]
      constructor
      · rintro ⟨hnow, hlater⟩
        exact ⟨hiff.mp hnow, (ih hmem' hnow hrest).mp hlater⟩
      · rintro ⟨hnow, hlater⟩
        have hacc' := hiff.mpr hnow
        exact ⟨hacc', (ih hmem' hacc' hrest).mpr hlater⟩

def smallSettings : Settings := { capacity := 2, shouldEvict := true, maxEvictionCount := 2 }

/-- A new cache with room for two items. -/
def smallCache : Cache Str (Evictor Str) where
  backend := .inMemory ⟨.empty⟩
  memoryAllocation := 0
  evictionAlgorithm := .single (.lru ⟨.new 2⟩)

def setOne (key : Key) : CacheOp Str := .set World.allUp key (some [1]) 0

/-- The third key makes the cache evict the second, and the first is removed. -/
theorem accounted_run_three_keys :
    Along (step smallSettings) (fun hc op => (op.exec smallSettings hc).2 = none) smallCache
        [setOne [97], setOne [98], setOne [99], .remove World.allUp [[97]]] ∧
      Along (step smallSettings) (fun hc op => (op.step smallSettings hc).Accounted) smallCache
        [setOne [97], setOne [98], setOne [99], .remove World.allUp [[97]]] := by
  have hok : Along (step smallSettings) (fun hc op => (op.exec smallSettings hc).2 = none)
      smallCache [setOne [97], setOne [98], setOne [99], .remove World.allUp [[97]]] :=
    ⟨rfl, rfl, rfl, rfl, trivial⟩
  have hmem : smallCache.OverInMemory := ⟨_, rfl⟩
  have hacc : smallCache.Accounted := rfl
  exact ⟨hok, (accounted_run_iff smallSettings hmem hacc hok).mpr ⟨rfl, rfl, rfl, rfl, trivial⟩⟩

/-- Setting a key twice counts both items, though the second has replaced the first. -/
theorem accounted_run_overwrite :
    (∀ lib, Cache.new lib { capacity := 2, evictionInterval := 0, evictionShardCount := 1 } =
        .ok (smallSettings, smallCache)) ∧
      Along (step smallSettings) (fun hc op => (op.exec smallSettings hc).2 = none) smallCache
        [setOne [97], setOne [97]] ∧
      ([setOne [97], setOne [97]].foldl (step smallSettings) smallCache).memoryAllocation = 2 ∧
      ([setOne [97], setOne [97]].foldl (step smallSettings) smallCache).backend.stored.totalSize
        = 1 :=
  ⟨fun _ => rfl, ⟨rfl, rfl, trivial⟩, rfl, rfl⟩

end CacheOp

end HyperCache
