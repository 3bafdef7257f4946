/-
The two backends a cache runs its expiration pass on, behind one interface.

`List` takes filters.  The in-memory backend runs the stored items through them in
order, and a distributed node returns everything it stores whatever they are.  A
`Get` on a distributed node may repair replicas, so it returns a new state as
well.
-/
import HyperCache.Lib.SortBy
import HyperCache.Arrival

namespace HyperCache

open Sorting

variable {V : Type}

/-! ## Filters -/

/-- `IFilter`: `sortByFilter`, `SortOrderFilter` and `filterFunc`. -/
inductive Filter (V : Type) where
  | sortBy (field : String)
  | sortOrder (ascending : Bool)
  | filterFunc (fn : Item V → Bool)

/-- The runs of `slices.SortFunc` that a `sortByFilter` chooses from. -/
structure ItemSorts (V : Type) where
  key : SortBy (fun it : Item V => it.key)
  lastAccess : SortBy (fun it : Item V => it.lastAccess)
  accessCount : SortBy (fun it : Item V => it.accessCount)
  expiration : SortBy (fun it : Item V => it.expiration)

def ItemSorts.byField (s : ItemSorts V) : String → Option (List (Item V) → List (Item V))
  | "Key" => some s.key.sort
  | "LastAccess" => some s.lastAccess.sort
  | "AccessCount" => some s.accessCount.sort
  | "Expiration" => some s.expiration.sort
  | _ => none

theorem ItemSorts.byField_perm {s : ItemSorts V} {field : String}
    {sort : List (Item V) → List (Item V)} (h : s.byField field = some sort)
    (items : List (Item V)) : (sort items).Perm items := by
  unfold byField at h
  split at h <;> cases h
  · exact s.key.perm items
  · exact s.lastAccess.perm items
  · exact s.accessCount.perm items
  · exact s.expiration.perm items

namespace Filter

def applyFilter (s : ItemSorts V) (items : List (Item V)) :
    Filter V → Except Err (List (Item V))
  | .sortBy field =>
      match s.byField field with
      | none => .error (.invalidSortField field)
      | some sort => .ok (sort items)
  | .sortOrder ascending => .ok (if ascending then items else items.reverse)
  | .filterFunc fn => .ok (items.filter fn)

def passes : Filter V → Item V → Bool
  | .filterFunc fn, it => fn it
  | _, _ => true

theorem applyFilter_perm {s : ItemSorts V} {items out : List (Item V)} {f : Filter V}
    (h : f.applyFilter s items = .ok out) : out.Perm (items.filter f.passes) := by
  cases f with
  | sortBy field =>
      simp only [applyFilter] at h
      split at h
      · cases h
      · rename_i sort hsort
        cases h
        have hall : items.filter (passes (.sortBy field)) = items :=
          List.filter_eq_self.mpr (fun _ _ => rfl)
        rw [hall]
        exact ItemSorts.byField_perm hsort items
  | sortOrder ascending =>
      cases h
      have hall : items.filter (passes (.sortOrder ascending)) = items :=
        List.filter_eq_self.mpr (fun _ _ => rfl)
      rw [hall]
      split
      · exact .refl items
      · exact List.reverse_perm items
  | filterFunc fn =>
      cases h
      exact .refl _

/-- The filter loop of `List`, which stops at the first error. -/
def applyAll (s : ItemSorts V) : List (Filter V) → List (Item V) → Except Err (List (Item V))
  | [], items => .ok items
  | f :: rest, items =>
      match f.applyFilter s items with
      | .error e => .error e
      | .ok items => applyAll s rest items

theorem applyAll_perm {s : ItemSorts V} {filters : List (Filter V)} {items out : List (Item V)}
    (h : applyAll s filters items = .ok out) :
    out.Perm (items.filter (fun it => filters.all (·.passes it))) := by
  induction filters generalizing items with
  | nil =>
      cases h
      simp
  | cons f rest ih =>
      rw [applyAll] at h
      split at h
      · cases h
      · rename_i kept hf
        refine (ih h).trans (((applyFilter_perm hf).filter _).trans ?_)
        rw [List.filter_filter]
        simp only [List.all_cons, Bool.and_comm]
        exact .refl _

end Filter

/-! ## Backends -/

/-- `InMemory`. -/
structure InMemory (V : Type) where
  items : ConcurrentMap V

/-- A `DistMemory` node together with the cluster it runs in. -/
structure DistMemory (V : Type) where
  cluster : Cluster
  self : NodeID
  world : World V

/-- `IBackend`. -/
inductive Backend (V : Type) where
  | inMemory (b : InMemory V)
  | distMemory (d : DistMemory V)

namespace Backend

/-- The items in the backend's own store. -/
def stored : Backend V → ConcurrentMap V
  | .inMemory b => b.items
  | .distMemory d => (d.world d.self).shard.items

def get (net : Net) (key : Key) : Backend V → Backend V × Option (Item V)
  | .inMemory b => (.inMemory b, b.items.get key)
  | .distMemory d =>
      let (w, it) := World.getImpl d.cluster net d.self key d.world
      (.distMemory { d with world := w }, it)

def list (s : ItemSorts V) (filters : List (Filter V)) : Backend V → Except Err (List (Item V))
  | .inMemory b => Filter.applyAll s filters b.items.all
  | .distMemory d => .ok (d.world d.self).shard.items.all

def remove (net : Net) (keys : List Key) : Backend V → Backend V × Option Err
  | .inMemory b => (.inMemory ⟨keys.foldl ConcurrentMap.remove b.items⟩, none)
  | .distMemory d =>
      let (w, err) := World.remove d.cluster net d.self keys d.world
      (.distMemory { d with world := w }, err)

end Backend

/-! ## What a delete and a read do to the node they are issued at -/

namespace DistShard

theorem repairMissing_items (cfg : DistConfig) (key : Key) (it : Item V) (sh : DistShard V) :
    (sh.repairMissing cfg key it).items = sh.items ∨
      (∀ old, sh.items.get key = some old → old.rank < it.rank) ∧
        (sh.repairMissing cfg key it).items = sh.items.set it := by
  rw [repairMissing]
  split
  · cases hget : sh.items.get key with
    | none =>
        refine .inr ⟨fun old hold => ?_, applySet_items cfg it sh⟩
        cases hold
    | some cur => exact .inl rfl
  · exact .inl rfl

theorem repairLocalReplica_items (cfg : DistConfig) (key : Key) (chosen : Item V)
    (sh : DistShard V) :
    (sh.repairLocalReplica cfg key chosen).items = sh.items ∨
      (∀ old, sh.items.get key = some old → old.rank < chosen.rank) ∧
        (sh.repairLocalReplica cfg key chosen).items = sh.items.set chosen := by
  rw [repairLocalReplica]
  cases hget : sh.items.get key with
  | none =>
      refine .inr ⟨fun old hold => ?_, applySet_items cfg chosen sh⟩
      cases hold
  | some cur =>
      dsimp only
      by_cases hstale : localStale cur chosen = true
      · rw [if_pos hstale]
        refine .inr ⟨fun old hold => ?_, applySet_items cfg chosen sh⟩
        cases hold
        exact localStale_iff.mp hstale
      · rw [if_neg hstale]
        exact .inl rfl

end DistShard

namespace World

open Pointwise

variable (C : Cluster) (net : Net)

/-- A delete that `p` applies and replicates reaches `p` and the replicas it lists
that are up. -/
theorem applyRemove_items (p n : NodeID) (key : Key) (w : World V) :
    (applyRemove C net p key true w n).shard.items =
      if n = p ∨ ((C.cfg p).hasTransport = true ∧ n ∈ ((C.cfg p).lookupOwners key).tail ∧
          net.up n = true) then
        (w n).shard.items.remove key
      else (w n).shard.items := by
  have hlocal : ∀ {c : Prop} [Decidable c], (n ≠ p → ¬c) →
      (modify w p (NodeState.applyRemove (C.cfg p) net.now key) n).shard.items =
        if n = p ∨ c then (w n).shard.items.remove key else (w n).shard.items := by
    intro c _ hc
    rw [modify_apply]
    by_cases hnp : n = p
    · simp [hnp]
    · simp [hnp, hc hnp]
  have hnd := (C.cfg p).lookupOwners_nodup key
  simp only [applyRemove, Bool.not_true, Bool.false_eq_true, if_false]
  rw [DistConfig.lookupOwners] at hnd ⊢
  cases hring : (C.cfg p).ring with
  | none => exact hlocal (fun _ h => absurd h.2.1 List.not_mem_nil)
  | some ring =>
      rw [hring] at hnd
      dsimp only
      split
      · rename_i hshort
        refine hlocal (fun _ h => ?_)
        obtain hlen | ht : (ring.lookup key).length ≤ 1 ∨ (C.cfg p).hasTransport = false := by
          simpa using hshort
        · have hnil : (ring.lookup key).tail = [] :=
            List.eq_nil_of_length_eq_zero (by rw [List.length_tail]; omega)
          rw [hnil] at h
          exact absurd h.2.1 List.not_mem_nil
        · simp [ht] at h
      · rename_i hlong
        have ht : (C.cfg p).hasTransport = true := by
          simp only [Bool.or_eq_true, not_or] at hlong
          simpa using hlong.2
        rw [fanOutRemove_eq, fanOut_apply net _ p hnd.tail]
        by_cases hnp : n = p
        · subst hnp
          simp
        · simp only [hnp, ne_eq, not_false_eq_true, true_and, false_or, ht, modify_ne w _ hnp]
          split <;> simp

/-- Whether a `Remove` of `key` issued at `n` that meets no error is applied on
`n` itself: `n` is the primary, or stands in for an unreachable primary, or is
reached by the fan-out of the primary. -/
def removesLocally (n : NodeID) (key : Key) : Bool :=
  match (C.cfg n).lookupOwners key with
  | [] => false
  | primary :: _ =>
      primary == n || !net.up primary ||
        ((C.cfg primary).hasTransport &&
          (((C.cfg primary).lookupOwners key).tail.contains n && net.up n))

theorem remove_items {n : NodeID} {key : Key} {w : World V}
    (hok : (remove C net n [key] w).2 = none) :
    ((remove C net n [key] w).1 n).shard.items =
      if removesLocally C net n key then (w n).shard.items.remove key
      else (w n).shard.items := by
  rw [remove] at hok ⊢
  by_cases hdrain : (w n).draining = true
  · simp [hdrain] at hok
  simp only [hdrain, Bool.false_eq_true, if_false, removeKeys, removeKey] at hok ⊢
  rw [removesLocally]
  cases howners : (C.cfg n).lookupOwners key with
  | nil => simp
  | cons primary replicas =>
      simp only [howners] at hok
      by_cases hpn : primary = n
      · simp [hpn, applyRemove_items]
      by_cases ht : (C.cfg n).hasTransport = true
      swap
      · simp [hpn, ht] at hok
      simp only [hpn, ht, if_false, Bool.not_true, Bool.false_eq_true, forwardOrPromoteRemove,
        forwardRemove] at hok ⊢
      by_cases hup : net.up primary = true
      · have hnp : n ≠ primary := Ne.symm hpn
        simp [hup, hpn, hnp, applyRemove_items]
      · by_cases hany : replicas.any
          (fun oid => oid == n && (C.cfg n).ownsKeyInternal key) = true
        · simp [hup, hany, applyRemove_items]
        · simp [hup, hany] at hok

/-- A `Get` issued at `n` leaves the store of `n` alone, or puts a copy some node
holds above the one there. -/
theorem getImpl_items (n : NodeID) (key : Key) (w : World V) :
    ((getImpl C net n key w).1 n).shard.items = (w n).shard.items ∨
      ∃ it m, (w m).shard.items.get key = some it ∧
        (∀ old, (w n).shard.items.get key = some old → old.rank < it.rank) ∧
        ((getImpl C net n key w).1 n).shard.items = (w n).shard.items.set it := by
  show (shards (getImpl C net n key w).1 n).items = (w n).shard.items ∨ ∃ it m, _ ∧ _ ∧
    (shards (getImpl C net n key w).1 n).items = (w n).shard.items.set it
  obtain hmiss | ⟨it, m, hm, -, ⟨-, hsh | hsh⟩ | ⟨-, stale, hstale, hsh⟩⟩ :=
    getImpl_cases C net n key w
  · rw [hmiss]
    exact .inl rfl
  · rw [hsh]
    exact .inl rfl
  · rw [hsh, modify_self]
    exact (DistShard.repairMissing_items (C.cfg n) key it (w n).shard).imp_right
      (fun h => ⟨it, m, hm, h⟩)
  · have hout : n ∉ stale := fun h => (hstale n h).1 rfl
    rw [hsh, List.foldl_append, foldl_modify_apply _ ((C.cfg n).lookupOwners_nodup key),
      foldl_modify_of_notMem _ hout, repairAt, if_pos rfl]
    split
    · exact (DistShard.repairLocalReplica_items (C.cfg n) key it (w n).shard).imp_right
        (fun h => ⟨it, m, hm, h⟩)
    · exact .inl rfl

/-- A `Get` issued at `n` leaves the other keys of `n` alone, and every item of
`n` in place or replaced by a copy of higher rank. -/
theorem getImpl_self (n : NodeID) (key : Key) (w : World V) :
    (w n).shard.KeptBy ((getImpl C net n key w).1 n).shard ∧
      ∀ k, k ≠ key →
        ((getImpl C net n key w).1 n).shard.items.get k = (w n).shard.items.get k := by
  rcases getImpl_items C net n key w with hsame | ⟨it, m, hm, hrank, hset⟩
  · rw [DistShard.KeptBy, hsame]
    exact ⟨DistShard.KeptBy.refl _, fun _ _ => rfl⟩
  · obtain rfl : it.key = key := ConcurrentMap.key_of_get hm
    rw [DistShard.KeptBy, hset]
    refine ⟨fun k a ha => ?_, fun k hk => ConcurrentMap.get_set_ne _ hk⟩
    by_cases hk : k = it.key
    · subst hk
      exact ⟨it, ConcurrentMap.get_set_self _ it, le_of_lt (hrank a ha)⟩
    · exact ⟨a, (ConcurrentMap.get_set_ne _ hk).trans ha, le_rfl⟩

end World

end HyperCache
