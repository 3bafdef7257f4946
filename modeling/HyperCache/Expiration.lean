/-
The expiration pass of a cache.

`expirationLoop` lists the expired items of the backend and removes them through
the cache, one after the other, until the first error.  The list is as good as
the backend's `List`.  The in-memory backend filters, so the pass removes the
expired items and nothing else.  A distributed node ignores the filter and every
item it stores is removed, as far as the delete is routed back to the node.
-/
import HyperCache.Backend

namespace HyperCache

/-- `IAlgorithm`, as far as a `Remove` uses it. -/
class IAlgorithm (A : Type) where
  delete : Key → A → A

/-- `HyperCache`, the front end over a backend. -/
structure Cache (V A : Type) where
  backend : Backend V
  memoryAllocation : Int
  evictionAlgorithm : A

namespace Cache

variable {V A : Type} [IAlgorithm A]

/-- The first loop of `Remove`: take the keys that are found out of the memory
account and the eviction algorithm. -/
def release (net : Net) : List Key → Cache V A → Cache V A
  | [], hc => hc
  | key :: rest, hc =>
      match hc.backend.get net key with
      | (backend, none) => release net rest { hc with backend }
      | (backend, some item) =>
          release net rest
            { backend
              memoryAllocation := hc.memoryAllocation - item.size
              evictionAlgorithm := IAlgorithm.delete key hc.evictionAlgorithm }

def remove (net : Net) (keys : List Key) (hc : Cache V A) : Cache V A × Option Err :=
  let hc := release net keys hc
  let (backend, err) := hc.backend.remove net keys
  ({ hc with backend }, err)

/-- The removal loop of the pass.  `nets key` is the surroundings at the time of
the `Remove` of `key`. -/
def removeListed (nets : Key → Net) : List (Item V) → Cache V A → Cache V A × Option Err
  | [], hc => (hc, none)
  | item :: rest, hc =>
      match hc.remove (nets item.key) [item.key] with
      | (hc, some e) => (hc, some e)
      | (hc, none) => removeListed nets rest hc

/-- The job `expirationLoop` enqueues, run at time `now`. -/
def expirationLoop (s : ItemSorts V) (now : Time) (nets : Key → Net) (hc : Cache V A) :
    Cache V A × Option Err :=
  match hc.backend.list s [.sortBy "Expiration", .filterFunc (Item.expired now)] with
  | .error e => (hc, some e)
  | .ok items => removeListed nets items hc

end Cache

variable {V : Type}

/-! ## One `Remove` -/

/-- What a `Remove` of `key` does to a store at that key.  Applied on the store it
drops the item, and otherwise the read that goes before it may refresh the copy. -/
def ConcurrentMap.Drops (m : ConcurrentMap V) (applied : Bool) (key : Key)
    (m' : ConcurrentMap V) : Prop :=
  if applied then m'.get key = none
  else ∀ it, m.get key = some it → ∃ it', m'.get key = some it' ∧ it.rank ≤ it'.rank

namespace Backend

/-- Whether a `Remove` of `key` is applied on the backend's own store. -/
def removesLocally (net : Net) (key : Key) : Backend V → Bool
  | .inMemory _ => true
  | .distMemory d => World.removesLocally d.cluster net d.self key

theorem get_remove_spec {net : Net} {key : Key} {b : Backend V}
    (hok : ((b.get net key).1.remove net [key]).2 = none) :
    (∀ k, k ≠ key →
      ((b.get net key).1.remove net [key]).1.stored.get k = b.stored.get k) ∧
    b.stored.Drops (b.removesLocally net key) key
      ((b.get net key).1.remove net [key]).1.stored := by
  cases b with
  | inMemory b =>
      exact ⟨fun k hk => ConcurrentMap.get_remove_ne b.items hk,
        ConcurrentMap.get_remove_self b.items key⟩
  | distMemory d =>
      obtain ⟨hkept, hother⟩ := World.getImpl_self d.cluster net d.self key d.world
      have hitems : (((Backend.distMemory d).get net key).1.remove net [key]).1.stored =
          if World.removesLocally d.cluster net d.self key then
            ((World.getImpl d.cluster net d.self key d.world).1 d.self).shard.items.remove key
          else ((World.getImpl d.cluster net d.self key d.world).1 d.self).shard.items :=
        World.remove_items d.cluster net hok
      rw [hitems, ConcurrentMap.Drops]
      dsimp only [removesLocally, stored]
      split
      · exact ⟨fun k hk => (ConcurrentMap.get_remove_ne _ hk).trans (hother k hk),
          ConcurrentMap.get_remove_self _ key⟩
      · exact ⟨hother, fun it hit => hkept key it hit⟩

theorem removesLocally_remove (net net' : Net) (key k : Key) (b : Backend V) :
    ((b.get net key).1.remove net [key]).1.removesLocally net' k = b.removesLocally net' k := by
  cases b <;> rfl

def hands (now : Time) (it : Item V) : Backend V → Bool
  | .inMemory _ => it.expired now
  | .distMemory _ => true

theorem list_perm {s : ItemSorts V} {now : Time} {b : Backend V} {items : List (Item V)}
    (h : b.list s [.sortBy "Expiration", .filterFunc (Item.expired now)] = .ok items) :
    items.Perm (b.stored.all.filter (fun it => b.hands now it)) := by
  cases b with
  | inMemory b =>
      have hperm := Filter.applyAll_perm h
      simp only [Filter.passes, List.all_cons, List.all_nil, Bool.true_and, Bool.and_true] at hperm
      exact hperm
  | distMemory d =>
      cases h
      exact .of_eq (List.filter_eq_self.mpr (fun _ _ => rfl)).symm

end Backend

namespace Cache

variable {A : Type} [IAlgorithm A]

theorem remove_backend (net : Net) (key : Key) (hc : Cache V A) :
    (hc.remove net [key]).1.backend = ((hc.backend.get net key).1.remove net [key]).1 ∧
      (hc.remove net [key]).2 = ((hc.backend.get net key).1.remove net [key]).2 := by
  have hrelease : (release net [key] hc).backend = (hc.backend.get net key).1 := by
    rw [release]
    split <;> rename_i hget <;> rw [hget] <;> rfl
  rw [remove, hrelease]
  exact ⟨rfl, rfl⟩

/-! ## A run of the pass -/

/-- The removal loop settles every listed key by the `Remove` of that key and
leaves the others alone. -/
theorem removeListed_spec {nets : Key → Net} {items : List (Item V)}
    (hnd : (items.map Item.key).Nodup) {hc : Cache V A}
    (hok : (removeListed nets items hc).2 = none) :
    (∀ k, k ∉ items.map Item.key →
      (removeListed nets items hc).1.backend.stored.get k = hc.backend.stored.get k) ∧
    ∀ k ∈ items.map Item.key,
      hc.backend.stored.Drops (hc.backend.removesLocally (nets k) k) k
        (removeListed nets items hc).1.backend.stored := by
  induction items generalizing hc with
  | nil => exact ⟨fun _ _ => rfl, fun k hk => absurd hk List.not_mem_nil⟩
  | cons item rest ih =>
      obtain ⟨hfresh, hrest⟩ := List.nodup_cons.mp hnd
      obtain ⟨hbackend, herr⟩ := remove_backend (nets item.key) item.key hc
      rw [removeListed] at hok ⊢
      split at hok
      · cases hok
      rename_i hc' heq
      rw [heq] at hbackend herr
      change hc'.backend = _ at hbackend
      obtain ⟨hother, hdrops⟩ := Backend.get_remove_spec herr.symm
      have hlocal : ∀ k, hc'.backend.removesLocally (nets k) k =
          hc.backend.removesLocally (nets k) k := by
        intro k
        rw [hbackend, Backend.removesLocally_remove]
      rw [← hbackend] at hother hdrops
      obtain ⟨ihother, ihdrops⟩ := ih hrest hok
      refine ⟨fun k hk => ?_, fun k hk => ?_⟩
      · rw [List.map_cons, List.mem_cons, not_or] at hk
        rw [ihother k hk.2, hother k hk.1]
      · rw [List.map_cons, List.mem_cons] at hk
        by_cases hkey : k = item.key
        · subst hkey
          rw [ConcurrentMap.Drops, ihother _ hfresh]
          exact hdrops
        · have hdrop := ihdrops k (hk.resolve_left hkey)
          rw [ConcurrentMap.Drops, hother k hkey, hlocal] at hdrop
          exact hdrop

theorem expirationLoop_spec {s : ItemSorts V} {now : Time} {nets : Key → Net} {hc : Cache V A}
    (hok : (hc.expirationLoop s now nets).2 = none) (key : Key) :
    ((∀ it, hc.backend.stored.get key = some it → hc.backend.hands now it = false) →
      (hc.expirationLoop s now nets).1.backend.stored.get key = hc.backend.stored.get key) ∧
    ∀ it, hc.backend.stored.get key = some it → hc.backend.hands now it = true →
      hc.backend.stored.Drops (hc.backend.removesLocally (nets key) key) key
        (hc.expirationLoop s now nets).1.backend.stored := by
  rw [expirationLoop] at hok ⊢
  split at hok
  · cases hok
  rename_i items hlist
  have hperm := Backend.list_perm hlist
  have hmem : key ∈ items.map Item.key ↔
      ∃ it, hc.backend.stored.get key = some it ∧ hc.backend.hands now it = true := by
    rw [(hperm.map Item.key).mem_iff, List.mem_map]
    constructor
    · rintro ⟨it, hit, rfl⟩
      obtain ⟨hall, hhands⟩ := List.mem_filter.mp hit
      exact ⟨it, ConcurrentMap.mem_all.mp hall, hhands⟩
    · rintro ⟨it, hget, hhands⟩
      obtain rfl : it.key = key := ConcurrentMap.key_of_get hget
      exact ⟨it, List.mem_filter.mpr ⟨ConcurrentMap.mem_all.mpr hget, hhands⟩, rfl⟩
  have hnd : (items.map Item.key).Nodup := by
    rw [(hperm.map Item.key).nodup_iff]
    refine List.Nodup.sublist (List.filter_sublist.map Item.key) ?_
    rw [ConcurrentMap.map_key_all]
    exact ConcurrentMap.keys_nodup _
  obtain ⟨hother, hdrops⟩ := removeListed_spec hnd hok
  refine ⟨fun hnone => hother key (fun hkey => ?_),
    fun it hget hhands => hdrops key (hmem.mpr ⟨it, hget, hhands⟩)⟩
  obtain ⟨it, hget, hhands⟩ := hmem.mp hkey
  rw [hnone it hget] at hhands
  cases hhands

/-- The stored items without the expired ones.  A copy that stays may have been
refreshed. -/
structure Expires (now : Time) (before after : ConcurrentMap V) : Prop where
  absent : ∀ key, before.get key = none → after.get key = none
  removed : ∀ key it, before.get key = some it → it.expired now = true → after.get key = none
  kept : ∀ key it, before.get key = some it → it.expired now = false →
    ∃ it', after.get key = some it' ∧ it.rank ≤ it'.rank

theorem expirationLoop_inMemory {s : ItemSorts V} {now : Time} {nets : Key → Net}
    {hc : Cache V A} {b : InMemory V} (hb : hc.backend = .inMemory b)
    (hok : (hc.expirationLoop s now nets).2 = none) (key : Key) :
    (hc.expirationLoop s now nets).1.backend.stored.get key =
      (b.items.get key).filter (fun it => !it.expired now) := by
  obtain ⟨hother, hdrops⟩ := expirationLoop_spec hok key
  have hstored : hc.backend.stored = b.items := by rw [hb]; rfl
  have hhands : ∀ it, hc.backend.hands now it = it.expired now := by rw [hb]; exact fun _ => rfl
  simp only [hstored, hhands] at hother hdrops
  cases hget : b.items.get key with
  | none => simpa [hget] using hother
  | some it =>
      cases hexp : it.expired now with
      | false =>
          have hstays : ∀ it', b.items.get key = some it' → it'.expired now = false := by
            intro it' hit'
            rw [hget, Option.some.injEq] at hit'
            exact hit' ▸ hexp
          rw [hother hstays, hget, Option.filter_some, hexp]
          rfl
      | true =>
          have hgone := hdrops it hget hexp
          rw [ConcurrentMap.Drops, hb, Backend.removesLocally, if_pos rfl] at hgone
          rw [hgone, Option.filter_some, hexp]
          rfl

/-- A store whose items are all put to a `Remove` loses exactly the expired ones
when those are the removes that are applied on it. -/
theorem expires_iff {now : Time} {before after : ConcurrentMap V} {applied : Key → Bool}
    (habsent : ∀ key, before.get key = none → after.get key = none)
    (hdrops : ∀ key it, before.get key = some it → before.Drops (applied key) key after) :
    Expires now before after ↔
      ∀ key it, before.get key = some it → applied key = it.expired now := by
  constructor
  · intro h key it hget
    have hdrop := hdrops key it hget
    rw [ConcurrentMap.Drops] at hdrop
    cases hexp : it.expired now with
    | false =>
        obtain ⟨it', hit', -⟩ := h.kept key it hget hexp
        by_contra happlied
        rw [if_pos (by simpa using happlied), hit'] at hdrop
        cases hdrop
    | true =>
        by_contra happlied
        rw [if_neg happlied] at hdrop
        obtain ⟨it', hit', -⟩ := hdrop it hget
        rw [h.removed key it hget hexp] at hit'
        cases hit'
  · intro h
    refine ⟨habsent, fun key it hget hexp => ?_, fun key it hget hexp => ?_⟩
    · have hdrop := hdrops key it hget
      rwa [ConcurrentMap.Drops, h key it hget, if_pos hexp] at hdrop
    · have hdrop := hdrops key it hget
      rw [ConcurrentMap.Drops, h key it hget, hexp, if_neg Bool.false_ne_true] at hdrop
      exact hdrop it hget

/-- Over the in-memory backend the pass removes exactly the expired items.  Over a
distributed node it does so exactly when the deletes that are routed back to the
node are those of the expired items. -/
theorem expirationLoop_exact_iff (s : ItemSorts V) (now : Time) (nets : Key → Net)
    {hc : Cache V A} (hok : (hc.expirationLoop s now nets).2 = none) :
    (∀ b, hc.backend = .inMemory b → ∀ key,
      (hc.expirationLoop s now nets).1.backend.stored.get key =
        (b.items.get key).filter (fun it => !it.expired now)) ∧
    ∀ d, hc.backend = .distMemory d →
      (Expires now hc.backend.stored (hc.expirationLoop s now nets).1.backend.stored ↔
        ∀ key it, hc.backend.stored.get key = some it →
          World.removesLocally d.cluster (nets key) d.self key = it.expired now) := by
  refine ⟨fun b hb key => expirationLoop_inMemory hb hok key, fun d hd => ?_⟩
  refine expires_iff (fun key hnone => ?_) (fun key it hget => ?_)
  · have hsame := (expirationLoop_spec hok key).1 (fun it hget => by rw [hnone] at hget; cases hget)
    rw [hsame, hnone]
  · have hdrop := (expirationLoop_spec hok key).2 it hget (by rw [hd]; rfl)
    rwa [hd, Backend.removesLocally, ← hd] at hdrop

def singleNode (item : Item Str) : Backend Str :=
  let cluster := Cluster.uniform { localNode := [], ring := some (.fixed [[97]] (by decide)) }
  .distMemory ⟨cluster, [97], fun n =>
    { shard := DistShard.empty.applySet (cluster.cfg n) item }⟩

def insertionSorts : ItemSorts Str :=
  ⟨.insertion _, .insertion _, .insertion _, .insertion _⟩

def shortLived : Item Str := { World.sampleItem with expiration := 5 }

/-- A pass over a node whose only item has expired. -/
theorem expirationLoop_short_lived :
    shortLived.expired 10 = true ∧
      ∀ (A : Type) [IAlgorithm A] (alg : A),
        Expires 10 (singleNode shortLived).stored
          ((Cache.mk (singleNode shortLived) 0 alg).expirationLoop insertionSorts 10
            (fun _ => World.allUp)).1.backend.stored := by
  refine ⟨by decide, fun A _ alg => ?_⟩
  have hok : ((Cache.mk (singleNode shortLived) 0 alg).expirationLoop insertionSorts 10
      (fun _ => World.allUp)).2 = none := rfl
  refine ((expirationLoop_exact_iff insertionSorts 10 (fun _ => World.allUp) hok).2 _ rfl).mpr
    (fun key it hget => ?_)
  have hit : (if key = shortLived.key then some shortLived else none) = some it := by
    rw [← hget]
    exact (ConcurrentMap.get_set .empty shortLived key).symm
  split at hit
  · cases hit
    rfl
  · cases hit

/-- A node removes an item without an expiration. -/
theorem expirationLoop_removes_unexpired :
    World.sampleItem.expired 10 = false ∧
      (singleNode World.sampleItem).stored.get [107] = some World.sampleItem ∧
      ∀ (A : Type) [IAlgorithm A] (alg : A),
        ((Cache.mk (singleNode World.sampleItem) 0 alg).expirationLoop insertionSorts 10
          (fun _ => World.allUp)).2 = none ∧
        ((Cache.mk (singleNode World.sampleItem) 0 alg).expirationLoop insertionSorts 10
          (fun _ => World.allUp)).1.backend.stored.get [107] = none :=
  ⟨by decide, by decide, fun _ _ _ => ⟨rfl, rfl⟩⟩

end Cache

end HyperCache
