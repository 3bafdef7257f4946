/-
What a call that returns an error leaves behind.

A failed `Set` or `GetOrSet` takes back what it has added to the memory account
and tells the eviction algorithm nothing.  The local items are as before, with two
exceptions on a distributed node: a write that misses its quorum stays with the
node that coordinated it, and the read with which `GetOrSet` and `Remove` begin
may repair the local copy.  A `Remove` of several keys stops at the first that
fails, with the keys before it removed.
-/
import HyperCache.FrontEnd

namespace HyperCache

variable {V A : Type}

/-! ## Repairs -/

/-- An arrival stores no item but its own. -/
theorem Arrival.deliver_holds (C : Cluster) {P : Key → Item V → Prop} {e : Arrival V}
    (he : P e.item.key e.item) {sh : NodeID → DistShard V}
    (h : ∀ m k it, (sh m).items.get k = some it → P k it) (m : NodeID) (k : Key) (it : Item V)
    (hget : (deliver C sh e m).items.get k = some it) : P k it := by
  rw [deliver, Pointwise.modify_apply] at hget
  split at hget
  · obtain ⟨sh', hitems, -, hact | hact⟩ := act_shape C e (sh m)
    · rw [hact, hitems] at hget
      exact h m k it hget
    · rw [hact, DistShard.applySet_items, hitems, ConcurrentMap.get_set] at hget
      split at hget
      · cases hget
        subst k
        exact he
      · exact h m k it hget
  · exact h m k it hget

/-- A `Get` stores no item anywhere that no node has. -/
theorem World.getImpl_holds (C : Cluster) (net : Net) (n : NodeID) (key : Key) (w : World V)
    {m : NodeID} {k : Key} {it : Item V}
    (hget : ((getImpl C net n key w).1 m).shard.items.get k = some it) :
    ∃ m', (w m').shard.items.get k = some it := by
  obtain ⟨run, hrun, hsh⟩ := shards_getImpl C net n key w
  have hitem : ∀ e ∈ run, ∃ m', (w m').shard.items.get e.item.key = some e.item := by
    intro e he
    obtain hmiss | ⟨c, m', hc, hres, -⟩ := getImpl_cases C net n key w
    · have hnone := hrun e he
      rw [hmiss] at hnone
      cases hnone
    · rw [hrun e he] at hres
      cases hres
      rw [ConcurrentMap.key_of_get hc]
      exact ⟨m', hc⟩
  have hcopies : ∀ m k it, (run.foldl (Arrival.deliver C) (shards w) m).items.get k = some it →
      ∃ m', (w m').shard.items.get k = some it :=
    Runs.Along.invariant
      (I := fun sh : NodeID → DistShard V => ∀ m k it, (sh m).items.get k = some it →
        ∃ m', (w m').shard.items.get k = some it)
      (fun sh e h he => Arrival.deliver_holds C he h)
      (Runs.along_of_forall (fun e he _ => hitem e he)) (fun m k it h => ⟨m, h⟩)
  refine hcopies m k it ?_
  rw [← hsh]
  exact hget

namespace Backend

/-- Some store has the item: the backend's own, or that of a node of its cluster. -/
def Holds (key : Key) (it : Item V) : Backend V → Prop
  | .inMemory b => b.items.get key = some it
  | .distMemory d => ∃ m, (d.world m).shard.items.get key = some it

/-- The local store has under `key` what it had, or a copy from the cluster that
ranks above it. -/
def RepairedAt (b b' : Backend V) (key : Key) : Prop :=
  b'.stored.get key = b.stored.get key ∨
    ∃ it, b.Holds key it ∧ b'.stored.get key = some it ∧
      ∀ old, b.stored.get key = some old → old.rank < it.rank

/-- What reads of `keys` do to a backend. -/
structure RepairedBy (keys : List Key) (b b' : Backend V) : Prop where
  holds : ∀ k it, b'.Holds k it → b.Holds k it
  repaired : ∀ k, b.RepairedAt b' k
  other : ∀ k, k ∉ keys → b'.stored.get k = b.stored.get k

theorem RepairedBy.refl (keys : List Key) (b : Backend V) : RepairedBy keys b b where
  holds _ _ h := h
  repaired _ := Or.inl rfl
  other _ _ := rfl

theorem RepairedBy.trans {keys rest : List Key} {b b' b'' : Backend V}
    (h₁ : RepairedBy keys b b') (h₂ : RepairedBy rest b' b'') :
    RepairedBy (keys ++ rest) b b'' where
  holds k it h := h₁.holds k it (h₂.holds k it h)
  repaired k := by
    rcases h₂.repaired k with hsame | ⟨it, hit, hget, hrank⟩
    · rw [RepairedAt, hsame]
      exact h₁.repaired k
    · refine Or.inr ⟨it, h₁.holds k it hit, hget, fun old hold => ?_⟩
      rcases h₁.repaired k with hsame' | ⟨mid, -, hmid, hrank'⟩
      · exact hrank old (hsame'.trans hold)
      · exact (hrank' old hold).trans (hrank mid hmid)
  other k hk := by
    rw [List.mem_append, not_or] at hk
    exact (h₂.other k hk.2).trans (h₁.other k hk.1)

theorem get_repairs (net : Net) (key : Key) (b : Backend V) :
    RepairedBy [key] b (b.get net key).1 := by
  cases b with
  | inMemory b => exact RepairedBy.refl [key] (.inMemory b)
  | distMemory d =>
      have hother := (World.getImpl_self d.cluster net d.self key d.world).2
      refine ⟨fun k it ⟨m, hm⟩ => World.getImpl_holds _ net _ key _ hm, fun k => ?_,
        fun k hk => hother k (fun h => hk (List.mem_singleton.mpr h))⟩
      by_cases hk : k = key
      · subst hk
        rcases World.getImpl_items d.cluster net d.self k d.world with
          hsame | ⟨it, m, hm, hrank, hset⟩
        · exact Or.inl (congrArg (ConcurrentMap.get · k) hsame)
        · obtain rfl : it.key = k := ConcurrentMap.key_of_get hm
          refine Or.inr ⟨it, ⟨m, hm⟩, ?_, hrank⟩
          exact (congrArg (ConcurrentMap.get · it.key) hset).trans
            (ConcurrentMap.get_set_self _ it)
      · exact Or.inl (hother k hk)

/-- A read that misses changes nothing. -/
theorem get_miss {net : Net} {key : Key} {b : Backend V} (h : (b.get net key).2 = none) :
    (b.get net key).1 = b := by
  cases b with
  | inMemory b => rfl
  | distMemory d =>
      obtain hmiss | ⟨it, m, -, hres, -⟩ := World.getImpl_cases d.cluster net d.self key d.world
      · rw [get, hmiss]
      · rw [get, hres] at h
        cases h

end Backend

/-! ## `Set` and `GetOrSet` -/

namespace World

variable [SizedValue V] (C : Cluster) (net : Net)

omit [SizedValue V] in
/-- A forward that fails leaves the cluster alone. -/
theorem handleForwardPrimary_cases (n primary : NodeID) (replicas : List NodeID) (item : Item V)
    (w : World V) :
    (∃ e, handleForwardPrimary C net n primary replicas item w = (w, .error e)) ∨
      (∃ w', handleForwardPrimary C net n primary replicas item w = (w', .ok false)) ∨
      handleForwardPrimary C net n primary replicas item w = (w, .ok true) := by
  rw [handleForwardPrimary]
  split
  · exact Or.inl ⟨.notOwner, rfl⟩
  · by_cases hup : net.up primary = true
    · rw [forwardSet, if_pos hup]
      exact Or.inr (Or.inl ⟨_, rfl⟩)
    · rw [forwardSet, if_neg hup]
      dsimp only
      split
      · exact Or.inr (Or.inr rfl)
      · exact Or.inl ⟨_, rfl⟩

theorem setImpl_cases (n : NodeID) (item : Item V) (w : World V) :
    (∃ e, setImpl C net n item w = (w, some e)) ∨ (setImpl C net n item w).2 = none ∨
      ∃ owners replicas,
        setImpl C net n item w = writeAsPrimary C net n item owners replicas w := by
  rw [setImpl]
  split
  · exact Or.inl ⟨.draining, rfl⟩
  · split
    · exact Or.inl ⟨.notOwner, rfl⟩
    · rename_i primary replicas howners
      split
      · exact Or.inr (Or.inr ⟨_, _, rfl⟩)
      · rcases handleForwardPrimary_cases C net n primary replicas item w with
          ⟨e, h⟩ | ⟨w', h⟩ | h
        · rw [h]
          exact Or.inl ⟨e, rfl⟩
        · rw [h]
          exact Or.inr (Or.inl rfl)
        · rw [h]
          exact Or.inr (Or.inr ⟨_, _, rfl⟩)

/-- A failed `Set` changes nothing, or has stored its item locally and missed the
quorum. -/
theorem set_failed {n : NodeID} {item : Item V} {w : World V} {e : Err}
    (h : (set C net n item w).2 = some e) :
    (set C net n item w).1 = w ∨
      e = .quorumFailed ∧ ((set C net n item w).1 n).shard.items =
        (w n).shard.items.set (stamped net n item w) := by
  rw [set] at h ⊢
  cases hvalid : item.valid with
  | some _ => exact Or.inl rfl
  | none =>
      simp only [hvalid] at h ⊢
      rcases setImpl_cases C net n item w with ⟨e', heq⟩ | hnone | ⟨owners, replicas, heq⟩
      · rw [heq]
        exact Or.inl rfl
      · rw [hnone] at h
        cases h
      · rw [heq] at h ⊢
        have hshard := (writeAsPrimary_self (C := C) net n item owners replicas w).shard
        rw [hshard, NodeState.applySet_shard, DistShard.applySet_items]
        refine Or.inr ⟨?_, rfl⟩
        rw [writeAsPrimary] at h
        dsimp only at h
        split at h
        · cases h
          rfl
        · cases h

end World

/-- A failed `Set` of a backend leaves the size of the item alone, unless the in-memory
backend refuses the item. -/
theorem Backend.set_failed [SizedValue V] {net : Net} {item : Item V} {b : Backend V} {e : Err}
    {left : Int} (h : (b.set net item).2 = some (e, left)) :
    ((∃ m, b = .inMemory m) ∧ item.valid = some e ∨ left = item.size) ∧
      ((b.set net item).1.stored = b.stored ∨
        e = .quorumFailed ∧ ∃ it : Item V, it.key = item.key ∧ it.value = item.value ∧
          (b.set net item).1.stored = b.stored.set it) := by
  cases b with
  | inMemory m =>
      rw [set] at h ⊢
      cases hvalid : item.valid with
      | some e' =>
          simp only [hvalid, Option.some.injEq, Prod.mk.injEq] at h
          exact ⟨Or.inl ⟨⟨m, rfl⟩, congrArg some h.1⟩, Or.inl rfl⟩
      | none =>
          simp only [hvalid] at h
          cases h
  | distMemory d =>
      obtain ⟨e', herr, hpair⟩ := Option.map_eq_some_iff.mp h
      cases hpair
      refine ⟨Or.inr rfl, ?_⟩
      rcases World.set_failed d.cluster net herr with hsame | ⟨rfl, hset⟩
      · exact Or.inl (congrArg (fun w : World V => (w d.self).shard.items) hsame)
      · exact Or.inr ⟨rfl, World.stamped net d.self item d.world, rfl, rfl, hset⟩

theorem Item.valid_cases {item : Item V} {e : Err} (h : item.valid = some e) :
    e = .invalidKey ∨ e = .nilValue ∨ e = .invalidExpiration := by
  rw [valid] at h
  split at h
  · cases h
    exact Or.inl rfl
  · split at h
    · cases h
      exact Or.inr (Or.inl rfl)
    · split at h
      · cases h
        exact Or.inr (Or.inr rfl)
      · cases h

namespace Cache

/-- What a failed `Set` of `key` leaves of a cache.  The account is left alone where the
in-memory backend is not the one to refuse the item. -/
structure Refused (hc : Cache V A) (key : Key) (value : Option V) (e : Err) (hc' : Cache V A) :
    Prop where
  evictionAlgorithm : hc'.evictionAlgorithm = hc.evictionAlgorithm
  memoryAllocation : (∀ b, hc.backend = .inMemory b → e = .invalidSize ∨ e = .cacheFull) →
    hc'.memoryAllocation = hc.memoryAllocation
  stored : hc'.backend.stored = hc.backend.stored ∨
    e = .quorumFailed ∧ ∃ it : Item V, it.key = key ∧ it.value = value ∧
      hc'.backend.stored = hc.backend.stored.set it

/-- What a `GetOrSet` that finds `key` expired leaves of a cache. -/
structure Reread (hc : Cache V A) (key : Key) (hc' : Cache V A) : Prop where
  evictionAlgorithm : hc'.evictionAlgorithm = hc.evictionAlgorithm
  memoryAllocation : hc'.memoryAllocation = hc.memoryAllocation
  stored : hc.backend.RepairedAt hc'.backend key
  other : ∀ k, k ≠ key → hc'.backend.stored.get k = hc.backend.stored.get k

section

variable [EvictionAlgorithm V A] [SizedValue V] [SetSize V]

theorem set_refused {st : Settings} {net : Net} {key : Key} {value : Option V}
    {expiration : Duration} {hc : Cache V A} {e : Err}
    (h : (hc.set st net key value expiration).2 = some e) :
    hc.Refused key value e (hc.set st net key value expiration).1 := by
  unfold set at h ⊢
  cases hsize : SetSize.setSize value with
  | none => exact ⟨rfl, fun _ => rfl, Or.inl rfl⟩
  | some size =>
      simp only [hsize] at h ⊢
      by_cases hfull : st.maxCacheSize > 0 ∧ hc.memoryAllocation + size > st.maxCacheSize
      · rw [if_pos hfull]
        exact ⟨rfl, fun _ => Int.add_sub_cancel _ _, Or.inl rfl⟩
      · rw [if_neg hfull] at h ⊢
        obtain ⟨item, hitem⟩ : ∃ item : Item V, item =
            { key, value, expiration, lastAccess := net.now, size } := ⟨_, rfl⟩
        have hkey : item.key = key := by rw [hitem]
        have hvalue : item.value = value := by rw [hitem]
        have hleft : item.size = size := by rw [hitem]
        rw [← hitem] at h ⊢
        rcases hres : hc.backend.set net item with ⟨backend, _ | ⟨e', left⟩⟩
        · rw [hres] at h
          dsimp only at h
          split at h <;> cases h
        · obtain ⟨hsized, hstored⟩ := Backend.set_failed (congrArg Prod.snd hres)
          rw [hkey, hvalue, hres] at hstored
          rw [hres] at h
          cases h
          refine ⟨rfl, fun hdist => ?_, hstored⟩
          have hsame : left = size := by
            rcases hsized with ⟨⟨m, hm⟩, hvalid⟩ | hsame
            · rcases hdist m hm with rfl | rfl <;>
                rcases Item.valid_cases hvalid with h | h | h <;> cases h
            · exact hsame.trans hleft
          show hc.memoryAllocation + size - left = hc.memoryAllocation
          omega

theorem getOrSet_refused {st : Settings} {net : Net} {key : Key} {value : Option V}
    {expiration : Duration} {hc : Cache V A} {e : Err}
    (h : (hc.getOrSet st net key value expiration).2 = .error e) :
    hc.Refused key value e (hc.getOrSet st net key value expiration).1 ∨
      e = .keyExpired ∧ hc.Reread key (hc.getOrSet st net key value expiration).1 := by
  unfold getOrSet at h ⊢
  rcases hget : hc.backend.get net key with ⟨backend, _ | item⟩
  · have hmiss := Backend.get_miss (congrArg Prod.snd hget)
    rw [hget] at hmiss
    obtain rfl : backend = hc.backend := hmiss
    rw [hget] at h
    dsimp only at h ⊢
    rcases hset : hc.set st net key value expiration with ⟨hc', _ | e'⟩
    · rw [hset] at h
      cases h
    · have hrefused := set_refused (congrArg Prod.snd hset)
      rw [hset] at h hrefused
      cases h
      exact Or.inl hrefused
  · have hrepair := Backend.get_repairs net key hc.backend
    rw [hget] at h hrepair
    dsimp only at h hrepair ⊢
    by_cases hexpired : item.expired net.now = true
    · rw [if_pos hexpired] at h ⊢
      cases h
      exact Or.inr ⟨rfl, rfl, rfl, hrepair.repaired key,
        fun k hk => hrepair.other k (fun hmem => hk (List.mem_singleton.mp hmem))⟩
    · rw [if_neg hexpired] at h
      cases h

end

end Cache

/-! ## `Remove` -/

theorem ConcurrentMap.get_foldl_remove (keys : List Key) (m : ConcurrentMap V) (k : Key) :
    (keys.foldl remove m).get k = m.get k ∨ k ∈ keys ∧ (keys.foldl remove m).get k = none := by
  induction keys generalizing m with
  | nil => exact Or.inl rfl
  | cons key rest ih =>
      rw [List.foldl_cons]
      rcases ih (m.remove key) with hsame | ⟨hmem, hgone⟩
      · by_cases hk : k = key
        · subst hk
          exact Or.inr ⟨List.mem_cons_self, hsame.trans (get_remove_self m k)⟩
        · exact Or.inl (hsame.trans (get_remove_ne m hk))
      · exact Or.inr ⟨List.mem_cons_of_mem key hmem, hgone⟩

namespace World

variable (C : Cluster) (net : Net)

/-- A delete of one key fails without an effect, or removes at most that key. -/
theorem removeKey_cases (n : NodeID) (key : Key) (w : World V) :
    (∃ e, e ≠ .draining ∧ removeKey C net n key w = (w, some e)) ∨
      (removeKey C net n key w).2 = none ∧ ∀ k,
        ((removeKey C net n key w).1 n).shard.items.get k = (w n).shard.items.get k ∨
          k = key ∧ ((removeKey C net n key w).1 n).shard.items.get k = none := by
  have happly : ∀ p k,
      (applyRemove C net p key true w n).shard.items.get k = (w n).shard.items.get k ∨
        k = key ∧ (applyRemove C net p key true w n).shard.items.get k = none := by
    intro p k
    rw [applyRemove_items]
    split
    · by_cases hk : k = key
      · subst hk
        exact Or.inr ⟨rfl, ConcurrentMap.get_remove_self _ k⟩
      · exact Or.inl (ConcurrentMap.get_remove_ne _ hk)
    · exact Or.inl rfl
  rw [removeKey]
  split
  · exact Or.inr ⟨rfl, fun k => Or.inl rfl⟩
  · rename_i primary replicas howners
    split
    · exact Or.inr ⟨rfl, happly n⟩
    · split
      · exact Or.inl ⟨.notOwner, by decide, rfl⟩
      · rw [forwardOrPromoteRemove, forwardRemove]
        by_cases hup : net.up primary = true
        · rw [if_pos hup]
          exact Or.inr ⟨rfl, happly primary⟩
        · rw [if_neg hup]
          dsimp only
          split
          · exact Or.inr ⟨rfl, happly n⟩
          · exact Or.inl ⟨.backendNotFound, by decide, rfl⟩

/-- The loop fails at one of the keys, with at most the keys before it removed. -/
theorem removeKeys_failed {n : NodeID} {keys : List Key} {w : World V} {e : Err}
    (h : (removeKeys C net n keys w).2 = some e) :
    e ≠ .draining ∧ ∃ done, done <+: keys.dropLast ∧ ∀ k,
      ((removeKeys C net n keys w).1 n).shard.items.get k = (w n).shard.items.get k ∨
        k ∈ done ∧ ((removeKeys C net n keys w).1 n).shard.items.get k = none := by
  induction keys generalizing w with
  | nil => cases h
  | cons key rest ih =>
      rw [removeKeys] at h ⊢
      rcases removeKey_cases C net n key w with ⟨e', hne, heq⟩ | ⟨hnone, hitems⟩
      · rw [heq] at h ⊢
        cases h
        exact ⟨hne, [], List.nil_prefix, fun k => Or.inl rfl⟩
      · generalize removeKey C net n key w = res at h hnone hitems ⊢
        obtain ⟨w', err⟩ := res
        obtain rfl : err = none := hnone
        obtain ⟨hne, done, hdone, hkeys⟩ := ih h
        -- A loop that fails has a key left to fail at.
        have hrest : rest ≠ [] := by
          intro hnil
          rw [hnil] at h
          cases h
        refine ⟨hne, key :: done, ?_, fun k => ?_⟩
        · rw [List.dropLast_cons_of_ne_nil hrest]
          exact List.cons_prefix_cons.mpr ⟨rfl, hdone⟩
        · rcases hkeys k with hsame | ⟨hmem, hgone⟩
          · rcases hitems k with hkept | ⟨rfl, hgone⟩
            · exact Or.inl (hsame.trans hkept)
            · exact Or.inr ⟨List.mem_cons_self, hsame.trans hgone⟩
          · exact Or.inr ⟨List.mem_cons_of_mem key hmem, hgone⟩

end World

theorem Backend.remove_failed {net : Net} {keys : List Key} {b : Backend V} {e : Err}
    (h : (b.remove net keys).2 = some e) :
    ∃ done, done <+: keys.dropLast ∧ (e = .draining → done = []) ∧ ∀ k,
      (b.remove net keys).1.stored.get k = b.stored.get k ∨
        k ∈ done ∧ (b.remove net keys).1.stored.get k = none := by
  cases b with
  | inMemory b => cases h
  | distMemory d =>
      show ∃ done, _ ∧ _ ∧ ∀ k,
        ((World.remove d.cluster net d.self keys d.world).1 d.self).shard.items.get k =
            (d.world d.self).shard.items.get k ∨
          k ∈ done ∧
            ((World.remove d.cluster net d.self keys d.world).1 d.self).shard.items.get k = none
      have hfail : (World.remove d.cluster net d.self keys d.world).2 = some e := h
      rw [World.remove] at hfail ⊢
      split at hfail
      · rename_i hdrain
        rw [if_pos hdrain]
        exact ⟨[], List.nil_prefix, fun _ => rfl, fun k => Or.inl rfl⟩
      · rename_i hdrain
        obtain ⟨hne, done, hdone, hkeys⟩ := World.removeKeys_failed d.cluster net hfail
        rw [if_neg hdrain]
        exact ⟨done, hdone, fun he => absurd he hne, hkeys⟩

namespace Cache

variable [IAlgorithm A]

/-- `Remove` over the in-memory backend when its context ends first: the goroutine
that removes the keys has come as far as `n` of them. -/
def removeCanceled (net : Net) (keys : List Key) (n : Nat) (hc : Cache V A) : Cache V A :=
  let hc := release net keys hc
  { hc with backend := (hc.backend.remove net (keys.take n)).1 }

/-- What a failed `Remove` of `keys` that has passed `done` leaves of a cache.  The account
and the eviction algorithm are left alone where the reads find no item. -/
structure PartlyRemoved (net : Net) (keys done : List Key) (hc hc' : Cache V A) : Prop where
  missed : (∀ key ∈ keys, (hc.backend.get net key).2 = none) →
    hc'.evictionAlgorithm = hc.evictionAlgorithm ∧ hc'.memoryAllocation = hc.memoryAllocation
  stored : ∀ k, hc.backend.RepairedAt hc'.backend k ∨
    k ∈ done ∧ hc'.backend.stored.get k = none
  other : ∀ k, k ∉ keys → hc'.backend.stored.get k = hc.backend.stored.get k

theorem release_repairs (net : Net) (keys : List Key) (hc : Cache V A) :
    hc.backend.RepairedBy keys (release net keys hc).backend := by
  induction keys generalizing hc with
  | nil => exact Backend.RepairedBy.refl [] hc.backend
  | cons key rest ih =>
      have hread := Backend.get_repairs net key hc.backend
      rw [release]
      rcases hget : hc.backend.get net key with ⟨backend, _ | item⟩
      · rw [hget] at hread
        exact hread.trans (ih { hc with backend })
      · rw [hget] at hread
        exact hread.trans (ih
          { backend
            memoryAllocation := hc.memoryAllocation - item.size
            evictionAlgorithm := IAlgorithm.delete key hc.evictionAlgorithm })

theorem release_missed {net : Net} {keys : List Key} {hc : Cache V A}
    (h : ∀ key ∈ keys, (hc.backend.get net key).2 = none) : release net keys hc = hc := by
  induction keys with
  | nil => rfl
  | cons key rest ih =>
      obtain ⟨hkey, hrest⟩ := List.forall_mem_cons.mp h
      have hsame := Backend.get_miss hkey
      rw [release]
      rcases hget : hc.backend.get net key with ⟨backend, _ | item⟩
      · rw [hget] at hsame
        obtain rfl : backend = hc.backend := hsame
        exact ih hrest
      · rw [hget] at hkey
        cases hkey

/-- A deletion of `done` after the reads of `Remove`. -/
theorem partlyRemoved_release {net : Net} {keys done : List Key} (hdone : done ⊆ keys)
    {hc : Cache V A} {backend : Backend V}
    (h : ∀ k, backend.stored.get k = (release net keys hc).backend.stored.get k ∨
      k ∈ done ∧ backend.stored.get k = none) :
    hc.PartlyRemoved net keys done { release net keys hc with backend } := by
  have hread := release_repairs net keys hc
  refine ⟨fun hmiss => ?_, fun k => ?_, fun k hk => ?_⟩
  · rw [release_missed hmiss]
    exact ⟨rfl, rfl⟩
  · rcases h k with hsame | hgone
    · refine Or.inl ?_
      show Backend.RepairedAt hc.backend backend k
      rw [Backend.RepairedAt, hsame]
      exact hread.repaired k
    · exact Or.inr hgone
  · rcases h k with hsame | ⟨hmem, -⟩
    · exact hsame.trans (hread.other k hk)
    · exact absurd (hdone hmem) hk

theorem remove_failed {net : Net} {keys : List Key} {hc : Cache V A} {e : Err}
    (h : (hc.remove net keys).2 = some e) :
    ∃ done, done <+: keys.dropLast ∧ (e = .draining → done = []) ∧
      hc.PartlyRemoved net keys done (hc.remove net keys).1 := by
  obtain ⟨done, hdone, hdrain, hkeys⟩ :=
    Backend.remove_failed (b := (release net keys hc).backend) h
  exact ⟨done, hdone, hdrain, partlyRemoved_release
    (List.Subset.trans hdone.subset (List.dropLast_sublist keys).subset) hkeys⟩

theorem removeCanceled_partly (net : Net) (keys : List Key) (n : Nat) {hc : Cache V A}
    {b : InMemory V} (hb : hc.backend = .inMemory b) :
    hc.PartlyRemoved net keys (keys.take n) (hc.removeCanceled net keys n) := by
  refine partlyRemoved_release (List.take_subset n keys) (fun k => ?_)
  rw [release_inMemory net b.items keys hc hb]
  exact ConcurrentMap.get_foldl_remove (keys.take n) b.items k

end Cache

/-! ## Failed calls -/

/-- A call that returns an error leaves the eviction algorithm, the memory account and
the local items alone, but for a write that misses its quorum, the repair by a read
and the keys that a `Remove` has passed. -/
theorem failed_calls_keep [EvictionAlgorithm V A] [SizedValue V] [SetSize V] (st : Settings)
    (net : Net) (hc : Cache V A) :
    (∀ key value expiration e, (hc.set st net key value expiration).2 = some e →
      hc.Refused key value e (hc.set st net key value expiration).1) ∧
    (∀ key value expiration e, (hc.getOrSet st net key value expiration).2 = .error e →
      hc.Refused key value e (hc.getOrSet st net key value expiration).1 ∨
        e = .keyExpired ∧ hc.Reread key (hc.getOrSet st net key value expiration).1) ∧
    (∀ keys e, (hc.remove net keys).2 = some e →
      ∃ done, done <+: keys.dropLast ∧ (e = .draining → done = []) ∧
        hc.PartlyRemoved net keys done (hc.remove net keys).1) ∧
    ∀ b keys n, hc.backend = .inMemory b →
      hc.PartlyRemoved net keys (keys.take n) (hc.removeCanceled net keys n) :=
  ⟨fun _ _ _ _ h => Cache.set_refused h, fun _ _ _ _ h => Cache.getOrSet_refused h,
    fun _ _ h => Cache.remove_failed h,
    fun _ keys n hb => Cache.removeCanceled_partly net keys n hb⟩

/-- A cache over the first of three owners. -/
def primaryCache : Cache Str (Algorithm Str) where
  backend := .distMemory ⟨World.quorumCluster, [97], World.fresh⟩
  memoryAllocation := 0
  evictionAlgorithm := .lru ⟨.new 4⟩

/-- The other owners are down. -/
def isolatedNet : Net := { up := fun n => n == [97], now := 0 }

/-- A cache over a node that owns nothing. -/
def outsiderCache : Cache Str (Algorithm Str) :=
  { primaryCache with backend := .distMemory ⟨World.quorumCluster, [100], World.fresh⟩ }

def neverEvicts : Settings := { capacity := 0, shouldEvict := false, maxEvictionCount := 0 }

/-- The isolated primary misses the quorum, with `Set` and with `GetOrSet`, and the outsider does
not reach the primary with its `Remove`. -/
theorem failed_calls_keep_isolated :
    primaryCache.Refused [107] (some [1]) .quorumFailed
        (primaryCache.set neverEvicts isolatedNet [107] (some [1]) 0).1 ∧
      (primaryCache.Refused [107] (some [1]) .quorumFailed
          (primaryCache.getOrSet neverEvicts isolatedNet [107] (some [1]) 0).1 ∨
        Err.quorumFailed = .keyExpired ∧ primaryCache.Reread [107]
          (primaryCache.getOrSet neverEvicts isolatedNet [107] (some [1]) 0).1) ∧
      ∃ done, done <+: [[107], [108]].dropLast ∧ (Err.backendNotFound = .draining → done = []) ∧
        outsiderCache.PartlyRemoved { up := fun _ => false, now := 0 } [[107], [108]] done
          (outsiderCache.remove { up := fun _ => false, now := 0 } [[107], [108]]).1 :=
  ⟨(failed_calls_keep neverEvicts isolatedNet primaryCache).1 [107] (some [1]) 0 _ rfl,
    (failed_calls_keep neverEvicts isolatedNet primaryCache).2.1 [107] (some [1]) 0 _ rfl,
    (failed_calls_keep neverEvicts _ outsiderCache).2.2.1 [[107], [108]] _ rfl⟩

/-- What the `Set` fails to replicate is in the local store. -/
theorem failed_set_stored :
    (primaryCache.set neverEvicts isolatedNet [107] (some [1]) 0).2 = some .quorumFailed ∧
      primaryCache.backend.stored.get [107] = none ∧
      ((primaryCache.set neverEvicts isolatedNet [107] (some [1]) 0).1.backend.stored.get
        [107]).map Item.value = some (some [1]) :=
  ⟨rfl, rfl, rfl⟩

end HyperCache
