/-
Live items and tombstones of one key.

A delete drops the item and plants a tombstone.  A Merkle pull that brings a key
back drops the tombstone first.  The other writes do not look at the tombstones, so
a key that is written again after a delete is listed twice in the Merkle summary.
-/
import HyperCache.Merkle
import HyperCache.Tombstone

namespace HyperCache

open Pointwise Runs World

variable {V : Type} (C : Cluster)

namespace DistShard

/-- No key is live and deleted at once. -/
def Exclusive (sh : DistShard V) : Prop :=
  ∀ key, key ∈ sh.tombs → sh.items.get key = none

theorem map_k_merkleEntries (sh : DistShard V) :
    sh.merkleEntries.map MerkleKV.k = sh.items.keys ++ sh.tombs.keys := by
  rw [merkleEntries, List.map_append, List.map_map, List.map_map, ← ConcurrentMap.map_key_all]
  rfl

/-- The Merkle summary lists each key at most once exactly when no key is live and
deleted at once. -/
theorem nodup_merkleEntries_iff (sh : DistShard V) :
    (sh.merkleEntries.map MerkleKV.k).Nodup ↔ sh.Exclusive := by
  rw [map_k_merkleEntries, List.nodup_append]
  constructor
  · rintro ⟨-, -, hdisjoint⟩ key htomb
    by_contra hsome
    obtain ⟨it, hit⟩ := Option.ne_none_iff_exists'.mp hsome
    exact hdisjoint key (ConcurrentMap.mem_keys.mpr ⟨it, hit⟩) key (AList.mem_keys.mp htomb) rfl
  · intro h
    refine ⟨sh.items.keys_nodup, sh.tombs.keys_nodup, ?_⟩
    rintro key hkey _ htomb rfl
    obtain ⟨it, hit⟩ := ConcurrentMap.mem_keys.mp hkey
    rw [h key (AList.mem_keys.mpr htomb)] at hit
    cases hit

theorem exclusive_set_iff {sh sh' : DistShard V} {it : Item V} (h : sh.Exclusive)
    (hitems : sh'.items = sh.items.set it) (htombs : sh'.tombs = sh.tombs) :
    sh'.Exclusive ↔ it.key ∉ sh.tombs := by
  constructor
  · intro h' htomb
    have hnone := h' it.key (htombs ▸ htomb)
    rw [hitems, ConcurrentMap.get_set_self] at hnone
    cases hnone
  · intro hfree key htomb
    rw [htombs] at htomb
    have hne : key ≠ it.key := fun heq => hfree (heq ▸ htomb)
    rw [hitems, ConcurrentMap.get_set_ne _ hne]
    exact h key htomb

theorem exclusive_delete {sh sh' : DistShard V} {key : Key} {tomb : Tombstone}
    (h : sh.Exclusive) (hitems : sh'.items = sh.items.remove key)
    (htombs : sh'.tombs = sh.tombs.insert key tomb) : sh'.Exclusive := by
  intro key' htomb
  rw [htombs, AList.mem_insert] at htomb
  rw [hitems]
  by_cases hk : key' = key
  · subst hk
    exact ConcurrentMap.get_remove_self _ _
  · rw [ConcurrentMap.get_remove_ne _ hk]
    exact h key' (htomb.resolve_left hk)

theorem not_mem_tombs_of_get {sh : DistShard V} {key : Key} {it : Item V} (h : sh.Exclusive)
    (hget : sh.items.get key = some it) : key ∉ sh.tombs := by
  intro htomb
  rw [h key htomb] at hget
  cases hget

theorem exclusive_applySet_iff {sh : DistShard V} (cfg : DistConfig) (it : Item V)
    (h : sh.Exclusive) : (sh.applySet cfg it).Exclusive ↔ it.key ∉ sh.tombs :=
  exclusive_set_iff h (applySet_items cfg it sh) (applySet_tombs cfg it sh)

theorem exclusive_pull {sh : DistShard V} (cfg : DistConfig) {it : Item V} (h : sh.Exclusive)
    (hfree : it.key ∉ sh.tombs) : (sh.pull cfg it.key it).Exclusive := by
  have hset : (sh.applySet cfg it).Exclusive := (exclusive_applySet_iff cfg it h).mpr hfree
  unfold pull
  split
  · exact hset
  · split
    · exact hset
    · exact h

/-- A Merkle pull keeps live items and tombstones apart, whether it hits or misses. -/
theorem exclusive_adopt {sh : DistShard V} (cfg : DistConfig) (now : Time) {key : Key}
    {reply : Option (Item V)} (hkey : ∀ it, reply = some it → it.key = key)
    (h : sh.Exclusive) : (sh.adopt cfg now key reply).Exclusive := by
  cases reply with
  | none =>
      rw [adopt]
      split
      · exact h
      · split
        · exact h
        · exact exclusive_delete h rfl rfl
  | some it =>
      have hit : it.key = key := hkey it rfl
      subst hit
      rw [adopt]
      split
      case h_1 hnone => exact exclusive_pull cfg h (AList.lookup_eq_none.mp hnone)
      case h_2 tomb hsome =>
        split
        · exact h
        · -- The tombstone is dropped before the item is stored.
          refine exclusive_pull cfg ?_ ?_
          · intro key' htomb
            exact h key' (AList.mem_erase.mp htomb).2
          · exact fun htomb => (AList.mem_erase.mp htomb).1 rfl

end DistShard

/-! ## One event at one node -/

/-- What happens to a node's data: a `Set` that it serves itself, a `Remove` that it
serves or receives, an anti-entropy fetch that misses, and the arrivals. -/
inductive Event (V : Type) where
  | write (n : NodeID) (item : Item V)
  | delete (n : NodeID) (now : Time) (key : Key)
  | miss (n : NodeID) (now : Time) (key : Key)
  | arrival (e : Arrival V)

namespace Event

def site : Event V → NodeID
  | .write n _ => n
  | .delete n _ _ => n
  | .miss n _ _ => n
  | .arrival e => e.site

def act : Event V → NodeState V → NodeState V
  | .write n item, st => st.applySet (C.cfg n) item
  | .delete n now key, st => st.applyRemove (C.cfg n) now key
  | .miss n now key, st => { st with shard := st.shard.adopt (C.cfg n) now key none }
  | .arrival e, st => { st with shard := e.act C st.shard }

def step (w : World V) (ev : Event V) : World V := modify w ev.site (ev.act C)

/-- The key the event stores a copy of although it may be deleted at the node. -/
def brings : Event V → Option Key
  | .write _ item => some item.key
  | .delete _ _ _ => none
  | .miss _ _ _ => none
  | .arrival e => if e.plants C then some e.item.key else none

/-- The event brings no key that is deleted at its node. -/
def Clear (w : World V) (ev : Event V) : Prop :=
  ∀ key, ev.brings C = some key → key ∉ (w ev.site).shard.tombs

theorem exclusive_arrival_iff (e : Arrival V) {sh : DistShard V} (h : sh.Exclusive) :
    (e.act C sh).Exclusive ↔ (e.plants C = true → e.item.key ∉ sh.tombs) := by
  cases e with
  | forwardedSet dst item =>
      rw [Arrival.act, DistShard.applyForwardedSet, Arrival.plants]
      by_cases haccept : (C.cfg dst).acceptsForwarded item.key = true
      · rw [if_pos haccept, DistShard.exclusive_applySet_iff _ _ h]
        simp [haccept, Arrival.item]
      · rw [if_neg haccept]
        exact iff_of_true h (fun hacc => absurd hacc haccept)
  | repairLocal n chosen =>
      rw [Arrival.act, DistShard.repairLocalReplica, Arrival.plants]
      split
      · rw [DistShard.exclusive_applySet_iff _ _ h]
        simp [Arrival.item]
      case h_2 localIt hget =>
        have hfree : chosen.key ∉ sh.tombs := DistShard.not_mem_tombs_of_get h hget
        refine iff_of_true ?_ (fun _ => hfree)
        split
        · exact (DistShard.exclusive_applySet_iff _ _ h).mpr hfree
        · exact h
  | repairMissing n it =>
      rw [Arrival.act, DistShard.repairMissing, Arrival.plants]
      by_cases howns : (C.cfg n).ownsKeyInternal it.key = true
      · rw [if_pos howns]
        split
        · rw [DistShard.exclusive_applySet_iff _ _ h]
          simp [howns, Arrival.item]
        case h_2 cur hget =>
          exact iff_of_true h (fun _ => DistShard.not_mem_tombs_of_get h hget)
      · rw [if_neg howns]
        exact iff_of_true h (fun ho => absurd ho howns)
  | adopt n now it =>
      refine iff_of_true (DistShard.exclusive_adopt _ now ?_ h) (fun hplants => by cases hplants)
      rintro _ ⟨⟩
      rfl

/-- From a state without overlap, an event makes one exactly when it brings a deleted
key. -/
theorem exclusive_act_iff (ev : Event V) {st : NodeState V} (h : st.shard.Exclusive) :
    (ev.act C st).shard.Exclusive ↔ ∀ key, ev.brings C = some key → key ∉ st.shard.tombs := by
  cases ev with
  | write n item =>
      rw [act, NodeState.applySet_shard, DistShard.exclusive_applySet_iff _ _ h]
      simp [brings]
  | delete n now key =>
      refine iff_of_true ?_ (by simp [brings])
      exact DistShard.exclusive_delete h rfl rfl
  | miss n now key =>
      refine iff_of_true ?_ (by simp [brings])
      exact DistShard.exclusive_adopt _ now (by simp) h
  | arrival e =>
      refine (exclusive_arrival_iff C e h).trans ?_
      by_cases hplants : e.plants C = true
      · simp [brings, hplants]
      · simp [brings, hplants]

theorem exclusive_step_iff (w : World V) (ev : Event V) (h : ∀ n, (w n).shard.Exclusive) :
    (∀ n, (step C w ev n).shard.Exclusive) ↔ ev.Clear C w := by
  have hsite : (step C w ev ev.site).shard.Exclusive ↔ ev.Clear C w := by
    rw [step, modify_self]
    exact exclusive_act_iff C ev (h ev.site)
  constructor
  · intro hall
    exact hsite.mp (hall ev.site)
  · intro hclear n
    by_cases hn : n = ev.site
    · subst hn
      exact hsite.mpr hclear
    · rw [step, modify_ne _ _ hn]
      exact h n

/-- Along a run from empty nodes, no key is ever live and deleted at once, and so no Merkle
summary lists a key twice, exactly when no event brings a key that is deleted at its node:
a served `Set`, an accepted forwarded write or a read repair. -/
theorem exclusive_run_iff (events : List (Event V)) :
    Along (step C) (fun w ev => ∀ n, (step C w ev n).shard.Exclusive ∧
        ((step C w ev n).shard.merkleEntries.map MerkleKV.k).Nodup) World.fresh events ↔
      Along (step C) (Clear C) World.fresh events := by
  have hfresh : ∀ n, ((World.fresh : World V) n).shard.Exclusive := fun n key htomb => by
    cases htomb
  rw [← along_invariant_iff (exclusive_step_iff C) hfresh]
  simp only [DistShard.nodup_merkleEntries_iff, and_self]

/-- The cluster after a `Set`, a `Remove` and a `Set` of one key at its primary. -/
def rewritten : World Str :=
  let written := (World.set quorumCluster allUp [97] sampleItem World.fresh).1
  let removed := (World.remove quorumCluster allUp [97] [[107]] written).1
  (World.set quorumCluster allUp [97] sampleItem removed).1

/-- The second `Set` leaves the tombstone of the `Remove` in place. -/
theorem rewritten_overlaps :
    ((rewritten [97]).shard.items.get [107]).isSome ∧ [107] ∈ (rewritten [97]).shard.tombs ∧
      (rewritten [97]).shard.merkleEntries.map MerkleKV.k = [[107], [107]] := by
  decide

end Event

end HyperCache
