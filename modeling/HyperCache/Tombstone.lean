/-
What a tombstone keeps out.

Only the Merkle pull looks at tombstones.  The other arrivals plant their copy
whatever the tombstone says, so a deleted key stays unreadable exactly as long
as none of them brings it.
-/
import HyperCache.Arrival

namespace HyperCache

open Pointwise World

variable {V : Type} (C : Cluster)

structure DistShard.Buried (key : Key) (tomb : Tombstone) (sh : DistShard V) : Prop where
  gone : sh.items.get key = none
  marked : sh.tombs.lookup key = some tomb

namespace Arrival

/-- Whether the arrival plants its copy at a node that has a tombstone of at least
its version and no item. -/
def plants : Arrival V → Bool
  | .forwardedSet dst item => (C.cfg dst).acceptsForwarded item.key
  | .repairLocal _ _ => true
  | .repairMissing n it => (C.cfg n).ownsKeyInternal it.key
  | .adopt _ _ _ => false

theorem act_of_plants {e : Arrival V} {sh : DistShard V}
    (hgone : sh.items.get e.item.key = none) (h : e.plants C = true) :
    (e.act C sh).items.get e.item.key = some e.item := by
  cases e with
  | forwardedSet dst item =>
      rw [plants] at h
      rw [act, DistShard.applyForwardedSet, if_pos h, DistShard.applySet_items]
      exact ConcurrentMap.get_set_self _ item
  | repairLocal n chosen =>
      rw [item] at hgone
      rw [act, DistShard.repairLocalReplica, hgone, DistShard.applySet_items]
      exact ConcurrentMap.get_set_self _ chosen
  | repairMissing n it =>
      rw [plants] at h
      rw [item] at hgone
      rw [act, DistShard.repairMissing, if_pos h, hgone, DistShard.applySet_items]
      exact ConcurrentMap.get_set_self _ it
  | adopt n now it => cases h

theorem act_of_not_plants {e : Arrival V} {tomb : Tombstone} {sh : DistShard V}
    (hsh : sh.Buried e.item.key tomb) (hold : e.item.version ≤ tomb.version)
    (h : e.plants C = false) : e.act C sh = sh := by
  cases e with
  | forwardedSet dst item =>
      rw [plants] at h
      rw [act, DistShard.applyForwardedSet, h]
      rfl
  | repairLocal n chosen => cases h
  | repairMissing n it =>
      rw [plants] at h
      rw [act, DistShard.repairMissing, h]
      rfl
  | adopt n now it =>
      have hmarked : sh.tombs.lookup it.key = some tomb := hsh.marked
      rw [act, DistShard.adopt, hmarked]
      exact if_pos hold

theorem buried_deliver {n : NodeID} {key : Key} {tomb : Tombstone} {sh : NodeID → DistShard V}
    {e : Arrival V} (hsh : (sh n).Buried key tomb)
    (hold : e.site = n → e.item.key = key → e.item.version ≤ tomb.version)
    (h : e.site = n → e.item.key = key → e.plants C = false) :
    (deliver C sh e n).Buried key tomb := by
  rw [deliver, modify_apply]
  split
  · rename_i hn
    by_cases hkey : e.item.key = key
    · subst hkey
      rw [act_of_not_plants C hsh (hold hn.symm rfl) (h hn.symm rfl)]
      exact hsh
    · obtain ⟨hitems, htombs⟩ := act_other C (Ne.symm hkey) (sh n)
      exact ⟨hitems.trans hsh.gone, htombs.trans hsh.marked⟩
  · exact hsh

theorem buried_run {n : NodeID} {key : Key} {tomb : Tombstone} {sh : NodeID → DistShard V}
    {arrivals : List (Arrival V)} (hsh : (sh n).Buried key tomb)
    (hold : ∀ e ∈ arrivals, e.site = n → e.item.key = key → e.item.version ≤ tomb.version)
    (h : ∀ e ∈ arrivals, e.site = n → e.item.key = key → e.plants C = false) :
    (arrivals.foldl (deliver C) sh n).Buried key tomb := by
  induction arrivals generalizing sh with
  | nil => exact hsh
  | cons e rest ih =>
      obtain ⟨hold₀, hold⟩ := List.forall_mem_cons.mp hold
      obtain ⟨h₀, h⟩ := List.forall_mem_cons.mp h
      exact ih (buried_deliver C hsh hold₀ h₀) hold h

/-- A key that is deleted at a node under a tombstone stays unreadable there,
whatever copies no newer than the tombstone arrive in whatever order, exactly
when each of those copies comes by a Merkle pull or is refused for ownership. -/
theorem never_readable_iff {n : NodeID} {key : Key} {tomb : Tombstone}
    {sh : NodeID → DistShard V} {arrivals : List (Arrival V)} (hsh : (sh n).Buried key tomb)
    (hold : ∀ e ∈ arrivals, e.site = n → e.item.key = key → e.item.version ≤ tomb.version) :
    (∀ pre post, arrivals = pre ++ post →
      (pre.foldl (deliver C) sh n).items.get key = none) ↔
    ∀ e ∈ arrivals, e.site = n → e.item.key = key → e.plants C = false := by
  refine ⟨fun h e he hn hkey => ?_, fun h pre post hsplit => ?_⟩
  · by_contra hplants
    rw [Bool.not_eq_false] at hplants
    obtain ⟨pre, post, rfl⟩ := List.append_of_mem he
    have hbefore := h pre (e :: post) rfl
    have hafter := h (pre ++ [e]) post (by simp)
    subst hn hkey
    rw [List.foldl_append, List.foldl_cons, List.foldl_nil, deliver, modify_self,
      act_of_plants C hbefore hplants] at hafter
    cases hafter
  · have hpre : ∀ e ∈ pre, e ∈ arrivals := fun e he => hsplit ▸ List.mem_append_left post he
    exact (buried_run C hsh (fun e he => hold e (hpre e he))
      (fun e he => h e (hpre e he))).gone

/-- A node with no items and a tombstone of version 2 for the key `k`. -/
def buriedShard : DistShard Str :=
  { DistShard.empty with tombs := (∅ : AList _).insert [107] ⟨2, [97], 0⟩ }

/-- A Merkle pull of version 1 does not bring back a key deleted at version 2. -/
theorem never_readable_adopt :
    buriedShard.Buried [107] ⟨2, [97], 0⟩ ∧
      ∀ pre post, [Arrival.adopt [97] 0 { sampleItem with version := 1 }] = pre ++ post →
        (pre.foldl (deliver quorumCluster) (fun _ => buriedShard) [97]).items.get [107] = none := by
  have hburied : buriedShard.Buried [107] ⟨2, [97], 0⟩ := ⟨rfl, by decide⟩
  refine ⟨hburied, (never_readable_iff quorumCluster hburied (fun e he _ _ => ?_)).mpr
    (fun e he _ _ => ?_)⟩
  · rw [List.mem_singleton.mp he]
    decide
  · rw [List.mem_singleton.mp he]
    rfl

/-- A forwarded write of version 1 does. -/
theorem readable_after_forwardedSet :
    buriedShard.Buried [107] ⟨2, [97], 0⟩ ∧
      (deliver quorumCluster (fun _ => buriedShard)
        (.forwardedSet [97] { sampleItem with version := 1 }) [97]).items.get [107] =
          some { sampleItem with version := 1 } :=
  ⟨⟨rfl, by decide⟩, by decide⟩

end Arrival

end HyperCache
