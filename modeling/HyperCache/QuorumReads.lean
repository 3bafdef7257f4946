/-
Reads that never go back.

A read above `ONE` that hits has seen a majority of the owners, and its repairs leave each
of them a copy that ranks no lower than the one it returned.  Every later majority meets
that one, so no later read returns an older copy.  The repairs have to be sent directly: in
the queue of a node they wait, and meanwhile the next read may see the owners that still
lack the copy.

`Backed` is the invariant.  Writes, hints and queued repairs keep it as long as they carry
no copy that ranks below what was read.
-/
import HyperCache.NeverBackwards
import HyperCache.ReadYourWrite

namespace HyperCache

open Pointwise World

variable {V : Type}

/-- Nodes that share a ring and a transport, read at `QUORUM` or `ALL` and send their repairs
directly. -/
structure Cluster.RepairsOver (C : Cluster) (R : Placement) : Prop where
  shares : C.Shares R
  reads : ∀ n, (C.cfg n).readConsistency = .quorum ∨ (C.cfg n).readConsistency = .all
  transport : ∀ n, (C.cfg n).hasTransport = true
  direct : ∀ n, (C.cfg n).repairBatch = none

theorem Cluster.RepairsOver.above_one {C : Cluster} {R : Placement} (hC : C.RepairsOver R)
    (n : NodeID) : (C.cfg n).readConsistency ≠ .one := by
  rcases hC.reads n with h | h <;> rw [h] <;> exact nofun

/-- A copy of the key that ranks no lower than `it` is stored. -/
def DistShard.Serves (it : Item V) (sh : DistShard V) : Prop :=
  ∃ copy, sh.items.get it.key = some copy ∧ it.rank ≤ copy.rank

theorem DistShard.serves_applySet (cfg : DistConfig) {it item : Item V} (hkey : item.key = it.key)
    (hrank : it.rank ≤ item.rank) (sh : DistShard V) : (sh.applySet cfg item).Serves it := by
  refine ⟨item, ?_, hrank⟩
  rw [applySet_items, ← hkey, ConcurrentMap.get_set_self]

theorem DistShard.serves_repairLocalReplica (cfg : DistConfig) (it : Item V) (sh : DistShard V) :
    (sh.repairLocalReplica cfg it.key it).Serves it := by
  rw [repairLocalReplica]
  cases hget : sh.items.get it.key with
  | none => exact serves_applySet cfg rfl le_rfl sh
  | some localIt =>
      dsimp only
      split
      · exact serves_applySet cfg rfl le_rfl sh
      · rename_i hstale
        exact ⟨localIt, hget, not_lt.mp (fun hlt => hstale (localStale_iff.mpr hlt))⟩

/-- A majority of the owners store a copy that ranks no lower than `it`. -/
def Backed (R : Placement) (it : Item V) (sh : NodeID → DistShard V) : Prop :=
  ∃ holders : List NodeID, holders.Nodup ∧ holders ⊆ R.lookup it.key ∧
    (R.lookup it.key).length / 2 + 1 ≤ holders.length ∧ ∀ m ∈ holders, (sh m).Serves it

variable {C : Cluster} {R : Placement} {it : Item V}

theorem Backed.mono {sh sh' : NodeID → DistShard V} (h : Backed R it sh)
    (hkeep : ∀ m, (sh m).Serves it → (sh' m).Serves it) : Backed R it sh' := by
  obtain ⟨holders, hnd, hsub, hlen, hheld⟩ := h
  exact ⟨holders, hnd, hsub, hlen, fun m hm => hkeep m (hheld m hm)⟩

/-! ## A read that hits -/

namespace World

theorem majority_le_quorumSeen (hC : C.RepairsOver R) {net : Net} {n : NodeID} {key : Key}
    {w : World V} (h : (getImpl C net n key w).2 = some it) :
    (R.lookup key).length / 2 + 1 ≤ (quorumSeen C net n key w).length := by
  obtain ⟨hlen, ⟨oid, hoid, -⟩, -⟩ := getImpl_quorum_hit C net (hC.above_one n) h
  have hmem := quorumSeen_subset C net n key w hoid
  rw [lookupOwners_eq hC.shares] at hlen hmem
  have hpos := List.length_pos_of_mem hmem
  rcases hC.reads n with hlevel | hlevel <;> rw [hlevel, requiredAcks] at hlen
  · exact hlen
  · omega

theorem up_of_quorumSeen {net : Net} {n m : NodeID} {key : Key} {w : World V}
    (hm : m ∈ quorumSeen C net n key w) (hmn : m ≠ n) : net.up m = true := by
  obtain ⟨copy, hcopy⟩ := fetchOwner_of_seen C net hm
  by_contra hup
  rw [fetchOwner, if_neg hmn, forwardGet, if_neg hup] at hcopy
  split at hcopy <;> cases hcopy

/-- The repairs of a read that hits leave every owner it saw a copy that ranks no lower. -/
theorem serves_of_quorumSeen (hC : C.RepairsOver R) {net : Net} {n m : NodeID} {key : Key}
    {w : World V} (h : (getImpl C net n key w).2 = some it)
    (hm : m ∈ quorumSeen C net n key w) : (shards (getImpl C net n key w).1 m).Serves it := by
  obtain hmiss | ⟨it', m₀, hm₀, hres, ⟨hone, -⟩ | ⟨hone, stale, -, hsh⟩⟩ :=
    getImpl_cases C net n key w
  · rw [hmiss] at h
    cases h
  · exact absurd hone (hC.above_one n)
  obtain rfl : it' = it := Option.some.inj (hres.symm.trans h)
  obtain rfl : it'.key = key := ConcurrentMap.key_of_get hm₀
  have howner := quorumSeen_subset C net n it'.key w hm
  rw [hsh]
  refine foldl_modify_of_mem _ (fun sh => ?_) (List.mem_append_right stale howner) (shards w)
  by_cases hmn : m = n
  · rw [repairAt, if_pos hmn]
    exact DistShard.serves_repairLocalReplica (C.cfg n) it' sh
  · have hacc : (C.cfg m).acceptsForwarded it'.key = true := by
      rw [lookupOwners_eq hC.shares] at howner
      rw [DistConfig.acceptsForwarded_eq, ownsKeyInternal_of_owner hC.shares howner]
    have hover : overwrites C net n it'.key m :=
      ⟨hone, howner, hmn, hC.transport n, hC.direct n, up_of_quorumSeen hm hmn, hacc⟩
    rw [repairAt_of_overwrites rfl hover]
    exact DistShard.serves_applySet (C.cfg m) rfl le_rfl sh

theorem backed_of_hit (hC : C.RepairsOver R) {net : Net} {n : NodeID} {key : Key} {w : World V}
    (h : (getImpl C net n key w).2 = some it) : Backed R it (shards (getImpl C net n key w).1) := by
  obtain ⟨-, ⟨oid, -, hoid⟩, -⟩ := getImpl_quorum_hit C net (hC.above_one n) h
  obtain rfl : it.key = key := ConcurrentMap.key_of_get hoid
  refine ⟨quorumSeen C net n it.key w, quorumSeen_nodup C net n it.key w, ?_,
    majority_le_quorumSeen hC h, fun m hm => serves_of_quorumSeen hC h hm⟩
  rw [← lookupOwners_eq hC.shares n]
  exact quorumSeen_subset C net n it.key w

/-- A read that hits meets the majority that backs `it`. -/
theorem rank_le_of_backed (hC : C.RepairsOver R) {net : Net} {n : NodeID} {w : World V}
    (hb : Backed R it (shards w)) {it' : Item V}
    (h : (getImpl C net n it.key w).2 = some it') : it.rank ≤ it'.rank := by
  obtain ⟨holders, hnd, hsub, hlen, hheld⟩ := hb
  obtain ⟨-, -, hmax⟩ := getImpl_quorum_hit C net (hC.above_one n) h
  have hseen := majority_le_quorumSeen hC h
  have hsub' := quorumSeen_subset C net n it.key w
  rw [lookupOwners_eq hC.shares] at hsub'
  obtain ⟨m, hm, hm'⟩ := quorums_meet hnd (quorumSeen_nodup C net n it.key w) hsub hsub' (by omega)
  obtain ⟨copy, hcopy, hle⟩ := hheld m hm
  obtain ⟨copy', hcopy', hle'⟩ := hmax m hm'
  obtain rfl : copy = copy' := Option.some.inj (hcopy.symm.trans hcopy')
  exact hle.trans hle'

end World

/-! ## What happens between two reads -/

/-- The arrival brings no copy of the key that ranks below `it`. -/
def Arrival.NotBelow (it : Item V) (e : Arrival V) : Prop :=
  e.item.key = it.key → it.rank ≤ e.item.rank

theorem Backed.deliver {sh : NodeID → DistShard V} (hb : Backed R it sh) {e : Arrival V}
    (he : e.NotBelow it) : Backed R it (Arrival.deliver C sh e) := by
  refine hb.mono (fun m hm => ?_)
  rw [Arrival.deliver, modify_apply]
  split
  swap
  · exact hm
  rename_i hsite
  subst hsite
  obtain ⟨copy, hcopy, hle⟩ := hm
  by_cases hkey : e.item.key = it.key
  swap
  · exact ⟨copy, (Arrival.act_other C (Ne.symm hkey) _).1.trans hcopy, hle⟩
  obtain ⟨sh', hitems, -, hact | hact⟩ := Arrival.act_shape C e (sh e.site)
  · rw [hact]
    exact ⟨copy, by rw [hitems, hcopy], hle⟩
  · rw [hact]
    exact DistShard.serves_applySet _ hkey (he hkey) sh'

theorem Backed.run {sh : NodeID → DistShard V} (hb : Backed R it sh) {arrivals : List (Arrival V)}
    (h : ∀ e ∈ arrivals, e.NotBelow it) :
    Backed R it (arrivals.foldl (Arrival.deliver C) sh) :=
  (Runs.along_of_forall (fun e he _ => h e he)).invariant (fun _ _ hb he => hb.deliver he) hb

namespace Op

/-- The operation writes no copy that ranks below `it` and does not delete its key. -/
def NotBelow (C : Cluster) (it : Item V) (w : World V) : Op V → Prop
  | .get _ _ _ => True
  | .set net n item => item.key = it.key → it.rank ≤ (written C net n item w).rank
  | .remove _ _ key => key ≠ it.key
  | .replayHints net n => ∀ e ∈ replayArrivals C net n w, e.NotBelow it
  | .flushPeer net n peer => ∀ e ∈ flushArrivals C net n peer w, e.NotBelow it

theorem backed_get (hC : C.RepairsOver R) {w : World V} (hb : Backed R it (shards w)) (net : Net)
    (n : NodeID) (key : Key) : Backed R it (shards (getImpl C net n key w).1) := by
  obtain ⟨arrivals, hitem, hsh⟩ := shards_getImpl C net n key w
  rw [hsh]
  refine hb.run (fun e he hkey => ?_)
  have hhit := hitem e he
  obtain ⟨-, ⟨oid, -, hoid⟩, -⟩ := getImpl_quorum_hit C net (hC.above_one n) hhit
  obtain rfl : it.key = key := hkey.symm.trans (ConcurrentMap.key_of_get hoid)
  exact rank_le_of_backed hC hb hhit

theorem backed_set [SizedValue V] (hC : C.RepairsOver R) {w : World V}
    (hb : Backed R it (shards w)) {net : Net} {n : NodeID} {item : Item V}
    (h : item.key = it.key → it.rank ≤ (written C net n item w).rank) :
    Backed R it (shards (World.set C net n item w).1) := by
  refine hb.mono (fun m hm => ?_)
  show ((World.set C net n item w).1 m).shard.Serves it
  rw [(set_data net hC.shares n item w m).shard]
  split
  swap
  · exact hm
  have hwritten := written_key (C := C) net n item w
  rw [NodeState.applySet_shard]
  by_cases hkey : item.key = it.key
  · exact DistShard.serves_applySet _ (hwritten.trans hkey) (h hkey) _
  · obtain ⟨copy, hcopy, hle⟩ := hm
    refine ⟨copy, ?_, hle⟩
    rw [DistShard.applySet_items, ConcurrentMap.get_set_ne _ (fun heq => hkey ?_)]
    · exact hcopy
    · rw [heq, hwritten]

theorem backed_remove (hC : C.RepairsOver R) {w : World V} (hb : Backed R it (shards w))
    (net : Net) (n : NodeID) {key : Key} (hkey : key ≠ it.key) :
    Backed R it (shards (World.remove C net n [key] w).1) := by
  obtain ⟨e, -, hrem⟩ | ⟨-, hrem⟩ | ⟨c, -, -, hrem⟩ := remove_cases net hC.shares n key w
  · rw [hrem]
    exact hb
  · rw [hrem]
    exact hb
  · refine hb.mono (fun m hm => ?_)
    obtain ⟨copy, hcopy, hle⟩ := hm
    refine ⟨copy, ?_, hle⟩
    show ((World.remove C net n [key] w).1 m).shard.items.get it.key = some copy
    rw [hrem m]
    split
    · rw [NodeState.applyRemove_items, ConcurrentMap.get_remove_ne _ (Ne.symm hkey)]
      exact hcopy
    · exact hcopy

theorem backed_exec [SizedValue V] (hC : C.RepairsOver R) {w : World V} {op : Op V}
    (hb : Backed R it (shards w)) (h : op.NotBelow C it w) :
    Backed R it (shards (exec C w op)) := by
  cases op with
  | get net n key => exact backed_get hC hb net n key
  | set net n item => exact backed_set hC hb h
  | remove net n key => exact backed_remove hC hb net n h
  | replayHints net n =>
      rw [exec, shards_replayHints]
      exact hb.run h
  | flushPeer net n peer =>
      rw [exec, shards_flushPeer]
      exact hb.run h

end Op

namespace World

/-- After a hit, no later hit on the key ranks below it, whichever nodes issue the two reads and
whichever owners they reach, as long as nothing in between writes an older copy or deletes the
key. -/
theorem reads_monotonic [SizedValue V] (hC : C.RepairsOver R) {net : Net} {n : NodeID} {key : Key}
    {w : World V} (hit : (getImpl C net n key w).2 = some it) {ops : List (Op V)}
    (hops : Runs.Along (Op.exec C) (Op.NotBelow C it) (getImpl C net n key w).1 ops)
    {net' : Net} {n' : NodeID} {it' : Item V}
    (hit' : (getImpl C net' n' key (ops.foldl (Op.exec C) (getImpl C net n key w).1)).2 =
      some it') : it.rank ≤ it'.rank := by
  obtain ⟨-, ⟨oid, -, hoid⟩, -⟩ := getImpl_quorum_hit C net (hC.above_one n) hit
  obtain rfl : it.key = key := ConcurrentMap.key_of_get hoid
  have hrun : Backed R it (shards (ops.foldl (Op.exec C) (getImpl C net n it.key w).1)) :=
    hops.invariant (I := fun w' => Backed R it (shards w'))
      (fun _ _ hb hop => Op.backed_exec hC hb hop) (backed_of_hit hC hit)
  exact rank_le_of_backed hC hrun hit'

theorem quorumCluster_repairsOver : quorumCluster.RepairsOver threeOwners where
  shares := Cluster.uniform_shares rfl
  reads _ := .inl rfl
  transport _ := rfl
  direct _ := rfl

/-- The primary `a` has version 4 of the sample item, and `b` still has version 3. -/
def laggingReplica : World Str := fun n =>
  if n = [97] then
    { shard := DistShard.empty.applySet (quorumCluster.cfg n) { sampleItem with version := 4 } }
  else if n = [98] then
    { shard := DistShard.empty.applySet (quorumCluster.cfg n) { sampleItem with version := 3 } }
  else { shard := .empty }

/-- A read at `c` returns version 4.  After another read, and with `a` down, so does `b`. -/
theorem reads_monotonic_laggingReplica :
    let first : Item Str := { sampleItem with version := 4 }
    let w := (getImpl quorumCluster allUp [99] [107] laggingReplica).1
    ∃ it, (getImpl quorumCluster { up := (· != [97]), now := 2 } [98] [107]
        ([Op.get allUp [99] [107]].foldl (Op.exec quorumCluster) w)).2 = some it ∧
      first.rank ≤ it.rank := by
  intro first w
  have hfirst : (getImpl quorumCluster allUp [99] [107] laggingReplica).2 = some first := by decide
  have hops : Runs.Along (Op.exec quorumCluster) (Op.NotBelow quorumCluster first) w
      [.get allUp [99] [107]] := ⟨trivial, trivial⟩
  have hlast : (getImpl quorumCluster { up := (· != [97]), now := 2 } [98] [107]
      ([Op.get allUp [99] [107]].foldl (Op.exec quorumCluster) w)).2 = some first := by decide
  exact ⟨first, hlast, reads_monotonic quorumCluster_repairsOver hfirst hops hlast⟩

end World

end HyperCache
