/-
Reading back a write when all nodes read and write at `QUORUM`.

`Settled` is the invariant behind it: a majority of the owners hold the written
item, and every other copy at an owner ranks below it.  A quorum read then meets
one of the holders and returns the item, and its repairs spread the item further.
Two things break the invariant.  The write may rank below a copy it did not
reach, since its version comes from a counter or a client that knows nothing of
that copy.  A late hint or queued repair may overwrite the item with an older
one.
-/
import Mathlib.Data.Finset.Card
import HyperCache.Arrival

namespace HyperCache

open Pointwise World

variable {V : Type}

/-- Nodes that share a ring and a transport, and read and write at `QUORUM`. -/
structure Cluster.QuorumOver (C : Cluster) (R : Placement) : Prop where
  shares : C.Shares R
  reads : ∀ n, (C.cfg n).readConsistency = .quorum
  writes : ∀ n, (C.cfg n).writeConsistency = .quorum
  transport : ∀ n, (C.cfg n).hasTransport = true

theorem quorums_meet {owners a b : List NodeID} (ha : a.Nodup) (hb : b.Nodup)
    (hao : a ⊆ owners) (hbo : b ⊆ owners) (hlen : owners.length < a.length + b.length) :
    ∃ m, m ∈ a ∧ m ∈ b := by
  have hcard : owners.toFinset.card < a.toFinset.card + b.toFinset.card := by
    rw [List.toFinset_card_of_nodup ha, List.toFinset_card_of_nodup hb]
    exact (List.toFinset_card_le owners).trans_lt hlen
  obtain ⟨m, hm⟩ := Finset.inter_nonempty_of_card_lt_card_add_card
    (s := owners.toFinset) (t := a.toFinset) (u := b.toFinset)
    (fun m hm => by simpa using hao (by simpa using hm))
    (fun m hm => by simpa using hbo (by simpa using hm)) hcard
  simp only [Finset.mem_inter, List.mem_toFinset] at hm
  exact ⟨m, hm.1, hm.2⟩

structure Settled (R : Placement) (s : Item V) (sh : NodeID → DistShard V) : Prop where
  beaten : ∀ m ∈ R.lookup s.key, ∀ a, (sh m).items.get s.key = some a → a = s ∨ a.rank < s.rank
  held : ∃ holders : List NodeID, holders.Nodup ∧ holders ⊆ R.lookup s.key ∧
    (R.lookup s.key).length / 2 + 1 ≤ holders.length ∧
    ∀ m ∈ holders, (sh m).items.get s.key = some s

namespace Settled

variable {C : Cluster} {R : Placement} {s : Item V}

/-- A change that leaves each node its copy of the key, or gives it the item
itself, or gives a lower copy to a node without the item, keeps a write settled. -/
theorem of_copies {sh sh' : NodeID → DistShard V} (hs : Settled R s sh)
    (h : ∀ m, (sh' m).items.get s.key = (sh m).items.get s.key ∨
      (sh' m).items.get s.key = some s ∨
      ∃ a, (sh' m).items.get s.key = some a ∧ a.rank < s.rank ∧
        (sh m).items.get s.key ≠ some s) : Settled R s sh' := by
  obtain ⟨holders, hnd, hsub, hlen, hheld⟩ := hs.held
  refine ⟨fun m hm a ha => ?_, holders, hnd, hsub, hlen, fun m hm => ?_⟩
  · obtain hsame | hnew | ⟨b, hb, hlt, -⟩ := h m
    · exact hs.beaten m hm a (hsame ▸ ha)
    · rw [hnew, Option.some.injEq] at ha
      exact .inl ha.symm
    · rw [hb, Option.some.injEq] at ha
      exact .inr (ha ▸ hlt)
  · obtain hsame | hnew | ⟨b, -, -, hne⟩ := h m
    · rw [hsame]
      exact hheld m hm
    · exact hnew
    · exact absurd (hheld m hm) hne

theorem getImpl_eq (hQ : C.QuorumOver R) {w : World V} (hs : Settled R s (shards w))
    {net : Net} {n : NodeID} {it : Item V}
    (h : (getImpl C net n s.key w).2 = some it) : it = s := by
  obtain ⟨holders, hnd, hsub, hlen, hheld⟩ := hs.held
  have hone : (C.cfg n).readConsistency ≠ .one := by
    rw [hQ.reads n]
    exact nofun
  obtain ⟨hlen', ⟨oid, hoid, hit⟩, hmax⟩ := getImpl_quorum_hit C net hone h
  have hsub' := quorumSeen_subset C net n s.key w
  rw [lookupOwners_eq hQ.shares] at hsub' hlen'
  rw [hQ.reads n, requiredAcks] at hlen'
  obtain ⟨m, hm, hm'⟩ := quorums_meet hnd (quorumSeen_nodup C net n s.key w) hsub hsub' (by omega)
  obtain ⟨copy, hcopy, hle⟩ := hmax m hm'
  have heq : copy = s := Option.some.inj (hcopy.symm.trans (hheld m hm))
  refine (hs.beaten oid (hsub' hoid) it hit).resolve_right (fun hlt => ?_)
  exact absurd (heq ▸ hle) (not_le.mpr hlt)

end Settled

/-- An arrival that cannot unsettle the write `s`. -/
def Arrival.Harmless (s : Item V) (sh : NodeID → DistShard V) (e : Arrival V) : Prop :=
  e.item.key = s.key →
    e.item = s ∨ e.item.rank < s.rank ∧ (sh e.site).items.get s.key ≠ some s

variable {C : Cluster} {R : Placement} {s : Item V}

theorem Settled.deliver {sh : NodeID → DistShard V} (hs : Settled R s sh) {e : Arrival V}
    (he : e.Harmless s sh) : Settled R s (Arrival.deliver C sh e) := by
  refine hs.of_copies (fun m => ?_)
  rw [Arrival.deliver, modify_apply]
  split
  swap
  · exact .inl rfl
  rename_i hm
  subst hm
  by_cases hkey : e.item.key = s.key
  swap
  · exact .inl (Arrival.act_other C (Ne.symm hkey) _).1
  obtain ⟨sh', hitems, -, hact | hact⟩ := Arrival.act_shape C e (sh e.site)
  · rw [hact, hitems]
    exact .inl rfl
  · have hget : (e.act C (sh e.site)).items.get s.key = some e.item := by
      rw [hact, DistShard.applySet_items, ← hkey, ConcurrentMap.get_set_self]
    obtain heq | ⟨hlt, hne⟩ := he hkey
    · exact .inr (.inl (hget.trans (by rw [heq])))
    · exact .inr (.inr ⟨e.item, hget, hlt, hne⟩)

theorem Settled.run {sh : NodeID → DistShard V} (hs : Settled R s sh)
    {arrivals : List (Arrival V)}
    (h : Runs.Along (Arrival.deliver C) (fun sh e => e.Harmless s sh) sh arrivals) :
    Settled R s (arrivals.foldl (Arrival.deliver C) sh) :=
  h.invariant (fun _ _ hs he => hs.deliver he) hs

/-! ## The operations after the write -/

theorem Settled.getImpl (hQ : C.QuorumOver R) {w : World V} (hs : Settled R s (shards w))
    (net : Net) (n : NodeID) (key : Key) : Settled R s (shards (getImpl C net n key w).1) := by
  obtain ⟨arrivals, hitem, hsh⟩ := shards_getImpl C net n key w
  rw [hsh]
  refine hs.run (Runs.along_of_forall (fun e he sh hkey => .inl ?_))
  have hhit := hitem e he
  obtain hmiss | ⟨it, m, hm, hres, -⟩ := getImpl_cases C net n key w
  · rw [hmiss] at hhit
    cases hhit
  · have heq : e.item = it := Option.some.inj (hhit.symm.trans hres)
    have hk : key = s.key := (ConcurrentMap.key_of_get hm).symm.trans (heq ▸ hkey)
    subst hk
    exact hs.getImpl_eq hQ hhit

/-- Operations that may follow the write: reads, writes and deletes, replays of
hints and flushes of queued repairs. -/
inductive Op (V : Type) where
  | get (net : Net) (n : NodeID) (key : Key)
  | set (net : Net) (n : NodeID) (item : Item V)
  | remove (net : Net) (n : NodeID) (key : Key)
  | replayHints (net : Net) (n : NodeID)
  | flushPeer (net : Net) (n peer : NodeID)

namespace Op

def exec [SizedValue V] (C : Cluster) (w : World V) : Op V → World V
  | .get net n key => (World.getImpl C net n key w).1
  | .set net n item => (World.set C net n item w).1
  | .remove net n key => (World.remove C net n [key] w).1
  | .replayHints net n => World.replayHints C net n w
  | .flushPeer net n peer => World.flushPeer C net n peer w

/-- What a run may do after the write `s`: nothing is written to or deleted from
its key, and no delivery of a hint or a repair unsettles it. -/
def Safe (C : Cluster) (s : Item V) (w : World V) : Op V → Prop
  | .get _ _ _ => True
  | .set _ _ item => item.key ≠ s.key
  | .remove _ _ key => key ≠ s.key
  | .replayHints net n =>
      Runs.Along (Arrival.deliver C) (fun sh e => e.Harmless s sh) (shards w)
        (replayArrivals C net n w)
  | .flushPeer net n peer =>
      Runs.Along (Arrival.deliver C) (fun sh e => e.Harmless s sh) (shards w)
        (flushArrivals C net n peer w)

theorem settled_set [SizedValue V] (hQ : C.QuorumOver R) {w : World V}
    (hs : Settled R s (shards w)) (net : Net) (n : NodeID) {item : Item V}
    (hkey : item.key ≠ s.key) : Settled R s (shards (World.set C net n item w).1) := by
  refine hs.of_copies (fun m => .inl ?_)
  have hdata := (set_data net hQ.shares n item w m).shard
  show ((World.set C net n item w).1 m).shard.items.get s.key =
    (w m).shard.items.get s.key
  rw [hdata]
  split
  · rw [NodeState.applySet_shard, DistShard.applySet_items]
    refine ConcurrentMap.get_set_ne _ (fun h => hkey ?_)
    rw [h, written_key]
  · rfl

theorem settled_remove (hQ : C.QuorumOver R) {w : World V} (hs : Settled R s (shards w))
    (net : Net) (n : NodeID) {key : Key} (hkey : key ≠ s.key) :
    Settled R s (shards (World.remove C net n [key] w).1) := by
  obtain ⟨e, -, hrem⟩ | ⟨-, hrem⟩ | ⟨c, -, -, hrem⟩ := remove_cases net hQ.shares n key w
  · rw [hrem]
    exact hs
  · rw [hrem]
    exact hs
  · refine hs.of_copies (fun m => .inl ?_)
    show ((World.remove C net n [key] w).1 m).shard.items.get s.key =
      (w m).shard.items.get s.key
    rw [hrem m]
    split
    · rw [NodeState.applyRemove_items, ConcurrentMap.get_remove_ne _ (Ne.symm hkey)]
    · rfl

theorem settled_exec [SizedValue V] (hQ : C.QuorumOver R) {w : World V} {op : Op V}
    (hs : Settled R s (shards w)) (hsafe : op.Safe C s w) :
    Settled R s (shards (exec C w op)) := by
  cases op with
  | get net n key => exact hs.getImpl hQ net n key
  | set net n item => exact settled_set hQ hs net n hsafe
  | remove net n key => exact settled_remove hQ hs net n hsafe
  | replayHints net n =>
      rw [exec, shards_replayHints]
      exact hs.run hsafe
  | flushPeer net n peer =>
      rw [exec, shards_flushPeer]
      exact hs.run hsafe

end Op

/-! ## The write -/

namespace World

theorem set_get [SizedValue V] (hR : C.Shares R) (net : Net) (n : NodeID) (item : Item V)
    (w : World V) (m : NodeID) :
    ((set C net n item w).1 m).shard.items.get item.key =
      if reached C net n item w m then some (written C net n item w)
      else (w m).shard.items.get item.key := by
  rw [(set_data net hR n item w m).shard]
  split
  · rw [NodeState.applySet_shard, DistShard.applySet_items, ← written_key net n item w,
      ConcurrentMap.get_set_self]
  · rfl

/-- A `Set` at `QUORUM` that returns nil with fewer than half of the owners down
reaches a majority of them. -/
theorem majority_reached [SizedValue V] (hQ : C.QuorumOver R) {net : Net} {n : NodeID}
    {item : Item V} {w : World V}
    (hdown : 2 * (R.lookup item.key).countP (fun m => !net.up m) < (R.lookup item.key).length)
    (hnil : (set C net n item w).2 = none) :
    (R.lookup item.key).length / 2 + 1 ≤
      (R.lookup item.key).countP (reached C net n item w) := by
  have hsplit : (R.lookup item.key).length = (R.lookup item.key).countP net.up +
      (R.lookup item.key).countP (fun m => !net.up m) := by
    rw [List.length_eq_countP_add_countP net.up]
    simp
  unfold reached
  rw [lookupOwners_eq hQ.shares]
  obtain ⟨e, -, hset⟩ | ⟨primary, replicas, hr, -, -⟩ | ⟨replicas, hr, -⟩ :=
    set_cases net hQ.shares n item w
  · rw [hset] at hnil
    cases hnil
  · simp only [hr]
    have hup : (R.lookup item.key).countP net.up ≤
        (R.lookup item.key).countP (covers C net primary (R.lookup item.key)) := by
      refine List.countP_mono_left (fun m hm hup => ?_)
      simp [covers, hQ.transport primary, hm, hup]
    show (R.lookup item.key).length / 2 + 1 ≤
      (R.lookup item.key).countP (covers C net primary (R.lookup item.key))
    omega
  · simp only [hr]
    have hacks := requiredAcks_le_covered net hQ.shares hr hnil
    rwa [hQ.writes n] at hacks

theorem settled_of_set [SizedValue V] (hQ : C.QuorumOver R) {net : Net} {n : NodeID}
    {item : Item V} {w : World V}
    (hdown : 2 * (R.lookup item.key).countP (fun m => !net.up m) < (R.lookup item.key).length)
    (hnil : (set C net n item w).2 = none)
    (hbeats : ∀ m ∈ R.lookup item.key, reached C net n item w m = false →
      ∀ a, (w m).shard.items.get item.key = some a →
        a.rank < (written C net n item w).rank) :
    Settled R (written C net n item w) (shards (set C net n item w).1) := by
  have hget := set_get hQ.shares net n item w
  have hmaj := majority_reached hQ hdown hnil
  have hkey := written_key (C := C) net n item w
  refine ⟨fun m hm a ha => ?_, (R.lookup item.key).filter (reached C net n item w), ?_, ?_, ?_, ?_⟩
  · rw [hkey] at hm ha
    change ((set C net n item w).1 m).shard.items.get item.key = some a at ha
    rw [hget] at ha
    split at ha
    · exact .inl (Option.some.inj ha).symm
    · exact .inr (hbeats m hm (Bool.eq_false_of_not_eq_true ‹_›) a ha)
  · exact (R.nodup item.key).filter _
  · rw [hkey]
    exact List.filter_sublist.subset
  · rw [hkey, ← List.countP_eq_length_filter]
    exact hmaj
  · intro m hm
    rw [hkey]
    exact (hget m).trans (if_pos (List.mem_filter.mp hm).2)

/-- When all nodes read and write at `QUORUM`, a `Set` returned nil with fewer
than half of the owners down, and every copy at an owner it did not reach ranks
below it, then every later hit on its key returns its value, as long as the
deliveries in between do not overwrite it with an older copy. -/
theorem get_returns_set [SizedValue V] (hQ : C.QuorumOver R) {net : Net} {n : NodeID}
    {item : Item V} {w : World V}
    (hdown : 2 * (R.lookup item.key).countP (fun m => !net.up m) < (R.lookup item.key).length)
    (hnil : (set C net n item w).2 = none)
    (hbeats : ∀ m ∈ R.lookup item.key, reached C net n item w m = false →
      ∀ a, (w m).shard.items.get item.key = some a →
        a.rank < (written C net n item w).rank)
    {ops : List (Op V)}
    (hsafe : Runs.Along (Op.exec C) (Op.Safe C (written C net n item w))
      (set C net n item w).1 ops)
    {net' : Net} {n' : NodeID} {it : Item V}
    (hget : (getImpl C net' n' item.key (ops.foldl (Op.exec C) (set C net n item w).1)).2 =
      some it) :
    it.value = item.value := by
  have hset := settled_of_set hQ hdown hnil hbeats
  have hrun : Settled R (written C net n item w)
      (shards (ops.foldl (Op.exec C) (set C net n item w).1)) :=
    hsafe.invariant (I := fun w' => Settled R (written C net n item w) (shards w'))
      (fun _ _ hs hop => Op.settled_exec hQ hs hop) hset
  rw [← written_key (C := C) net n item w] at hget
  rw [hrun.getImpl_eq hQ hget, written_value]

theorem quorumCluster_quorumOver : quorumCluster.QuorumOver threeOwners where
  shares := Cluster.uniform_shares rfl
  reads _ := rfl
  writes _ := rfl
  transport _ := rfl

/-- A write at `a` with all nodes up is read back at `c` after a read at `b`. -/
theorem get_returns_set_all_up :
    let net : Net := allUp
    let w := (set quorumCluster net [97] sampleItem fresh).1
    ∃ it, (getImpl quorumCluster net [99] [107]
        ([Op.get net [98] [107]].foldl (Op.exec quorumCluster) w)).2 = some it ∧
      it.value = sampleItem.value := by
  intro net w
  have hreached : ∀ m ∈ threeOwners.lookup sampleItem.key,
      reached quorumCluster net [97] sampleItem fresh m = true := by decide
  have hsafe : Runs.Along (Op.exec quorumCluster)
      (Op.Safe quorumCluster (written quorumCluster net [97] sampleItem fresh)) w
      [.get net [98] [107]] := ⟨trivial, trivial⟩
  have hget : (getImpl quorumCluster net [99] sampleItem.key
      ([Op.get net [98] [107]].foldl (Op.exec quorumCluster) w)).2 =
        some { sampleItem with version := 1, origin := [97] } := by decide
  refine ⟨_, hget, get_returns_set quorumCluster_quorumOver (by decide) (by decide) ?_ hsafe hget⟩
  intro m hm hno
  rw [hreached m hm] at hno
  cases hno

/-- After a write of `x` at the primary `a`, the non-owner `d` forwards a write of
`y` while `c` is down.  It returns nil and carries version 0.  A read while `a` is
down finds `y` at `b` and the higher version at `c`, and returns `x`. -/
theorem get_returns_older_value :
    let x : Item Str := { key := [107], value := some [1] }
    let y : Item Str := { key := [107], value := some [2] }
    let w := (set quorumCluster allUp [97] x fresh).1
    let second := set quorumCluster { up := (· != [99]), now := 1 } [100] y w
    quorumCluster.QuorumOver threeOwners ∧ second.2 = none ∧
      (getImpl quorumCluster { up := (· != [97]), now := 2 } [100] [107] second.1).2.map
        Item.value = some x.value := by
  intro x y w second
  exact ⟨quorumCluster_quorumOver, by decide, by decide⟩

end World

end HyperCache
