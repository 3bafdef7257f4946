/-
The arrivals of versioned copies at the nodes, in any order.

`Arrival` lists the ways a copy that already carries a version reaches a node's
data: a forwarded write, a repair of the local replica, a repair of a missing
copy, and a Merkle pull.  Replica writes, direct and queued repairs, hint replays
and migrations are all forwarded writes to the node that receives them.  A run
is a list of arrivals in any delivery order, each of them uninterrupted; the
steps that an arrival takes are told apart in `NeverBackwards`.
-/
import HyperCache.Lib.Runs
import HyperCache.Replay

namespace HyperCache

open Pointwise

variable {V : Type}

inductive Arrival (V : Type) where
  | forwardedSet (dst : NodeID) (item : Item V)
  | repairLocal (n : NodeID) (chosen : Item V)
  | repairMissing (n : NodeID) (it : Item V)
  | adopt (n : NodeID) (now : Time) (it : Item V)

namespace Arrival

def site : Arrival V → NodeID
  | .forwardedSet dst _ => dst
  | .repairLocal n _ => n
  | .repairMissing n _ => n
  | .adopt n _ _ => n

def item : Arrival V → Item V
  | .forwardedSet _ item => item
  | .repairLocal _ chosen => chosen
  | .repairMissing _ it => it
  | .adopt _ _ it => it

variable (C : Cluster)

/-- What the arrival does to the data of its node. -/
def act : Arrival V → DistShard V → DistShard V
  | .forwardedSet dst item, sh => sh.applyForwardedSet (C.cfg dst) item
  | .repairLocal n chosen, sh => sh.repairLocalReplica (C.cfg n) chosen.key chosen
  | .repairMissing n it, sh => sh.repairMissing (C.cfg n) it.key it
  | .adopt n now it, sh => sh.adopt (C.cfg n) now it.key (some it)

def deliver (sh : NodeID → DistShard V) (e : Arrival V) : NodeID → DistShard V :=
  modify sh e.site (e.act C)

/-- An arrival stores its item or leaves the items alone, after dropping at most
the tombstone of its own key. -/
theorem act_shape (e : Arrival V) (sh : DistShard V) :
    ∃ sh' : DistShard V, sh'.items = sh.items ∧
      (sh'.tombs = sh.tombs ∨ sh'.tombs = sh.tombs.erase e.item.key) ∧
      (e.act C sh = sh' ∨ e.act C sh = sh'.applySet (C.cfg e.site) e.item) := by
  cases e with
  | forwardedSet dst item =>
      refine ⟨sh, rfl, .inl rfl, ?_⟩
      rw [act, DistShard.applyForwardedSet]
      split
      · exact .inr rfl
      · exact .inl rfl
  | repairLocal n chosen =>
      refine ⟨sh, rfl, .inl rfl, ?_⟩
      rw [act, DistShard.repairLocalReplica]
      split
      · exact .inr rfl
      · split
        · exact .inr rfl
        · exact .inl rfl
  | repairMissing n it =>
      refine ⟨sh, rfl, .inl rfl, ?_⟩
      rw [act, DistShard.repairMissing]
      split
      · split
        · exact .inr rfl
        · exact .inl rfl
      · exact .inl rfl
  | adopt n now it =>
      have hpull : ∀ sh' : DistShard V, sh'.pull (C.cfg n) it.key it = sh' ∨
          sh'.pull (C.cfg n) it.key it = sh'.applySet (C.cfg n) it := by
        intro sh'
        rw [DistShard.pull]
        split
        · exact .inr rfl
        · split
          · exact .inr rfl
          · exact .inl rfl
      rw [act, DistShard.adopt]
      split
      · exact ⟨sh, rfl, .inl rfl, hpull sh⟩
      · split
        · exact ⟨sh, rfl, .inl rfl, .inl rfl⟩
        · exact ⟨{ sh with tombs := sh.tombs.erase it.key }, rfl, .inr rfl, hpull _⟩

theorem act_other {e : Arrival V} {key : Key} (h : key ≠ e.item.key) (sh : DistShard V) :
    (e.act C sh).items.get key = sh.items.get key ∧
      (e.act C sh).tombs.lookup key = sh.tombs.lookup key := by
  obtain ⟨sh', hitems, htombs, hact⟩ := act_shape C e sh
  have htomb : sh'.tombs.lookup key = sh.tombs.lookup key := by
    obtain htombs | htombs := htombs
    · rw [htombs]
    · rw [htombs, AList.lookup_erase_ne h]
  obtain hact | hact := hact
  · rw [hact, hitems]
    exact ⟨rfl, htomb⟩
  · rw [hact, DistShard.applySet_items, DistShard.applySet_tombs,
      ConcurrentMap.get_set_ne _ h, hitems]
    exact ⟨rfl, htomb⟩

end Arrival

/-! ## Never backwards -/

/-- Every item stored in `sh` is still stored in `sh'`, in a copy that ranks at
least as high. -/
def DistShard.KeptBy (sh sh' : DistShard V) : Prop :=
  ∀ key a, sh.items.get key = some a → ∃ b, sh'.items.get key = some b ∧ a.rank ≤ b.rank

theorem DistShard.KeptBy.refl (sh : DistShard V) : sh.KeptBy sh :=
  fun _ a h => ⟨a, h, le_rfl⟩

theorem DistShard.KeptBy.trans {s t u : DistShard V} (h₁ : s.KeptBy t) (h₂ : t.KeptBy u) :
    s.KeptBy u := by
  intro key a ha
  obtain ⟨b, hb, hab⟩ := h₁ key a ha
  obtain ⟨c, hc, hbc⟩ := h₂ key b hb
  exact ⟨c, hc, hab.trans hbc⟩

/-! ## Operations as runs of arrivals -/

namespace World

variable (C : Cluster) (net : Net)

theorem shards_forwardReplica (dst : NodeID) (item : Item V) (w : World V) :
    shards (forwardReplica C net dst item w).1 =
      if net.up dst then Arrival.deliver C (shards w) (.forwardedSet dst item) else shards w := by
  rw [forwardReplica]
  split
  · exact comp_modify NodeState.shard w dst _ (NodeState.applyForwardedSet_shard _ item (w dst))
  · rfl

def queueArrivals (peer : NodeID) (queue : List (HintedEntry V)) : List (Arrival V) :=
  queue.filterMap (fun entry =>
    if net.now ≤ entry.expire ∧ net.up peer = true then some (.forwardedSet peer entry.item)
    else none)

theorem shards_processHint {n : NodeID} (ht : (C.cfg n).hasTransport = true) (peer : NodeID)
    (entry : HintedEntry V) (w : World V) :
    shards (processHint C net n peer entry w).1 =
      (queueArrivals net peer [entry]).foldl (Arrival.deliver C) (shards w) := by
  rw [processHint, queueArrivals]
  by_cases hexp : net.now > entry.expire
  · simp [hexp, not_le.mpr hexp, shards_modifyHints]
  · have hsh := shards_forwardReplica C net peer entry.item w
    by_cases hup : net.up peer = true
    · simp only [forwardReplica, hup, if_true] at hsh
      simp [hexp, ht, forwardReplica, hup, not_lt.mp hexp, shards_modifyHints, hsh]
    · simp [hexp, ht, forwardReplica, hup]

theorem shards_replayQueue {n : NodeID} (ht : (C.cfg n).hasTransport = true) (peer : NodeID)
    (queue : List (HintedEntry V)) (w : World V) :
    shards (replayQueue C net n peer queue w).1 =
      (queueArrivals net peer queue).foldl (Arrival.deliver C) (shards w) := by
  induction queue generalizing w with
  | nil => rfl
  | cons entry rest ih =>
      have hstep := shards_processHint C net ht peer entry w
      have happ : queueArrivals net peer (entry :: rest) =
          queueArrivals net peer [entry] ++ queueArrivals net peer rest :=
        List.filterMap_append (l := [entry])
      rw [happ, List.foldl_append, ← hstep, replayQueue]
      cases hp : processHint C net n peer entry w with
      | mk w' removed =>
          cases removed with
          | true =>
              dsimp only
              rw [ih, shards_modifyHints]
          | false => exact ih w'

def replayArrivals (n : NodeID) (w : World V) : List (Arrival V) :=
  if (C.cfg n).hasTransport then
    (w n).hints.queues.entries.flatMap (fun q => queueArrivals net q.1 q.2)
  else []

/-- A replay of hints acts on the stored data as a run of forwarded writes. -/
theorem shards_replayHints (n : NodeID) (w : World V) :
    shards (replayHints C net n w) =
      (replayArrivals C net n w).foldl (Arrival.deliver C) (shards w) := by
  rw [replayHints, replayArrivals]
  by_cases ht : (C.cfg n).hasTransport = true
  swap
  · simp [ht]
  simp only [ht, Bool.not_true, Bool.false_eq_true, if_false, if_true, List.foldl_flatMap]
  refine (List.foldl_hom shards (fun w q => ?_)).symm
  rw [shards_modifyHints, shards_replayQueue C net ht]

def flushArrivals (n peer : NodeID) (w : World V) : List (Arrival V) :=
  if (C.cfg n).hasTransport = true ∧ net.up peer = true then
    (((w n).repairEntries.lookup peer).getD .empty).all.map (.forwardedSet peer)
  else []

/-- A flush of queued repairs acts on the stored data as a run of forwarded
writes. -/
theorem shards_flushPeer (n peer : NodeID) (w : World V) :
    shards (flushPeer C net n peer w) =
      (flushArrivals C net n peer w).foldl (Arrival.deliver C) (shards w) := by
  rw [flushPeer, flushArrivals]
  cases hbatch : (w n).repairEntries.lookup peer with
  | none => simp [ConcurrentMap.all, ConcurrentMap.empty]
  | some batch =>
      dsimp only
      have hdetach : shards (modify w n
          (fun st => { st with repairEntries := st.repairEntries.erase peer })) = shards w :=
        (comp_modify NodeState.shard w n (fun sh => sh) rfl).trans (modify_id _ n)
      by_cases hempty : batch.all.isEmpty = true
      · simp [List.isEmpty_iff.mp hempty]
      by_cases ht : (C.cfg n).hasTransport = true
      swap
      · simp [hempty, ht, hdetach]
      simp only [hempty, Bool.false_eq_true, if_false, ht, Bool.not_true, true_and,
        Option.getD_some]
      have hfold : ∀ w : World V,
          shards (batch.all.foldl (fun w it => (forwardReplica C net peer it w).1) w) =
            batch.all.foldl (fun sh it =>
              if net.up peer then Arrival.deliver C sh (.forwardedSet peer it) else sh)
              (shards w) :=
        fun w => (List.foldl_hom shards
          (fun w it => (shards_forwardReplica C net peer it w).symm)).symm
      rw [hfold, hdetach]
      by_cases hup : net.up peer = true
      · simp [hup, List.foldl_map]
      · simp [hup]

def repairArrivals (n : NodeID) (it : Item V) (oid : NodeID) : List (Arrival V) :=
  if oid = n then [.repairLocal n it]
  else if (C.cfg n).hasTransport && ((C.cfg n).repairBatch.isNone && net.up oid) then
    [.forwardedSet oid it]
  else []

theorem modify_repairAt (n : NodeID) (it : Item V) (sh : NodeID → DistShard V) (oid : NodeID) :
    modify sh oid (repairAt C net n it.key it oid) =
      (repairArrivals C net n it oid).foldl (Arrival.deliver C) sh := by
  by_cases hn : oid = n
  · subst hn
    have hlocal : repairAt C net oid it.key it oid = Arrival.act C (.repairLocal oid it) := by
      funext d
      simp [repairAt, Arrival.act]
    rw [repairArrivals, if_pos rfl, hlocal]
    rfl
  · rw [repairArrivals, if_neg hn]
    split
    · rename_i hdirect
      have hremote : repairAt C net n it.key it oid = Arrival.act C (.forwardedSet oid it) := by
        funext d
        rw [repairAt, if_neg hn, if_pos hdirect, Arrival.act]
      rw [hremote]
      rfl
    · rename_i hdirect
      have hnone : repairAt C net n it.key it oid = fun d => d := by
        funext d
        rw [repairAt, if_neg hn, if_neg hdirect]
      rw [hnone, modify_id]
      rfl

/-- A `Get` acts on the stored data as a run of arrivals of the copy it returns. -/
theorem shards_getImpl (n : NodeID) (key : Key) (w : World V) :
    ∃ run : List (Arrival V), (∀ e ∈ run, (getImpl C net n key w).2 = some e.item) ∧
      shards (getImpl C net n key w).1 = run.foldl (Arrival.deliver C) (shards w) := by
  obtain hmiss | ⟨it, m, hm, hres, ⟨-, hsh | hsh⟩ | ⟨-, stale, -, hsh⟩⟩ :=
    getImpl_cases C net n key w
  · exact ⟨[], by simp, by rw [hmiss]; rfl⟩
  · exact ⟨[], by simp, hsh⟩
  · obtain rfl : it.key = key := ConcurrentMap.key_of_get hm
    exact ⟨[.repairMissing n it], by simp [hres, Arrival.item], hsh⟩
  · obtain rfl : it.key = key := ConcurrentMap.key_of_get hm
    refine ⟨(stale ++ (C.cfg n).lookupOwners it.key).flatMap (repairArrivals C net n it),
      fun e he => ?_, ?_⟩
    · obtain ⟨oid, -, he⟩ := List.mem_flatMap.mp he
      rw [repairArrivals] at he
      split at he
      · rw [List.mem_singleton.mp he]
        exact hres
      · split at he
        · rw [List.mem_singleton.mp he]
          exact hres
        · exact absurd he List.not_mem_nil
    · rw [hsh, List.foldl_flatMap]
      simp only [modify_repairAt]

end World

end HyperCache
