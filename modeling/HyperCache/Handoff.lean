/-
Hinted handoff: a write reaches an owner that was down.

A node keeps the writes that an owner has missed in a queue, oldest first.  A pass that does not
reach the owner keeps the hints that have not expired, and one that does delivers them in their
order.  So of the hints for a key the last one counts, and the owner ends with its item if a
pass reaches the owner in time, however many passes have missed it before.
-/
import HyperCache.Arrival
import HyperCache.HintReplay

namespace HyperCache

open Pointwise

variable {V : Type}

/-- Arrivals at one node leave the others alone. -/
theorem Arrival.foldl_deliver_at {C : Cluster} {arrivals : List (Arrival V)} {peer : NodeID}
    (h : ∀ e ∈ arrivals, e.site = peer) (sh : NodeID → DistShard V) (m : NodeID) :
    arrivals.foldl (deliver C) sh m =
      if m = peer then arrivals.foldl (fun d e => e.act C d) (sh m) else sh m := by
  induction arrivals generalizing sh with
  | nil => exact (ite_self (sh m)).symm
  | cons e rest ih =>
      obtain ⟨hsite, hrest⟩ := List.forall_mem_cons.mp h
      rw [List.foldl_cons, List.foldl_cons, ih hrest, deliver, hsite, modify_apply]
      by_cases hm : m = peer
      · rw [if_pos hm, if_pos hm, if_pos hm]
      · rw [if_neg hm, if_neg hm, if_neg hm]

/-- The hint waits in the queue, and none behind it is for the same key. -/
def HintedEntry.LastIn (entry : HintedEntry V) (queue : List (HintedEntry V)) : Prop :=
  ∃ before after, queue = before ++ entry :: after ∧ ∀ e ∈ after, e.item.key ≠ entry.item.key

namespace World

variable {C : Cluster} {n m : NodeID} {it : Item V} {entry : HintedEntry V}
  {w : World V} {net : Net}

/-! ## One pass -/

theorem mem_queueArrivals {queue : List (HintedEntry V)} {e : Arrival V}
    (he : e ∈ queueArrivals net m queue) :
    ∃ entry ∈ queue, e = .forwardedSet m entry.item := by
  obtain ⟨entry, hmem, hentry⟩ := List.mem_filterMap.mp he
  split at hentry
  · exact ⟨entry, hmem, (Option.some.inj hentry).symm⟩
  · cases hentry

theorem get_foldl_act_other {arrivals : List (Arrival V)} {key : Key}
    (h : ∀ e ∈ arrivals, e.item.key ≠ key) (sh : DistShard V) :
    (arrivals.foldl (fun sh e => e.act C sh) sh).items.get key = sh.items.get key := by
  induction arrivals generalizing sh with
  | nil => rfl
  | cons e rest ih =>
      obtain ⟨he, hrest⟩ := List.forall_mem_cons.mp h
      exact (ih hrest _).trans (Arrival.act_other C (Ne.symm he) sh).1

/-- The node stores the item, and no hint waits for the node any more. -/
def HandedOff (n : NodeID) (it : Item V) (m : NodeID) (w : World V) : Prop :=
  (w m).shard.items.get it.key = some it ∧ (w n).hints.queue m = []

section

variable (ht : (C.cfg n).hasTransport = true)

include ht

/-- A pass acts on the data of a node as the hints for it say, in their order. -/
theorem shard_replayHints (net : Net) (w : World V) (m : NodeID) :
    (replayHints C net n w m).shard =
      (queueArrivals net m ((w n).hints.queue m)).foldl (fun sh e => e.act C sh) (w m).shard := by
  have hsite (sh : NodeID → DistShard V) (q : HintQueue V) (k : NodeID) :
      (queueArrivals net q.1 q.2).foldl (Arrival.deliver C) sh k =
        if k = q.1 then (queueArrivals net k q.2).foldl (fun d e => e.act C d) (sh k)
        else sh k := by
    have hpeer : ∀ e ∈ queueArrivals net q.1 q.2, e.site = q.1 := by
      intro e he
      obtain ⟨entry, -, rfl⟩ := mem_queueArrivals he
      rfl
    rw [Arrival.foldl_deliver_at hpeer]
    by_cases hk : k = q.1
    · rw [if_pos hk, if_pos hk, hk]
    · rw [if_neg hk, if_neg hk]
  have hsh : shards (replayHints C net n w) m = _ :=
    congrFun (shards_replayHints C net n w) m
  rw [replayArrivals, if_pos ht, List.foldl_flatMap] at hsh
  have hvisit := Keyed.foldl_visit_apply (o := fun sh k => sh k)
    (g := fun k queue d => (queueArrivals net k queue).foldl (fun d e => e.act C d) d)
    hsite (w n).hints.queues.nodupKeys (shards w) m
  refine hsh.trans (hvisit.trans ?_)
  rw [HintStore.queue]
  cases hq : (w n).hints.queues.lookup m <;> rw [AList.lookup] at hq <;> rw [hq] <;> rfl

/-- The hints that have not expired stay if the pass does not reach their node, and none if it
does. -/
theorem queue_replayHints (net : Net) (w : World V) (m : NodeID) :
    (replayHints C net n w n).hints.queue m =
      ((w n).hints.queue m).filter (fun e => decide (net.now ≤ e.expire) && !net.up m) := by
  rw [hints_replayHints, if_pos ht, HintPass.queue_replayHints, HintPass.remaining]
  have hfilter : HintPass.undelivered (V := V) net.now (deliveries net) m =
      (fun e => decide (net.now ≤ e.expire) && !net.up m) ∘ Prod.fst := rfl
  rw [hfilter, ← List.filter_map, List.zipIdx_map_fst]

theorem HandedOff.replayHints (h : HandedOff n it m w) (net : Net) :
    HandedOff n it m (replayHints C net n w) := by
  rw [HandedOff, shard_replayHints ht, queue_replayHints ht, h.2]
  exact ⟨h.1, rfl⟩

theorem lastIn_of_missed (h : entry.LastIn ((w n).hints.queue m)) (hdown : net.up m = false)
    (htime : net.now ≤ entry.expire) :
    entry.LastIn ((replayHints C net n w n).hints.queue m) := by
  obtain ⟨before, after, hqueue, hafter⟩ := h
  rw [queue_replayHints ht, hqueue, List.filter_append,
    List.filter_cons_of_pos (by simp [hdown, htime])]
  exact ⟨_, _, rfl, fun e he => hafter e (List.mem_filter.mp he).1⟩

/-- A pass that reaches the owner delivers the hint after all others for the key. -/
theorem handedOff_of_reached (h : entry.LastIn ((w n).hints.queue m))
    (hm : (C.cfg m).ownsKeyInternal entry.item.key = true) (hup : net.up m = true)
    (htime : net.now ≤ entry.expire) : HandedOff n entry.item m (replayHints C net n w) := by
  obtain ⟨before, after, hqueue, hafter⟩ := h
  have hsplit : queueArrivals net m (before ++ entry :: after) = queueArrivals net m before ++
      .forwardedSet m entry.item :: queueArrivals net m after := by
    rw [queueArrivals, List.filterMap_append, List.filterMap_cons, if_pos ⟨htime, hup⟩]
    rfl
  constructor
  · rw [shard_replayHints ht, hqueue, hsplit, List.foldl_append, List.foldl_cons,
      get_foldl_act_other]
    · rw [Arrival.act, DistShard.applyForwardedSet, DistConfig.acceptsForwarded_eq, hm,
        if_pos rfl, DistShard.applySet_items, ConcurrentMap.get_set_self]
    · intro e he
      obtain ⟨entry', hmem, rfl⟩ := mem_queueArrivals he
      exact hafter entry' hmem
  · simp [queue_replayHints ht, hup]

end

/-! ## The passes of a node -/

/-- Each pass comes with what it finds of the network. -/
def passes (C : Cluster) (n : NodeID) (nets : List Net) (w : World V) : World V :=
  nets.foldl (fun w net => replayHints C net n w) w

/-- One of the passes reaches the node, and it and the passes before come by the deadline. -/
def ReachedInTime (deadline : Time) (m : NodeID) (nets : List Net) : Prop :=
  ∃ early net late, nets = early ++ net :: late ∧ net.up m = true ∧
    ∀ pass ∈ early ++ [net], pass.now ≤ deadline

theorem HandedOff.passes (ht : (C.cfg n).hasTransport = true) (h : HandedOff n it m w)
    (nets : List Net) :
    HandedOff n it m (passes C n nets w) := by
  induction nets generalizing w with
  | nil => exact h
  | cons net rest ih => exact ih (HandedOff.replayHints ht h net)

/-- The last hint for a key is what the owner stores once a pass has reached it in time, and
the passes after that one leave it there. -/
theorem handoff_completes (ht : (C.cfg n).hasTransport = true)
    (h : entry.LastIn ((w n).hints.queue m))
    (hm : (C.cfg m).ownsKeyInternal entry.item.key = true) {nets : List Net}
    (hreach : ReachedInTime entry.expire m nets) :
    HandedOff n entry.item m (passes C n nets w) := by
  obtain ⟨early, net, late, rfl, hup, htime⟩ := hreach
  induction early generalizing w with
  | nil =>
      have hnow : net.now ≤ entry.expire := htime net List.mem_cons_self
      exact (handedOff_of_reached ht h hm hup hnow).passes ht late
  | cons first rest ih =>
      obtain ⟨hfirst, hrest⟩ := List.forall_mem_cons.mp htime
      show HandedOff n entry.item m (passes C n (rest ++ net :: late) (replayHints C first n w))
      cases hmissed : first.up m with
      | false => exact ih (lastIn_of_missed ht h hmissed hfirst) hrest
      | true => exact (handedOff_of_reached ht h hm hmissed hfirst).passes ht _

def hintingCluster : Cluster :=
  .uniform { localNode := [], ring := some threeOwners, hintTTL := 10 }

/-- The primary `a` writes while `c` is down.  The first pass misses `c` as well, and the second
one delivers the hint. -/
theorem handoff_completes_second_pass :
    let outage : Net := { up := (· != [99]), now := 0 }
    let w := (set hintingCluster outage [97] sampleItem fresh).1
    let nets : List Net := [{ outage with now := 4 }, { up := fun _ => true, now := 8 }]
    (w [99]).shard.items.get [107] = none ∧
      HandedOff [97] (stamped outage [97] sampleItem fresh) [99]
        (passes hintingCluster [97] nets w) := by
  intro outage w nets
  have hwaits : (w [97]).hints.queue [99] = [⟨stamped outage [97] sampleItem fresh, 0, 10,
      HintStore.approxHintSize sampleItem, .replication⟩] := rfl
  exact ⟨by decide, handoff_completes rfl ⟨[], [], hwaits, nofun⟩ (by decide)
    ⟨[{ outage with now := 4 }], _, [], rfl, rfl, by decide⟩⟩

end World

end HyperCache
