/-
Heartbeats: suspecting and pruning peers that do not answer.

A tick takes a snapshot of the membership and looks at the sampled peers one by one.  A
peer that was last seen longer ago than the dead timeout is removed.  Any other peer is
probed, through relays if it does not answer itself, and is marked as suspect if it was
alive in the snapshot and no probe succeeds.

`Mark` sets the time a node was last seen for a suspect as well, so the dead timeout of a
peer that stops answering runs from the moment it became suspect.
-/
import HyperCache.Gossip
import HyperCache.Lib.Runs

namespace HyperCache

open Keyed Runs

variable {sum64 : List UInt8 → UInt64}

/-! ## One tick -/

structure HeartbeatConfig where
  hbSuspectAfter : Duration
  hbDeadAfter : Duration
  hbSampleSize : Int := 0
  indirectProbeK : Int := 0

/-- Which probes succeed: of a node, and of a node through a relay. -/
structure Probes where
  health : NodeID → Bool
  indirectHealth : NodeID → NodeID → Bool

/-- What the runtime decides while one peer is looked at: the clock at each of the two places
where it may be marked, the transport that is loaded in between, the order of the relays and
the build of the ring. -/
structure Evaluation where
  suspectAt : Time
  transport : Option Probes
  relays : VisitOrder Node := .asStored _
  probedAt : Time
  runtime : Runtime := {}

/-- What the runtime decides for one tick. -/
structure HeartbeatTick where
  now : Time
  hasTransport : Bool := true
  shuffle : VisitOrder Node := .asStored _
  evaluation : NodeID → Evaluation

namespace Peer

/-- `membership.Mark`. -/
def mark (now : Time) (id : NodeID) (state : Node.State) (p : Peer) : Peer where
  localNode := ((p.membership.mark now id state).2.nodes.get p.localNode.id).getD p.localNode
  membership := (p.membership.mark now id state).2
  shared := by
    intro n hn
    rw [Store.key_getD (p.membership.mark now id state).2.nodes p.localNode] at hn
    rw [hn]
    rfl

/-- `membership.Remove`. -/
def remove (sum64 : List UInt8 → UInt64) (rt : Runtime) (id : NodeID) (p : Peer) : Peer where
  localNode := p.localNode
  membership := (p.membership.remove sum64 rt id).2
  shared := by
    intro n hn
    rw [Membership.remove_get] at hn
    split at hn
    · cases hn
    · exact p.shared n hn

def pickIndirectRelays (targetID : NodeID) (k : Int) (order : VisitOrder Node) (p : Peer) :
    List Node :=
  if k ≤ 0 then []
  else
    let candidates := p.membership.list.filter (fun n =>
      n.id ≠ p.localNode.id ∧ n.id ≠ targetID ∧ n.state = .alive)
    (order.arrange candidates).take k.toNat

def indirectProbeReachable (cfg : HeartbeatConfig) (e : Evaluation) (transport : Probes)
    (targetID : NodeID) (p : Peer) : Bool :=
  (p.pickIndirectRelays targetID cfg.indirectProbeK e.relays).any
    (fun relay => transport.indirectHealth relay.id targetID)

def handleProbeFailure (cfg : HeartbeatConfig) (e : Evaluation) (transport : Probes) (node : Node)
    (p : Peer) : Peer :=
  if cfg.indirectProbeK > 0 ∧ p.indirectProbeReachable cfg e transport node.id then
    p.mark e.probedAt node.id .alive
  else if node.state ≠ .alive then p
  else p.mark e.probedAt node.id .suspect

def evaluateLiveness (sum64 : List UInt8 → UInt64) (cfg : HeartbeatConfig) (now : Time)
    (e : Evaluation) (node : Node) (p : Peer) : Peer :=
  let elapsed := Time.sub now node.lastSeen
  if cfg.hbDeadAfter > 0 ∧ elapsed > cfg.hbDeadAfter then p.remove sum64 e.runtime node.id
  else
    let p :=
      if cfg.hbSuspectAfter > 0 ∧ elapsed > cfg.hbSuspectAfter ∧ node.state = .alive then
        p.mark e.suspectAt node.id .suspect
      else p
    match e.transport with
    | none => p
    | some transport =>
        if transport.health node.id then p.mark e.probedAt node.id .alive
        else p.handleProbeFailure cfg e transport node

/-- The peers a tick looks at. -/
def sampled (cfg : HeartbeatConfig) (t : HeartbeatTick) (p : Peer) : List Node :=
  let peers := t.shuffle.arrange p.membership.list
  if cfg.hbSampleSize > 0 ∧ cfg.hbSampleSize < peers.length then
    peers.take cfg.hbSampleSize.toNat
  else peers

/-- The body of the loop of a tick. -/
def visit (sum64 : List UInt8 → UInt64) (cfg : HeartbeatConfig) (t : HeartbeatTick) (p : Peer)
    (node : Node) : Peer :=
  if node.id = p.localNode.id then p
  else p.evaluateLiveness sum64 cfg t.now (t.evaluation node.id) node

def runHeartbeatTick (sum64 : List UInt8 → UInt64) (cfg : HeartbeatConfig) (t : HeartbeatTick)
    (p : Peer) : Peer :=
  if !t.hasTransport then p else (p.sampled cfg t).foldl (visit sum64 cfg t) p

/-! ## What a tick does to one record -/

theorem mark_localNode_id (now : Time) (id : NodeID) (state : Node.State) (p : Peer) :
    (p.mark now id state).localNode.id = p.localNode.id :=
  Store.key_getD _ _

theorem mark_record (now : Time) (id : NodeID) (state : Node.State) (p : Peer) (id' : NodeID) :
    (p.mark now id state).record id' =
      if id' = id then (p.record id).map (Node.marked now state) else p.record id' :=
  Membership.mark_get now id state p.membership id'

theorem remove_record (rt : Runtime) (id : NodeID) (p : Peer) (id' : NodeID) :
    (p.remove sum64 rt id).record id' = if id' = id then none else p.record id' :=
  Membership.remove_get sum64 rt id p.membership id'

/-- Looking at a peer ends in at most two marks, or in the removal of its record. -/
theorem evaluateLiveness_cases (cfg : HeartbeatConfig) (now : Time) (e : Evaluation)
    (node : Node) (p : Peer) {I : Peer → Prop} (hp : I p)
    (hmark : ∀ at' state q, I q → I (q.mark at' node.id state))
    (hremove : I (p.remove sum64 e.runtime node.id)) :
    I (p.evaluateLiveness sum64 cfg now e node) := by
  unfold evaluateLiveness
  dsimp only
  split
  · exact hremove
  · have hsuspect : I (if cfg.hbSuspectAfter > 0 ∧ Time.sub now node.lastSeen > cfg.hbSuspectAfter ∧
        node.state = .alive then p.mark e.suspectAt node.id .suspect else p) := by
      split
      · exact hmark _ _ _ hp
      · exact hp
    generalize (if cfg.hbSuspectAfter > 0 ∧ Time.sub now node.lastSeen > cfg.hbSuspectAfter ∧
        node.state = .alive then p.mark e.suspectAt node.id .suspect else p) = q at hsuspect ⊢
    split
    · exact hsuspect
    · split
      · exact hmark _ _ _ hsuspect
      · unfold handleProbeFailure
        split
        · exact hmark _ _ _ hsuspect
        · split
          · exact hsuspect
          · exact hmark _ _ _ hsuspect

theorem visit_localNode_id (cfg : HeartbeatConfig) (t : HeartbeatTick) (p : Peer) (node : Node) :
    (p.visit sum64 cfg t node).localNode.id = p.localNode.id := by
  unfold visit
  split
  · rfl
  · exact evaluateLiveness_cases (I := fun q => q.localNode.id = p.localNode.id) _ _ _ _ _ rfl
      (fun _ _ q hq => (mark_localNode_id _ _ _ q).trans hq) rfl

theorem visit_record_ne (cfg : HeartbeatConfig) (t : HeartbeatTick) (p : Peer) {node : Node}
    {id : NodeID} (hne : id ≠ node.id) :
    (p.visit sum64 cfg t node).record id = p.record id := by
  unfold visit
  split
  · rfl
  · refine evaluateLiveness_cases (I := fun q => q.record id = p.record id) _ _ _ _ _ rfl ?_ ?_
    · intro at' state q hq
      rw [mark_record, if_neg hne, hq]
    · rw [remove_record, if_neg hne]

theorem foldl_visit_localNode_id (cfg : HeartbeatConfig) (t : HeartbeatTick) (nodes : List Node)
    (p : Peer) : (nodes.foldl (visit sum64 cfg t) p).localNode.id = p.localNode.id := by
  induction nodes generalizing p with
  | nil => rfl
  | cons node rest ih => exact (ih _).trans (visit_localNode_id cfg t p node)

theorem foldl_visit_record_of_not_mem (cfg : HeartbeatConfig) (t : HeartbeatTick)
    {nodes : List Node} {id : NodeID} (hid : id ∉ nodes.map Node.id) (p : Peer) :
    (nodes.foldl (visit sum64 cfg t) p).record id = p.record id := by
  induction nodes generalizing p with
  | nil => rfl
  | cons node rest ih =>
      rw [List.map_cons, List.mem_cons, not_or] at hid
      exact (ih hid.2 _).trans (visit_record_ne cfg t p hid.1)

theorem nodup_sampled (cfg : HeartbeatConfig) (t : HeartbeatTick) (p : Peer) :
    ((p.sampled cfg t).map Node.id).Nodup := by
  have hall : ((t.shuffle.arrange p.membership.list).map Node.id).Nodup :=
    ((t.shuffle.perm _).map Node.id).nodup_iff.mpr p.membership.nodup_ids_list
  unfold sampled
  dsimp only
  split
  · exact hall.sublist ((List.take_sublist _ _).map _)
  · exact hall

theorem record_of_mem_sampled {cfg : HeartbeatConfig} {t : HeartbeatTick} {p : Peer} {n : Node}
    (hn : n ∈ p.sampled cfg t) : p.record n.id = some n := by
  have hlist : n ∈ p.membership.list := by
    unfold sampled at hn
    dsimp only at hn
    split at hn
    · exact (t.shuffle.perm _).mem_iff.mp (List.mem_of_mem_take hn)
    · exact (t.shuffle.perm _).mem_iff.mp hn
  exact Store.mem_values.mp hlist

/-- A tick looks at a sampled peer as it is in the snapshot. -/
theorem runHeartbeatTick_record {cfg : HeartbeatConfig} {t : HeartbeatTick} {p : Peer} {n : Node}
    (ht : t.hasTransport = true) (hn : n ∈ p.sampled cfg t) (hremote : n.id ≠ p.localNode.id) :
    ∃ q : Peer, q.record n.id = some n ∧
      (p.runHeartbeatTick sum64 cfg t).record n.id =
        (q.evaluateLiveness sum64 cfg t.now (t.evaluation n.id) n).record n.id := by
  obtain ⟨before, after, hsplit⟩ := List.append_of_mem hn
  have hnodup := nodup_sampled cfg t p
  rw [hsplit, List.map_append, List.map_cons, List.nodup_append] at hnodup
  obtain ⟨-, hlater, hapart⟩ := hnodup
  have hbefore : n.id ∉ before.map Node.id :=
    fun hmem => hapart _ hmem _ List.mem_cons_self rfl
  refine ⟨before.foldl (visit sum64 cfg t) p, ?_, ?_⟩
  · rw [foldl_visit_record_of_not_mem cfg t hbefore]
    exact record_of_mem_sampled hn
  · have hlocal : n.id ≠ (before.foldl (visit sum64 cfg t) p).localNode.id := by
      rw [foldl_visit_localNode_id]
      exact hremote
    rw [runHeartbeatTick, ht, hsplit, List.foldl_append, List.foldl_cons]
    show (after.foldl (visit sum64 cfg t) _).record n.id = _
    rw [foldl_visit_record_of_not_mem cfg t (List.nodup_cons.mp hlater).1, visit, if_neg hlocal]

theorem runHeartbeatTick_record_of_none {cfg : HeartbeatConfig} {t : HeartbeatTick} {p : Peer}
    {id : NodeID} (hid : p.record id = none) :
    (p.runHeartbeatTick sum64 cfg t).record id = none := by
  unfold runHeartbeatTick
  split
  · exact hid
  · rw [foldl_visit_record_of_not_mem cfg t _ p]
    · exact hid
    · intro hmem
      obtain ⟨n, hn, rfl⟩ := List.mem_map.mp hmem
      rw [record_of_mem_sampled hn] at hid
      cases hid

end Peer

/-! ## A peer that does not answer -/

/-- Neither the peer itself nor a relay answers for it. -/
def Evaluation.Silent (e : Evaluation) (id : NodeID) : Prop :=
  ∃ transport, e.transport = some transport ∧ transport.health id = false ∧
    ∀ relay, transport.indirectHealth relay id = false

namespace Node

/-- The dead timeout of a node has passed. -/
def Expired (cfg : HeartbeatConfig) (now : Time) (n : Node) : Prop :=
  0 < cfg.hbDeadAfter ∧ cfg.hbDeadAfter < Time.sub now n.lastSeen

instance (cfg : HeartbeatConfig) (now : Time) (n : Node) : Decidable (n.Expired cfg now) :=
  inferInstanceAs (Decidable (_ ∧ _))

/-- The record of a node after a tick at which it did not answer. -/
def unanswered (cfg : HeartbeatConfig) (now probedAt : Time) (n : Node) : Option Node :=
  if n.Expired cfg now then none
  else if n.state = .alive then
    some { n with incarnation := n.incarnation + 1, state := .suspect, lastSeen := probedAt }
  else some n

theorem lt_sub_iff {d now seen : Int} (hd : 0 < d) :
    d < Time.sub now seen ↔ d < maxDuration ∧ d < now - seen := by
  show d < max (-0x8000000000000000 : Int) (min 0x7fffffffffffffff (now - seen)) ↔
    d < 0x7fffffffffffffff ∧ d < now - seen
  omega

theorem expired_iff {cfg : HeartbeatConfig} {now : Time} {n : Node} :
    n.Expired cfg now ↔
      0 < cfg.hbDeadAfter ∧ cfg.hbDeadAfter < maxDuration ∧
        cfg.hbDeadAfter < now - n.lastSeen := by
  rw [Expired]
  exact and_congr_right lt_sub_iff

theorem unanswered_eq_none_iff {cfg : HeartbeatConfig} {now probedAt : Time} {n : Node} :
    n.unanswered cfg now probedAt = none ↔ n.Expired cfg now := by
  unfold unanswered
  split
  case isTrue hexp => exact ⟨fun _ => hexp, fun _ => rfl⟩
  case isFalse hexp =>
    constructor
    · intro hnone
      split at hnone <;> cases hnone
    · intro hexp'
      exact absurd hexp' hexp

theorem unanswered_of_not_alive {cfg : HeartbeatConfig} {now probedAt : Time} {n : Node}
    (hexp : ¬n.Expired cfg now) (hstate : n.state ≠ .alive) :
    n.unanswered cfg now probedAt = some n := by
  rw [unanswered, if_neg hexp, if_neg hstate]

end Node

namespace Peer

theorem indirectProbeReachable_of_silent {cfg : HeartbeatConfig} {e : Evaluation}
    {transport : Probes} {id : NodeID}
    (hsilent : ∀ relay, transport.indirectHealth relay id = false) (p : Peer) :
    p.indirectProbeReachable cfg e transport id = false := by
  unfold indirectProbeReachable
  apply List.any_eq_false.mpr
  intro relay _
  rw [hsilent]
  exact Bool.false_ne_true

/-- Looking at a peer that does not answer.  The timeout and the failed probe may both mark it,
and the second mark finds it suspect already. -/
theorem evaluateLiveness_record {cfg : HeartbeatConfig} {now : Time} {e : Evaluation} {n : Node}
    {q : Peer} (hsilent : e.Silent n.id) (hrecord : q.record n.id = some n) :
    (q.evaluateLiveness sum64 cfg now e n).record n.id = n.unanswered cfg now e.probedAt := by
  obtain ⟨transport, htransport, hdirect, hrelays⟩ := hsilent
  unfold evaluateLiveness Node.unanswered
  dsimp only
  by_cases hexp : n.Expired cfg now
  · have hdead : cfg.hbDeadAfter > 0 ∧ Time.sub now n.lastSeen > cfg.hbDeadAfter := hexp
    rw [if_pos hdead, if_pos hexp, remove_record, if_pos rfl]
  · have hdead : ¬(cfg.hbDeadAfter > 0 ∧ Time.sub now n.lastSeen > cfg.hbDeadAfter) := hexp
    rw [if_neg hdead, if_neg hexp, htransport]
    dsimp only
    rw [if_neg (by rw [hdirect]; exact Bool.false_ne_true), handleProbeFailure,
      indirectProbeReachable_of_silent hrelays, if_neg (fun h => Bool.false_ne_true h.2)]
    by_cases halive : n.state = .alive
    · rw [if_neg (not_not.mpr halive), if_pos halive, mark_record, if_pos rfl]
      split
      · rw [mark_record, if_pos rfl, hrecord]
        simp [Node.marked, halive]
      · rw [hrecord]
        simp [Node.marked, halive]
    · rw [if_pos halive, if_neg halive, if_neg (fun h => halive h.2.2)]
      exact hrecord

end Peer

/-! ## Runs -/

/-- What may happen to the membership of a node: heartbeats and snapshots of other nodes. -/
inductive MembershipEvent where
  | tick (t : HeartbeatTick)
  | gossip (rt : Runtime) (nodes : List Node)

namespace MembershipEvent

def ticks : List MembershipEvent → List HeartbeatTick :=
  List.filterMap (fun
    | .tick t => some t
    | .gossip _ _ => none)

/-- From here on nothing is heard of the peer: a tick probes it in vain, and a snapshot has
nothing new about it. -/
def Silent (cfg : HeartbeatConfig) (id : NodeID) (p : Peer) : MembershipEvent → Prop
  | .tick t =>
      t.hasTransport = true ∧ (∀ n, p.record id = some n → n ∈ p.sampled cfg t) ∧
        (t.evaluation id).Silent id
  | .gossip _ nodes =>
      ∀ n ∈ nodes, n.id = id → ∃ cur, p.record id = some cur ∧ n.incarnation ≤ cur.incarnation

end MembershipEvent

namespace Peer

open MembershipEvent

def step (sum64 : List UInt8 → UInt64) (cfg : HeartbeatConfig) (p : Peer) :
    MembershipEvent → Peer
  | .tick t => p.runHeartbeatTick sum64 cfg t
  | .gossip rt nodes => p.acceptGossip sum64 rt nodes

/-- What the ticks make of a record of which nothing is heard. -/
def afterTicks (cfg : HeartbeatConfig) (id : NodeID) (ticks : List HeartbeatTick)
    (r : Option Node) : Option Node :=
  ticks.foldl (fun r t => r.bind (Node.unanswered cfg t.now (t.evaluation id).probedAt)) r

theorem step_localNode_id (cfg : HeartbeatConfig) (p : Peer) (ev : MembershipEvent) :
    (p.step sum64 cfg ev).localNode.id = p.localNode.id := by
  cases ev with
  | tick t =>
      show (p.runHeartbeatTick sum64 cfg t).localNode.id = _
      unfold runHeartbeatTick
      split
      · rfl
      · exact foldl_visit_localNode_id cfg t _ p
  | gossip rt nodes => exact acceptGossip_localNode_id rt nodes p

theorem step_record {cfg : HeartbeatConfig} {id : NodeID} {p : Peer} {ev : MembershipEvent}
    (hremote : id ≠ p.localNode.id) (hsilent : Silent cfg id p ev) :
    (p.step sum64 cfg ev).record id = afterTicks cfg id (ticks [ev]) (p.record id) := by
  cases ev with
  | tick t =>
      obtain ⟨ht, hsampled, hprobes⟩ := hsilent
      show (p.runHeartbeatTick sum64 cfg t).record id =
        (p.record id).bind (Node.unanswered cfg t.now (t.evaluation id).probedAt)
      cases hrecord : p.record id with
      | none => exact runHeartbeatTick_record_of_none hrecord
      | some n =>
          obtain rfl : n.id = id := Store.key_of_get hrecord
          obtain ⟨q, hq, htick⟩ := runHeartbeatTick_record ht (hsampled n hrecord) hremote
          rw [htick]
          exact evaluateLiveness_record hprobes hq
  | gossip rt nodes =>
      show (p.acceptGossip sum64 rt nodes).record id = p.record id
      rw [acceptGossip_record rt nodes p (Or.inr hremote)]
      cases hrecord : p.record id with
      | none =>
          have hnone : nodes.filter (fun n => n.id = id) = [] := by
            apply List.filter_eq_nil_iff.mpr
            intro n hn hid
            obtain ⟨cur, hcur, -⟩ := hsilent n hn (of_decide_eq_true hid)
            rw [hrecord] at hcur
            cases hcur
          rw [hnone]
          rfl
      | some cur =>
          apply LastWriter.foldl_keepGreater_of_le
          intro n' hn'
          obtain ⟨n, hn, rfl⟩ := List.mem_map.mp hn'
          obtain ⟨hmem, hid⟩ := List.mem_filter.mp hn
          obtain ⟨cur', hcur', hle⟩ := hsilent n hmem (of_decide_eq_true hid)
          rw [hrecord] at hcur'
          cases hcur'
          exact hle

theorem run_record {cfg : HeartbeatConfig} {id : NodeID} {events : List MembershipEvent} {p : Peer}
    (hremote : id ≠ p.localNode.id) (hsilent : Along (step sum64 cfg) (Silent cfg id) p events) :
    (events.foldl (step sum64 cfg) p).record id =
      afterTicks cfg id (ticks events) (p.record id) := by
  induction events generalizing p with
  | nil => rfl
  | cons ev rest ih =>
      obtain ⟨hfirst, hrest⟩ := hsilent
      have hremote' : id ≠ (p.step sum64 cfg ev).localNode.id := by
        rw [step_localNode_id]
        exact hremote
      have happend : ticks (ev :: rest) = ticks [ev] ++ ticks rest :=
        List.filterMap_append (l := [ev])
      rw [List.foldl_cons, ih hremote' hrest, step_record hremote hfirst, happend, afterTicks,
        afterTicks, afterTicks, List.foldl_append]

theorem afterTicks_none (cfg : HeartbeatConfig) (id : NodeID) (ts : List HeartbeatTick) :
    afterTicks cfg id ts none = none := by
  induction ts with
  | nil => rfl
  | cons t rest ih => exact ih

/-- The record of a peer that is not alive stays as it is until its timeout has passed. -/
theorem afterTicks_eq_none_of_not_alive {cfg : HeartbeatConfig} {id : NodeID}
    {ts : List HeartbeatTick} {n : Node} (hstate : n.state ≠ .alive) :
    afterTicks cfg id ts (some n) = none ↔ ∃ t ∈ ts, n.Expired cfg t.now := by
  induction ts with
  | nil => simp [afterTicks]
  | cons t rest ih =>
      show afterTicks cfg id rest (n.unanswered cfg t.now _) = none ↔ _
      simp only [List.mem_cons, exists_eq_or_imp]
      by_cases hexp : n.Expired cfg t.now
      · rw [Node.unanswered_eq_none_iff.mpr hexp]
        exact ⟨fun _ => Or.inl hexp, fun _ => afterTicks_none cfg id rest⟩
      · rw [Node.unanswered_of_not_alive hexp hstate, ih]
        exact ⟨Or.inr, fun h => h.resolve_left hexp⟩

/-- When the ticks before the last one are no later than it, the last one decides. -/
theorem exists_expired_iff {cfg : HeartbeatConfig} {ts : List HeartbeatTick} {last : HeartbeatTick}
    {n : Node} (hbefore : ∀ t ∈ ts, t.now ≤ last.now) :
    (∃ t ∈ ts ++ [last], n.Expired cfg t.now) ↔ n.Expired cfg last.now := by
  constructor
  · rintro ⟨t, ht, hexp⟩
    have hle : t.now ≤ last.now := by
      rcases List.mem_append.mp ht with ht | ht
      · exact hbefore t ht
      · exact (congrArg HeartbeatTick.now (List.mem_singleton.mp ht)).le
    obtain ⟨hpos, hmax, hdead⟩ := Node.expired_iff.mp hexp
    exact Node.expired_iff.mpr ⟨hpos, hmax, hdead.trans_le (Int.sub_le_sub_right hle _)⟩
  · intro hexp
    exact ⟨last, List.mem_append_right ts List.mem_cons_self, hexp⟩

/-- The first tick after the timeout finds the record gone unless an earlier tick has made an
alive peer suspect, and not longer ago than the timeout. -/
theorem afterTicks_eq_none_iff {cfg : HeartbeatConfig} {id : NodeID} {ts : List HeartbeatTick}
    {last : HeartbeatTick} {n : Node} {t0 : Time} (hseen : n.lastSeen ≤ t0)
    (hearly : ∀ t ∈ ts, t.now ≤ t0 + cfg.hbDeadAfter) (hlate : t0 + cfg.hbDeadAfter < last.now) :
    afterTicks cfg id (ts ++ [last]) (some n) = none ↔
      0 < cfg.hbDeadAfter ∧ cfg.hbDeadAfter < maxDuration ∧
        (n.state ≠ .alive ∨ ∀ t, ts.head? = some t →
          cfg.hbDeadAfter < t.now - n.lastSeen ∨
            (t.evaluation id).probedAt + cfg.hbDeadAfter < last.now) := by
  have hbefore : ∀ t ∈ ts, t.now ≤ last.now := fun t ht => (hearly t ht).trans hlate.le
  have hlast : n.Expired cfg last.now ↔ 0 < cfg.hbDeadAfter ∧ cfg.hbDeadAfter < maxDuration := by
    have hdiff : cfg.hbDeadAfter < last.now - n.lastSeen := by
      apply Int.lt_sub_left_of_add_lt
      exact (Int.add_le_add_right hseen _).trans_lt hlate
    rw [Node.expired_iff, and_iff_left hdiff]
  by_cases hstate : n.state = .alive
  · rw [or_iff_right (not_not.mpr hstate)]
    cases ts with
    | nil =>
        show n.unanswered cfg last.now _ = none ↔ _
        rw [Node.unanswered_eq_none_iff, hlast]
        simp
    | cons t rest =>
        show afterTicks cfg id (rest ++ [last]) (n.unanswered cfg t.now _) = none ↔ _
        have hfirst : ∀ P : HeartbeatTick → Prop,
            (∀ t', (t :: rest).head? = some t' → P t') ↔ P t := by
          simp
        rw [hfirst]
        by_cases hexp : n.Expired cfg t.now
        · obtain ⟨hpos, hmax, hdead⟩ := Node.expired_iff.mp hexp
          rw [Node.unanswered_eq_none_iff.mpr hexp]
          exact ⟨fun _ => ⟨hpos, hmax, Or.inl hdead⟩, fun _ => afterTicks_none cfg id _⟩
        · -- The tick makes the peer suspect, and from then on only the clock matters.
          have hsuspect : Node.State.suspect ≠ .alive := nofun
          have hrest : ∀ t ∈ rest, t.now ≤ last.now :=
            fun t' ht' => hbefore t' (List.mem_cons_of_mem t ht')
          rw [Node.unanswered, if_neg hexp, if_pos hstate,
            afterTicks_eq_none_of_not_alive hsuspect, exists_expired_iff hrest, Node.expired_iff]
          refine and_congr_right (fun hpos => and_congr_right (fun hmax => ?_))
          have hnot : ¬cfg.hbDeadAfter < t.now - n.lastSeen :=
            fun hdead => hexp (Node.expired_iff.mpr ⟨hpos, hmax, hdead⟩)
          rw [or_iff_right hnot]
          exact ⟨Int.add_lt_of_lt_sub_left, Int.lt_sub_left_of_add_lt⟩
  · rw [afterTicks_eq_none_of_not_alive hstate, exists_expired_iff hbefore, hlast]
    simp [hstate]

/-- A peer of which nothing is heard from `t0` on, in the state in which `t0` finds it, and the
first tick that is later than the timeout counted from there. -/
theorem pruned_iff {cfg : HeartbeatConfig} {id : NodeID} {p : Peer} {n : Node} {t0 : Time}
    (hremote : id ≠ p.localNode.id) (hrecord : p.record id = some n) (hseen : n.lastSeen ≤ t0)
    {events : List MembershipEvent} {last : HeartbeatTick}
    (hsilent : Along (step sum64 cfg) (Silent cfg id) p (events ++ [.tick last]))
    (hearly : ∀ t ∈ ticks events, t.now ≤ t0 + cfg.hbDeadAfter)
    (hlate : t0 + cfg.hbDeadAfter < last.now) :
    ((events ++ [MembershipEvent.tick last]).foldl (step sum64 cfg) p).record id = none ↔
      0 < cfg.hbDeadAfter ∧ cfg.hbDeadAfter < maxDuration ∧
        (n.state ≠ .alive ∨ ∀ t, (ticks events).head? = some t →
          cfg.hbDeadAfter < t.now - n.lastSeen ∨
            (t.evaluation id).probedAt + cfg.hbDeadAfter < last.now) := by
  have hticks : ticks (events ++ [MembershipEvent.tick last]) = ticks events ++ [last] :=
    List.filterMap_append
  rw [run_record hremote hsilent, hrecord, hticks]
  exact afterTicks_eq_none_iff hseen hearly hlate

/-- The node `a` knows `b`, seen at time 0. -/
def acquainted : Peer :=
  (standalone (fun _ => 0) {} { id := [97] }).upsert (fun _ => 0) {} { id := [98] }
    (show ([98] : NodeID) ≠ [97] by decide)

def deadAfterTen : HeartbeatConfig := { hbSuspectAfter := 5, hbDeadAfter := 10 }

/-- A tick at which no probe succeeds. -/
def unansweredTick (now : Time) : HeartbeatTick where
  now := now
  evaluation := fun _ =>
    { suspectAt := now, transport := some ⟨fun _ => false, fun _ _ => false⟩, probedAt := now }

theorem silent_unansweredTick (p : Peer) (now : Time) :
    Silent deadAfterTen [98] p (.tick (unansweredTick now)) := by
  refine ⟨rfl, fun n hn => ?_, _, rfl, rfl, fun _ => rfl⟩
  have hid : n.id = [98] := Store.key_of_get hn
  rw [← hid] at hn
  exact Store.mem_values.mpr hn

theorem silent_run (times : List Time) :
    Along (step (fun _ => 0) deadAfterTen) (Silent deadAfterTen [98]) acquainted
      (times.map (fun now => .tick (unansweredTick now))) := by
  apply along_of_forall
  intro ev hev p
  obtain ⟨now, -, rfl⟩ := List.mem_map.mp hev
  exact silent_unansweredTick p now

/-- Suspect since 6, the peer is gone after a tick at 17. -/
theorem pruned_at_seventeen :
    ([MembershipEvent.tick (unansweredTick 6), .tick (unansweredTick 17)].foldl
      (step (fun _ => 0) deadAfterTen) acquainted).record [98] = none := by
  have hremote : ([98] : NodeID) ≠ acquainted.localNode.id := by decide
  have hrecord : acquainted.record [98] = some { id := [98] } := by decide
  have hseen : ({ id := [98] } : Node).lastSeen ≤ 0 := by decide
  have hsilent : Along (step (fun _ => 0) deadAfterTen) (Silent deadAfterTen [98]) acquainted
      ([.tick (unansweredTick 6)] ++ [.tick (unansweredTick 17)]) := silent_run [6, 17]
  have hearly : ∀ t ∈ ticks [.tick (unansweredTick 6)], t.now ≤ 0 + deadAfterTen.hbDeadAfter := by
    intro t ht
    cases List.mem_singleton.mp ht
    decide
  apply (pruned_iff hremote hrecord hseen hsilent hearly (by decide)).mpr
  refine ⟨by decide, by decide, Or.inr (fun t ht => ?_)⟩
  cases ht
  exact Or.inr (by decide)

/-- Unheard of since 0, the peer is still there after a tick at 11. -/
theorem not_pruned_at_eleven :
    acquainted.record [98] = some { id := [98] } ∧
      Along (step (fun _ => 0) deadAfterTen) (Silent deadAfterTen [98]) acquainted
        [.tick (unansweredTick 6), .tick (unansweredTick 11)] ∧
      ([MembershipEvent.tick (unansweredTick 6), .tick (unansweredTick 11)].foldl
        (step (fun _ => 0) deadAfterTen) acquainted).record [98] ≠ none :=
  ⟨by decide, silent_run [6, 11], by decide⟩

end Peer

end HyperCache
