/-
The counters of the heartbeat.

A tick counts its probes and the marks it makes.  Whether a mark is counted as a new
suspicion depends on the snapshot of the peer, not on its record.  So `suspicions` counts
beside the code how often a record really goes from alive to suspect.
-/
import HyperCache.Heartbeat

namespace HyperCache

open Runs

variable {sum64 : List UInt8 → UInt64}

structure HeartbeatMetrics where
  heartbeatSuccess : Nat := 0
  heartbeatFailure : Nat := 0
  nodesSuspect : Nat := 0
  nodesDead : Nat := 0
  nodesRemoved : Nat := 0
  indirectProbeSuccess : Nat := 0
  indirectProbeFailure : Nat := 0
  indirectProbeRefuted : Nat := 0

/-- The record has gone from alive to suspect. -/
def becameSuspect (before after : Option Node) : Bool :=
  before.any (fun n => n.state = .alive) && after.any (fun n => n.state = .suspect)

structure Metered where
  peer : Peer
  metrics : HeartbeatMetrics := {}
  suspicions : Nat := 0

namespace Metered

def mark (now : Time) (id : NodeID) (state : Node.State) (m : Metered) : Metered :=
  let peer := m.peer.mark now id state
  { m with
    peer
    suspicions := m.suspicions +
      (if becameSuspect (m.peer.record id) (peer.record id) then 1 else 0) }

/-- Marking a peer as suspect and counting it. -/
def suspect (now : Time) (id : NodeID) (m : Metered) : Metered :=
  let m := m.mark now id .suspect
  { m with metrics := { m.metrics with nodesSuspect := m.metrics.nodesSuspect + 1 } }

/-- The loop over the relays. -/
def probeRelays (transport : Probes) (targetID : NodeID) :
    List Node → HeartbeatMetrics → HeartbeatMetrics × Bool
  | [], k => (k, false)
  | relay :: rest, k =>
      if transport.indirectHealth relay.id targetID then
        ({ k with indirectProbeSuccess := k.indirectProbeSuccess + 1 }, true)
      else
        probeRelays transport targetID rest
          { k with indirectProbeFailure := k.indirectProbeFailure + 1 }

def indirectProbeReachable (cfg : HeartbeatConfig) (e : Evaluation) (transport : Probes)
    (targetID : NodeID) (m : Metered) : Metered × Bool :=
  let relays := m.peer.pickIndirectRelays targetID cfg.indirectProbeK e.relays
  let (metrics, reachable) := probeRelays transport targetID relays m.metrics
  ({ m with metrics }, reachable)

/-- The escalation that ends `handleProbeFailure`. -/
def escalate (e : Evaluation) (node : Node) (m : Metered) : Metered :=
  if node.state ≠ .alive then m else m.suspect e.probedAt node.id

def handleProbeFailure (cfg : HeartbeatConfig) (e : Evaluation) (transport : Probes) (node : Node)
    (m : Metered) : Metered :=
  if cfg.indirectProbeK > 0 then
    match m.indirectProbeReachable cfg e transport node.id with
    | (m, true) =>
        let m : Metered := { m with metrics :=
          { m.metrics with indirectProbeRefuted := m.metrics.indirectProbeRefuted + 1 } }
        m.mark e.probedAt node.id .alive
    | (m, false) => m.escalate e node
  else m.escalate e node

/-- The second half of `evaluateLiveness`. -/
def probe (cfg : HeartbeatConfig) (e : Evaluation) (node : Node) (m : Metered) : Metered :=
  match e.transport with
  | none => m
  | some transport =>
      if transport.health node.id then
        let m : Metered := { m with metrics :=
          { m.metrics with heartbeatSuccess := m.metrics.heartbeatSuccess + 1 } }
        m.mark e.probedAt node.id .alive
      else
        let m : Metered := { m with metrics :=
          { m.metrics with heartbeatFailure := m.metrics.heartbeatFailure + 1 } }
        m.handleProbeFailure cfg e transport node

def evaluateLiveness (sum64 : List UInt8 → UInt64) (cfg : HeartbeatConfig) (now : Time)
    (e : Evaluation) (node : Node) (m : Metered) : Metered :=
  let elapsed := Time.sub now node.lastSeen
  if cfg.hbDeadAfter > 0 ∧ elapsed > cfg.hbDeadAfter then
    let removed := (m.peer.membership.remove sum64 e.runtime node.id).1
    { m with
      peer := m.peer.remove sum64 e.runtime node.id
      metrics :=
        if removed then
          { m.metrics with
            nodesRemoved := m.metrics.nodesRemoved + 1
            nodesDead := m.metrics.nodesDead + 1 }
        else m.metrics }
  else
    let m :=
      if cfg.hbSuspectAfter > 0 ∧ elapsed > cfg.hbSuspectAfter ∧ node.state = .alive then
        m.suspect e.suspectAt node.id
      else m
    m.probe cfg e node

def visit (sum64 : List UInt8 → UInt64) (cfg : HeartbeatConfig) (t : HeartbeatTick) (m : Metered)
    (node : Node) : Metered :=
  if node.id = m.peer.localNode.id then m
  else m.evaluateLiveness sum64 cfg t.now (t.evaluation node.id) node

def runHeartbeatTick (sum64 : List UInt8 → UInt64) (cfg : HeartbeatConfig) (m : Metered)
    (t : HeartbeatTick) : Metered :=
  if !t.hasTransport then m else (m.peer.sampled cfg t).foldl (visit sum64 cfg t) m

/-! ## Without the counters -/

theorem snd_probeRelays (transport : Probes) (targetID : NodeID) (relays : List Node)
    (k : HeartbeatMetrics) :
    (probeRelays transport targetID relays k).2 =
      relays.any (fun relay => transport.indirectHealth relay.id targetID) := by
  induction relays generalizing k with
  | nil => rfl
  | cons relay rest ih =>
      rw [probeRelays, List.any_cons]
      cases transport.indirectHealth relay.id targetID with
      | true => rfl
      | false => exact ih _

theorem nodesSuspect_probeRelays (transport : Probes) (targetID : NodeID) (relays : List Node)
    (k : HeartbeatMetrics) :
    (probeRelays transport targetID relays k).1.nodesSuspect = k.nodesSuspect := by
  induction relays generalizing k with
  | nil => rfl
  | cons relay rest ih =>
      rw [probeRelays]
      cases transport.indirectHealth relay.id targetID with
      | true => rfl
      | false => exact ih _

/-- Two states that differ in other counters at most. -/
structure Alike (m m' : Metered) : Prop where
  peer : m'.peer = m.peer
  suspicions : m'.suspicions = m.suspicions
  nodesSuspect : m'.metrics.nodesSuspect = m.metrics.nodesSuspect

section

variable (cfg : HeartbeatConfig) (e : Evaluation) (transport : Probes) (node : Node) (m : Metered)

theorem alike_indirectProbeReachable (targetID : NodeID) :
    m.Alike (m.indirectProbeReachable cfg e transport targetID).1 :=
  ⟨rfl, rfl, nodesSuspect_probeRelays _ _ _ _⟩

theorem handleProbeFailure_of_refuted
    (h : cfg.indirectProbeK > 0 ∧ m.peer.indirectProbeReachable cfg e transport node.id) :
    ∃ m', m.Alike m' ∧
      m.handleProbeFailure cfg e transport node = m'.mark e.probedAt node.id .alive := by
  have halike := m.alike_indirectProbeReachable cfg e transport node.id
  have hreach : (m.indirectProbeReachable cfg e transport node.id).2 = true :=
    (snd_probeRelays _ _ _ _).trans h.2
  rw [handleProbeFailure, if_pos h.1]
  generalize m.indirectProbeReachable cfg e transport node.id = answer at halike hreach ⊢
  obtain ⟨m', reachable⟩ := answer
  cases hreach
  exact ⟨{ m' with metrics :=
    { m'.metrics with indirectProbeRefuted := m'.metrics.indirectProbeRefuted + 1 } },
    ⟨halike.peer, halike.suspicions, halike.nodesSuspect⟩, rfl⟩

theorem handleProbeFailure_of_unrefuted
    (h : ¬(cfg.indirectProbeK > 0 ∧ m.peer.indirectProbeReachable cfg e transport node.id)) :
    ∃ m', m.Alike m' ∧ m.handleProbeFailure cfg e transport node = m'.escalate e node := by
  rw [handleProbeFailure]
  by_cases hk : cfg.indirectProbeK > 0
  · have halike := m.alike_indirectProbeReachable cfg e transport node.id
    have hreach : (m.indirectProbeReachable cfg e transport node.id).2 = false := by
      rw [← Bool.not_eq_true]
      intro htrue
      exact h ⟨hk, (snd_probeRelays _ _ _ _).symm.trans htrue⟩
    rw [if_pos hk]
    generalize m.indirectProbeReachable cfg e transport node.id = answer at halike hreach ⊢
    obtain ⟨m', reachable⟩ := answer
    cases hreach
    exact ⟨m', halike, rfl⟩
  · rw [if_neg hk]
    exact ⟨m, ⟨rfl, rfl, rfl⟩, rfl⟩

theorem peer_handleProbeFailure :
    (m.handleProbeFailure cfg e transport node).peer =
      m.peer.handleProbeFailure cfg e transport node := by
  rw [Peer.handleProbeFailure]
  by_cases h : cfg.indirectProbeK > 0 ∧ m.peer.indirectProbeReachable cfg e transport node.id
  · obtain ⟨m', halike, heq⟩ := m.handleProbeFailure_of_refuted cfg e transport node h
    rw [if_pos h, heq, ← halike.peer]
    rfl
  · obtain ⟨m', halike, heq⟩ := m.handleProbeFailure_of_unrefuted cfg e transport node h
    rw [if_neg h, heq, escalate, ← halike.peer]
    by_cases hstate : node.state ≠ .alive
    · rw [if_pos hstate, if_pos hstate]
    · rw [if_neg hstate, if_neg hstate]
      rfl

theorem peer_evaluateLiveness (now : Time) :
    (m.evaluateLiveness sum64 cfg now e node).peer =
      m.peer.evaluateLiveness sum64 cfg now e node := by
  rw [evaluateLiveness, Peer.evaluateLiveness]
  dsimp only
  by_cases hdead : cfg.hbDeadAfter > 0 ∧ Time.sub now node.lastSeen > cfg.hbDeadAfter
  · rw [if_pos hdead, if_pos hdead]
  rw [if_neg hdead, if_neg hdead]
  -- the state after the timeout, with and without the counters
  obtain ⟨m', p', hm', hp', hpeer⟩ : ∃ (m' : Metered) (p' : Peer),
      m' = (if cfg.hbSuspectAfter > 0 ∧ Time.sub now node.lastSeen > cfg.hbSuspectAfter ∧
        node.state = .alive then m.suspect e.suspectAt node.id else m) ∧
      p' = (if cfg.hbSuspectAfter > 0 ∧ Time.sub now node.lastSeen > cfg.hbSuspectAfter ∧
        node.state = .alive then m.peer.mark e.suspectAt node.id .suspect else m.peer) ∧
      m'.peer = p' := by
    refine ⟨_, _, rfl, rfl, ?_⟩
    split
    · rfl
    · rfl
  rw [← hm', ← hp', ← hpeer, probe]
  cases e.transport with
  | none => rfl
  | some transport =>
      dsimp only
      cases transport.health node.id with
      | true => rfl
      | false => exact peer_handleProbeFailure cfg e transport node _

end

theorem peer_visit (cfg : HeartbeatConfig) (t : HeartbeatTick) (m : Metered) (node : Node) :
    (m.visit sum64 cfg t node).peer = m.peer.visit sum64 cfg t node := by
  rw [visit, Peer.visit]
  by_cases hlocal : node.id = m.peer.localNode.id
  · rw [if_pos hlocal, if_pos hlocal]
  · rw [if_neg hlocal, if_neg hlocal]
    exact peer_evaluateLiveness cfg _ node m t.now

theorem peer_foldl_visit (cfg : HeartbeatConfig) (t : HeartbeatTick) (nodes : List Node)
    (m : Metered) :
    (nodes.foldl (visit sum64 cfg t) m).peer = nodes.foldl (Peer.visit sum64 cfg t) m.peer :=
  (List.foldl_hom Metered.peer fun m node => (peer_visit cfg t m node).symm).symm

theorem peer_runHeartbeatTick (cfg : HeartbeatConfig) (m : Metered) (t : HeartbeatTick) :
    (m.runHeartbeatTick sum64 cfg t).peer = m.peer.runHeartbeatTick sum64 cfg t := by
  rw [runHeartbeatTick, Peer.runHeartbeatTick]
  cases t.hasTransport with
  | false => rfl
  | true => exact peer_foldl_visit cfg t _ m

/-! ## Counted and real suspicions -/

/-- By how much the counter is ahead of the records. -/
def gap (m : Metered) : Int := (m.metrics.nodesSuspect : Int) - m.suspicions

theorem Alike.gap_eq {m m' : Metered} (h : m.Alike m') : m'.gap = m.gap := by
  rw [gap, gap, h.suspicions, h.nodesSuspect]

theorem gap_mark (now : Time) (id : NodeID) (state : Node.State) (m : Metered) :
    (m.mark now id state).gap = m.gap -
      if becameSuspect (m.peer.record id) ((m.peer.mark now id state).record id) then 1 else 0 := by
  show (m.metrics.nodesSuspect : Int) - ((m.suspicions + if _ then 1 else 0 : Nat) : Int) = _
  rw [gap]
  cases becameSuspect (m.peer.record id) ((m.peer.mark now id state).record id) with
  | true =>
      simp only [if_true]
      omega
  | false =>
      simp only [Bool.false_eq_true, if_false]
      omega

theorem gap_mark_alive (now : Time) (id : NodeID) (m : Metered) :
    (m.mark now id .alive).gap = m.gap := by
  have hnot : becameSuspect (m.peer.record id) ((m.peer.mark now id .alive).record id) = false := by
    rw [becameSuspect, Peer.mark_record, if_pos rfl]
    cases m.peer.record id with
    | none => rfl
    | some n =>
        rw [Option.map_some, Node.marked]
        by_cases h : n.state = .alive
        · simp [h]
        · simp [h]
  rw [gap_mark, hnot]
  simp

/-- Counting a suspicion is right exactly when the record is alive. -/
theorem gap_suspect (now : Time) {id : NodeID} {m : Metered} {n : Node}
    (h : m.peer.record id = some n) :
    (m.suspect now id).gap = m.gap + if n.state = .alive then 0 else 1 := by
  have hmark : becameSuspect (m.peer.record id) ((m.peer.mark now id .suspect).record id) =
      decide (n.state = .alive) := by
    rw [becameSuspect, Peer.mark_record, if_pos rfl, h, Option.map_some, Node.marked]
    by_cases hstate : n.state = .alive
    · simp [hstate]
    · simp [hstate]
  have hcount : (m.suspect now id).gap = (m.mark now id .suspect).gap + 1 := by
    show ((m.metrics.nodesSuspect + 1 : Nat) : Int) - ((m.mark now id .suspect).suspicions : Int) =
      (m.metrics.nodesSuspect : Int) - ((m.mark now id .suspect).suspicions : Int) + 1
    omega
  rw [hcount, gap_mark, hmark]
  by_cases hstate : n.state = .alive
  · simp [hstate]
  · simp [hstate]

end Metered

namespace Peer

/-- The timeout and the failed probe both count the peer of the snapshot. -/
def countsTwice (cfg : HeartbeatConfig) (now : Time) (e : Evaluation) (node : Node) (p : Peer) :
    Bool :=
  !decide (cfg.hbDeadAfter > 0 ∧ Time.sub now node.lastSeen > cfg.hbDeadAfter) &&
    decide (cfg.hbSuspectAfter > 0 ∧ Time.sub now node.lastSeen > cfg.hbSuspectAfter ∧
      node.state = .alive) &&
    e.transport.any fun transport => !transport.health node.id &&
      !decide (cfg.indirectProbeK > 0 ∧
        (p.mark e.suspectAt node.id .suspect).indirectProbeReachable cfg e transport node.id)

end Peer

namespace Metered

/-- A failed probe counts an alive snapshot, whatever the record says by now. -/
theorem gap_handleProbeFailure (cfg : HeartbeatConfig) (e : Evaluation) (transport : Probes)
    (node : Node) {m : Metered} {n : Node} (h : m.peer.record node.id = some n) :
    (m.handleProbeFailure cfg e transport node).gap = m.gap +
      if ¬(cfg.indirectProbeK > 0 ∧ m.peer.indirectProbeReachable cfg e transport node.id) ∧
        node.state = .alive ∧ n.state ≠ .alive then 1 else 0 := by
  by_cases hrefuted : cfg.indirectProbeK > 0 ∧
      m.peer.indirectProbeReachable cfg e transport node.id
  · obtain ⟨m', halike, heq⟩ := m.handleProbeFailure_of_refuted cfg e transport node hrefuted
    rw [heq, gap_mark_alive, halike.gap_eq, if_neg (fun hc => hc.1 hrefuted), Int.add_zero]
  · obtain ⟨m', halike, heq⟩ := m.handleProbeFailure_of_unrefuted cfg e transport node hrefuted
    rw [heq, escalate]
    by_cases hstate : node.state = .alive
    · have hrecord : m'.peer.record node.id = some n := by rw [halike.peer, h]
      rw [if_neg (not_not.2 hstate), gap_suspect e.probedAt hrecord, halike.gap_eq]
      by_cases hn : n.state = .alive
      · simp [hn]
      · simp [hn, hstate, hrefuted]
    · rw [if_pos hstate, halike.gap_eq, if_neg (fun hc => hstate hc.2.1), Int.add_zero]

theorem gap_probe (cfg : HeartbeatConfig) (e : Evaluation) (node : Node) {m : Metered} {n : Node}
    (h : m.peer.record node.id = some n) :
    (m.probe cfg e node).gap = m.gap +
      if node.state = .alive ∧ n.state ≠ .alive ∧ e.transport.any (fun transport =>
        !transport.health node.id && !decide (cfg.indirectProbeK > 0 ∧
          m.peer.indirectProbeReachable cfg e transport node.id)) then 1 else 0 := by
  rw [probe]
  cases e.transport with
  | none => simp
  | some transport =>
      dsimp only
      cases hhealth : transport.health node.id with
      | true =>
          rw [if_pos rfl, gap_mark_alive]
          simp [gap, hhealth]
      | false =>
          rw [if_neg Bool.false_ne_true]
          refine (gap_handleProbeFailure cfg e transport node (m := { m with metrics :=
            { m.metrics with heartbeatFailure := m.metrics.heartbeatFailure + 1 } }) h).trans ?_
          show m.gap + _ = m.gap + _
          congr 1
          apply if_congr _ rfl rfl
          simp only [hhealth, Option.any_some, Bool.not_false, Bool.true_and, Bool.not_eq_true',
            decide_eq_false_iff_not]
          tauto

/-- Looking at a peer whose record is still that of the snapshot. -/
theorem gap_evaluateLiveness (cfg : HeartbeatConfig) (now : Time) (e : Evaluation) {node : Node}
    {m : Metered} (h : m.peer.record node.id = some node) :
    (m.evaluateLiveness sum64 cfg now e node).gap =
      m.gap + if m.peer.countsTwice cfg now e node then 1 else 0 := by
  by_cases hdead : cfg.hbDeadAfter > 0 ∧ Time.sub now node.lastSeen > cfg.hbDeadAfter
  · rw [evaluateLiveness, if_pos hdead, Peer.countsTwice, decide_eq_true hdead]
    cases hremoved : (m.peer.membership.remove sum64 e.runtime node.id).1 with
    | true => simp [gap]
    | false => simp [gap]
  · rw [evaluateLiveness, if_neg hdead, Peer.countsTwice, decide_eq_false hdead]
    by_cases htimeout : cfg.hbSuspectAfter > 0 ∧
        Time.sub now node.lastSeen > cfg.hbSuspectAfter ∧ node.state = .alive
    · have hrecord : (m.suspect e.suspectAt node.id).peer.record node.id =
          some (node.marked e.suspectAt .suspect) := by
        show (m.peer.mark e.suspectAt node.id .suspect).record node.id = _
        rw [Peer.mark_record, if_pos rfl, h]
        rfl
      have hstate : (node.marked e.suspectAt .suspect).state ≠ .alive := by
        simp [Node.marked, htimeout.2.2]
      have hprobe := gap_probe cfg e node hrecord
      rw [gap_suspect e.suspectAt h, if_pos htimeout.2.2, Int.add_zero] at hprobe
      simp only [if_pos htimeout, decide_eq_true htimeout]
      refine hprobe.trans ?_
      simp only [htimeout.2.2, hstate, ne_eq, not_false_iff, true_and, Bool.not_false,
        Bool.true_and]
      rfl
    · have hprobe := gap_probe cfg e node h
      rw [if_neg (fun hc => hc.2.1 hc.1)] at hprobe
      simp only [if_neg htimeout, decide_eq_false htimeout, Bool.and_false, Bool.false_and]
      exact hprobe

/-- The evaluations of a tick that count a peer once at most. -/
def CountsOnce (sum64 : List UInt8 → UInt64) (cfg : HeartbeatConfig) (p : Peer)
    (t : HeartbeatTick) : Prop :=
  t.hasTransport = true → Along (Peer.visit sum64 cfg t) (fun q node =>
    node.id ≠ q.localNode.id →
      q.countsTwice cfg t.now (t.evaluation node.id) node = false) p (p.sampled cfg t)

theorem gap_visit (cfg : HeartbeatConfig) (t : HeartbeatTick) {m : Metered} {node : Node}
    (h : m.peer.record node.id = some node) :
    m.gap ≤ (m.visit sum64 cfg t node).gap ∧
      ((m.visit sum64 cfg t node).gap = m.gap ↔ (node.id ≠ m.peer.localNode.id →
        m.peer.countsTwice cfg t.now (t.evaluation node.id) node = false)) := by
  rw [visit]
  by_cases hlocal : node.id = m.peer.localNode.id
  · rw [if_pos hlocal]
    exact ⟨Int.le_refl _, iff_of_true rfl (fun hne => absurd hlocal hne)⟩
  · rw [if_neg hlocal, gap_evaluateLiveness cfg t.now (t.evaluation node.id) h]
    cases m.peer.countsTwice cfg t.now (t.evaluation node.id) node with
    | true =>
        simp only [if_true]
        refine ⟨by omega, iff_of_false (by omega) (fun hc => ?_)⟩
        cases hc hlocal
    | false =>
        simp only [Bool.false_eq_true, if_false]
        exact ⟨by omega, iff_of_true (by omega) (fun _ => trivial)⟩

/-- The peers of a snapshot are looked at one by one, and each record is still that of the
snapshot when its turn comes. -/
theorem gap_foldl_visit (cfg : HeartbeatConfig) (t : HeartbeatTick) {nodes : List Node}
    (hnodup : (nodes.map Node.id).Nodup) {m : Metered}
    (hrecord : ∀ n ∈ nodes, m.peer.record n.id = some n) :
    m.gap ≤ (nodes.foldl (visit sum64 cfg t) m).gap ∧
      ((nodes.foldl (visit sum64 cfg t) m).gap = m.gap ↔
        Along (Peer.visit sum64 cfg t) (fun q node => node.id ≠ q.localNode.id →
          q.countsTwice cfg t.now (t.evaluation node.id) node = false) m.peer nodes) := by
  induction nodes generalizing m with
  | nil => exact ⟨Int.le_refl _, iff_of_true rfl trivial⟩
  | cons node rest ih =>
      rw [List.map_cons, List.nodup_cons] at hnodup
      obtain ⟨hle, hiff⟩ := @gap_visit sum64 cfg t _ _ (hrecord node List.mem_cons_self)
      have hrest : ∀ n ∈ rest, (m.visit sum64 cfg t node).peer.record n.id = some n := by
        intro n hn
        have hne : n.id ≠ node.id := by
          intro heq
          exact hnodup.1 (heq ▸ List.mem_map_of_mem hn)
        rw [peer_visit, Peer.visit_record_ne cfg t m.peer hne]
        exact hrecord n (List.mem_cons_of_mem node hn)
      obtain ⟨hle', hiff'⟩ := ih hnodup.2 hrest
      rw [List.foldl_cons, Along, ← hiff, ← peer_visit, ← hiff']
      omega

theorem gap_runHeartbeatTick (cfg : HeartbeatConfig) (m : Metered) (t : HeartbeatTick) :
    m.gap ≤ (m.runHeartbeatTick sum64 cfg t).gap ∧
      ((m.runHeartbeatTick sum64 cfg t).gap = m.gap ↔ CountsOnce sum64 cfg m.peer t) := by
  rw [runHeartbeatTick, CountsOnce]
  cases t.hasTransport with
  | false => exact ⟨Int.le_refl _, iff_of_true rfl (fun h => absurd h Bool.false_ne_true)⟩
  | true =>
      obtain ⟨hle, hiff⟩ := @gap_foldl_visit sum64 cfg t _ (Peer.nodup_sampled cfg t m.peer)
        _ (fun n hn => Peer.record_of_mem_sampled hn)
      exact ⟨hle, hiff.trans ⟨fun h _ => h, fun h => h rfl⟩⟩

end Metered

/-- In every run of ticks the counter grows by the number of records that go from alive to
suspect, exactly when no evaluation of the run has the timeout and an unrefuted failed probe
both count an alive peer. -/
theorem nodesSuspect_exact_iff (sum64 : List UInt8 → UInt64) (cfg : HeartbeatConfig) (m : Metered)
    (ticks : List HeartbeatTick) :
    let m' := ticks.foldl (Metered.runHeartbeatTick sum64 cfg) m
    m'.peer = ticks.foldl (fun p t => p.runHeartbeatTick sum64 cfg t) m.peer ∧
      ((m'.metrics.nodesSuspect : Int) - m.metrics.nodesSuspect =
          (m'.suspicions : Int) - m.suspicions ↔
        Along (fun p t => Peer.runHeartbeatTick sum64 cfg t p)
          (Metered.CountsOnce sum64 cfg) m.peer ticks) := by
  intro m'
  have hpeer : ∀ m t, (Metered.runHeartbeatTick sum64 cfg m t).peer =
      (fun p t => Peer.runHeartbeatTick sum64 cfg t p) m.peer t :=
    Metered.peer_runHeartbeatTick cfg
  refine ⟨?_, ?_⟩
  · exact (List.foldl_hom Metered.peer fun m t => (hpeer m t).symm).symm
  · rw [← along_map hpeer, ← (foldl_eq_iff_along (Metered.gap_runHeartbeatTick cfg) m ticks).2]
    show _ ↔ (m'.metrics.nodesSuspect : Int) - m'.suspicions =
      (m.metrics.nodesSuspect : Int) - m.suspicions
    omega

/-- At the tick at 6 the timeout of 5 has passed and the probe fails: one record becomes suspect
and two suspicions are counted. -/
theorem nodesSuspect_counts_twice :
    let m := (Metered.mk Peer.acquainted {} 0).runHeartbeatTick (fun _ => 0) Peer.deadAfterTen
      (Peer.unansweredTick 6)
    m.suspicions = 1 ∧ m.metrics.nodesSuspect = 2 := by
  decide

end HyperCache
