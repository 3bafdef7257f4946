/-
One node's rebalance ticks as the node sees them.

`World.runRebalanceTick` runs a tick against the other nodes of a cluster.  Here every
`ForwardSet` call may succeed or fail, the peers may send what the node has forwarded
back to it at any later call, and every tick has its own ring.  A history lists the calls,
and the replicas that a tick left out when it had reached its limit.
-/
import HyperCache.Rebalance

namespace HyperCache

open Keyed Pointwise

variable {V : Type}

/-- A `ForwardSet` call. -/
structure ForwardCall (V : Type) where
  dst : NodeID
  item : Item V
  replicate : Bool

/-- How the peers of a node answer during a tick: which calls succeed, and which items reach
the node by fan-out when it has made the calls so far.  A peer fans out only what it was
sent for replication. -/
structure Peers (V : Type) where
  succeeds : ForwardCall V → Bool
  fanBack : List (ForwardCall V) → List (Item V)
  fanBack_forwarded : ∀ calls, ∀ it ∈ fanBack calls,
    ∃ c ∈ calls, c.replicate = true ∧ c.item = it

/-- What a tick meets: the ring in effect, the clock, which the shedding step reads again,
the peers, and the orders of the scan, of the migrations and of the replica diff. -/
structure Tick (V : Type) where
  ring : Option Placement
  now : Time
  shedAt : Time
  peers : Peers V
  scan : VisitOrder (Item V)
  batches : VisitOrder (Item V)
  diff : VisitOrder (Item V)

def DistConfig.withRing (cfg : DistConfig) (ring : Option Placement) : DistConfig :=
  { cfg with ring }

namespace DistShard

def computeNewReplicas (prev owners : List NodeID) : List NodeID :=
  owners.tail.filter (fun o => !prev.contains o)

theorem lookup_insert_of_notMem {β : Type} {m : AList (fun _ : Key => β)} {k key : Key} {b b' : β}
    (hkey : key ∉ m) (h : m.lookup k = some b) : (m.insert key b').lookup k = some b := by
  have hne : k ≠ key := by
    rintro rfl
    exact hkey (AList.lookup_isSome.mp (by rw [h]; rfl))
  rw [AList.lookup_insert_ne hne, h]

theorem owners_recordOriginalPrimary {cfg : DistConfig} {key k : Key} {sh : DistShard V}
    {owners : List NodeID} (h : sh.originalOwners.lookup k = some owners) :
    (sh.recordOriginalPrimary cfg key).originalOwners.lookup k = some owners := by
  unfold recordOriginalPrimary
  split
  · exact h
  · split
    · exact h
    · split
      · exact h
      · dsimp only
        split
        · exact h
        case isFalse hkey => exact lookup_insert_of_notMem hkey h

theorem primary_recordOriginalPrimary {cfg : DistConfig} {key k : Key} {sh : DistShard V}
    {primary : NodeID} (h : sh.originalPrimary.lookup k = some primary) :
    (sh.recordOriginalPrimary cfg key).originalPrimary.lookup k = some primary := by
  unfold recordOriginalPrimary
  split
  · exact h
  · split
    · exact h
    case isFalse hkey =>
      split
      · exact h
      · exact lookup_insert_of_notMem hkey h

theorem owners_applyForwardedSet {cfg : DistConfig} {item : Item V} {k : Key} {sh : DistShard V}
    {owners : List NodeID} (h : sh.originalOwners.lookup k = some owners) :
    (sh.applyForwardedSet cfg item).originalOwners.lookup k = some owners := by
  unfold applyForwardedSet
  split
  · exact owners_recordOriginalPrimary h
  · exact h

theorem primary_applyForwardedSet {cfg : DistConfig} {item : Item V} {k : Key}
    {sh : DistShard V} {primary : NodeID} (h : sh.originalPrimary.lookup k = some primary) :
    (sh.applyForwardedSet cfg item).originalPrimary.lookup k = some primary := by
  unfold applyForwardedSet
  split
  · exact primary_recordOriginalPrimary h
  · exact h

def setOwnerBaseline (key : Key) (owners : List NodeID) (sh : DistShard V) : DistShard V :=
  { sh with originalOwners := sh.originalOwners.insert key owners }

theorem lookup_setOwnerBaseline (key : Key) (owners : List NodeID) (sh : DistShard V) (k : Key) :
    (sh.setOwnerBaseline key owners).originalOwners.lookup k =
      if k = key then some owners else sh.originalOwners.lookup k := by
  by_cases hk : k = key
  · rw [if_pos hk, hk]
    exact AList.lookup_insert _
  · rw [if_neg hk]
    exact AList.lookup_insert_ne hk

end DistShard

/-- A node with its past: the calls it made, those of them that succeeded, the new
replicas of a key that a tick did not get to, and the first owner baseline of each key. -/
structure History (V : Type) where
  node : NodeState V
  calls : List (ForwardCall V) := []
  delivered : List (ForwardCall V) := []
  cut : List (Key × NodeID) := []
  firstOwners : Key → Option (List NodeID) := fun _ => none

namespace History

def onShard (f : DistShard V → DistShard V) (h : History V) : History V :=
  { h with node := h.node.onShard f }

/-- What the peers fan out arrives as forwarded sets. -/
def receive (cfg : DistConfig) (items : List (Item V)) (st : NodeState V) : NodeState V :=
  items.foldl (fun st it => st.applyForwardedSet cfg it) st

def forwardSet (cfg : DistConfig) (peers : Peers V) (c : ForwardCall V) (h : History V) :
    History V × Bool :=
  let calls := h.calls ++ [c]
  ({ h with
      node := receive cfg (peers.fanBack calls) h.node
      calls
      delivered := if peers.succeeds c then h.delivered ++ [c] else h.delivered },
    peers.succeeds c)

section

variable [SizedValue V] (cfg : DistConfig) (now : Time) (peers : Peers V)

def handOver (primary : NodeID) (item : Item V) (h : History V) : History V :=
  match forwardSet cfg peers ⟨primary, item, true⟩ h with
  | (h, true) => h
  | (h, false) => { h with node := h.node.queueHint cfg now primary item .migration }

def migrateIfNeeded (h : History V) (item : Item V) : History V :=
  match cfg.lookupOwners item.key with
  | [] => h
  | primary :: _ =>
      if primary = cfg.localNode then h
      else if !cfg.hasTransport then h
      else (handOver cfg now peers primary item h).onShard
        (DistShard.release cfg now primary item.key)

end

section

variable (cfg : DistConfig) (now : Time) (peers : Peers V)

/-- The loop of `sendReplicaDiff`, with the number of sends so far. -/
def sendReplicaDiff (limit : Nat) (item : Item V) : List NodeID → History V × Nat → History V × Nat
  | [], acc => acc
  | rid :: rest, (h, processed) =>
      if rid = cfg.localNode then sendReplicaDiff limit item rest (h, processed)
      else
        let h := (forwardSet cfg peers ⟨rid, item, false⟩ h).1
        if limit > 0 ∧ processed + 1 ≥ limit then
          ({ h with cut := h.cut ++ rest.map (fun r => (item.key, r)) }, processed + 1)
        else sendReplicaDiff limit item rest (h, processed + 1)

/-- One round of the loop in `replDiffShard`. -/
def replDiffItem (limit : Nat) (acc : History V × Nat) (item : Item V) : History V × Nat :=
  if limit > 0 ∧ acc.2 ≥ limit then acc
  else
    match cfg.lookupOwners item.key with
    | [] => (acc.1.onShard (DistShard.maybeRecordRemoval cfg now item.key), acc.2)
    | primary :: replicas =>
        if primary ≠ cfg.localNode then
          (acc.1.onShard (DistShard.maybeRecordRemoval cfg now item.key), acc.2)
        else
          let baseline := DistShard.setOwnerBaseline item.key (primary :: replicas)
          match acc.1.node.shard.originalOwners.lookup item.key with
          | none => (acc.1.onShard baseline, acc.2)
          | some prev =>
              match DistShard.computeNewReplicas prev (primary :: replicas) with
              | [] => acc
              | newRepls =>
                  let (h, processed) := sendReplicaDiff cfg peers limit item newRepls acc
                  (h.onShard baseline, processed)

def replicateNewReplicas (order : VisitOrder (Item V)) (h : History V) : History V :=
  if cfg.ring.isNone || !cfg.hasTransport then h
  else
    ((order.arrange h.node.shard.items.all).foldl
      (replDiffItem cfg now peers cfg.replicaDiffMaxPerTick) (h, 0)).1

end

section

variable (cfg : DistConfig) (t : Tick V)

/-- The node after the scan, and the candidates in the order the scan found them. -/
def collected (h : History V) : History V × List (Item V) :=
  let found := h.node.shard.collectOver (cfg.withRing t.ring) t.now
    (t.scan.arrange h.node.shard.items.all)
  (h.onShard (fun _ => found.1), found.2)

variable [SizedValue V]

/-- The node after the scan and the migrations. -/
def migrated (h : History V) : History V :=
  (t.batches.arrange (collected cfg t h).2).foldl
    (migrateIfNeeded (cfg.withRing t.ring) t.now t.peers) (collected cfg t h).1

/-- A tick up to the shedding step. -/
def beforeShed (h : History V) : History V :=
  replicateNewReplicas (cfg.withRing t.ring) t.now t.peers t.diff (migrated cfg t h)

def runRebalanceTick (h : History V) : History V :=
  (beforeShed cfg t h).onShard (DistShard.shedRemovedKeys (cfg.withRing t.ring) t.shedAt)

end

/-! ## What a tick can do

A tick up to the shedding step is a sequence of the moves below.  What every move keeps
holds after it. -/

/-- The replica diff has sent an item of this key to the peer. -/
def Sent (key : Key) (r : NodeID) (h : History V) : Prop :=
  ∃ c ∈ h.calls, c.dst = r ∧ c.item.key = key ∧ c.replicate = false

/-- The peer was sent the item of the key, or the limit left it out. -/
def Reached (key : Key) (r : NodeID) (h : History V) : Prop := h.Sent key r ∨ (key, r) ∈ h.cut

/-- The moves of the replica diff.  A baseline that replaces another one adds only
replicas that were sent the item, or that the limit left out. -/
inductive DiffMove (cfg : DistConfig) (now : Time) (peers : Peers V) :
    History V → History V → Prop where
  | record {h : History V} {key : Key} (hlost : cfg.ownsKeyInternal key = false) :
      DiffMove cfg now peers h (h.onShard (DistShard.recordRemoval now key))
  | send {h : History V} {item : Item V} (dst : NodeID)
      (hhead : (cfg.lookupOwners item.key).head? = some cfg.localNode) :
      DiffMove cfg now peers h (h.forwardSet cfg peers ⟨dst, item, false⟩).1
  | leaveOut {h : History V} (left : List (Key × NodeID)) :
      DiffMove cfg now peers h { h with cut := h.cut ++ left }
  | baseline {h : History V} {key : Key}
      (hhead : (cfg.lookupOwners key).head? = some cfg.localNode)
      (hcovered : ∀ prev ∈ h.node.shard.originalOwners.lookup key, ∀ r ∈ cfg.lookupOwners key,
        r = cfg.localNode ∨ r ∈ prev ∨ h.Reached key r) :
      DiffMove cfg now peers h
        (h.onShard (DistShard.setOwnerBaseline key (cfg.lookupOwners key)))

inductive Move (cfg : DistConfig) (now : Time) (peers : Peers V) :
    History V → History V → Prop where
  | diff {h h' : History V} (hdiff : DiffMove cfg now peers h h') : Move cfg now peers h h'
  | forward {h : History V} {item : Item V} {primary : NodeID}
      (hhead : (cfg.lookupOwners item.key).head? = some primary)
      (hne : primary ≠ cfg.localNode) :
      Move cfg now peers h (h.forwardSet cfg peers ⟨primary, item, true⟩).1
  | hint {h : History V} (hs : HintStore V) :
      Move cfg now peers h { h with node := { h.node with hints := hs } }
  | release {h : History V} {key : Key} {primary : NodeID}
      (hhead : (cfg.lookupOwners key).head? = some primary) (hne : primary ≠ cfg.localNode) :
      Move cfg now peers h (h.onShard (DistShard.release cfg now primary key))

open Relation

theorem receive_inv {P : NodeState V → Prop} {cfg : DistConfig} {items : List (Item V)}
    (hitem : ∀ st, ∀ it ∈ items, P st → P (st.applyForwardedSet cfg it)) {st : NodeState V}
    (hst : P st) : P (receive cfg items st) := by
  induction items generalizing st with
  | nil => exact hst
  | cons it rest ih =>
      refine ih (fun st it' hit' => hitem st it' (List.mem_cons_of_mem _ hit')) ?_
      exact hitem st it List.mem_cons_self hst

section

variable {cfg : DistConfig} {now : Time} {peers : Peers V}

theorem owners_forwardSet {key : Key} {prev : List NodeID} (c : ForwardCall V) {h : History V}
    (hprev : h.node.shard.originalOwners.lookup key = some prev) :
    (h.forwardSet cfg peers c).1.node.shard.originalOwners.lookup key = some prev :=
  receive_inv (P := fun st => st.shard.originalOwners.lookup key = some prev)
    (fun st it _ hst => by
      rw [NodeState.applyForwardedSet_shard]
      exact DistShard.owners_applyForwardedSet hst) hprev

theorem sent_forwardSet (dst : NodeID) (item : Item V) (h : History V) :
    (h.forwardSet cfg peers ⟨dst, item, false⟩).1.Sent item.key dst :=
  ⟨_, List.mem_append_right _ (List.mem_singleton.mpr rfl), rfl, rfl, rfl⟩

theorem sent_forwardSet_of_sent (c : ForwardCall V) {h : History V} {key : Key} {r : NodeID}
    (hsent : h.Sent key r) : (h.forwardSet cfg peers c).1.Sent key r := by
  obtain ⟨c', hc', hcall⟩ := hsent
  exact ⟨c', List.mem_append_left _ hc', hcall⟩

/-- The sends for one key keep what was reached before and the key's baseline, and
reach every listed peer. -/
theorem sendReplicaDiff_spec (now : Time) (peers : Peers V) (limit : Nat) {item : Item V}
    (hhead : (cfg.lookupOwners item.key).head? = some cfg.localNode) (rids : List NodeID)
    (h : History V) (processed : Nat) :
    let r := (sendReplicaDiff cfg peers limit item rids (h, processed)).1
    ReflTransGen (DiffMove cfg now peers) h r ∧
      (∀ prev ∈ h.node.shard.originalOwners.lookup item.key,
        r.node.shard.originalOwners.lookup item.key = some prev) ∧
      (∀ key rid, h.Reached key rid → r.Reached key rid) ∧
      ∀ rid ∈ rids, rid = cfg.localNode ∨ r.Reached item.key rid := by
  induction rids generalizing h processed with
  | nil =>
      exact ⟨.refl, fun _ hprev => hprev, fun _ _ hreached => hreached,
        fun _ hrid => absurd hrid List.not_mem_nil⟩
  | cons rid rest ih =>
      rw [sendReplicaDiff]
      split
      case isTrue hself =>
        obtain ⟨hmoves, howners, hkeeps, hreached⟩ := ih h processed
        exact ⟨hmoves, howners, hkeeps, List.forall_mem_cons.mpr ⟨Or.inl hself, hreached⟩⟩
      case isFalse =>
        have hmove : DiffMove cfg now peers h (h.forwardSet cfg peers ⟨rid, item, false⟩).1 :=
          .send rid hhead
        have hsent : (h.forwardSet cfg peers ⟨rid, item, false⟩).1.Sent item.key rid :=
          sent_forwardSet rid item h
        have hkept : ∀ key r, h.Reached key r →
            (h.forwardSet cfg peers ⟨rid, item, false⟩).1.Reached key r :=
          fun key r => Or.imp_left (sent_forwardSet_of_sent _)
        have howns : ∀ prev ∈ h.node.shard.originalOwners.lookup item.key,
            (h.forwardSet cfg peers ⟨rid, item, false⟩).1.node.shard.originalOwners.lookup
              item.key = some prev := fun prev hprev => owners_forwardSet _ hprev
        dsimp only
        split
        · refine ⟨(ReflTransGen.single hmove).tail (.leaveOut _), howns, ?_, ?_⟩
          · exact fun key r hr => (hkept key r hr).imp_right (List.mem_append_left _)
          · refine List.forall_mem_cons.mpr ⟨Or.inr (Or.inl hsent), fun r hr => ?_⟩
            exact Or.inr (Or.inr (List.mem_append_right _ (List.mem_map_of_mem hr)))
        · obtain ⟨hmoves, howners, hkeeps, hreached⟩ :=
            ih (h.forwardSet cfg peers ⟨rid, item, false⟩).1 (processed + 1)
          refine ⟨.head hmove hmoves, fun prev hprev => howners prev (howns prev hprev),
            fun key r hr => hkeeps key r (hkept key r hr), ?_⟩
          exact List.forall_mem_cons.mpr ⟨Or.inr (hkeeps _ _ (Or.inl hsent)), hreached⟩

theorem maybeRecordRemoval_moves (key : Key) (h : History V) :
    ReflTransGen (DiffMove cfg now peers) h
      (h.onShard (DistShard.maybeRecordRemoval cfg now key)) := by
  unfold onShard NodeState.onShard DistShard.maybeRecordRemoval
  split
  · exact .refl
  · cases howns : cfg.ownsKeyInternal key with
    | true => exact .refl
    | false => exact .single (.record howns)

theorem replDiffItem_moves (limit : Nat) (acc : History V × Nat) (item : Item V) :
    ReflTransGen (DiffMove cfg now peers) acc.1 (replDiffItem cfg now peers limit acc item).1 := by
  unfold replDiffItem
  split
  · exact .refl
  · cases howners : cfg.lookupOwners item.key with
    | nil => exact maybeRecordRemoval_moves item.key acc.1
    | cons primary replicas =>
        dsimp only
        split
        · exact maybeRecordRemoval_moves item.key acc.1
        case isFalse hself =>
          have hprimary : primary = cfg.localNode := not_not.mp hself
          have hhead : (cfg.lookupOwners item.key).head? = some cfg.localNode := by
            rw [howners, hprimary]
            rfl
          rw [← howners]
          cases hprev : acc.1.node.shard.originalOwners.lookup item.key with
          | none =>
              refine .single (.baseline hhead (fun prev hmem => ?_))
              rw [hprev] at hmem
              cases hmem
          | some prev =>
              dsimp only
              split
              · exact .refl
              · obtain ⟨hmoves, hkept, -, hreached⟩ := sendReplicaDiff_spec now peers limit
                  hhead (DistShard.computeNewReplicas prev (cfg.lookupOwners item.key)) acc.1 acc.2
                refine hmoves.tail (.baseline hhead (fun prev' hprev' r hr => ?_))
                have hsame : prev' = prev := by
                  rw [hkept prev hprev] at hprev'
                  exact (Option.some.inj hprev').symm
                rw [hsame]
                by_cases hold : r ∈ prev
                · exact Or.inr (Or.inl hold)
                · rw [howners] at hr
                  rcases List.mem_cons.mp hr with hr | hr
                  · exact Or.inl (hr.trans hprimary)
                  · have hnew : r ∈ DistShard.computeNewReplicas prev
                        (cfg.lookupOwners item.key) := by
                      rw [howners]
                      simp [DistShard.computeNewReplicas, hr, hold]
                    exact (hreached r hnew).imp_right Or.inr

theorem replicateNewReplicas_moves (cfg : DistConfig) (now : Time) (peers : Peers V)
    (order : VisitOrder (Item V)) (h : History V) :
    ReflTransGen (DiffMove cfg now peers) h (h.replicateNewReplicas cfg now peers order) := by
  have hfold : ∀ (items : List (Item V)) (acc : History V × Nat),
      ReflTransGen (DiffMove cfg now peers) acc.1
        (items.foldl (replDiffItem cfg now peers cfg.replicaDiffMaxPerTick) acc).1 := by
    intro items
    induction items with
    | nil => exact fun _ => .refl
    | cons item rest ih => exact fun acc => (replDiffItem_moves _ acc item).trans (ih _)
  unfold replicateNewReplicas
  split
  · exact .refl
  · exact hfold _ (h, 0)

theorem shouldRebalance_moves (it : Item V) (h : History V) :
    ReflTransGen (Move cfg now peers) h
      (h.onShard (fun sh => (sh.shouldRebalance cfg now it).1)) := by
  unfold onShard NodeState.onShard DistShard.shouldRebalance
  dsimp only
  split
  case isTrue hlost =>
    rw [Bool.and_eq_true, Bool.not_eq_true'] at hlost
    exact .single (.diff (.record hlost.1))
  case isFalse => exact .refl

variable [SizedValue V]

theorem migrateIfNeeded_moves (h : History V) (item : Item V) :
    ReflTransGen (Move cfg now peers) h (h.migrateIfNeeded cfg now peers item) := by
  unfold migrateIfNeeded
  cases howners : cfg.lookupOwners item.key with
  | nil => exact .refl
  | cons primary rest =>
      have hhead : (cfg.lookupOwners item.key).head? = some primary := by rw [howners]; rfl
      dsimp only
      split
      · exact .refl
      case isFalse hne =>
        split
        · exact .refl
        · refine ReflTransGen.tail ?_ (.release hhead hne)
          have hforward : Move cfg now peers h
              (h.forwardSet cfg peers ⟨primary, item, true⟩).1 := .forward hhead hne
          unfold handOver
          revert hforward
          rcases h.forwardSet cfg peers ⟨primary, item, true⟩ with ⟨h', ok⟩
          intro hforward
          cases ok with
          | true => exact .single hforward
          | false => exact (ReflTransGen.single hforward).tail (.hint _)

end

section

variable (cfg : DistConfig) (t : Tick V)

theorem foldl_collectItem_moves (items : List (Item V)) (acc : DistShard V × List (Item V))
    (h : History V) :
    ReflTransGen (Move (cfg.withRing t.ring) t.now t.peers) (h.onShard (fun _ => acc.1))
      (h.onShard (fun _ =>
        (items.foldl (DistShard.collectItem (cfg.withRing t.ring) t.now) acc).1)) := by
  induction items generalizing acc with
  | nil => exact .refl
  | cons it rest ih =>
      refine (shouldRebalance_moves it _).trans ?_
      have hrest := ih (DistShard.collectItem (cfg.withRing t.ring) t.now acc it)
      rw [DistShard.collectItem_fst] at hrest
      exact hrest

theorem collected_moves (h : History V) :
    ReflTransGen (Move (cfg.withRing t.ring) t.now t.peers) h (h.collected cfg t).1 :=
  foldl_collectItem_moves cfg t _ (h.node.shard, []) h

variable [SizedValue V]

theorem migrated_moves (h : History V) :
    ReflTransGen (Move (cfg.withRing t.ring) t.now t.peers) h (h.migrated cfg t) := by
  have hfold : ∀ (items : List (Item V)) (h : History V),
      ReflTransGen (Move (cfg.withRing t.ring) t.now t.peers) h
        (items.foldl (migrateIfNeeded (cfg.withRing t.ring) t.now t.peers) h) := by
    intro items
    induction items with
    | nil => exact fun _ => .refl
    | cons item rest ih => exact fun h => (migrateIfNeeded_moves h item).trans (ih _)
  exact (collected_moves cfg t h).trans (hfold _ _)

theorem beforeShed_moves (h : History V) :
    ReflTransGen (Move (cfg.withRing t.ring) t.now t.peers) h (h.beforeShed cfg t) :=
  (migrated_moves cfg t h).trans
    (ReflTransGen.mono (fun _ _ => Move.diff) _ _ (replicateNewReplicas_moves _ _ _ t.diff _))

end

end History

end HyperCache
