/-
The operations of a node over the transport it is given.

`World` has these operations on the in-process transport.  Here they take any
`DistTransport`.  `InProcess` says of a transport that it answers as the calls of
`World` do, and then the operations are those of `World`.  In a cluster whose nodes
hold the bare in-process transport every node has such a transport.

`Set`, `Get` and `Remove` use the methods of the interface only.  `SyncWith` and
the gossip tick also look at the concrete type in the slot.
-/
import HyperCache.Transport

namespace HyperCache

open Pointwise Chunks

variable {V : Type}

namespace Deployment

variable (D : Deployment V)

/-! ## `Set` -/

section

variable (t : DistTransport V)

def handleForwardPrimary (n primary : NodeID) (replicas : List NodeID) (item : Item V)
    (s : Running V) : Running V × Except CallErr Bool :=
  if !(D.cluster.cfg n).hasTransport then (s, .error (.node .notOwner))
  else
    match t.forwardSet primary item true s with
    | (s, .ok _) => (s, .ok false)
    | (s, .error e) =>
        if replicas.any (fun oid => oid == n && (D.cluster.cfg n).ownsKeyInternal item.key) then
          (s, .ok true)
        else (s, .error e)

variable [SizedValue V]

def replicateTo (n : NodeID) (item : Item V) : List NodeID → Running V → Running V × Nat
  | [], s => (s, 0)
  | oid :: rest, s =>
      if !(D.cluster.cfg n).hasTransport then (s, 0)
      else if oid = n then replicateTo n item rest s
      else
        match t.forwardSet oid item false s with
        | (s, .ok _) =>
            let (s, acks) := replicateTo n item rest s
            (s, acks + 1)
        | (s, .error _) =>
            replicateTo n item rest (s.modify n
              (NodeState.queueHint (D.cluster.cfg n) D.net.now oid item .replication))

/-- The primary path of `setImpl`. -/
def writeAsPrimary (n : NodeID) (item : Item V) (owners replicas : List NodeID)
    (s : Running V) : Running V × Option CallErr :=
  let item := World.stamped D.net n item s.nodes
  let s := s.modify n (fun st => { st with versionCounter := st.versionCounter + 1 })
  let s := D.applySet t n item false s
  let (s, replicaAcks) := D.replicateTo t n item replicas s
  if 1 + replicaAcks < requiredAcks owners.length (D.cluster.cfg n).writeConsistency then
    (s, some (.node .quorumFailed))
  else (s, none)

def setImpl (n : NodeID) (item : Item V) (s : Running V) : Running V × Option CallErr :=
  if (s.nodes n).draining then (s, some (.node .draining))
  else
    match (D.cluster.cfg n).lookupOwners item.key with
    | [] => (s, some (.node .notOwner))
    | primary :: replicas =>
        if primary = n then D.writeAsPrimary t n item (primary :: replicas) replicas s
        else
          match D.handleForwardPrimary t n primary replicas item s with
          | (s, .error e) => (s, some e)
          | (s, .ok false) => (s, none)
          | (s, .ok true) =>
              D.writeAsPrimary t n item (primary :: replicas) (primary :: replicas) s

/-- `DistMemory.Set`. -/
def set (n : NodeID) (item : Item V) (s : Running V) : Running V × Option CallErr :=
  match item.valid with
  | some e => (s, some (.node e))
  | none => D.setImpl t n item s

end

section

variable (t : DistTransport V)

/-! ## `Remove` -/

def forwardOrPromoteRemove (n primary : NodeID) (replicas : List NodeID) (key : Key)
    (s : Running V) : Running V × Option CallErr :=
  match t.forwardRemove primary key true s with
  | (s, .ok _) => (s, none)
  | (s, .error e) =>
      if replicas.any (fun oid => oid == n && (D.cluster.cfg n).ownsKeyInternal key) then
        (D.applyRemove t n key true s, none)
      else (s, some e)

def removeKey (n : NodeID) (key : Key) (s : Running V) : Running V × Option CallErr :=
  match (D.cluster.cfg n).lookupOwners key with
  | [] => (s, none)
  | primary :: replicas =>
      if primary = n then (D.applyRemove t n key true s, none)
      else if !(D.cluster.cfg n).hasTransport then (s, some (.node .notOwner))
      else D.forwardOrPromoteRemove t n primary replicas key s

def removeKeys (n : NodeID) : List Key → Running V → Running V × Option CallErr
  | [], s => (s, none)
  | key :: rest, s =>
      match D.removeKey t n key s with
      | (s, some e) => (s, some e)
      | (s, none) => removeKeys n rest s

/-- `DistMemory.Remove`. -/
def remove (n : NodeID) (keys : List Key) (s : Running V) : Running V × Option CallErr :=
  if (s.nodes n).draining then (s, some (.node .draining)) else D.removeKeys t n keys s

/-! ## `Get` -/

def tryRemoteGet (n : NodeID) (key : Key) (oid : NodeID) (s : Running V) :
    Running V × Option (Item V) :=
  if oid = n ∨ (D.cluster.cfg n).hasTransport = false then (s, none)
  else
    match t.forwardGet oid key s with
    | (s, .error _) => (s, none)
    | (s, .ok none) => (s, none)
    | (s, .ok (some it)) =>
        (s.modify n (fun st =>
          { st with shard := st.shard.repairMissing (D.cluster.cfg n) key it }), some it)

def getOne (n : NodeID) (key : Key) : List NodeID → Running V → Running V × Option (Item V)
  | [], s => (s, none)
  | oid :: rest, s =>
      match World.tryLocalGet n key oid s.nodes with
      | some it => (s, some it)
      | none =>
          match D.tryRemoteGet t n key oid s with
          | (s, some it) => (s, some it)
          | (s, none) => getOne n key rest s

def fetchOwner (n : NodeID) (key : Key) (oid : NodeID) (s : Running V) :
    Running V × Option (Item V) :=
  if oid = n then (s, (s.nodes n).shard.items.get key)
  else if !(D.cluster.cfg n).hasTransport then (s, none)
  else
    match t.forwardGet oid key s with
    | (s, .error _) => (s, none)
    | (s, .ok reply) => (s, reply)

def collectQuorum (n : NodeID) (key : Key) (needed : Nat) :
    List NodeID → Tally V → Running V → Running V × Tally V
  | [], tally, s => (s, tally)
  | oid :: rest, tally, s =>
      match D.fetchOwner t n key oid s with
      | (s, none) => collectQuorum n key needed rest tally s
      | (s, some it) =>
          let tally := tally.add oid it
          if tally.acks ≥ needed && tally.chosen.isSome then (s, tally)
          else collectQuorum n key needed rest tally s

/-- The goroutines of a parallel read, which asks every owner. -/
def fetchAll (n : NodeID) (key : Key) :
    List NodeID → Running V → Running V × List (NodeID × Option (Item V))
  | [], s => (s, [])
  | oid :: rest, s =>
      let (s, reply) := D.fetchOwner t n key oid s
      let (s, replies) := fetchAll n key rest s
      (s, (oid, reply) :: replies)

/-- The receiving loop of a parallel read, over the owners in the order of their replies. -/
def collectReplies (needed : Nat) (replies : List (NodeID × Option (Item V))) :
    List NodeID → Tally V → Tally V
  | [], tally => tally
  | oid :: rest, tally =>
      match (replies.lookup oid).join with
      | none => collectReplies needed replies rest tally
      | some it =>
          let tally := tally.add oid it
          if tally.acks ≥ needed && tally.chosen.isSome then tally
          else collectReplies needed replies rest tally

def repairRemoteReplica (n : NodeID) (chosen : Item V) (oid : NodeID) (s : Running V) :
    Running V :=
  if !(D.cluster.cfg n).hasTransport then s
  else
    match (D.cluster.cfg n).repairBatch with
    | some _ => s.modify n (NodeState.enqueueRepair oid chosen)
    | none => (t.forwardSet oid chosen false s).1

def repairStaleOwners (n : NodeID) (chosen : Item V) (stale : List NodeID) (s : Running V) :
    Running V :=
  if !(D.cluster.cfg n).hasTransport then s
  else
    stale.foldl
      (fun s oid => if oid = n then s else D.repairRemoteReplica t n chosen oid s) s

def repairReplicas (n : NodeID) (key : Key) (chosen : Item V) (owners : List NodeID)
    (s : Running V) : Running V :=
  owners.foldl
    (fun s oid =>
      if oid = n then
        s.modify n (fun st =>
          { st with shard := st.shard.repairLocalReplica (D.cluster.cfg n) key chosen })
      else D.repairRemoteReplica t n chosen oid s) s

/-- The end of a quorum read, with what it has collected. -/
def finishRead (n : NodeID) (key : Key) (owners : List NodeID) (needed : Nat)
    (tally : Tally V) (s : Running V) : Running V × Option (Item V) :=
  match tally.chosen with
  | none => (s, none)
  | some chosen =>
      if tally.acks < needed then (s, none)
      else
        (D.repairReplicas t n key chosen owners
          (D.repairStaleOwners t n chosen tally.stale s), some chosen)

def getWithConsistency (n : NodeID) (key : Key) (owners : List NodeID) (s : Running V) :
    Running V × Option (Item V) :=
  let needed := requiredAcks owners.length (D.cluster.cfg n).readConsistency
  let (s, tally) := D.collectQuorum t n key needed owners {} s
  D.finishRead t n key owners needed tally s

def getWithConsistencyParallel (n : NodeID) (key : Key) (owners : List NodeID)
    (s : Running V) : Running V × Option (Item V) :=
  let needed := requiredAcks owners.length (D.cluster.cfg n).readConsistency
  let (s, replies) := D.fetchAll t n key owners s
  D.finishRead t n key owners needed
    (collectReplies needed replies (D.net.arrival owners) {}) s

/-- `DistMemory.Get`. -/
def get (n : NodeID) (key : Key) (s : Running V) : Running V × Option (Item V) :=
  let consistent (s : Running V) : Running V × Option (Item V) :=
    match (D.cluster.cfg n).lookupOwners key with
    | [] => (s, none)
    | owners =>
        if (D.cluster.cfg n).readConsistency = .one then D.getOne t n key owners s
        else if (D.cluster.cfg n).parallelReads then
          D.getWithConsistencyParallel t n key owners s
        else D.getWithConsistency t n key owners s
  if (D.cluster.cfg n).readConsistency = .one then
    match (s.nodes n).shard.items.get key with
    | some it => (s, some it)
    | none => consistent s
  else consistent s

/-! ## `SyncWith` -/

def fetchAndAdopt (n peer : NodeID) (key : Key) (s : Running V) : Running V :=
  if !(D.cluster.cfg n).hasTransport then s
  else
    match t.forwardGet peer key s with
    | (s, .error _) => s
    | (s, .ok reply) =>
        s.modify n (fun st =>
          { st with shard := st.shard.adopt (D.cluster.cfg n) D.net.now key reply })

def applyMerkleDiffs (n peer : NodeID) (entries : List MerkleKV) (diffs : List Nat)
    (chunkSize : Nat) (s : Running V) : Running V :=
  diffs.foldl
    (fun s ci =>
      if ci * chunkSize ≥ entries.length then s
      else (chunk chunkSize ci entries).foldl (fun s e => D.fetchAndAdopt t n peer e.k s) s) s

/-- `enumerateRemoteOnlyKeys`, which only works on a bare in-process transport. -/
def enumerateRemoteOnlyKeys (slot : Stored) (peer : NodeID) (entries : List MerkleKV)
    (s : Running V) : List Key :=
  match slot with
  | .bare .inProcess =>
      if D.net.up peer then World.enumerateRemoteOnlyKeys (s.nodes peer).shard entries else []
  | _ => []

/-- The keys of a listing that the listing node may fetch. -/
def capped (n : NodeID) (keys : List Key) : List Key :=
  if D.listKeysMax n > 0 ∧ keys.length > D.listKeysMax n then keys.take (D.listKeysMax n)
  else keys

/-- `resolveMissingKeys`, whose fallback only works on a bare HTTP transport. -/
def resolveMissingKeys (slot : Stored) (n peer : NodeID) (entries : List MerkleKV)
    (s : Running V) : Running V × List Key :=
  match D.enumerateRemoteOnlyKeys slot peer entries s with
  | key :: rest => (s, key :: rest)
  | [] =>
      match slot with
      | .bare .http =>
          match t.listKeys peer [] s with
          | (s, .error _) => (s, [])
          | (s, .ok keys) =>
              (s, (D.capped n keys).dedup.filter
                (fun k => !(entries.map (·.k)).contains k))
      | _ => (s, [])

/-- `syncWithStatus` of the node whose transport slot holds `slot`, a transport with the
methods `t`. -/
def syncWithStatus (slot : Stored) (n peer : NodeID) (s : Running V) :
    Running V × Except CallErr Bool :=
  if !(D.cluster.cfg n).hasTransport then (s, .error (.node .noTransport))
  else
    match t.fetchMerkle peer s with
    | (s, .error e) => (s, .error e)
    | (s, .ok remoteTree) =>
        let sh := (s.nodes n).shard
        let localTree := sh.buildMerkleTree D.sum256 (D.cluster.cfg n) D.order.localTree
        let entries := D.order.entries.sort sh.merkleEntries
        let diffs := localTree.diffLeafRanges remoteTree
        let (s, missing) := D.resolveMissingKeys t slot n peer entries s
        let s := D.applyMerkleDiffs t n peer entries diffs localTree.chunkSize s
        let s := missing.foldl (fun s k => D.fetchAndAdopt t n peer k s) s
        (s, .ok (diffs.isEmpty && missing.isEmpty))

def syncWith (slot : Stored) (n peer : NodeID) (s : Running V) :
    Running V × Option CallErr :=
  match D.syncWithStatus t slot n peer s with
  | (s, .ok _) => (s, none)
  | (s, .error e) => (s, some e)

/-! ## Gossip -/

/-- `runGossipTick` when the random choice falls on the candidate number `pick`. -/
def runGossipTick (slot : Stored) (n : NodeID) (pick : Nat) (s : Running V) : Running V :=
  if !(D.cluster.cfg n).hasTransport then s
  else
    let snapshot := (s.peers n).membership.list
    match (snapshot.filter (fun m => m.id ≠ n))[pick]? with
    | none => s
    | some target =>
        match slot with
        | .bare .inProcess =>
            if D.net.up target.id then D.acceptGossip target.id snapshot s else s
        | _ => (t.gossip target.id (nodesToGossipMembers snapshot) s).1

end

/-! ## The in-process case -/

end Deployment

namespace World

variable (C : Cluster) (net : Net)

theorem forwardSet_false (dst : NodeID) (item : Item V) (w : World V) :
    forwardSet C net dst item false w = forwardReplica C net dst item w := by
  unfold forwardSet forwardReplica applyForwardedSet applySet NodeState.applyForwardedSet
  split
  · split
    · rfl
    · rw [modify_id]
  · rfl

theorem forwardRemove_false (dst : NodeID) (key : Key) (w : World V) :
    forwardRemove C net dst key false w = forwardRemoveReplica C net dst key w := rfl

end World

namespace Deployment

variable (D : Deployment V)

def answer : Option Err → Except CallErr Unit
  | none => .ok ()
  | some e => .error (.node e)

def onNodes {α β : Type} (s : Running V) (f : α → β) (r : World V × α) : Running V × β :=
  ({ s with nodes := r.1 }, f r.2)

/-- Calls without replication answer as those of `World` do. -/
structure Replicates (t : DistTransport V) : Prop where
  forwardSet : ∀ dst item s, t.forwardSet dst item false s =
    onNodes s answer (World.forwardReplica D.cluster D.net dst item s.nodes)
  forwardRemove : ∀ dst key s, t.forwardRemove dst key false s =
    onNodes s answer (World.forwardRemoveReplica D.cluster D.net dst key s.nodes)

/-- The transport answers as the calls of `World` do. -/
structure InProcess (t : DistTransport V) : Prop where
  forwardSet : ∀ dst item replicate s, t.forwardSet dst item replicate s =
    onNodes s answer (World.forwardSet D.cluster D.net dst item replicate s.nodes)
  forwardGet : ∀ dst key s, t.forwardGet dst key s =
    (s, (World.forwardGet D.net dst key s.nodes).mapError .node)
  forwardRemove : ∀ dst key replicate s, t.forwardRemove dst key replicate s =
    onNodes s answer (World.forwardRemove D.cluster D.net dst key replicate s.nodes)
  fetchMerkle : ∀ dst s, t.fetchMerkle dst s =
    if D.net.up dst then (s, .ok (D.merkleTree dst s))
    else (s, .error (.node .backendNotFound))

section

variable {D} {t : DistTransport V}

/-- A loop whose rounds change only the nodes. -/
theorem foldl_nodes {α : Type} {f : Running V → α → Running V} {g : World V → α → World V}
    (h : ∀ s a, f s a = { s with nodes := g s.nodes a }) (l : List α) (s : Running V) :
    l.foldl f s = { s with nodes := l.foldl g s.nodes } := by
  induction l generalizing s with
  | nil => rfl
  | cons a rest ih => rw [List.foldl_cons, List.foldl_cons, ih, h]

theorem InProcess.replicates (h : D.InProcess t) : D.Replicates t := by
  constructor
  · intro dst item s
    rw [h.forwardSet, World.forwardSet_false]
  · intro dst key s
    rw [h.forwardRemove, World.forwardRemove_false]

theorem Replicates.applySet (h : D.Replicates t) (n : NodeID) (item : Item V)
    (replicate : Bool) (s : Running V) :
    D.applySet t n item replicate s =
      { s with nodes := World.applySet D.cluster D.net n item replicate s.nodes } := by
  unfold Deployment.applySet World.applySet
  cases replicate with
  | false => rfl
  | true =>
      cases (D.cluster.cfg n).ring with
      | none => rfl
      | some ring =>
          dsimp only
          cases decide ((ring.lookup item.key).length ≤ 1) ||
            !(D.cluster.cfg n).hasTransport with
          | true => rfl
          | false =>
              refine foldl_nodes (fun s oid => ?_) _ _
              by_cases hn : oid = n
              · rw [if_pos hn, if_pos hn]
              · rw [if_neg hn, if_neg hn, h.forwardSet]
                rfl

theorem Replicates.applyRemove (h : D.Replicates t) (n : NodeID) (key : Key)
    (replicate : Bool) (s : Running V) :
    D.applyRemove t n key replicate s =
      { s with nodes := World.applyRemove D.cluster D.net n key replicate s.nodes } := by
  unfold Deployment.applyRemove World.applyRemove
  cases replicate with
  | false => rfl
  | true =>
      cases (D.cluster.cfg n).ring with
      | none => rfl
      | some ring =>
          dsimp only
          cases decide ((ring.lookup key).length ≤ 1) || !(D.cluster.cfg n).hasTransport with
          | true => rfl
          | false =>
              refine foldl_nodes (fun s oid => ?_) _ _
              by_cases hn : oid = n
              · rw [if_pos hn, if_pos hn]
              · rw [if_neg hn, if_neg hn, h.forwardRemove]
                rfl

theorem InProcess.replicateTo [SizedValue V] (h : D.InProcess t) (n : NodeID) (item : Item V)
    (replicas : List NodeID) (s : Running V) :
    D.replicateTo t n item replicas s =
      onNodes s id (World.replicateTo D.cluster D.net n item replicas s.nodes) := by
  induction replicas generalizing s with
  | nil => rfl
  | cons oid rest ih =>
      rw [Deployment.replicateTo, World.replicateTo]
      split
      · rfl
      · split
        · exact ih s
        · rw [h.replicates.forwardSet]
          rcases World.forwardReplica D.cluster D.net oid item s.nodes with ⟨w, e⟩
          cases e with
          | none =>
              dsimp only [onNodes, answer]
              rw [ih]
              rfl
          | some e => exact ih _

theorem InProcess.writeAsPrimary [SizedValue V] (h : D.InProcess t) (n : NodeID)
    (item : Item V) (owners replicas : List NodeID) (s : Running V) :
    D.writeAsPrimary t n item owners replicas s =
      onNodes s (·.map CallErr.node)
        (World.writeAsPrimary D.cluster D.net n item owners replicas s.nodes) := by
  let stamped := World.stamped D.net n item s.nodes
  let stored := World.applySet D.cluster D.net n stamped false
    (Pointwise.modify s.nodes n (fun st => { st with versionCounter := st.versionCounter + 1 }))
  let needed := requiredAcks owners.length (D.cluster.cfg n).writeConsistency
  let sent := World.replicateTo D.cluster D.net n stamped replicas stored
  have hsent : D.replicateTo t n stamped replicas { s with nodes := stored } =
      onNodes s id sent := h.replicateTo n stamped replicas { s with nodes := stored }
  have hd : D.writeAsPrimary t n item owners replicas s =
      if 1 + (D.replicateTo t n stamped replicas { s with nodes := stored }).2 < needed then
        ((D.replicateTo t n stamped replicas { s with nodes := stored }).1,
          some (.node .quorumFailed))
      else ((D.replicateTo t n stamped replicas { s with nodes := stored }).1, none) := rfl
  have hw : World.writeAsPrimary D.cluster D.net n item owners replicas s.nodes =
      if 1 + sent.2 < needed then (sent.1, some .quorumFailed) else (sent.1, none) := rfl
  rw [hd, hw, hsent]
  by_cases hq : 1 + sent.2 < needed
  · rw [if_pos hq]
    exact if_pos hq
  · rw [if_neg hq]
    exact if_neg hq

theorem InProcess.handleForwardPrimary (h : D.InProcess t) (n primary : NodeID)
    (replicas : List NodeID) (item : Item V) (s : Running V) :
    D.handleForwardPrimary t n primary replicas item s =
      onNodes s (·.mapError CallErr.node)
        (World.handleForwardPrimary D.cluster D.net n primary replicas item s.nodes) := by
  unfold Deployment.handleForwardPrimary World.handleForwardPrimary
  split
  · rfl
  · rw [h.forwardSet]
    rcases World.forwardSet D.cluster D.net primary item true s.nodes with ⟨w, e⟩
    cases e with
    | none => rfl
    | some e =>
        dsimp only [onNodes, answer]
        split
        · rfl
        · rfl

theorem InProcess.setImpl [SizedValue V] (h : D.InProcess t) (n : NodeID) (item : Item V)
    (s : Running V) :
    D.setImpl t n item s =
      onNodes s (·.map CallErr.node) (World.setImpl D.cluster D.net n item s.nodes) := by
  unfold Deployment.setImpl World.setImpl
  cases (s.nodes n).draining with
  | true => rfl
  | false =>
      rw [if_neg Bool.false_ne_true, if_neg Bool.false_ne_true]
      cases (D.cluster.cfg n).lookupOwners item.key with
      | nil => rfl
      | cons primary replicas =>
          dsimp only
          by_cases hp : primary = n
          · rw [if_pos hp, if_pos hp]
            exact h.writeAsPrimary n item _ _ s
          · rw [if_neg hp, if_neg hp, h.handleForwardPrimary]
            rcases World.handleForwardPrimary D.cluster D.net n primary replicas item s.nodes with
              ⟨w, e | promoted⟩
            · rfl
            · cases promoted with
              | false => rfl
              | true => exact h.writeAsPrimary n item _ _ { s with nodes := w }

/-- On in-process transports a set is the set of `World`. -/
theorem InProcess.set [SizedValue V] (h : D.InProcess t) (n : NodeID) (item : Item V)
    (s : Running V) :
    D.set t n item s =
      onNodes s (·.map CallErr.node) (World.set D.cluster D.net n item s.nodes) := by
  unfold Deployment.set World.set
  cases item.valid with
  | some e => rfl
  | none => exact h.setImpl n item s

theorem InProcess.removeKey (h : D.InProcess t) (n : NodeID) (key : Key) (s : Running V) :
    D.removeKey t n key s =
      onNodes s (·.map CallErr.node) (World.removeKey D.cluster D.net n key s.nodes) := by
  unfold Deployment.removeKey World.removeKey
  cases (D.cluster.cfg n).lookupOwners key with
  | nil => rfl
  | cons primary replicas =>
      dsimp only
      by_cases hp : primary = n
      · rw [if_pos hp, if_pos hp, h.replicates.applyRemove]
        rfl
      · rw [if_neg hp, if_neg hp]
        cases (D.cluster.cfg n).hasTransport with
        | false => rfl
        | true =>
            unfold Deployment.forwardOrPromoteRemove World.forwardOrPromoteRemove
            rw [h.forwardRemove]
            rcases World.forwardRemove D.cluster D.net primary key true s.nodes with ⟨w, e⟩
            cases e with
            | none => rfl
            | some e =>
                dsimp only [onNodes, answer]
                cases replicas.any fun oid =>
                  oid == n && (D.cluster.cfg n).ownsKeyInternal key with
                | true =>
                    rw [h.replicates.applyRemove]
                    rfl
                | false => rfl

/-- On in-process transports a remove is the remove of `World`. -/
theorem InProcess.remove (h : D.InProcess t) (n : NodeID) (keys : List Key) (s : Running V) :
    D.remove t n keys s =
      onNodes s (·.map CallErr.node) (World.remove D.cluster D.net n keys s.nodes) := by
  have hkeys : ∀ keys s, D.removeKeys t n keys s =
      onNodes s (·.map CallErr.node) (World.removeKeys D.cluster D.net n keys s.nodes) := by
    intro keys
    induction keys with
    | nil => exact fun s => rfl
    | cons key rest ih =>
        intro s
        rw [Deployment.removeKeys, World.removeKeys, h.removeKey]
        rcases World.removeKey D.cluster D.net n key s.nodes with ⟨w, e⟩
        cases e with
        | none => exact ih { s with nodes := w }
        | some e => rfl
  unfold Deployment.remove World.remove
  cases (s.nodes n).draining with
  | true => rfl
  | false => exact hkeys keys s

theorem InProcess.tryRemoteGet (h : D.InProcess t) (n : NodeID) (key : Key) (oid : NodeID)
    (s : Running V) :
    D.tryRemoteGet t n key oid s =
      onNodes s id (World.tryRemoteGet D.cluster D.net n key oid s.nodes) := by
  unfold Deployment.tryRemoteGet World.tryRemoteGet
  by_cases hn : oid = n ∨ (D.cluster.cfg n).hasTransport = false
  · rw [if_pos hn, if_pos hn]
    rfl
  · rw [if_neg hn, if_neg hn, h.forwardGet]
    rcases World.forwardGet D.net oid key s.nodes with e | reply
    · rfl
    · cases reply with
      | none => rfl
      | some it => rfl

theorem InProcess.getOne (h : D.InProcess t) (n : NodeID) (key : Key) (owners : List NodeID)
    (s : Running V) :
    D.getOne t n key owners s =
      onNodes s id (World.getOne D.cluster D.net n key owners s.nodes) := by
  induction owners generalizing s with
  | nil => rfl
  | cons oid rest ih =>
      rw [Deployment.getOne, World.getOne]
      cases World.tryLocalGet n key oid s.nodes with
      | some it => rfl
      | none =>
          dsimp only
          rw [h.tryRemoteGet]
          rcases World.tryRemoteGet D.cluster D.net n key oid s.nodes with ⟨w, reply⟩
          cases reply with
          | some it => rfl
          | none => exact ih { s with nodes := w }

theorem InProcess.fetchOwner (h : D.InProcess t) (n : NodeID) (key : Key) (oid : NodeID)
    (s : Running V) :
    D.fetchOwner t n key oid s =
      (s, World.fetchOwner D.cluster D.net n key s.nodes oid) := by
  unfold Deployment.fetchOwner World.fetchOwner
  by_cases hn : oid = n
  · rw [if_pos hn, if_pos hn]
  · rw [if_neg hn, if_neg hn]
    cases (D.cluster.cfg n).hasTransport with
    | false => rfl
    | true =>
        rw [h.forwardGet]
        rcases World.forwardGet D.net oid key s.nodes with e | reply
        · rfl
        · rfl

theorem InProcess.collectQuorum (h : D.InProcess t) (n : NodeID) (key : Key) (needed : Nat)
    (owners : List NodeID) (tally : Tally V) (s : Running V) :
    D.collectQuorum t n key needed owners tally s =
      (s, World.collectQuorum D.cluster D.net n key needed s.nodes owners tally) := by
  induction owners generalizing tally with
  | nil => rfl
  | cons oid rest ih =>
      rw [Deployment.collectQuorum, World.collectQuorum, h.fetchOwner]
      cases World.fetchOwner D.cluster D.net n key s.nodes oid with
      | none => exact ih tally
      | some it =>
          dsimp only
          cases decide ((tally.add oid it).acks ≥ needed) && (tally.add oid it).chosen.isSome with
          | true => rfl
          | false => exact ih (tally.add oid it)

theorem InProcess.fetchAll (h : D.InProcess t) (n : NodeID) (key : Key) (owners : List NodeID)
    (s : Running V) :
    D.fetchAll t n key owners s =
      (s, owners.map (fun oid => (oid, World.fetchOwner D.cluster D.net n key s.nodes oid))) := by
  induction owners with
  | nil => rfl
  | cons oid rest ih =>
      rw [Deployment.fetchAll, h.fetchOwner]
      dsimp only
      rw [ih]
      rfl

/-- The receiving loop sees for every owner what the owner was asked for. -/
theorem collectReplies_eq (C : Cluster) (net : Net) (n : NodeID) (key : Key) (needed : Nat)
    (w : World V) (owners arrived : List NodeID) (hsub : ∀ oid ∈ arrived, oid ∈ owners)
    (tally : Tally V) :
    collectReplies needed
        (owners.map (fun oid => (oid, World.fetchOwner C net n key w oid))) arrived tally =
      World.collectQuorum C net n key needed w arrived tally := by
  have hlookup : ∀ (owners : List NodeID), ∀ oid ∈ owners,
      (owners.map (fun oid => (oid, World.fetchOwner C net n key w oid))).lookup oid =
        some (World.fetchOwner C net n key w oid) := by
    intro owners oid hmem
    induction owners with
    | nil => exact absurd hmem List.not_mem_nil
    | cons o rest ih =>
        rw [List.map_cons, List.lookup_cons]
        by_cases ho : oid = o
        · rw [ho, beq_self_eq_true]
        · rw [beq_false_of_ne ho]
          exact ih ((List.mem_cons.mp hmem).resolve_left ho)
  induction arrived generalizing tally with
  | nil => rfl
  | cons oid rest ih =>
      have ih' := ih (fun o ho => hsub o (List.mem_cons_of_mem oid ho))
      rw [collectReplies, World.collectQuorum, hlookup owners oid (hsub oid List.mem_cons_self)]
      show (match World.fetchOwner C net n key w oid with
        | none => _
        | some it => _) = _
      cases World.fetchOwner C net n key w oid with
      | none => exact ih' tally
      | some it =>
          dsimp only
          rw [ih']

theorem InProcess.repairRemoteReplica (h : D.InProcess t) (n : NodeID) (chosen : Item V)
    (oid : NodeID) (s : Running V) :
    D.repairRemoteReplica t n chosen oid s =
      { s with nodes := World.repairRemoteReplica D.cluster D.net n chosen oid s.nodes } := by
  unfold Deployment.repairRemoteReplica World.repairRemoteReplica
  cases (D.cluster.cfg n).hasTransport with
  | false => rfl
  | true =>
      cases (D.cluster.cfg n).repairBatch with
      | some size => rfl
      | none =>
          rw [h.replicates.forwardSet]
          rfl

theorem InProcess.repairStaleOwners (h : D.InProcess t) (n : NodeID) (chosen : Item V)
    (stale : List NodeID) (s : Running V) :
    D.repairStaleOwners t n chosen stale s =
      { s with nodes := World.repairStaleOwners D.cluster D.net n chosen stale s.nodes } := by
  unfold Deployment.repairStaleOwners World.repairStaleOwners
  cases (D.cluster.cfg n).hasTransport with
  | false => rfl
  | true =>
      apply foldl_nodes
      intro s oid
      by_cases hn : oid = n
      · rw [if_pos hn, if_pos hn]
      · rw [if_neg hn, if_neg hn, h.repairRemoteReplica]

theorem InProcess.repairReplicas (h : D.InProcess t) (n : NodeID) (key : Key) (chosen : Item V)
    (owners : List NodeID) (s : Running V) :
    D.repairReplicas t n key chosen owners s =
      { s with nodes := World.repairReplicas D.cluster D.net n key chosen owners s.nodes } := by
  apply foldl_nodes
  intro s oid
  by_cases hn : oid = n
  · rw [if_pos hn, if_pos hn]
    rfl
  · rw [if_neg hn, if_neg hn, h.repairRemoteReplica]

theorem InProcess.readQuorum (h : D.InProcess t) (n : NodeID) (key : Key)
    (owners replies : List NodeID) (s : Running V) :
    let needed := requiredAcks owners.length (D.cluster.cfg n).readConsistency
    D.finishRead t n key owners needed
        (World.collectQuorum D.cluster D.net n key needed s.nodes replies {}) s =
      onNodes s id (World.readQuorum D.cluster D.net n key owners replies s.nodes) := by
  intro needed
  unfold finishRead World.readQuorum
  show (match (World.collectQuorum D.cluster D.net n key needed s.nodes replies {}).chosen with
    | none => _
    | some chosen => _) = onNodes s id
      (match (World.collectQuorum D.cluster D.net n key needed s.nodes replies {}).chosen with
      | none => _
      | some chosen => _)
  generalize World.collectQuorum D.cluster D.net n key needed s.nodes replies {} = tally
  cases tally.chosen with
  | none => rfl
  | some chosen =>
      dsimp only
      by_cases hq : tally.acks < needed
      · rw [if_pos hq, if_pos hq]
        rfl
      · rw [if_neg hq, if_neg hq, h.repairStaleOwners, h.repairReplicas]
        rfl

/-- On in-process transports a get is the get of `World`. -/
theorem InProcess.get (h : D.InProcess t) (n : NodeID) (key : Key) (s : Running V) :
    D.get t n key s = onNodes s id (World.getImpl D.cluster D.net n key s.nodes) := by
  have hseq : ∀ owners, D.getWithConsistency t n key owners s =
      onNodes s id (World.getWithConsistency D.cluster D.net n key owners s.nodes) := by
    intro owners
    unfold Deployment.getWithConsistency World.getWithConsistency
    dsimp only
    rw [h.collectQuorum]
    exact h.readQuorum n key owners owners s
  have hpar : ∀ owners, D.getWithConsistencyParallel t n key owners s =
      onNodes s id (World.getWithConsistencyParallel D.cluster D.net n key owners s.nodes) := by
    intro owners
    unfold Deployment.getWithConsistencyParallel World.getWithConsistencyParallel
    dsimp only
    rw [h.fetchAll]
    dsimp only
    rw [collectReplies_eq D.cluster D.net n key _ s.nodes owners (D.net.arrival owners)
      (fun oid hoid => (D.net.arrival_perm owners).mem_iff.mp hoid)]
    exact h.readQuorum n key owners (D.net.arrival owners) s
  unfold Deployment.get World.getImpl
  dsimp only
  by_cases hone : (D.cluster.cfg n).readConsistency = .one
  · rw [if_pos hone, if_pos hone]
    cases (s.nodes n).shard.items.get key with
    | some it => rfl
    | none =>
        dsimp only
        cases (D.cluster.cfg n).lookupOwners key with
        | nil => rfl
        | cons primary replicas =>
            dsimp only
            rw [if_pos hone, if_pos hone]
            exact h.getOne n key _ s
  · rw [if_neg hone, if_neg hone]
    cases (D.cluster.cfg n).lookupOwners key with
    | nil => rfl
    | cons primary replicas =>
        dsimp only
        rw [if_neg hone, if_neg hone]
        cases (D.cluster.cfg n).parallelReads with
        | true => exact hpar (primary :: replicas)
        | false => exact hseq (primary :: replicas)

theorem InProcess.fetchAndAdopt (h : D.InProcess t) (n peer : NodeID) (key : Key)
    (s : Running V) :
    D.fetchAndAdopt t n peer key s =
      { s with nodes := World.fetchAndAdopt D.cluster D.net n peer key s.nodes } := by
  unfold Deployment.fetchAndAdopt World.fetchAndAdopt
  cases (D.cluster.cfg n).hasTransport with
  | false => rfl
  | true =>
      rw [h.forwardGet]
      rcases World.forwardGet D.net peer key s.nodes with e | reply
      · rfl
      · rfl

theorem InProcess.foldl_fetchAndAdopt (h : D.InProcess t) (n peer : NodeID) (keys : List Key)
    (s : Running V) :
    keys.foldl (fun s k => D.fetchAndAdopt t n peer k s) s =
      { s with
        nodes := keys.foldl (fun w k => World.fetchAndAdopt D.cluster D.net n peer k w)
          s.nodes } :=
  foldl_nodes (fun s k => h.fetchAndAdopt n peer k s) keys s

theorem InProcess.applyMerkleDiffs (h : D.InProcess t) (n peer : NodeID)
    (entries : List MerkleKV) (diffs : List Nat) (chunkSize : Nat) (s : Running V) :
    D.applyMerkleDiffs t n peer entries diffs chunkSize s =
      { s with
        nodes := World.applyMerkleDiffs D.cluster D.net n peer entries diffs chunkSize
          s.nodes } := by
  apply foldl_nodes
  intro s ci
  by_cases hlen : ci * chunkSize ≥ entries.length
  · rw [if_pos hlen, if_pos hlen]
  · rw [if_neg hlen, if_neg hlen]
    exact foldl_nodes (fun s e => h.fetchAndAdopt n peer e.k s) _ s

/-- On bare in-process transports a sync is the sync of `World`. -/
theorem InProcess.syncWithStatus (h : D.InProcess t) (n peer : NodeID) (s : Running V) :
    D.syncWithStatus t (.bare .inProcess) n peer s =
      onNodes s (·.mapError CallErr.node)
        (World.syncWithStatus D.cluster D.net D.sum256 D.order n peer s.nodes) := by
  unfold Deployment.syncWithStatus World.syncWithStatus
  cases (D.cluster.cfg n).hasTransport with
  | false => rfl
  | true =>
      rw [h.fetchMerkle]
      cases hup : D.net.up peer with
      | false => rfl
      | true =>
          have hmissing : ∀ entries, D.resolveMissingKeys t (.bare .inProcess) n peer entries s =
              (s, World.enumerateRemoteOnlyKeys (s.nodes peer).shard entries) := by
            intro entries
            unfold resolveMissingKeys Deployment.enumerateRemoteOnlyKeys
            simp only [hup, if_true]
            cases World.enumerateRemoteOnlyKeys (s.nodes peer).shard entries with
            | nil => rfl
            | cons key rest => rfl
          simp only [if_true, Bool.not_true, Bool.false_eq_true, if_false, hmissing,
            h.applyMerkleDiffs, h.foldl_fetchAndAdopt]
          rfl

end

/-! ### Clusters on in-process transports -/

section

variable {D} (hwire : ∀ n, D.wire n = .inProcess)

include hwire

theorem transport_inProcess (r : Receiver V) (n : NodeID) :
    D.transport r (D.stored (fun _ => none) n) = D.inProcessTransport r := by
  show D.wired r (D.wire n) = _
  rw [hwire]
  rfl

theorem replicates_leaf (n : NodeID) :
    D.Replicates (D.transport (D.leaf (D.stored fun _ => none)) (D.stored (fun _ => none) n)) := by
  rw [transport_inProcess hwire]
  constructor
  · intro dst item s
    show (ite _ _ _ : Running V × Except CallErr Unit) = _
    unfold World.forwardReplica
    cases D.net.up dst with
    | true => rfl
    | false => rfl
  · intro dst key s
    show (ite _ _ _ : Running V × Except CallErr Unit) = _
    unfold World.forwardRemoveReplica
    cases D.net.up dst with
    | true => rfl
    | false => rfl

/-- In a cluster on bare in-process transports every node has the calls of `World`. -/
theorem inProcess_transportOf (n : NodeID) :
    D.InProcess (D.transportOf (D.stored fun _ => none) n) := by
  rw [transportOf, transport_inProcess hwire]
  constructor
  · intro dst item replicate s
    show (ite _ _ _ : Running V × Except CallErr Unit) = _
    unfold World.forwardSet
    cases D.net.up dst with
    | false => rfl
    | true =>
        show (ite _ (D.applySet _ dst item replicate s) s, _) = _
        unfold World.applyForwardedSet
        cases (D.cluster.cfg dst).acceptsForwarded item.key with
        | false => rfl
        | true =>
            rw [if_pos rfl, (replicates_leaf hwire dst).applySet]
            rfl
  · intro dst key s
    show (ite _ _ _ : Running V × Except CallErr (Option (Item V))) = _
    unfold World.forwardGet
    cases D.net.up dst with
    | true => rfl
    | false => rfl
  · intro dst key replicate s
    show (ite _ _ _ : Running V × Except CallErr Unit) = _
    unfold World.forwardRemove
    cases D.net.up dst with
    | false => rfl
    | true =>
        show (D.applyRemove _ dst key replicate s, _) = _
        rw [(replicates_leaf hwire dst).applyRemove]
        rfl
  · intro dst s
    rfl

end

end Deployment

end HyperCache
