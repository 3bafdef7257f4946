/-
Delivery of what a node has stored for its peers: hints and queued repairs.

Both send plain `ForwardSet` calls with `replicate = false`, so the receiver
applies its ownership guard and overwrites what it holds.  A pass over the hints
holds their lock, and the model runs it as one step.  The repairs of one flush
go out in parallel and carry different keys.
-/
import HyperCache.Read

namespace HyperCache

open Pointwise

namespace HintStore

variable {V : Type}

def noteExpired (entry : HintedEntry V) (hs : HintStore V) : HintStore V :=
  { hs with
    metrics := { hs.metrics with
      hintedExpired := hs.metrics.hintedExpired + 1
      migrationHintExpired :=
        hs.metrics.migrationHintExpired + if entry.source = .migration then 1 else 0 } }

def noteReplayed (entry : HintedEntry V) (hs : HintStore V) : HintStore V :=
  { hs with
    metrics := { hs.metrics with
      hintedReplayed := hs.metrics.hintedReplayed + 1
      migrationHintReplayed :=
        hs.metrics.migrationHintReplayed + if entry.source = .migration then 1 else 0 } }

def storeQueue (peer : NodeID) (out : List (HintedEntry V)) (hs : HintStore V) : HintStore V :=
  { hs with
    queues := if out.isEmpty then hs.queues.erase peer else hs.queues.insert peer out }

end HintStore

namespace World

variable {V : Type} (C : Cluster) (net : Net)

def modifyHints (n : NodeID) (f : HintStore V → HintStore V) (w : World V) : World V :=
  modify w n (fun st => { st with hints := f st.hints })

/-! ## Hints -/

/-- `processHint`.  The result says whether the hint leaves the queue. -/
def processHint (n peer : NodeID) (entry : HintedEntry V) (w : World V) : World V × Bool :=
  if net.now > entry.expire then (modifyHints n (·.noteExpired entry) w, true)
  else if !(C.cfg n).hasTransport then (w, false)
  else
    match forwardReplica C net peer entry.item w with
    | (w, none) => (modifyHints n (·.noteReplayed entry) w, true)
    | (w, some _) => (w, false)

/-- The inner loop of `replayHints`, which returns the hints that stay. -/
def replayQueue (n peer : NodeID) :
    List (HintedEntry V) → World V → World V × List (HintedEntry V)
  | [], w => (w, [])
  | entry :: rest, w =>
      match processHint C net n peer entry w with
      | (w, true) =>
          replayQueue n peer rest (modifyHints n (·.adjustHintAccounting (-1) (-entry.size)) w)
      | (w, false) =>
          let (w, out) := replayQueue n peer rest w
          (w, entry :: out)

def replayHints (n : NodeID) (w : World V) : World V :=
  if !(C.cfg n).hasTransport then w
  else
    (w n).hints.queues.entries.foldl
      (fun w q =>
        let (w, out) := replayQueue C net n q.1 q.2 w
        modifyHints n (·.storeQueue q.1 out) w) w

/-! ## Queued repairs -/

/-- `flushPeer`: detach the peer's batch and send it. -/
def flushPeer (n peer : NodeID) (w : World V) : World V :=
  match (w n).repairEntries.lookup peer with
  | none => w
  | some peerEntries =>
      if peerEntries.all.isEmpty then w
      else
        let w := modify w n (fun st => { st with repairEntries := st.repairEntries.erase peer })
        if !(C.cfg n).hasTransport then w
        else peerEntries.all.foldl (fun w it => (forwardReplica C net peer it w).1) w

theorem shards_modifyHints (n : NodeID) (f : HintStore V → HintStore V) (w : World V) :
    shards (modifyHints n f w) = shards w :=
  (comp_modify NodeState.shard w n (fun sh => sh) rfl).trans (modify_id _ n)

end World

end HyperCache
