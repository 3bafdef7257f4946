/-
The state of a running node: its data, its version counters, the hints it holds
for unreachable peers and the read repairs it has queued.

`applied` is a history variable and no function of the source reads it.  It
lists, newest first, the key and the version left by each write and delete that
`Set`, `Remove` or the transport applied on this node.
-/
import HyperCache.Hints

namespace HyperCache

structure NodeState (V : Type) where
  shard : DistShard V
  versionCounter : UInt64 := 0
  tombVersionCounter : UInt64 := 0
  draining : Bool := false
  hints : HintStore V := {}
  repairEntries : AList (fun _ : NodeID => ConcurrentMap V) := ∅
  applied : List (Key × UInt64) := []

namespace NodeState

variable {V : Type}

def applySet (cfg : DistConfig) (item : Item V) (st : NodeState V) : NodeState V :=
  { st with
    shard := st.shard.applySet cfg item
    applied := (item.key, item.version) :: st.applied }

def applyForwardedSet (cfg : DistConfig) (item : Item V) (st : NodeState V) : NodeState V :=
  if cfg.acceptsForwarded item.key then st.applySet cfg item else st

/-- One above the version of the stored item, and zero when there is none. -/
def nextVer (st : NodeState V) (key : Key) : UInt64 :=
  match st.shard.items.get key with
  | some it => it.version + 1
  | none => 0

/-- The version `applyRemove` gives the tombstone of `key`: `nextVer`, or the
next value of the tombstone counter when that is zero. -/
def tombVersion (st : NodeState V) (key : Key) : UInt64 :=
  if st.nextVer key = 0 then st.tombVersionCounter + 1 else st.nextVer key

def tombCounterAfter (st : NodeState V) (key : Key) : UInt64 :=
  if st.nextVer key = 0 then st.tombVersionCounter + 1 else st.tombVersionCounter

def applyRemove (cfg : DistConfig) (now : Time) (key : Key) (st : NodeState V) : NodeState V :=
  { st with
    shard := { st.shard with
      items := st.shard.items.remove key
      tombs := st.shard.tombs.insert key ⟨st.tombVersion key, cfg.localNode, now⟩ }
    tombVersionCounter := st.tombCounterAfter key
    applied := (key, st.tombVersion key) :: st.applied }

def queueHint [SizedValue V] (cfg : DistConfig) (now : Time) (peer : NodeID) (item : Item V)
    (source : HintSource) (st : NodeState V) : NodeState V :=
  { st with hints := st.hints.queueHint cfg now peer item source }

/-- `repairQueue.enqueue`: keep the higher-ranked copy per peer and key. -/
def enqueueRepair (peer : NodeID) (item : Item V) (st : NodeState V) : NodeState V :=
  let peerEntries := (st.repairEntries.lookup peer).getD .empty
  match peerEntries.get item.key with
  | some existing =>
      if isHigherVersion item existing then
        { st with repairEntries := st.repairEntries.insert peer (peerEntries.set item) }
      else { st with repairEntries := st.repairEntries.insert peer peerEntries }
  | none => { st with repairEntries := st.repairEntries.insert peer (peerEntries.set item) }

/-! ## What these transitions leave alone -/

@[simp] theorem applySet_shard (cfg : DistConfig) (item : Item V) (st : NodeState V) :
    (st.applySet cfg item).shard = st.shard.applySet cfg item := rfl

theorem applyForwardedSet_shard (cfg : DistConfig) (item : Item V) (st : NodeState V) :
    (st.applyForwardedSet cfg item).shard = st.shard.applyForwardedSet cfg item := by
  unfold applyForwardedSet DistShard.applyForwardedSet
  split <;> rfl

@[simp] theorem applyRemove_items (cfg : DistConfig) (now : Time) (key : Key)
    (st : NodeState V) :
    (st.applyRemove cfg now key).shard.items = st.shard.items.remove key := rfl

@[simp] theorem enqueueRepair_shard (peer : NodeID) (item : Item V) (st : NodeState V) :
    (st.enqueueRepair peer item).shard = st.shard := by
  unfold enqueueRepair
  dsimp only
  split
  · split <;> rfl
  · rfl

end NodeState

end HyperCache
