/-
One node's stored data and the transitions that touch only that node.

A `DistMemory` hashes each key to one of its shards and reads and writes the key
there, so the model keeps the union of the shards.  A write reaches a node's
data in four ways: `applySet` plants an item unconditionally,
`repairLocalReplica` and the repair of `tryRemoteGet` plant one after looking at
the local copy, and `fetchAndAdopt` reconciles the local record with the reply
of a remote read.
-/
import HyperCache.ConcurrentMap
import HyperCache.Conflict
import HyperCache.Ring

namespace HyperCache

/-- `ConsistencyLevel`.  The type is an `int` in the source, and values without
a name reach the default branches. -/
inductive ConsistencyLevel where
  | one
  | quorum
  | all
  | other (n : Int)
  deriving DecidableEq, Repr

def requiredAcks (total : Nat) : ConsistencyLevel → Nat
  | .all => total
  | .quorum => total / 2 + 1
  | .one => 1
  | .other _ => 1

theorem requiredAcks_pos {total : Nat} (level : ConsistencyLevel) (h : 0 < total) :
    0 < requiredAcks total level := by
  cases level with
  | one => exact Nat.one_pos
  | quorum => exact Nat.succ_pos _
  | all => exact h
  | other n => exact Nat.one_pos

/-- The configuration of a node, fixed once the node runs.  `repairBatch` is the
batch size of the read-repair queue, absent when repairs are sent inline.  A replica
diff limit of zero is no limit. -/
structure DistConfig where
  localNode : NodeID
  ring : Option Placement
  hasTransport : Bool := true
  readConsistency : ConsistencyLevel := .one
  writeConsistency : ConsistencyLevel := .quorum
  parallelReads : Bool := false
  merkleChunkSize : Nat := 0
  hintTTL : Duration := 0
  hintMaxPerNode : Nat := 0
  hintMaxTotal : Nat := 0
  hintMaxBytes : Nat := 0
  repairBatch : Option Nat := none
  removalGracePeriod : Duration := 0
  replicaDiffMaxPerTick : Nat := 0

namespace DistConfig

def lookupOwners (cfg : DistConfig) (key : Key) : List NodeID :=
  match cfg.ring with
  | none => []
  | some ring => ring.lookup key

theorem lookupOwners_nodup (cfg : DistConfig) (key : Key) : (cfg.lookupOwners key).Nodup := by
  rw [lookupOwners]
  split
  · exact List.nodup_nil
  · exact Placement.nodup _ key

/-- `ownsKeyInternal`: a node without a ring, or with an empty one, owns
everything. -/
def ownsKeyInternal (cfg : DistConfig) (key : Key) : Bool :=
  match cfg.ring with
  | none => true
  | some ring =>
      (ring.lookup key).contains cfg.localNode || (ring.lookup key).isEmpty

/-- The guard of `applyForwardedSet`: a write forwarded to a node that does not
own the key is dropped. -/
def acceptsForwarded (cfg : DistConfig) (key : Key) : Bool :=
  !(cfg.ring.isSome && !cfg.ownsKeyInternal key)

theorem acceptsForwarded_eq (cfg : DistConfig) (key : Key) :
    cfg.acceptsForwarded key = cfg.ownsKeyInternal key := by
  rw [acceptsForwarded, ownsKeyInternal]
  cases cfg.ring <;> simp

theorem ownsKeyInternal_of_mem {cfg : DistConfig} {ring : Placement} {key : Key}
    (hring : cfg.ring = some ring) (hmem : cfg.localNode ∈ ring.lookup key) :
    cfg.ownsKeyInternal key = true := by
  rw [ownsKeyInternal, hring]
  simp [hmem]

end DistConfig

structure Tombstone where
  version : UInt64
  origin : Str
  placedAt : Time
  deriving DecidableEq, Repr

/-- `removedAt` is when the node first saw that it no longer owns a key. -/
structure DistShard (V : Type) where
  items : ConcurrentMap V
  tombs : AList (fun _ : Key => Tombstone)
  originalPrimary : AList (fun _ : Key => NodeID)
  originalOwners : AList (fun _ : Key => List NodeID)
  removedAt : AList (fun _ : Key => Time) := ∅

namespace DistShard

variable {V : Type}

def empty : DistShard V where
  items := .empty
  tombs := ∅
  originalPrimary := ∅
  originalOwners := ∅

/-- `recordOriginalPrimary`: remember the owners of a key when it is first
planted. -/
def recordOriginalPrimary (cfg : DistConfig) (key : Key) (sh : DistShard V) : DistShard V :=
  match cfg.ring with
  | none => sh
  | some ring =>
      if key ∈ sh.originalPrimary then sh
      else
        match ring.lookup key with
        | [] => sh
        | primary :: replicas =>
            { sh with
              originalPrimary := sh.originalPrimary.insert key primary
              originalOwners :=
                if key ∈ sh.originalOwners then sh.originalOwners
                else sh.originalOwners.insert key (primary :: replicas) }

/-- The local part of `applySet`.  It looks neither at the item it overwrites
nor at the tombstones. -/
def applySet (cfg : DistConfig) (item : Item V) (sh : DistShard V) : DistShard V :=
  let sh := sh.recordOriginalPrimary cfg item.key
  { sh with items := sh.items.set item }

def applyForwardedSet (cfg : DistConfig) (item : Item V) (sh : DistShard V) : DistShard V :=
  if cfg.acceptsForwarded item.key then sh.applySet cfg item else sh

def repairLocalReplica (cfg : DistConfig) (key : Key) (chosen : Item V) (sh : DistShard V) :
    DistShard V :=
  match sh.items.get key with
  | none => sh.applySet cfg chosen
  | some localIt => if localStale localIt chosen then sh.applySet cfg chosen else sh

/-- The repair at the end of `tryRemoteGet`: an owner without a copy keeps the
one it fetched. -/
def repairMissing (cfg : DistConfig) (key : Key) (it : Item V) (sh : DistShard V) :
    DistShard V :=
  if cfg.ownsKeyInternal key then
    match sh.items.get key with
    | none => sh.applySet cfg it
    | some _ => sh
  else sh

/-- The end of `fetchAndAdopt`: a fetched item replaces a local copy of lower
version. -/
def pull (cfg : DistConfig) (key : Key) (it : Item V) (sh : DistShard V) : DistShard V :=
  match sh.items.get key with
  | none => sh.applySet cfg it
  | some cur => if it.version > cur.version then sh.applySet cfg it else sh

/-- `fetchAndAdopt` once the remote read has answered with `reply`. -/
def adopt (cfg : DistConfig) (now : Time) (key : Key) (reply : Option (Item V))
    (sh : DistShard V) : DistShard V :=
  match reply with
  | none =>
      if key ∈ sh.tombs then sh
      else
        match sh.items.get key with
        | none => sh
        | some cur =>
            -- The miss is taken for a delete, one version above the local copy.
            { sh with
              items := sh.items.remove key
              tombs := sh.tombs.insert key ⟨cur.version + 1, cfg.localNode, now⟩ }
  | some it =>
      match sh.tombs.lookup key with
      | none => sh.pull cfg key it
      | some tomb =>
          if tomb.version ≥ it.version then sh
          else { sh with tombs := sh.tombs.erase key }.pull cfg key it

@[simp] theorem recordOriginalPrimary_items (cfg : DistConfig) (key : Key) (sh : DistShard V) :
    (sh.recordOriginalPrimary cfg key).items = sh.items := by
  unfold recordOriginalPrimary
  split
  · rfl
  · split
    · rfl
    · split <;> rfl

@[simp] theorem recordOriginalPrimary_tombs (cfg : DistConfig) (key : Key) (sh : DistShard V) :
    (sh.recordOriginalPrimary cfg key).tombs = sh.tombs := by
  unfold recordOriginalPrimary
  split
  · rfl
  · split
    · rfl
    · split <;> rfl

@[simp] theorem applySet_items (cfg : DistConfig) (item : Item V) (sh : DistShard V) :
    (sh.applySet cfg item).items = sh.items.set item := by
  simp [applySet]

@[simp] theorem applySet_tombs (cfg : DistConfig) (item : Item V) (sh : DistShard V) :
    (sh.applySet cfg item).tombs = sh.tombs := by
  simp [applySet]

end DistShard

end HyperCache
