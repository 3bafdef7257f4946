/-
A cluster of nodes on the in-process transport, and its write path.

`Cluster` is the configuration of every node and does not change while the nodes
run.  `World` is the state of every node.  The transport finds a node in its
table of registered backends, and `Net.up` is that table for the time of one
operation, so a node outside it answers every call with `ErrBackendNotFound`.

A forwarded write that asks for replication fans out with `replicate = false`,
and no call goes deeper than that.  `forwardReplica` is the inner call, and the
general functions are built on it.
-/
import Mathlib.Data.List.Count
import HyperCache.Lib.Pointwise
import HyperCache.Node

namespace HyperCache

open Pointwise

structure Cluster where
  cfg : NodeID → DistConfig
  localNode_eq : ∀ n, (cfg n).localNode = n

def Cluster.uniform (cfg : DistConfig) : Cluster :=
  ⟨fun n => { cfg with localNode := n }, fun _ => rfl⟩

/-- What one operation sees of its surroundings: the registered nodes, the clock
and the order in which the replies of a parallel read arrive. -/
structure Net where
  up : NodeID → Bool
  now : Time
  arrival : List NodeID → List NodeID := id
  arrival_perm : ∀ l, (arrival l).Perm l := by exact fun l => .refl l

abbrev World (V : Type) := NodeID → NodeState V

namespace World

def fresh {V : Type} : World V := fun _ => { shard := .empty }

/-- The stored data of every node. -/
def shards {V : Type} (w : World V) : NodeID → DistShard V := fun m => (w m).shard

variable {V : Type} (C : Cluster) (net : Net)

/-! ## Transport calls and their fan-out -/

/-- `ForwardSet` with `replicate = false`. -/
def forwardReplica (dst : NodeID) (item : Item V) (w : World V) : World V × Option Err :=
  if net.up dst then (modify w dst (NodeState.applyForwardedSet (C.cfg dst) item), none)
  else (w, some .backendNotFound)

/-- The replication loop of `applySet`, whose errors are ignored. -/
def fanOutSet (n : NodeID) (item : Item V) (replicas : List NodeID) (w : World V) : World V :=
  replicas.foldl
    (fun w oid => if oid = n then w else (forwardReplica C net oid item w).1) w

def applySet (n : NodeID) (item : Item V) (replicate : Bool) (w : World V) : World V :=
  let w := modify w n (NodeState.applySet (C.cfg n) item)
  if !replicate then w
  else
    match (C.cfg n).ring with
    | none => w
    | some ring =>
        let owners := ring.lookup item.key
        if owners.length ≤ 1 || !(C.cfg n).hasTransport then w
        else fanOutSet C net n item owners.tail w

def applyForwardedSet (n : NodeID) (item : Item V) (replicate : Bool) (w : World V) : World V :=
  if (C.cfg n).acceptsForwarded item.key then applySet C net n item replicate w else w

def forwardSet (dst : NodeID) (item : Item V) (replicate : Bool) (w : World V) :
    World V × Option Err :=
  if net.up dst then (applyForwardedSet C net dst item replicate w, none)
  else (w, some .backendNotFound)

def forwardGet (dst : NodeID) (key : Key) (w : World V) : Except Err (Option (Item V)) :=
  if net.up dst then .ok ((w dst).shard.items.get key) else .error .backendNotFound

/-- `ForwardRemove` with `replicate = false`. -/
def forwardRemoveReplica (dst : NodeID) (key : Key) (w : World V) : World V × Option Err :=
  if net.up dst then (modify w dst (NodeState.applyRemove (C.cfg dst) net.now key), none)
  else (w, some .backendNotFound)

/-- The replication loop of `applyRemove`, whose errors are ignored. -/
def fanOutRemove (n : NodeID) (key : Key) (replicas : List NodeID) (w : World V) : World V :=
  replicas.foldl
    (fun w oid => if oid = n then w else (forwardRemoveReplica C net oid key w).1) w

def applyRemove (n : NodeID) (key : Key) (replicate : Bool) (w : World V) : World V :=
  let w := modify w n (NodeState.applyRemove (C.cfg n) net.now key)
  if !replicate then w
  else
    match (C.cfg n).ring with
    | none => w
    | some ring =>
        let owners := ring.lookup key
        if owners.length ≤ 1 || !(C.cfg n).hasTransport then w
        else fanOutRemove C net n key owners.tail w

def forwardRemove (dst : NodeID) (key : Key) (replicate : Bool) (w : World V) :
    World V × Option Err :=
  if net.up dst then (applyRemove C net dst key replicate w, none)
  else (w, some .backendNotFound)

/-! ## `Set` -/

/-- `replicateTo`: send the item to every replica but the sender, queue a hint
for each that fails and count the others. -/
def replicateTo [SizedValue V] (n : NodeID) (item : Item V) :
    List NodeID → World V → World V × Nat
  | [], w => (w, 0)
  | oid :: rest, w =>
      if !(C.cfg n).hasTransport then (w, 0)
      else if oid = n then replicateTo n item rest w
      else
        match forwardReplica C net oid item w with
        | (w, none) =>
            let (w, acks) := replicateTo n item rest w
            (w, acks + 1)
        | (w, some _) =>
            replicateTo n item rest
              (modify w n (NodeState.queueHint (C.cfg n) net.now oid item .replication))

/-- The item as `setImpl` stamps it on the primary path of node `n`. -/
def stamped (n : NodeID) (item : Item V) (w : World V) : Item V :=
  { item with
    version := (w n).versionCounter + 1
    origin := n
    lastUpdated := net.now }

/-- The primary path of `setImpl`: stamp, store, replicate and count
acknowledgements. -/
def writeAsPrimary [SizedValue V] (n : NodeID) (item : Item V) (owners replicas : List NodeID)
    (w : World V) : World V × Option Err :=
  let item := stamped net n item w
  let w := modify w n (fun st => { st with versionCounter := st.versionCounter + 1 })
  let w := applySet C net n item false w
  let (w, replicaAcks) := replicateTo C net n item replicas w
  if 1 + replicaAcks < requiredAcks owners.length (C.cfg n).writeConsistency then
    (w, some .quorumFailed)
  else (w, none)

/-- `handleForwardPrimary`: forward to the primary, and on any failure let a
replica owner go on in its place. -/
def handleForwardPrimary (n primary : NodeID) (replicas : List NodeID) (item : Item V)
    (w : World V) : World V × Except Err Bool :=
  if !(C.cfg n).hasTransport then (w, .error .notOwner)
  else
    match forwardSet C net primary item true w with
    | (w, none) => (w, .ok false)
    | (w, some e) =>
        if replicas.any (fun oid => oid == n && (C.cfg n).ownsKeyInternal item.key) then
          (w, .ok true)
        else (w, .error e)

def setImpl [SizedValue V] (n : NodeID) (item : Item V) (w : World V) : World V × Option Err :=
  if (w n).draining then (w, some .draining)
  else
    match (C.cfg n).lookupOwners item.key with
    | [] => (w, some .notOwner)
    | primary :: replicas =>
        if primary = n then
          writeAsPrimary C net n item (primary :: replicas) replicas w
        else
          match handleForwardPrimary C net n primary replicas item w with
          | (w, .error e) => (w, some e)
          | (w, .ok false) => (w, none)
          -- A promoted replica replicates to the full list, so that the
          -- unreachable primary gets a hint.
          | (w, .ok true) =>
              writeAsPrimary C net n item (primary :: replicas) (primary :: replicas) w

/-- `DistMemory.Set`. -/
def set [SizedValue V] (n : NodeID) (item : Item V) (w : World V) : World V × Option Err :=
  match item.valid with
  | some e => (w, some e)
  | none => setImpl C net n item w

/-! ## `Remove` -/

def forwardOrPromoteRemove (n primary : NodeID) (replicas : List NodeID) (key : Key)
    (w : World V) : World V × Option Err :=
  match forwardRemove C net primary key true w with
  | (w, none) => (w, none)
  | (w, some e) =>
      if replicas.any (fun oid => oid == n && (C.cfg n).ownsKeyInternal key) then
        (applyRemove C net n key true w, none)
      else (w, some e)

def removeKey (n : NodeID) (key : Key) (w : World V) : World V × Option Err :=
  match (C.cfg n).lookupOwners key with
  | [] => (w, none)
  | primary :: replicas =>
      if primary = n then (applyRemove C net n key true w, none)
      else if !(C.cfg n).hasTransport then (w, some .notOwner)
      else forwardOrPromoteRemove C net n primary replicas key w

/-- The loop of `removeImpl`, which stops at the first error. -/
def removeKeys (n : NodeID) : List Key → World V → World V × Option Err
  | [], w => (w, none)
  | key :: rest, w =>
      match removeKey C net n key w with
      | (w, some e) => (w, some e)
      | (w, none) => removeKeys n rest w

/-- `DistMemory.Remove`. -/
def remove (n : NodeID) (keys : List Key) (w : World V) : World V × Option Err :=
  if (w n).draining then (w, some .draining) else removeKeys C net n keys w

/-! ## What the fan-outs reach -/

/-- A fan-out in general: `f` at every listed node that is up, less the sender. -/
def fanOut (f : NodeID → NodeState V → NodeState V) (n : NodeID) (replicas : List NodeID)
    (w : World V) : World V :=
  replicas.foldl (fun w oid => modify w oid (fun st =>
    if oid ≠ n ∧ net.up oid = true then f oid st else st)) w

theorem fanOut_apply (f : NodeID → NodeState V → NodeState V) (n : NodeID)
    {replicas : List NodeID} (hnd : replicas.Nodup) (w : World V) (m : NodeID) :
    fanOut net f n replicas w m =
      if m ∈ replicas ∧ m ≠ n ∧ net.up m = true then f m (w m) else w m := by
  rw [fanOut, foldl_modify_apply _ hnd]
  by_cases hm : m ∈ replicas
  · simp only [hm, if_true, true_and]
  · simp only [hm, if_false, false_and]

theorem fanOutSet_eq (n : NodeID) (item : Item V) (replicas : List NodeID) (w : World V) :
    fanOutSet C net n item replicas w =
      fanOut net (fun m => NodeState.applyForwardedSet (C.cfg m) item) n replicas w := by
  rw [fanOutSet, fanOut]
  congr 1
  funext w oid
  by_cases hn : oid = n
  · simp [hn, modify_id]
  · by_cases hup : net.up oid = true <;> simp [hn, hup, forwardReplica, modify_id]

/-- `applySet` is the local write followed by some fan-out, possibly to nobody. -/
theorem applySet_eq_fanOut (n : NodeID) (item : Item V) (replicate : Bool) (w : World V) :
    ∃ replicas : List NodeID, replicas.Nodup ∧ applySet C net n item replicate w =
      fanOut net (fun m => NodeState.applyForwardedSet (C.cfg m) item) n replicas
        (modify w n (NodeState.applySet (C.cfg n) item)) := by
  unfold applySet
  dsimp only
  split
  · exact ⟨[], List.nodup_nil, rfl⟩
  · obtain hring | ⟨ring, hring⟩ := Option.eq_none_or_eq_some (C.cfg n).ring
    · rw [hring]
      exact ⟨[], List.nodup_nil, rfl⟩
    · rw [hring]
      dsimp only
      split
      · exact ⟨[], List.nodup_nil, rfl⟩
      · exact ⟨(ring.lookup item.key).tail,
          (ring.nodup item.key).sublist (List.tail_sublist _), fanOutSet_eq C net n item _ _⟩

/-- A forwarded set changes the receiver as its local part does: the fan-out goes to the
other owners. -/
theorem applyForwardedSet_self (n : NodeID) (item : Item V) (replicate : Bool) (w : World V) :
    applyForwardedSet C net n item replicate w n =
      (w n).applyForwardedSet (C.cfg n) item := by
  unfold applyForwardedSet NodeState.applyForwardedSet
  split
  · obtain ⟨replicas, hnodup, heq⟩ := applySet_eq_fanOut C net n item replicate w
    rw [heq, fanOut_apply net _ n hnodup, if_neg (by simp), modify_self]
  · rfl

/-- Wherever a forwarded set arrives, it passes the ownership guard first. -/
theorem applyForwardedSet_cases (n : NodeID) (item : Item V) (replicate : Bool) (w : World V)
    (m : NodeID) :
    applyForwardedSet C net n item replicate w m = w m ∨
      applyForwardedSet C net n item replicate w m =
        (w m).applyForwardedSet (C.cfg m) item := by
  by_cases hm : m = n
  · subst hm
    exact Or.inr (applyForwardedSet_self C net m item replicate w)
  · unfold applyForwardedSet
    split
    · obtain ⟨replicas, hnodup, heq⟩ := applySet_eq_fanOut C net n item replicate w
      rw [heq, fanOut_apply net _ n hnodup, modify_ne _ _ hm]
      split
      · exact Or.inr rfl
      · exact Or.inl rfl
    · exact Or.inl rfl

theorem fanOutRemove_eq (n : NodeID) (key : Key) (replicas : List NodeID) (w : World V) :
    fanOutRemove C net n key replicas w =
      fanOut net (fun m => NodeState.applyRemove (C.cfg m) net.now key) n replicas w := by
  rw [fanOutRemove, fanOut]
  congr 1
  funext w oid
  by_cases hn : oid = n
  · simp [hn, modify_id]
  · by_cases hup : net.up oid = true <;> simp [hn, hup, forwardRemoveReplica, modify_id]

theorem replicateTo_other [SizedValue V] (n : NodeID) (item : Item V) {replicas : List NodeID}
    (hnd : replicas.Nodup) (w : World V) {m : NodeID} (hm : m ≠ n) :
    (replicateTo C net n item replicas w).1 m =
      if (C.cfg n).hasTransport = true ∧ m ∈ replicas ∧ net.up m = true then
        (w m).applyForwardedSet (C.cfg m) item
      else w m := by
  induction replicas generalizing w with
  | nil => simp [replicateTo]
  | cons oid rest ih =>
      obtain ⟨hoid, hrest⟩ := List.nodup_cons.mp hnd
      rw [replicateTo]
      by_cases ht : (C.cfg n).hasTransport = true
      swap
      · simp only [ht, Bool.not_false, if_true, false_and, if_false, Bool.false_eq_true]
      have hcons : m ∈ oid :: rest ↔ m = oid ∨ m ∈ rest := List.mem_cons
      simp only [ht, Bool.not_true, Bool.false_eq_true, if_false, true_and] at ih ⊢
      by_cases hn : oid = n
      · rw [if_pos hn, ih hrest]
        have : m ≠ oid := fun h => hm (h.trans hn)
        simp only [hcons, this, false_or]
      · rw [if_neg hn, forwardReplica]
        by_cases hup : net.up oid = true
        · simp only [hup, if_true]
          rw [ih hrest]
          by_cases hmo : m = oid
          · subst hmo
            simp only [hoid, false_and, if_false, modify_self, hcons, true_or, hup, and_self,
              if_true]
          · simp only [modify_ne _ _ hmo, hcons, hmo, false_or]
        · simp only [hup, if_false, Bool.false_eq_true]
          rw [ih hrest]
          by_cases hmo : m = oid
          · subst hmo
            simp only [hoid, if_false, modify_ne _ _ hm, hcons, true_or, hup, and_false,
              Bool.false_eq_true]
          · simp only [modify_ne _ _ hm, hcons, hmo, false_or]

theorem replicateTo_self [SizedValue V] (n : NodeID) (item : Item V) (replicas : List NodeID)
    (w : World V) :
    ∃ hs, (replicateTo C net n item replicas w).1 n = { w n with hints := hs } := by
  induction replicas generalizing w with
  | nil => exact ⟨(w n).hints, rfl⟩
  | cons oid rest ih =>
      rw [replicateTo]
      by_cases ht : (C.cfg n).hasTransport = true
      swap
      · exact ⟨(w n).hints, by simp [ht]⟩
      simp only [ht, Bool.not_true, Bool.false_eq_true, if_false]
      by_cases hn : oid = n
      · rw [if_pos hn]
        exact ih w
      · rw [if_neg hn, forwardReplica]
        by_cases hup : net.up oid = true
        · simp only [hup, if_true]
          obtain ⟨hs, h⟩ := ih (modify w oid (NodeState.applyForwardedSet (C.cfg oid) item))
          rw [modify_ne _ _ (Ne.symm hn)] at h
          exact ⟨hs, h⟩
        · simp only [hup, if_false, Bool.false_eq_true]
          obtain ⟨hs, h⟩ := ih
            (modify w n (NodeState.queueHint (C.cfg n) net.now oid item .replication))
          rw [modify_self] at h
          exact ⟨hs, h⟩

theorem replicateTo_acks [SizedValue V] (n : NodeID) (item : Item V) (replicas : List NodeID)
    (w : World V) :
    (replicateTo C net n item replicas w).2 =
      replicas.countP (fun oid => (C.cfg n).hasTransport && (oid != n && net.up oid)) := by
  induction replicas generalizing w with
  | nil => rfl
  | cons oid rest ih =>
      rw [replicateTo, List.countP_cons]
      by_cases ht : (C.cfg n).hasTransport = true
      swap
      · simp [ht]
      simp only [ht, Bool.not_true, Bool.false_eq_true, if_false, Bool.true_and] at ih ⊢
      by_cases hn : oid = n
      · rw [if_pos hn, ih]
        simp [hn]
      · rw [if_neg hn, forwardReplica]
        by_cases hup : net.up oid = true
        · simp only [hup, if_true, ih]
          simp [hn]
        · simp only [hup, if_false, Bool.false_eq_true, ih]
          simp

end World

end HyperCache
