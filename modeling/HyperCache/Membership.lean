/-
Cluster membership and the ring it keeps.

`Membership` holds one record per node and a ring.  `Upsert` and `Remove` change
the records under the lock, take a snapshot of the members that are not dead
there, and build the ring from the snapshot after the lock is released.  `Mark`
and `Refute` change a record in place and leave the ring as it is.

Go iterates over a map in no fixed order and `slices.SortFunc` is not stable, so
virtual nodes of equal hash may end up in any order.  `Runtime.sort` is the order
one build happens to produce.
-/
import HyperCache.Lib.Keyed
import HyperCache.Lib.SortBy
import HyperCache.Ring

namespace HyperCache

open Sorting

/-- `cluster.NodeState`. -/
inductive Node.State where
  | alive
  | suspect
  | dead
  deriving DecidableEq, Repr

/-- `cluster.Node`, with the defaults of `NewNode`. -/
structure Node where
  id : NodeID
  address : Str := []
  state : Node.State := .alive
  incarnation : UInt64 := 1
  lastSeen : Time := 0
  deriving DecidableEq, Repr

namespace Ring

/-- The virtual nodes of one node.  The index is appended as a single byte. -/
def vnodesOf (sum64 : List UInt8 → UInt64) (vnPerNode : Nat) (id : NodeID) : List VNode :=
  (List.range vnPerNode).map (fun i => ⟨sum64 (id ++ [UInt8.ofNat i]), id⟩)

def build (sum64 : List UInt8 → UInt64) (sort : SortBy VNode.hash) (nodes : List Node)
    (r : Ring) : Ring :=
  { r with vnodes := sort.sort (nodes.flatMap (fun n => vnodesOf sum64 r.vnPerNode n.id)) }

end Ring

structure Membership where
  nodes : Keyed.Store Node.id
  ring : Ring
  version : UInt64 := 0

/-- The record of a node after it was marked. -/
def Node.marked (now : Time) (state : Node.State) (n : Node) : Node :=
  if n.state = state then { n with lastSeen := now }
  else { n with incarnation := n.incarnation + 1, state := state, lastSeen := now }

/-- What the runtime decides for one call: the clock and the order of one build. -/
structure Runtime where
  now : Time := 0
  sort : SortBy VNode.hash := .insertion _

namespace Membership

/-- `NewMembership` around a ring that has not been built yet. -/
def new (replication vnPerNode : Nat) (h : 0 < vnPerNode) : Membership where
  nodes := .empty
  ring := ⟨[], replication, vnPerNode, h⟩

/-- `List`: a copy of every record. -/
def list (m : Membership) : List Node := m.nodes.values

/-- The snapshot a ring is built from. -/
def live (m : Membership) : List Node :=
  m.nodes.values.filter (fun n => n.state ≠ .dead)

def liveIDs (m : Membership) : List NodeID := m.live.map Node.id

def rebuild (sum64 : List UInt8 → UInt64) (sort : SortBy VNode.hash) (nodes : List Node)
    (m : Membership) : Membership :=
  { m with ring := m.ring.build sum64 sort nodes }

/-- `Upsert` up to the release of the lock. -/
def upsertLocked (now : Time) (n : Node) (m : Membership) : Membership :=
  { m with nodes := m.nodes.put { n with lastSeen := now }, version := m.version + 1 }

def upsert (sum64 : List UInt8 → UInt64) (rt : Runtime) (n : Node) (m : Membership) :
    Membership :=
  let m' := m.upsertLocked rt.now n
  m'.rebuild sum64 rt.sort m'.live

/-- `Remove` up to the release of the lock, when the node is there. -/
def removeLocked (id : NodeID) (m : Membership) : Option Membership :=
  match m.nodes.get id with
  | none => none
  | some _ => some { m with nodes := m.nodes.erase id, version := m.version + 1 }

def remove (sum64 : List UInt8 → UInt64) (rt : Runtime) (id : NodeID) (m : Membership) :
    Bool × Membership :=
  match m.removeLocked id with
  | none => (false, m)
  | some m' => (true, m'.rebuild sum64 rt.sort m'.live)

def mark (now : Time) (id : NodeID) (state : Node.State) (m : Membership) : Bool × Membership :=
  match m.nodes.get id with
  | none => (false, m)
  | some n =>
      if n.state = state then (true, { m with nodes := m.nodes.put { n with lastSeen := now } })
      else
        (true,
          { m with
            nodes := m.nodes.put
              { n with incarnation := n.incarnation + 1, state := state, lastSeen := now }
            version := m.version + 1 })

def refute (now : Time) (id : NodeID) (m : Membership) : Bool × Membership :=
  match m.nodes.get id with
  | none => (false, m)
  | some n =>
      (true,
        { m with
          nodes := m.nodes.put
            { n with incarnation := n.incarnation + 1, state := .alive, lastSeen := now }
          version := m.version + 1 })

/-! ## Reading the records back -/

theorem nodup_ids_list (m : Membership) : (m.list.map Node.id).Nodup :=
  m.nodes.nodup_map_key_values

theorem mem_liveIDs {m : Membership} {id : NodeID} :
    id ∈ m.liveIDs ↔ ∃ n, m.nodes.get id = some n ∧ n.state ≠ .dead := by
  constructor
  · intro h
    obtain ⟨n, hn, rfl⟩ := List.mem_map.mp h
    obtain ⟨hmem, hstate⟩ := List.mem_filter.mp hn
    exact ⟨n, Keyed.Store.mem_values.mp hmem, of_decide_eq_true hstate⟩
  · rintro ⟨n, hget, hstate⟩
    have hid : n.id = id := Keyed.Store.key_of_get hget
    subst hid
    exact List.mem_map.mpr
      ⟨n, List.mem_filter.mpr ⟨Keyed.Store.mem_values.mpr hget, decide_eq_true hstate⟩, rfl⟩

theorem nodup_liveIDs (m : Membership) : m.liveIDs.Nodup :=
  m.nodup_ids_list.sublist (List.filter_sublist.map _)

theorem liveIDs_perm {m m' : Membership}
    (h : ∀ id, id ∈ m.liveIDs ↔ id ∈ m'.liveIDs) : m.liveIDs.Perm m'.liveIDs :=
  (List.perm_ext_iff_of_nodup m.nodup_liveIDs m'.nodup_liveIDs).mpr h

theorem upsert_get (sum64 : List UInt8 → UInt64) (rt : Runtime) (n : Node) (m : Membership)
    (id : NodeID) :
    (m.upsert sum64 rt n).nodes.get id =
      if id = n.id then some { n with lastSeen := rt.now } else m.nodes.get id :=
  Keyed.Store.get_put _ _ _

theorem remove_get (sum64 : List UInt8 → UInt64) (rt : Runtime) (id : NodeID) (m : Membership)
    (id' : NodeID) :
    (m.remove sum64 rt id).2.nodes.get id' = if id' = id then none else m.nodes.get id' := by
  unfold remove removeLocked
  cases hget : m.nodes.get id with
  | none =>
      by_cases h : id' = id
      · rw [if_pos h, h]
        exact hget
      · rw [if_neg h]
  | some n => exact Keyed.Store.get_erase _ _ _

theorem mark_get (now : Time) (id : NodeID) (state : Node.State) (m : Membership) (id' : NodeID) :
    (m.mark now id state).2.nodes.get id' =
      if id' = id then (m.nodes.get id).map (Node.marked now state) else m.nodes.get id' := by
  unfold mark
  cases hget : m.nodes.get id with
  | none =>
      by_cases h : id' = id
      · rw [if_pos h, h]
        exact hget
      · rw [if_neg h]
  | some n =>
      have hid : n.id = id := Keyed.Store.key_of_get hget
      dsimp only
      rw [Option.map_some, Node.marked]
      split
      · show (Keyed.Store.put _ m.nodes).get id' = _
        rw [Keyed.Store.get_put]
        simp only [hid]
      · show (Keyed.Store.put _ m.nodes).get id' = _
        rw [Keyed.Store.get_put]
        simp only [hid]

theorem refute_get (now : Time) (id : NodeID) (m : Membership) (id' : NodeID) :
    (m.refute now id).2.nodes.get id' =
      if id' = id then
        (m.nodes.get id).map (fun n =>
          { n with incarnation := n.incarnation + 1, state := .alive, lastSeen := now })
      else m.nodes.get id' := by
  unfold refute
  split
  case h_1 hnone =>
    by_cases h : id' = id
    · subst h
      rw [if_pos rfl, hnone]
      rfl
    · rw [if_neg h]
  case h_2 n hsome =>
    have hid : n.id = id := Keyed.Store.key_of_get hsome
    rw [hsome, Option.map_some]
    show (Keyed.Store.put _ m.nodes).get id' = _
    rw [Keyed.Store.get_put]
    simp only [hid]

end Membership

end HyperCache
