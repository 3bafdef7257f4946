/-
The consistent hash ring and the placement it induces.

`Ring.Lookup` walks the virtual nodes clockwise from the key's hash and collects
the first distinct node identifiers until the replication factor is reached.
The hash is the third-party `xxhash` sum, so it is a parameter.  The backend
uses a ring through `Lookup` alone and relies on the owners of a key being
distinct.  `Placement` is that interface, and `Ring.placement` provides it.
-/
import Mathlib.Data.List.Nodup
import HyperCache.Item

namespace HyperCache

/-- The owners of every key, primary first. -/
structure Placement where
  lookup : Key → List NodeID
  nodup : ∀ k, (lookup k).Nodup

/-- Every key on the same owners, as in a cluster no larger than its replication
factor. -/
def Placement.fixed (owners : List NodeID) (h : owners.Nodup) : Placement :=
  ⟨fun _ => owners, fun _ => h⟩

structure VNode where
  hash : UInt64
  nid : NodeID
  deriving DecidableEq, Repr

def defaultVirtualNodes : Nat := 64

/-- A ring: the virtual nodes in hash order and the options it was made with.
`WithVirtualNodes` ignores a count that is not positive. -/
structure Ring where
  vnodes : List VNode
  replication : Nat
  vnPerNode : Nat := defaultVirtualNodes
  vnPerNode_pos : 0 < vnPerNode := by decide

namespace Ring

/-- The loop of `Lookup` over the virtual nodes from the start position on.
`res` doubles as the set of identifiers already seen. -/
def collect (replication : Nat) (res : List NodeID) : List VNode → List NodeID
  | [] => res
  | vn :: rest =>
      if res.length < replication then
        if vn.nid ∈ res then collect replication res rest
        else collect replication (res ++ [vn.nid]) rest
      else res

/-- The first virtual node at or after the target hash, wrapping to the start. -/
def searchStart (vnodes : List VNode) (target : UInt64) : Nat :=
  let idx := vnodes.findIdx (fun vn => decide (vn.hash ≥ target))
  if idx = vnodes.length then 0 else idx

def lookup (sum64 : List UInt8 → UInt64) (r : Ring) (key : Key) : List NodeID :=
  collect r.replication [] (r.vnodes.rotate (searchStart r.vnodes (sum64 key)))

theorem collect_nodup {replication : Nat} {res : List NodeID} (hres : res.Nodup)
    (vns : List VNode) : (collect replication res vns).Nodup := by
  induction vns generalizing res with
  | nil => exact hres
  | cons vn rest ih =>
      rw [collect]
      by_cases hlen : res.length < replication
      · rw [if_pos hlen]
        by_cases hmem : vn.nid ∈ res
        · rw [if_pos hmem]
          exact ih hres
        · rw [if_neg hmem]
          refine ih (List.nodup_append.mpr ⟨hres, List.nodup_singleton _, ?_⟩)
          intro a ha b hb hab
          rw [List.mem_singleton.mp hb] at hab
          exact hmem (hab ▸ ha)
      · rw [if_neg hlen]
        exact hres

/-- A ring places every key on distinct nodes. -/
def placement (sum64 : List UInt8 → UInt64) (r : Ring) : Placement where
  lookup := r.lookup sum64
  nodup _ := collect_nodup List.nodup_nil _

end Ring

end HyperCache
