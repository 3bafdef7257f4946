/-
The adaptive replacement cache, as the code has it.

Resident keys are in the lists T1 and T2, the keys of recent victims in the ghost
lists B1 and B2. Each list has an index. The target `p` for the size of T1 moves
with the hits in the ghost lists. Where the code writes through a link it has not
checked, a nil link makes the operation fail.
-/
import HyperCache.Lib.LinkedPair
import HyperCache.Lib.Machines
import HyperCache.PointerLru

namespace HyperCache

open LinkedList Pointwise

variable {V : Type}

/-- `ARC`. A list stands with its index: `t1` is `t1` and `t1Idx`. -/
structure ARC (V : Type) where
  capacity : Nat
  p : Int
  t1 : Indexed Key
  t2 : Indexed Key
  b1 : Indexed Key
  b2 : Indexed Key
  length : Int
  nodes : Memory Key (Option V)
  freshNode : Nat
  ghosts : Memory Key Unit
  freshGhost : Nat

def newARCAlgorithm (capacity : Int) : Except Err (ARC V) :=
  if capacity < 0 then .error .invalidCapacity
  else
    .ok
      { capacity := capacity.toNat
        p := 0
        t1 := .empty
        t2 := .empty
        b1 := .empty
        b2 := .empty
        length := 0
        nodes := fun _ => ⟨[], none, none, none⟩
        freshNode := 0
        ghosts := fun _ => ⟨[], (), none, none⟩
        freshGhost := 0 }

def arcIntMax (a b : Int) : Int := if a > b then a else b

namespace ARC

/-! ## Residents -/

/-- A node of T1 goes to the front of T2, with a new value in `updateIfResident`. -/
def moveToT2 (key : Key) (node : Nat) (f : Option V → Option V) (a : ARC V) :
    Option (ARC V) := do
  let (t1, nodes) ← a.t1.remove node (setValue node f a.nodes)
  let (t2, nodes) := a.t2.pushFront node nodes
  some { a with t1 := t1.erase key, t2 := t2.insert key node, nodes }

def refreshInT2 (node : Nat) (f : Option V → Option V) (a : ARC V) : Option (ARC V) := do
  let (t2, nodes) ← a.t2.remove node (setValue node f a.nodes)
  let (t2, nodes) := t2.pushFront node nodes
  some { a with t2, nodes }

def get (key : Key) (a : ARC V) : Option (ARC V × Option (Option V)) :=
  match a.t1.idx.lookup key with
  | some node => do
      let a ← a.moveToT2 key node id
      some (a, some (a.nodes node).value)
  | none =>
      match a.t2.idx.lookup key with
      | some node => do
          let a ← a.refreshInT2 node id
          some (a, some (a.nodes node).value)
      | none => some (a, none)

def updateIfResident (key : Key) (value : Option V) (a : ARC V) : Option (ARC V × Bool) :=
  match a.t1.idx.lookup key with
  | some node => do some (← a.moveToT2 key node fun _ => value, true)
  | none =>
      match a.t2.idx.lookup key with
      | some node => do some (← a.refreshInT2 node fun _ => value, true)
      | none => some (a, false)

def insertT1 (key : Key) (value : Option V) (a : ARC V) : ARC V :=
  let node := a.freshNode
  let (t1, nodes) :=
    a.t1.pushFront node (modify a.nodes node fun _ => ⟨key, value, none, none⟩)
  { a with t1 := t1.insert key node, nodes, freshNode := node + 1, length := a.length + 1 }

def insertT2 (key : Key) (value : Option V) (a : ARC V) : ARC V :=
  let node := a.freshNode
  let (t2, nodes) :=
    a.t2.pushFront node (modify a.nodes node fun _ => ⟨key, value, none, none⟩)
  { a with t2 := t2.insert key node, nodes, freshNode := node + 1, length := a.length + 1 }

/-! ## Victims -/

/-- The tail of a resident list, if it has one, goes and leaves its key in a ghost list. -/
def demote (t b : Indexed Key) (a : ARC V) :
    Option (Option (Key × Indexed Key × Indexed Key × ARC V)) := do
  match ← t.removeTail a.nodes with
  | none => some none
  | some (tail, t, nodes) =>
      let key := (nodes tail).key
      let ghost := a.freshGhost
      let (b, ghosts) := b.pushFront ghost (modify a.ghosts ghost fun _ => ⟨key, (), none, none⟩)
      some (some (key, t.erase key, b.insert key ghost,
        { a with nodes, ghosts, freshGhost := ghost + 1, length := a.length - 1 }))

def evictFromT1 (a : ARC V) : Option (ARC V × Key) := do
  match ← a.demote a.t1 a.b1 with
  | none => some (a, [])
  | some (key, t1, b1, a) => some ({ a with t1, b1 }, key)

def evictFromT2 (a : ARC V) : Option (ARC V × Key) := do
  match ← a.demote a.t2 a.b2 with
  | none => some (a, [])
  | some (key, t2, b2, a) => some ({ a with t2, b2 }, key)

/-- The side of `replace`. -/
def FromT1 (x : Key) (a : ARC V) : Prop :=
  a.t1.len > 0 ∧
    ((x ≠ [] ∧ (a.b2.idx.lookup x).isSome ∧ a.t1.len = a.p) ∨ a.t1.len > a.p)

instance (x : Key) (a : ARC V) : Decidable (a.FromT1 x) := by
  unfold FromT1
  infer_instance

/-- The key that goes, or the empty one. -/
def replace (x : Key) (a : ARC V) : Option (ARC V × Key) :=
  if a.FromT1 x then a.evictFromT1 else a.evictFromT2

def evict (a : ARC V) : Option (ARC V × Option Key) :=
  if a.capacity = 0 ∨ a.length = 0 then some (a, none)
  else do
    let (a, key) ← a.replace []
    if key = [] then some (a, none) else some (a, some key)

/-! ## Ghost hits -/

/-- The target after a hit in B1. -/
def raised (a : ARC V) : Int :=
  let increment := max (a.b2.len.tdiv (arcIntMax 1 a.b1.len)) 1
  if a.p + increment > a.capacity then a.capacity else a.p + increment

/-- The target after a hit in B2. -/
def lowered (a : ARC V) : Int :=
  let decrement := max (a.b1.len.tdiv (arcIntMax 1 a.b2.len)) 1
  if a.p - decrement < 0 then 0 else a.p - decrement

def handleGhostHit (key : Key) (value : Option V) (a : ARC V) : Option (ARC V × Bool) :=
  match a.b1.idx.lookup key with
  | some ghost => do
      let a := { a with p := a.raised }
      let (a, _) ← a.replace key
      let (b1, ghosts) ← a.b1.remove ghost a.ghosts
      let a := { a with b1 := b1.erase key, ghosts }
      some (a.insertT2 key value, true)
  | none =>
      match a.b2.idx.lookup key with
      | some ghost => do
          let a := { a with p := a.lowered }
          let (a, _) ← a.replace key
          let (b2, ghosts) ← a.b2.remove ghost a.ghosts
          let a := { a with b2 := b2.erase key, ghosts }
          some (a.insertT2 key value, true)
      | none => some (a, false)

/-! ## New keys -/

/-- The oldest ghost of B1 is forgotten. -/
def forgetB1 (a : ARC V) : Option (ARC V) := do
  match ← a.b1.removeTail a.ghosts with
  | none => some a
  | some (tail, b1, ghosts) => some { a with b1 := b1.erase (ghosts tail).key, ghosts }

def forgetB2 (a : ARC V) : Option (ARC V) := do
  match ← a.b2.removeTail a.ghosts with
  | none => some a
  | some (tail, b2, ghosts) => some { a with b2 := b2.erase (ghosts tail).key, ghosts }

def trimForHistoryLimit (a : ARC V) : Option (ARC V) :=
  if a.t1.len < a.capacity then a.forgetB1
  else do
    let (a, _) ← a.evictFromT1
    some a

def trimForTotalLimit (a : ARC V) : Option (ARC V) := do
  let total := a.t1.len + a.t2.len + a.b1.len + a.b2.len
  let a ← if total ≥ 2 * a.capacity then a.forgetB2 else some a
  let (a, _) ← a.replace []
  some a

def ensureCapacityForNew (a : ARC V) : Option (ARC V) :=
  if a.t1.len + a.b1.len ≥ a.capacity then a.trimForHistoryLimit else a.trimForTotalLimit

def insertNew (key : Key) (value : Option V) (a : ARC V) : Option (ARC V) := do
  let a ← if a.length ≥ a.capacity then a.ensureCapacityForNew else some a
  some (a.insertT1 key value)

/-! ## The calls -/

def set (key : Key) (value : Option V) (a : ARC V) : Option (ARC V) :=
  if a.capacity = 0 then some a
  else do
    let (a, resident) ← a.updateIfResident key value
    if resident then some a
    else
      let (a, ghost) ← a.handleGhostHit key value
      if ghost then some a else a.insertNew key value

def delete (key : Key) (a : ARC V) : Option (ARC V) :=
  match a.t1.idx.lookup key with
  | some node => do
      let (t1, nodes) ← a.t1.remove node a.nodes
      some { a with t1 := t1.erase key, nodes, length := a.length - 1 }
  | none =>
      match a.t2.idx.lookup key with
      | some node => do
          let (t2, nodes) ← a.t2.remove node a.nodes
          some { a with t2 := t2.erase key, nodes, length := a.length - 1 }
      | none =>
          match a.b1.idx.lookup key with
          | some ghost => do
              let (b1, ghosts) ← a.b1.remove ghost a.ghosts
              some { a with b1 := b1.erase key, ghosts }
          | none =>
              match a.b2.idx.lookup key with
              | some ghost => do
                  let (b2, ghosts) ← a.b2.remove ghost a.ghosts
                  some { a with b2 := b2.erase key, ghosts }
              | none => some a

def exec (a : ARC V) : AlgOp V → Option (ARC V × Reply V)
  | .set key value => do some (← a.set key value, .done)
  | .get key => do
      let (a, value) ← a.get key
      some (a, .found value)
  | .delete key => do some (← a.delete key, .done)
  | .evict => do
      let (a, key) ← a.evict
      some (a, .victim key)

end ARC

end HyperCache
