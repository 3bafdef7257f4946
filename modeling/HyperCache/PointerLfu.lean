/-
LFU as the code has it: a map of nodes and a heap, where each node stores its index.

The heap is kept in order by the package `container/heap`, which is a parameter here:
any package that meets the documented contract. A call of it outside the contract, at
an index that is not in the heap, is a failure of the step.
-/
import HyperCache.Lib.HeapContract
import HyperCache.PointerLru

namespace HyperCache

open HeapContract Pointwise

variable {V : Type}

namespace Pointers

structure Node (V : Type) where
  key : Key
  value : Option V
  count : Int
  index : Int
  last : UInt64

/-- The slice of nodes, and the memory they are in. -/
structure FrequencyHeap (V : Type) where
  mem : Nat → Node V
  nodes : List Nat

namespace FrequencyHeap

def setIndex (node : Option Nat) (i : Int) (mem : Nat → Node V) : Nat → Node V :=
  match node with
  | none => mem
  | some p => modify mem p fun n => { n with index := i }

def less (i j : Nat) (fh : FrequencyHeap V) : Bool :=
  match fh.nodes[i]?, fh.nodes[j]? with
  | some p, some q =>
      if (fh.mem p).count = (fh.mem q).count then (fh.mem p).last < (fh.mem q).last
      else (fh.mem p).count < (fh.mem q).count
  | _, _ => false

def swap (i j : Nat) (fh : FrequencyHeap V) : FrequencyHeap V :=
  let nodes := swapAt i j fh.nodes
  { mem := setIndex nodes[j]? j (setIndex nodes[i]? i fh.mem)
    nodes }

def push (node : Nat) (fh : FrequencyHeap V) : FrequencyHeap V where
  mem := setIndex (some node) fh.nodes.length fh.mem
  nodes := fh.nodes ++ [node]

def pop (fh : FrequencyHeap V) : FrequencyHeap V where
  mem := setIndex fh.nodes.getLast? (-1) fh.mem
  nodes := fh.nodes.dropLast

/-- What `less` compares. -/
def rank (fh : FrequencyHeap V) (p : Nat) : Int ×ₗ UInt64 :=
  toLex ((fh.mem p).count, (fh.mem p).last)

/-- A node without its place in the heap. -/
def unplaced (fh : FrequencyHeap V) (p : Nat) : Node V := { fh.mem p with index := 0 }

theorem same_of_unplaced {fh fh' : FrequencyHeap V} (h : fh'.unplaced = fh.unplaced) (p : Nat) :
    (fh'.mem p).key = (fh.mem p).key ∧ (fh'.mem p).value = (fh.mem p).value ∧
      (fh'.mem p).count = (fh.mem p).count ∧ (fh'.mem p).last = (fh.mem p).last := by
  simpa [unplaced] using congrFun h p

theorem rank_of_unplaced {fh fh' : FrequencyHeap V} (h : fh'.unplaced = fh.unplaced) :
    fh'.rank = fh.rank := by
  funext p
  obtain ⟨-, -, hcount, hlast⟩ := same_of_unplaced h p
  rw [rank, rank, hcount, hlast]

theorem unplaced_setIndex (node : Option Nat) (i : Int) (mem : Nat → Node V)
    (nodes nodes' : List Nat) :
    unplaced ⟨setIndex node i mem, nodes'⟩ = unplaced ⟨mem, nodes⟩ := by
  funext q
  cases node with
  | none => rfl
  | some p =>
      simp only [unplaced, setIndex, modify_apply]
      split <;> rfl

theorem unplaced_swap (fh : FrequencyHeap V) (i j : Nat) :
    (fh.swap i j).unplaced = fh.unplaced :=
  (unplaced_setIndex _ _ _ fh.nodes _).trans (unplaced_setIndex _ _ _ _ _)

theorem unplaced_push (p : Nat) (fh : FrequencyHeap V) : (fh.push p).unplaced = fh.unplaced :=
  unplaced_setIndex _ _ _ _ _

theorem unplaced_pop (fh : FrequencyHeap V) : fh.pop.unplaced = fh.unplaced :=
  unplaced_setIndex _ _ _ _ _

theorem less_iff {fh : FrequencyHeap V} {i j p q : Nat} (hi : fh.nodes[i]? = some p)
    (hj : fh.nodes[j]? = some q) : fh.less i j ↔ fh.rank p < fh.rank q := by
  rw [less, hi, hj, rank, rank, Prod.Lex.toLex_lt_toLex]
  by_cases heq : (fh.mem p).count = (fh.mem q).count
  · simp [heq]
  · simp [heq]

variable (V) in
/-- The heap as the package sees it. -/
def interface : Interface (FrequencyHeap V) Nat (Int ×ₗ UInt64) where
  elems := nodes
  rank := rank
  less := less
  swap := swap
  push := push
  pop := pop
  less_iff := fun _ _ _ _ _ hi hj => less_iff hi hj
  elems_swap := fun _ _ _ _ _ => rfl
  elems_push := fun _ _ => rfl
  elems_pop := fun _ => rfl
  rank_swap := fun fh i j => rank_of_unplaced (unplaced_swap fh i j)
  rank_push := fun p fh => rank_of_unplaced (unplaced_push p fh)
  rank_pop := fun fh => rank_of_unplaced (unplaced_pop fh)

/-- An index that the package may be called with. -/
def at? (index : Int) (fh : FrequencyHeap V) : Option Nat :=
  if 0 ≤ index ∧ index < fh.nodes.length then some index.toNat else none

def fix (H : Package (interface V)) (index : Int) (fh : FrequencyHeap V) :
    Option (FrequencyHeap V) := do
  let i ← fh.at? index
  some (H.fix i fh)

def remove (H : Package (interface V)) (index : Int) (fh : FrequencyHeap V) :
    Option (FrequencyHeap V × Nat) := do
  let i ← fh.at? index
  let node ← (H.remove i fh).2
  some ((H.remove i fh).1, node)

/-! ## The stored indexes -/

/-- The heap has no node twice, and every node in it knows where it is. -/
structure Indexed (fh : FrequencyHeap V) : Prop where
  nodup : fh.nodes.Nodup
  index : ∀ (i : Nat) p, fh.nodes[i]? = some p → (fh.mem p).index = i

variable {fh : FrequencyHeap V} {p : Nat}

theorem Indexed.ne_of_ne (h : fh.Indexed) {i j q : Nat} (hi : fh.nodes[i]? = some p)
    (hj : fh.nodes[j]? = some q) (hne : i ≠ j) : p ≠ q := by
  rintro rfl
  have hlt := (List.getElem?_eq_some_iff.mp hi).1
  exact hne ((List.getElem?_inj hlt h.nodup).mp (hi.trans hj.symm))

theorem Indexed.at? (h : fh.Indexed) (hp : p ∈ fh.nodes) :
    ∃ i, fh.at? (fh.mem p).index = some i ∧ fh.nodes[i]? = some p := by
  obtain ⟨i, hi⟩ := List.mem_iff_getElem?.mp hp
  have hlt := (List.getElem?_eq_some_iff.mp hi).1
  refine ⟨i, ?_, hi⟩
  rw [FrequencyHeap.at?, h.index i p hi, if_pos (by omega), Int.toNat_natCast]

theorem setIndex_self (i : Int) (mem : Nat → Node V) : (setIndex (some p) i mem p).index = i := by
  rw [setIndex, modify_self]

theorem setIndex_ne {q : Nat} (h : q ≠ p) (i : Int) (mem : Nat → Node V) :
    setIndex (some p) i mem q = mem q := by
  rw [setIndex, modify_ne _ _ h]

theorem Indexed.swap (h : fh.Indexed) {i j : Nat} (hi : i < fh.nodes.length)
    (hj : j < fh.nodes.length) : (fh.swap i j).Indexed := by
  have hp := List.getElem?_eq_getElem hi
  have hq := List.getElem?_eq_getElem hj
  have hget := getElem?_swapAt hp hq
  refine ⟨(swapAt_perm i j fh.nodes).nodup_iff.mpr h.nodup, ?_⟩
  intro k r hk
  have hk' : (swapAt i j fh.nodes)[k]? = some r := hk
  show (setIndex (swapAt i j fh.nodes)[j]? j
    (setIndex (swapAt i j fh.nodes)[i]? i fh.mem) r).index = k
  rw [hget j, hget i, if_pos rfl]
  rw [hget k] at hk'
  by_cases hkj : k = j
  · rw [if_pos hkj, Option.some.injEq] at hk'
    rw [← hk', setIndex_self, hkj]
  · rw [if_neg hkj] at hk'
    by_cases hki : k = i
    · rw [if_pos hki, Option.some.injEq] at hk'
      have hne := h.ne_of_ne hq hp (by omega)
      rw [if_pos rfl, if_neg (by omega), ← hk', setIndex_ne hne, setIndex_self, hki]
    · rw [if_neg hki] at hk'
      have hne := h.ne_of_ne hk' hp hki
      have hne' := h.ne_of_ne hk' hq hkj
      rw [setIndex_ne hne]
      split
      · rw [setIndex_ne hne, h.index k r hk']
      · rw [if_pos rfl, setIndex_ne hne', h.index k r hk']

theorem Indexed.push (h : fh.Indexed) (hp : p ∉ fh.nodes) : (fh.push p).Indexed := by
  refine ⟨List.nodup_append'.mpr ⟨h.nodup, List.nodup_singleton p, ?_⟩, ?_⟩
  · intro q hq hq'
    exact hp (List.mem_singleton.mp hq' ▸ hq)
  · intro k r hk
    have hk' : (fh.nodes ++ [p])[k]? = some r := hk
    show (setIndex (some p) fh.nodes.length fh.mem r).index = k
    by_cases hlt : k < fh.nodes.length
    · rw [List.getElem?_append_left hlt] at hk'
      have hne : r ≠ p := fun heq => hp (heq ▸ List.mem_of_getElem? hk')
      rw [setIndex_ne hne, h.index k r hk']
    · rw [List.getElem?_append_right (by omega), List.getElem?_singleton] at hk'
      split at hk'
      · obtain rfl := Option.some.inj hk'
        rw [setIndex_self]
        omega
      · cases hk'

theorem Indexed.pop (h : fh.Indexed) : fh.pop.Indexed := by
  refine ⟨h.nodup.sublist (List.dropLast_sublist _), ?_⟩
  intro k r hk
  have hk' : fh.nodes.dropLast[k]? = some r := hk
  rw [List.getElem?_dropLast] at hk'
  split at hk'
  · rename_i hlt
    have hlast := List.getElem?_eq_getElem (l := fh.nodes) (i := fh.nodes.length - 1) (by omega)
    show (setIndex fh.nodes.getLast? (-1) fh.mem r).index = k
    rw [List.getLast?_eq_getElem?, hlast, setIndex_ne (h.ne_of_ne hk' hlast (by omega)),
      h.index k r hk']
  · cases hk'

/-! ## The calls of the package -/

theorem Indexed.swaps (h : fh.Indexed) {script : List (Nat × Nat)}
    (hrange : inRange fh.nodes.length script) :
    ((interface V).swaps script fh).Indexed ∧
      ((interface V).swaps script fh).nodes.Perm fh.nodes ∧
      ((interface V).swaps script fh).unplaced = fh.unplaced := by
  refine ⟨?_, Interface.perm_swaps (I := interface V) hrange, ?_⟩
  · exact Interface.swaps_inv (I := interface V) (fun _ _ _ h hi hj => h.swap hi hj) h hrange
  · refine Interface.swaps_inv (I := interface V) (P := fun t => t.unplaced = fh.unplaced) ?_ rfl
      hrange
    intro t i j ht _ _
    exact (unplaced_swap t i j).trans ht

/-- A heap in order whose nodes know where they are. -/
structure Valid (fh : FrequencyHeap V) : Prop extends Indexed fh where
  ordered : Ordered fh.rank fh.nodes

/-- `Fix` puts a heap in order that was in order before one node changed. -/
theorem Indexed.fix (H : Package (interface V)) (h : fh.Indexed) (hp : p ∈ fh.nodes)
    {before : Nat → Int ×ₗ UInt64} (hbefore : Ordered before fh.nodes)
    (hsame : ∀ q, q ≠ p → before q = fh.rank q) :
    ∃ fh', fh.fix H (fh.mem p).index = some fh' ∧ fh'.Valid ∧ fh'.nodes.Perm fh.nodes ∧
      fh'.unplaced = fh.unplaced := by
  obtain ⟨i, hat, hi⟩ := h.at? hp
  obtain ⟨hindexed, hperm, hunplaced⟩ := h.swaps (H.fix_inRange i fh)
  have hlt := (List.getElem?_eq_some_iff.mp hi).1
  have hordered := H.fix_ordered i fh before hlt hbefore
    fun j q hj hq => hsame q (h.ne_of_ne hq hi hj)
  refine ⟨H.fix i fh, by rw [FrequencyHeap.fix, hat]; rfl, ⟨hindexed, ?_⟩, hperm, hunplaced⟩
  rw [show (H.fix i fh).rank = fh.rank from Interface.rank_swaps (I := interface V) _ fh]
  exact hordered

theorem Valid.push (H : Package (interface V)) (h : fh.Valid) (hp : p ∉ fh.nodes) :
    (H.push p fh).Valid ∧ (H.push p fh).nodes.Perm (p :: fh.nodes) ∧
      (H.push p fh).unplaced = fh.unplaced := by
  have hunpushed := unplaced_push p fh
  obtain ⟨hindexed, hperm, hunplaced⟩ :=
    (h.toIndexed.push hp).swaps (H.push_inRange (FrequencyHeap.push p fh))
  have hordered := H.push_ordered (FrequencyHeap.push p fh) (by
    show Ordered (fh.push p).rank (fh.nodes ++ [p]).dropLast
    rw [rank_of_unplaced hunpushed, List.dropLast_concat]
    exact h.ordered)
  refine ⟨⟨hindexed, ?_⟩, hperm.trans (List.perm_append_singleton p fh.nodes),
    hunplaced.trans hunpushed⟩
  rw [show (H.push p fh).rank = (fh.push p).rank from
    Interface.rank_swaps (I := interface V) _ (fh.push p)]
  exact hordered

theorem Valid.remove (H : Package (interface V)) (h : fh.Valid) {i : Nat}
    (hi : fh.nodes[i]? = some p) :
    ∃ fh', fh.remove H i = some (fh', p) ∧ fh'.Valid ∧ fh.nodes.Perm (p :: fh'.nodes) ∧
      fh'.unplaced = fh.unplaced := by
  have hlt := (List.getElem?_eq_some_iff.mp hi).1
  obtain ⟨hindexed, hperm, hunplaced⟩ := h.toIndexed.swaps (H.remove_inRange i fh)
  have hlast := (H.remove_last i fh hlt).trans hi
  have hordered := H.remove_ordered i fh hlt h.ordered
  have hunplaced' : (H.remove i fh).1.unplaced = fh.unplaced := (unplaced_pop _).trans hunplaced
  refine ⟨(H.remove i fh).1, ?_, ⟨hindexed.pop, ?_⟩, ?_, hunplaced'⟩
  · have hat : fh.at? i = some i := by
      rw [FrequencyHeap.at?, if_pos (by omega), Int.toNat_natCast]
    have hnode : (H.remove i fh).2 = some p := hlast
    rw [FrequencyHeap.remove, hat]
    simp [hnode]
  · rw [rank_of_unplaced hunplaced']
    exact hordered
  · obtain ⟨front, hfront⟩ := List.getLast?_eq_some_iff.mp hlast
    have hnodes : (H.remove i fh).1.nodes = front := by
      show ((interface V).elems _).dropLast = front
      rw [hfront, List.dropLast_concat]
    rw [hnodes]
    refine hperm.symm.trans ?_
    rw [show ((interface V).swaps (H.removeSwaps i fh) fh).nodes = front ++ [p] from hfront]
    exact List.perm_append_singleton p front

end FrequencyHeap

/-! ## The algorithm -/

structure LFUAlgorithm (V : Type) where
  items : AList (fun _ : Key => Nat)
  freqs : FrequencyHeap V
  length : Int
  cap : Nat
  seq : UInt64
  fresh : Nat

def newLFUAlgorithm (capacity : Int) : Except Err (LFUAlgorithm V) :=
  if capacity < 0 then .error .invalidCapacity
  else
    .ok
      { items := ∅
        freqs := ⟨fun _ => ⟨[], none, 0, 0, 0⟩, []⟩
        length := 0
        cap := capacity.toNat
        seq := 0
        fresh := 0 }

namespace LFUAlgorithm

/-- The update in `Set`, and in `Get`, which leaves the value. The count is a 64-bit
integer and wraps. -/
def touch (node : Nat) (value : Option V → Option V) (l : LFUAlgorithm V) : LFUAlgorithm V :=
  let seq := l.seq + 1
  let mem := modify l.freqs.mem node fun n =>
    { n with
      value := value n.value
      count := (n.count + 1).bmod 0x10000000000000000
      last := seq }
  { l with
    seq
    freqs := { l.freqs with mem } }

/-- A new node, and its entry in the map. -/
def allocate (key : Key) (value : Option V) (l : LFUAlgorithm V) : LFUAlgorithm V :=
  let seq := l.seq + 1
  let mem := modify l.freqs.mem l.fresh fun _ => ⟨key, value, 1, 0, seq⟩
  { l with
    seq
    fresh := l.fresh + 1
    items := l.items.insert key l.fresh
    freqs := { l.freqs with mem } }

variable (H : Package (FrequencyHeap.interface V))

def access (node : Nat) (value : Option V → Option V) (l : LFUAlgorithm V) :
    Option (LFUAlgorithm V) := do
  let l := l.touch node value
  let freqs ← l.freqs.fix H (l.freqs.mem node).index
  some { l with freqs }

def internalEvict (l : LFUAlgorithm V) : Option (LFUAlgorithm V × Option Key) :=
  if l.length = 0 then some (l, none)
  else do
    let (freqs, node) ← l.freqs.remove H 0
    let key := (freqs.mem node).key
    some ({ l with freqs, items := l.items.erase key, length := l.length - 1 }, some key)

def evict (l : LFUAlgorithm V) : Option (LFUAlgorithm V × Option Key) :=
  if l.cap = 0 then some (l, none) else l.internalEvict H

/-- The insertion in `Set`. -/
def insertNew (key : Key) (value : Option V) (l : LFUAlgorithm V) : LFUAlgorithm V :=
  let node := l.fresh
  let l := l.allocate key value
  { l with
    freqs := H.push node l.freqs
    length := l.length + 1 }

def set (key : Key) (value : Option V) (l : LFUAlgorithm V) : Option (LFUAlgorithm V) :=
  if l.cap = 0 then some l
  else
    match l.items.lookup key with
    | some node => l.access H node fun _ => value
    | none =>
        if l.length = l.cap then do
          let (l, _) ← l.internalEvict H
          some (l.insertNew H key value)
        else some (l.insertNew H key value)

def get (key : Key) (l : LFUAlgorithm V) : Option (LFUAlgorithm V × Option (Option V)) :=
  match l.items.lookup key with
  | none => some (l, none)
  | some node => do
      let l ← l.access H node id
      some (l, some (l.freqs.mem node).value)

def delete (key : Key) (l : LFUAlgorithm V) : Option (LFUAlgorithm V) :=
  match l.items.lookup key with
  | none => some l
  | some node => do
      let (freqs, _) ← l.freqs.remove H (l.freqs.mem node).index
      some { l with freqs, items := l.items.erase key, length := l.length - 1 }

def exec (l : LFUAlgorithm V) : AlgOp V → Option (LFUAlgorithm V × Reply V)
  | .set key value => (l.set H key value).map fun l => (l, .done)
  | .get key => (l.get H key).map fun r => (r.1, .found r.2)
  | .delete key => (l.delete H key).map fun l => (l, .done)
  | .evict => (l.evict H).map fun r => (r.1, .victim r.2)

end LFUAlgorithm

end Pointers

end HyperCache
