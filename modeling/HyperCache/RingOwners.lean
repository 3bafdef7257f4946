/-
Who owns a key.

A walk clockwise from the hash of a key meets the virtual nodes of the ring one
after another, and each node first at its nearest virtual node.  `clockwise` is the
order of the nodes by that distance, and `Lookup` returns its first entries.  The
order is one of the set of nodes, and a node that leaves drops out of it without
moving the others.

`Lookup` finds its starting point with `sort.Search`.  `lookupSearch` follows the
source there, and on a ring in hash order it is `lookup`.

`bufs` are the strings whose hashes place the virtual nodes.  The index of a virtual
node goes into them as one byte, so that a node has no more than 256 positions.
-/
import Mathlib.Data.Finset.Card
import HyperCache.Lib.Circle
import HyperCache.Lib.Search
import HyperCache.RingSync

namespace HyperCache

open Sorting Circle

variable {sum64 : List UInt8 → UInt64}

namespace Ring

/-- `Lookup`, with its binary search. -/
def lookupSearch (sum64 : List UInt8 → UInt64) (r : Ring) (key : Key) : List NodeID :=
  let target := sum64 key
  let idx := Search.search (fun i => r.vnodes[i]?.any (fun vn => decide (vn.hash ≥ target))) 0
    r.vnodes.length
  collect r.replication [] (r.vnodes.rotate (if idx = r.vnodes.length then 0 else idx))

/-- How far clockwise of the target the nearest of the virtual nodes `0` to `n` of a node is. -/
def reachUpTo (sum64 : List UInt8 → UInt64) (target : UInt64) (id : NodeID) : Nat → Nat
  | 0 => ahead target (sum64 (id ++ [UInt8.ofNat 0]))
  | n + 1 =>
      min (reachUpTo sum64 target id n) (ahead target (sum64 (id ++ [UInt8.ofNat (n + 1)])))

/-- How far clockwise of the target a walk first meets a node. -/
def reach (sum64 : List UInt8 → UInt64) (vnPerNode : Nat) (target : UInt64) (id : NodeID) : Nat :=
  reachUpTo sum64 target id (vnPerNode - 1)

/-- The nodes in the order in which a walk clockwise from the hash of the key meets them. -/
def clockwise (sum64 : List UInt8 → UInt64) (vnPerNode : Nat) (key : Key) (ids : List NodeID) :
    List NodeID :=
  (SortBy.insertion (reach sum64 vnPerNode (sum64 key))).sort ids

/-- Virtual nodes of different nodes have different hashes. -/
def Apart (sum64 : List UInt8 → UInt64) (vnPerNode : Nat) (ids : List NodeID) : Prop :=
  ∀ a ∈ ids, ∀ b ∈ ids, ∀ va ∈ vnodesOf sum64 vnPerNode a, ∀ vb ∈ vnodesOf sum64 vnPerNode b,
    va.hash = vb.hash → a = b

theorem Apart.of_subset {vnPerNode : Nat} {ids ids' : List NodeID}
    (h : Apart sum64 vnPerNode ids) (hsub : ∀ id ∈ ids', id ∈ ids) :
    Apart sum64 vnPerNode ids' :=
  fun a ha b hb => h a (hsub a ha) b (hsub b hb)

/-! ## The nearest virtual node -/

theorem reachUpTo_le (target : UInt64) (id : NodeID) {i n : Nat} (h : i ≤ n) :
    reachUpTo sum64 target id n ≤ ahead target (sum64 (id ++ [UInt8.ofNat i])) := by
  induction n with
  | zero =>
      have hi : i = 0 := by omega
      subst hi
      exact Nat.le_refl _
  | succ n ih =>
      rw [reachUpTo]
      rcases Nat.lt_or_ge n i with hlt | hge
      · have hi : i = n + 1 := by omega
        subst hi
        exact Nat.min_le_right _ _
      · exact Nat.le_trans (Nat.min_le_left _ _) (ih hge)

theorem exists_reachUpTo_eq (sum64 : List UInt8 → UInt64) (target : UInt64) (id : NodeID)
    (n : Nat) :
    ∃ i ≤ n, ahead target (sum64 (id ++ [UInt8.ofNat i])) = reachUpTo sum64 target id n := by
  induction n with
  | zero => exact ⟨0, Nat.le_refl 0, rfl⟩
  | succ n ih =>
      rw [reachUpTo]
      rcases Nat.le_total (reachUpTo sum64 target id n)
        (ahead target (sum64 (id ++ [UInt8.ofNat (n + 1)]))) with hle | hle
      · obtain ⟨i, hi, heq⟩ := ih
        exact ⟨i, by omega, by rw [Nat.min_eq_left hle, heq]⟩
      · exact ⟨n + 1, Nat.le_refl _, by rw [Nat.min_eq_right hle]⟩

theorem mem_vnodesOf {vnPerNode : Nat} {id : NodeID} {vn : VNode} :
    vn ∈ vnodesOf sum64 vnPerNode id ↔
      ∃ i < vnPerNode, vn = ⟨sum64 (id ++ [UInt8.ofNat i]), id⟩ := by
  rw [vnodesOf, List.mem_map]
  constructor
  · rintro ⟨i, hi, rfl⟩
    exact ⟨i, List.mem_range.mp hi, rfl⟩
  · rintro ⟨i, hi, rfl⟩
    exact ⟨i, List.mem_range.mpr hi, rfl⟩

theorem reach_le {vnPerNode : Nat} {id : NodeID} {vn : VNode} (target : UInt64)
    (h : vn ∈ vnodesOf sum64 vnPerNode id) :
    reach sum64 vnPerNode target vn.nid ≤ ahead target vn.hash := by
  obtain ⟨i, hi, rfl⟩ := mem_vnodesOf.mp h
  exact reachUpTo_le target id (by omega)

theorem exists_reach_eq (sum64 : List UInt8 → UInt64) {vnPerNode : Nat} (hpos : 0 < vnPerNode)
    (target : UInt64) (id : NodeID) :
    ∃ vn ∈ vnodesOf sum64 vnPerNode id, vn.nid = id ∧
      ahead target vn.hash = reach sum64 vnPerNode target id := by
  obtain ⟨i, hi, heq⟩ := exists_reachUpTo_eq sum64 target id (vnPerNode - 1)
  exact ⟨_, mem_vnodesOf.mpr ⟨i, by omega, rfl⟩, rfl, heq⟩

/-- Different nodes are met at different distances. -/
theorem Apart.reach_inj {vnPerNode : Nat} (hpos : 0 < vnPerNode) {ids : List NodeID}
    (h : Apart sum64 vnPerNode ids) (target : UInt64) {a b : NodeID} (ha : a ∈ ids) (hb : b ∈ ids)
    (heq : reach sum64 vnPerNode target a = reach sum64 vnPerNode target b) : a = b := by
  obtain ⟨va, hva, -, hda⟩ := exists_reach_eq sum64 hpos target a
  obtain ⟨vb, hvb, -, hdb⟩ := exists_reach_eq sum64 hpos target b
  exact h a ha b hb va hva vb hvb (ahead_inj (hda.trans (heq.trans hdb.symm)))

theorem clockwise_perm (sum64 : List UInt8 → UInt64) (vnPerNode : Nat) (key : Key)
    (ids : List NodeID) :
    (clockwise sum64 vnPerNode key ids).Perm ids :=
  SortBy.perm _ ids

/-! ## The walk -/

theorem collect_eq (replication : Nat) (res : List NodeID) (vns : List VNode) :
    collect replication res vns =
      res ++ (firsts VNode.nid res vns).take (replication - res.length) := by
  induction vns generalizing res with
  | nil => rw [collect, firsts, List.take_nil, List.append_nil]
  | cons vn rest ih =>
      rw [collect, firsts]
      by_cases hlen : res.length < replication
      · rw [if_pos hlen]
        by_cases hmem : vn.nid ∈ res
        · rw [if_pos hmem, if_pos hmem, ih]
        · have hsub : replication - res.length = (replication - (res ++ [vn.nid]).length) + 1 := by
            rw [List.length_append, List.length_singleton]
            omega
          rw [if_neg hmem, if_neg hmem, ih, hsub, List.take_succ_cons, List.append_assoc]
          rfl
      · have hzero : replication - res.length = 0 := by omega
        rw [if_neg hlen, hzero, List.take_zero, List.append_nil]

/-- On a ring in hash order the binary search starts the walk where a scan would. -/
theorem lookupSearch_eq {r : Ring} (h : r.vnodes.Pairwise (fun a b => a.hash ≤ b.hash))
    (key : Key) : r.lookupSearch sum64 key = r.lookup sum64 key := by
  have hmono : r.vnodes.Pairwise (fun a b =>
      decide (a.hash ≥ sum64 key) = true → decide (b.hash ≥ sum64 key) = true) := by
    refine h.imp (fun hab ha => decide_eq_true ?_)
    exact le_trans (of_decide_eq_true ha) hab
  rw [lookupSearch, Search.search_eq_findIdx hmono]
  rfl

/-- A ring built from distinct nodes meets them in clockwise order. -/
theorem BuiltFrom.owners_eq {ids : List NodeID} {r : Ring} (h : r.BuiltFrom sum64 ids)
    (hids : ids.Nodup) (hapart : Apart sum64 r.vnPerNode ids) (key : Key) :
    r.lookupSearch sum64 key = (clockwise sum64 r.vnPerNode key ids).take r.replication := by
  have hstart : searchStart r.vnodes (sum64 key) = start VNode.hash (sum64 key) r.vnodes := rfl
  rw [lookupSearch_eq h.1, lookup, collect_eq, List.nil_append, List.length_nil, Nat.sub_zero,
    hstart]
  generalize hwalk : r.vnodes.rotate (start VNode.hash (sum64 key) r.vnodes) = walk
  have hdist := pairwise_rotate_start (sum64 key) h.1
  rw [hwalk] at hdist
  have hmem : ∀ vn, vn ∈ walk ↔ ∃ id ∈ ids, vn ∈ vnodesOf sum64 r.vnPerNode id := by
    intro vn
    rw [← hwalk, List.mem_rotate, h.2.mem_iff, List.mem_flatMap]
  have hlabel : ∀ id, id ∈ walk.map VNode.nid ↔ id ∈ ids := by
    intro id
    rw [mem_of_nid_mem_vnodes h, ← hwalk, List.map_rotate, List.mem_rotate]
  have hperm : (firsts VNode.nid [] walk).Perm ids := by
    refine (List.perm_ext_iff_of_nodup (nodup_firsts _ _ _) hids).mpr (fun id => ?_)
    rw [mem_firsts, hlabel]
    exact and_iff_left List.not_mem_nil
  have hsorted : (firsts VNode.nid [] walk).Pairwise (fun a b =>
      reach sum64 r.vnPerNode (sum64 key) a ≤ reach sum64 r.vnPerNode (sum64 key) b) := by
    refine pairwise_firsts VNode.nid hdist (fun vn hvn => ?_) (fun id hid _ => ?_)
    · obtain ⟨id, -, hid⟩ := (hmem vn).mp hvn
      exact reach_le (sum64 key) hid
    · obtain ⟨vn, hvn, hnid, heq⟩ := exists_reach_eq sum64 r.vnPerNode_pos (sum64 key) id
      exact ⟨vn, (hmem vn).mpr ⟨id, (hlabel id).mp hid, hvn⟩, hnid, heq⟩
  congr 1
  exact SortBy.eq_sort _ hperm hsorted
    (fun a ha b hb heq => hapart.reach_inj r.vnPerNode_pos (sum64 key) ha hb heq)

/-- A node that leaves drops out of the order, and the others stay as they are. -/
theorem clockwise_erase {vnPerNode : Nat} (hpos : 0 < vnPerNode) {ids : List NodeID}
    (hapart : Apart sum64 vnPerNode ids) (key : Key) (id : NodeID) :
    clockwise sum64 vnPerNode key (ids.erase id) =
      (clockwise sum64 vnPerNode key ids).erase id := by
  refine (SortBy.eq_sort _ ((clockwise_perm sum64 vnPerNode key ids).erase id) ?_ ?_).symm
  · exact (SortBy.sorted _ ids).sublist List.erase_sublist
  · intro a ha b hb heq
    exact hapart.reach_inj hpos (sum64 key) (List.mem_of_mem_erase ha) (List.mem_of_mem_erase hb)
      heq

/-! ## Owners -/

/-- `Lookup` on a ring built from distinct nodes, in whatever order they are listed, returns the
first of them met clockwise of the hash of the key, as many as the replication factor asks for
and there are. -/
theorem lookupSearch_build (r : Ring) (sort : SortBy VNode.hash) (nodes : List Node)
    (hids : (nodes.map Node.id).Nodup) (hapart : Apart sum64 r.vnPerNode (nodes.map Node.id))
    (key : Key) :
    let owners := (r.build sum64 sort nodes).lookupSearch sum64 key
    owners = (clockwise sum64 r.vnPerNode key (nodes.map Node.id)).take r.replication ∧
      owners.Nodup ∧ (∀ id ∈ owners, id ∈ nodes.map Node.id) ∧
      owners.length = min r.replication nodes.length ∧
      ∀ (sort' : SortBy VNode.hash) (nodes' : List Node), nodes'.Perm nodes →
        (r.build sum64 sort' nodes').lookupSearch sum64 key = owners := by
  intro owners
  have hanswer : ∀ (sort' : SortBy VNode.hash) (nodes' : List Node), nodes'.Perm nodes →
      (r.build sum64 sort' nodes').lookupSearch sum64 key =
        (clockwise sum64 r.vnPerNode key (nodes.map Node.id)).take r.replication := by
    intro sort' nodes' hperm
    have hbuilt : (r.build sum64 sort' nodes').BuiltFrom sum64 (nodes.map Node.id) :=
      (build_builtFrom sort' nodes' r).of_perm (hperm.map Node.id)
    exact hbuilt.owners_eq hids hapart key
  have howners : owners =
      (clockwise sum64 r.vnPerNode key (nodes.map Node.id)).take r.replication :=
    hanswer sort nodes (.refl nodes)
  have hperm := clockwise_perm sum64 r.vnPerNode key (nodes.map Node.id)
  refine ⟨howners, ?_, ?_, ?_, ?_⟩
  · rw [howners]
    exact (hperm.nodup_iff.mpr hids).sublist (List.take_sublist _ _)
  · intro id hid
    rw [howners] at hid
    exact hperm.mem_iff.mp (List.mem_of_mem_take hid)
  · rw [howners, List.length_take, hperm.length_eq, List.length_map]
  · intro sort' nodes' hperm'
    rw [howners]
    exact hanswer sort' nodes' hperm'

/-- Rebuilding a ring without a node leaves the owners of a key in clockwise order, less the node
that left.  Keys it did not own keep their owners, other keys gain at most one at the end, and
adding the node again brings the owners back. -/
theorem lookup_rebuild_without (r : Ring) (sort sort' : SortBy VNode.hash)
    (nodes nodes' : List Node) (x : NodeID) (hids : (nodes.map Node.id).Nodup)
    (hapart : Apart sum64 r.vnPerNode (nodes.map Node.id)) (hx : x ∈ nodes.map Node.id)
    (hnodes' : (nodes'.map Node.id).Perm ((nodes.map Node.id).erase x)) (key : Key) :
    let ring := r.build sum64 sort nodes
    let owners := ring.lookupSearch sum64 key
    let without := ring.build sum64 sort' nodes'
    without.lookupSearch sum64 key =
        ((clockwise sum64 r.vnPerNode key (nodes.map Node.id)).erase x).take r.replication ∧
      (x ∉ owners → without.lookupSearch sum64 key = owners) ∧
      (x ∈ owners → ∃ new : List NodeID, new.length ≤ 1 ∧
        without.lookupSearch sum64 key = owners.erase x ++ new) ∧
      ∀ (sort'' : SortBy VNode.hash) (added : List Node),
        (added.map Node.id).Perm (x :: nodes'.map Node.id) →
        (without.build sum64 sort'' added).lookupSearch sum64 key = owners := by
  intro ring owners without
  have hring : owners =
      (clockwise sum64 r.vnPerNode key (nodes.map Node.id)).take r.replication :=
    (build_builtFrom sort nodes r).owners_eq hids hapart key
  have hwithout : without.lookupSearch sum64 key =
      ((clockwise sum64 r.vnPerNode key (nodes.map Node.id)).erase x).take r.replication := by
    have hbuilt : without.BuiltFrom sum64 ((nodes.map Node.id).erase x) :=
      (build_builtFrom sort' nodes' ring).of_perm hnodes'
    rw [← clockwise_erase r.vnPerNode_pos hapart]
    exact hbuilt.owners_eq (hids.erase x)
      (hapart.of_subset (fun id hid => List.mem_of_mem_erase hid)) key
  refine ⟨hwithout, fun hnot => ?_, fun hmem => ?_, fun sort'' added hadded => ?_⟩
  · rw [hring] at hnot
    rw [hwithout, hring, take_erase_of_notMem hnot]
  · rw [hring] at hmem
    refine ⟨_, ?_, by rw [hwithout, hring, take_erase_of_mem hmem]⟩
    rw [List.length_take]
    omega
  · have hperm : (added.map Node.id).Perm (nodes.map Node.id) :=
      hadded.trans ((hnodes'.cons x).trans (List.perm_cons_erase hx).symm)
    have hbuilt : (without.build sum64 sort'' added).BuiltFrom sum64 (nodes.map Node.id) :=
      (build_builtFrom sort'' added without).of_perm hperm
    rw [hring]
    exact hbuilt.owners_eq hids hapart key

/-- The `xxhash` sums of the virtual nodes of `a`, `b` and `c`, and of the key `k`. -/
def sampleSum64 (bytes : List UInt8) : UInt64 :=
  if bytes = [97, 0] then 0xe513e02c99167f96
  else if bytes = [98, 0] then 0xc9e32f1db58693f5
  else if bytes = [99, 0] then 0x2e372943ae2f6b70
  else if bytes = [107] then 0xc3d31922c50b1b63
  else 0

/-- Three nodes with one virtual node each, two owners for a key. -/
def threeNodes : List Node := [{ id := [97] }, { id := [98] }, { id := [99] }]

def twoOwners : Ring := ⟨[], 2, 1, Nat.one_pos⟩

theorem apart_threeNodes : Apart sampleSum64 1 (threeNodes.map Node.id) := by
  intro a ha b hb va hva vb hvb heq
  obtain ⟨i, hi, rfl⟩ := mem_vnodesOf.mp hva
  obtain ⟨j, hj, rfl⟩ := mem_vnodesOf.mp hvb
  have hi' : i = 0 := by omega
  have hj' : j = 0 := by omega
  subst hi' hj'
  revert a b
  decide

/-- The walk from `k` meets `b`, then `a`, and wraps to `c`. -/
theorem lookupSearch_build_threeNodes :
    (twoOwners.build sampleSum64 (.insertion _) threeNodes).lookupSearch sampleSum64 [107] =
      [[98], [97]] := by
  rw [(lookupSearch_build twoOwners (.insertion _) threeNodes (by decide) apart_threeNodes
    [107]).1]
  decide

/-- Without `a` the next owner after `b` is `c`. -/
theorem lookup_rebuild_without_a :
    ((twoOwners.build sampleSum64 (.insertion _) threeNodes).build sampleSum64 (.insertion _)
      [{ id := [99] }, { id := [98] }]).lookupSearch sampleSum64 [107] = [[98], [99]] := by
  rw [(lookup_rebuild_without twoOwners (.insertion _) (.insertion _) threeNodes
    [{ id := [99] }, { id := [98] }] [97] (by decide) apart_threeNodes (by decide) (by decide)
    [107]).1]
  decide

/-! ## Positions -/

/-- The byte strings that `Build` hashes, in its order: the index of a virtual node is one byte
after the ID. -/
def bufs (vnPerNode : Nat) (nodes : List Node) : List (List UInt8) :=
  nodes.flatMap (fun n => (List.range vnPerNode).map (fun i => n.id ++ [UInt8.ofNat i]))

/-- Where on the circle the virtual nodes of a node are. -/
def positions (r : Ring) (id : NodeID) : Finset UInt64 :=
  ((r.vnodes.filter (fun vn => vn.nid = id)).map VNode.hash).toFinset

theorem length_bufs (vnPerNode : Nat) (nodes : List Node) :
    (bufs vnPerNode nodes).length = vnPerNode * nodes.length := by
  induction nodes with
  | nil => rfl
  | cons n nodes ih =>
      rw [bufs, List.flatMap_cons, List.length_append, List.length_map, List.length_range]
      rw [bufs] at ih
      rw [ih, List.length_cons, Nat.mul_succ, Nat.add_comm]

/-- The strings that `Build` hashes are the ones behind the hashes of the ring. -/
theorem hash_build_perm (r : Ring) (sort : SortBy VNode.hash) (nodes : List Node) :
    ((r.build sum64 sort nodes).vnodes.map VNode.hash).Perm
      ((bufs r.vnPerNode nodes).map sum64) := by
  apply ((sort.perm _).map VNode.hash).trans
  rw [bufs, List.map_flatMap, List.map_flatMap]
  simp only [vnodesOf, List.map_map]
  exact .refl _

/-- The index byte tells indices apart modulo 256, and there is no confusion of IDs. -/
theorem buf_eq_iff {a b : NodeID} {i j : Nat} :
    a ++ [UInt8.ofNat i] = b ++ [UInt8.ofNat j] ↔ a = b ∧ i % 256 = j % 256 := by
  constructor
  · intro h
    obtain ⟨hid, hbyte⟩ := List.append_inj' h rfl
    have hnat := congrArg UInt8.toNat (List.singleton_inj.mp hbyte)
    rw [UInt8.toNat_ofNat', UInt8.toNat_ofNat'] at hnat
    exact ⟨hid, hnat⟩
  · rintro ⟨rfl, h⟩
    have hbyte : UInt8.ofNat i = UInt8.ofNat j := by
      apply UInt8.toNat_inj.mp
      rw [UInt8.toNat_ofNat', UInt8.toNat_ofNat']
      exact h
    rw [hbyte]

theorem mem_bufs {vnPerNode : Nat} {nodes : List Node} {buf : List UInt8} :
    buf ∈ bufs vnPerNode nodes ↔
      ∃ n ∈ nodes, ∃ i < vnPerNode, n.id ++ [UInt8.ofNat i] = buf := by
  simp only [bufs, List.mem_flatMap, List.mem_map, List.mem_range]

theorem nodup_bufs {vnPerNode : Nat} {nodes : List Node} (hids : (nodes.map Node.id).Nodup)
    (hbyte : vnPerNode ≤ 256) : (bufs vnPerNode nodes).Nodup := by
  rw [bufs, List.nodup_flatMap]
  constructor
  · intro n _
    apply List.nodup_range.map_on
    intro i hi j hj h
    rw [List.mem_range] at hi hj
    have hmod := (buf_eq_iff.mp h).2
    omega
  · apply (List.pairwise_map.mp hids).imp
    intro a b hne buf ha hb
    obtain ⟨i, -, rfl⟩ := List.mem_map.mp ha
    obtain ⟨j, -, heq⟩ := List.mem_map.mp hb
    exact hne (buf_eq_iff.mp heq).1.symm

/-- The virtual nodes 0 and 256 of a node hash the same bytes. -/
theorem not_nodup_bufs {vnPerNode : Nat} {nodes : List Node} (hnodes : nodes ≠ [])
    (hbyte : 256 < vnPerNode) : ¬(bufs vnPerNode nodes).Nodup := by
  obtain ⟨n, hn⟩ := List.exists_mem_of_ne_nil nodes hnodes
  intro h
  rw [bufs, List.nodup_flatMap] at h
  have hzero : 0 ∈ List.range vnPerNode := List.mem_range.mpr (by omega)
  have hwrap : 256 ∈ List.range vnPerNode := List.mem_range.mpr hbyte
  have heq := List.inj_on_of_nodup_map (h.1 n hn) hzero hwrap (buf_eq_iff.mpr ⟨rfl, rfl⟩)
  omega

theorem mem_positions {r : Ring} {id : NodeID} {h : UInt64} :
    h ∈ r.positions id ↔ ∃ vn ∈ r.vnodes, vn.nid = id ∧ vn.hash = h := by
  simp only [positions, List.mem_toFinset, List.mem_map, List.mem_filter, decide_eq_true_eq,
    and_assoc]

theorem positions_build (r : Ring) (sort : SortBy VNode.hash) {nodes : List Node} {n : Node}
    (hn : n ∈ nodes) :
    (r.build sum64 sort nodes).positions n.id =
      (Finset.range (min r.vnPerNode 256)).image (fun i => sum64 (n.id ++ [UInt8.ofNat i])) := by
  ext h
  rw [mem_positions, Finset.mem_image]
  constructor
  · rintro ⟨vn, hvn, hid, rfl⟩
    obtain ⟨m, -, hvn⟩ := List.mem_flatMap.mp ((sort.perm _).mem_iff.mp hvn)
    obtain ⟨i, hi, rfl⟩ := mem_vnodesOf.mp hvn
    have hid : m.id = n.id := hid
    refine ⟨i % 256, Finset.mem_range.mpr ?_, ?_⟩
    · have hle := Nat.mod_le i 256
      omega
    · show sum64 (n.id ++ [UInt8.ofNat (i % 256)]) = sum64 (m.id ++ [UInt8.ofNat i])
      rw [buf_eq_iff.mpr ⟨hid, (Nat.mod_mod i 256).symm⟩]
  · rintro ⟨i, hi, rfl⟩
    rw [Finset.mem_range] at hi
    refine ⟨⟨sum64 (n.id ++ [UInt8.ofNat i]), n.id⟩, (sort.perm _).mem_iff.mpr ?_, rfl, rfl⟩
    exact List.mem_flatMap.mpr ⟨n, hn, mem_vnodesOf.mpr ⟨i, by omega, rfl⟩⟩

/-- Where the hash has no collisions a node has as many positions as it has virtual nodes, up to
256 of them. -/
theorem card_positions_build (r : Ring) (sort : SortBy VNode.hash) {nodes : List Node}
    (hinj : Set.InjOn sum64 {buf | buf ∈ bufs r.vnPerNode nodes}) {n : Node} (hn : n ∈ nodes) :
    ((r.build sum64 sort nodes).positions n.id).card = min r.vnPerNode 256 := by
  rw [positions_build r sort hn, Finset.card_image_of_injOn, Finset.card_range]
  intro i hi j hj heq
  rw [Finset.mem_coe, Finset.mem_range] at hi hj
  have hbuf := hinj (mem_bufs.mpr ⟨n, hn, i, by omega, rfl⟩)
    (mem_bufs.mpr ⟨n, hn, j, by omega, rfl⟩) heq
  have hmod := (buf_eq_iff.mp hbuf).2
  omega

/-- `Build` hashes one string for each node and virtual index.  They are distinct, and give each
node its number of positions wherever the hash keeps them apart, as long as the index fits its
byte. -/
theorem bufs_distinct_iff (r : Ring) (nodes : List Node) (hids : (nodes.map Node.id).Nodup) :
    (∀ (sum64 : List UInt8 → UInt64) (sort : SortBy VNode.hash),
        ((r.build sum64 sort nodes).vnodes.map VNode.hash).Perm
          ((bufs r.vnPerNode nodes).map sum64)) ∧
      (bufs r.vnPerNode nodes).length = r.vnPerNode * nodes.length ∧
      (((bufs r.vnPerNode nodes).Nodup ∧
          ∀ (sum64 : List UInt8 → UInt64) (sort : SortBy VNode.hash),
            Set.InjOn sum64 {buf | buf ∈ bufs r.vnPerNode nodes} →
            ∀ n ∈ nodes, ((r.build sum64 sort nodes).positions n.id).card = r.vnPerNode) ↔
        nodes = [] ∨ r.vnPerNode ≤ 256) := by
  refine ⟨fun _ sort => hash_build_perm r sort nodes, length_bufs _ _, ?_, ?_⟩
  · rintro ⟨hnodup, -⟩
    by_contra hnot
    rw [not_or, Nat.not_le] at hnot
    exact not_nodup_bufs hnot.1 hnot.2 hnodup
  · rintro (rfl | hbyte)
    · exact ⟨List.nodup_nil, fun _ _ _ n hn => absurd hn List.not_mem_nil⟩
    · refine ⟨nodup_bufs hids hbyte, fun sum64 sort hinj n hn => ?_⟩
      rw [card_positions_build r sort hinj hn, Nat.min_eq_left hbyte]

/-- With the default of 64 virtual nodes three nodes have 192 distinct strings. -/
theorem bufs_distinct_default :
    (bufs 64 threeNodes).length = 192 ∧ (bufs 64 threeNodes).Nodup :=
  have h := bufs_distinct_iff ⟨[], 1, 64, by decide⟩ threeNodes (by decide)
  ⟨h.2.1, (h.2.2.mpr (Or.inr (by decide))).1⟩

/-- With 257 virtual nodes a single node already hashes one string twice. -/
theorem bufs_wrapped :
    (bufs 257 [{ id := [97] }])[0]? = some [97, 0] ∧
      (bufs 257 [{ id := [97] }])[256]? = some [97, 0] ∧
      ¬(bufs 257 [{ id := [97] }]).Nodup :=
  ⟨rfl, rfl, not_nodup_bufs (List.cons_ne_nil _ _) (by decide)⟩

end Ring

end HyperCache
