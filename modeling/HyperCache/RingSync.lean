/-
Whether the ring follows the membership.

A ring built from a list of nodes holds their virtual nodes in hash order.
`BuiltFrom` says so of a ring and a list of identifiers, and two lists of distinct
identifiers a ring is built from are the same up to order.  `Upsert` and `Remove`
leave a ring built from the members that are not dead.  `Mark` and `Refute` do not
touch it, so the ring stays right exactly while neither of them moves a member into
or out of the dead state.

`Upsert` and `Remove` build the ring after they release the membership lock.  The
second half of the file interleaves their locked sections and their builds.
-/
import Mathlib.Data.List.Induction
import Mathlib.Logic.Function.Basic
import HyperCache.Lib.Runs
import HyperCache.Membership

namespace HyperCache

open Sorting Runs

variable {sum64 : List UInt8 → UInt64}

namespace Ring

/-- The virtual nodes are those of the listed nodes, in hash order. -/
def BuiltFrom (sum64 : List UInt8 → UInt64) (ids : List NodeID) (r : Ring) : Prop :=
  r.vnodes.Pairwise (fun a b => a.hash ≤ b.hash) ∧
    r.vnodes.Perm (ids.flatMap (vnodesOf sum64 r.vnPerNode))

/-- `Lookup` answers every key as some build of the ring from `nodes` does.  Builds
differ in the order of virtual nodes of equal hash. -/
def AnswersAs (sum64 : List UInt8 → UInt64) (nodes : List Node) (r : Ring) : Prop :=
  ∃ sort : SortBy VNode.hash, ∀ key,
    r.lookup sum64 key = (r.build sum64 sort nodes).lookup sum64 key

theorem build_builtFrom (sort : SortBy VNode.hash) (nodes : List Node) (r : Ring) :
    (r.build sum64 sort nodes).BuiltFrom sum64 (nodes.map Node.id) := by
  refine ⟨sort.sorted _, ?_⟩
  rw [List.flatMap_map]
  exact sort.perm _

theorem BuiltFrom.of_perm {ids ids' : List NodeID} {r : Ring} (h : r.BuiltFrom sum64 ids)
    (hperm : ids.Perm ids') : r.BuiltFrom sum64 ids' :=
  ⟨h.1, h.2.trans (hperm.flatMap_right _)⟩

theorem BuiltFrom.answersAs {nodes : List Node} {r : Ring}
    (h : r.BuiltFrom sum64 (nodes.map Node.id)) : r.AnswersAs sum64 nodes := by
  have hperm := h.2
  rw [List.flatMap_map] at hperm
  obtain ⟨sort, hsort⟩ := SortBy.exists_sort_eq hperm h.1
  refine ⟨sort, fun key => ?_⟩
  rw [build, hsort]

theorem mem_of_nid_mem_vnodes {ids : List NodeID} {r : Ring} (h : r.BuiltFrom sum64 ids)
    {id : NodeID} : id ∈ ids ↔ id ∈ r.vnodes.map VNode.nid := by
  rw [(h.2.map VNode.nid).mem_iff]
  constructor
  · intro hid
    have hvn : (⟨sum64 (id ++ [UInt8.ofNat 0]), id⟩ : VNode) ∈ vnodesOf sum64 r.vnPerNode id :=
      List.mem_map.mpr ⟨0, List.mem_range.mpr r.vnPerNode_pos, rfl⟩
    exact List.mem_map.mpr ⟨_, List.mem_flatMap.mpr ⟨id, hid, hvn⟩, rfl⟩
  · intro hid
    obtain ⟨vn, hvn, rfl⟩ := List.mem_map.mp hid
    obtain ⟨id', hid', hvn⟩ := List.mem_flatMap.mp hvn
    obtain ⟨i, -, rfl⟩ := List.mem_map.mp hvn
    exact hid'

/-- A ring determines the nodes it was built from. -/
theorem BuiltFrom.mem_iff {ids ids' : List NodeID} {r : Ring} (h : r.BuiltFrom sum64 ids)
    (h' : r.BuiltFrom sum64 ids') (id : NodeID) : id ∈ ids ↔ id ∈ ids' :=
  (mem_of_nid_mem_vnodes h).trans (mem_of_nid_mem_vnodes h').symm

end Ring

namespace Membership

/-- The ring is built from exactly the members that are not dead. -/
def Current (sum64 : List UInt8 → UInt64) (m : Membership) : Prop :=
  m.ring.BuiltFrom sum64 m.liveIDs

theorem current_new (replication vnPerNode : Nat) (h : 0 < vnPerNode) :
    (new replication vnPerNode h).Current sum64 :=
  ⟨List.Pairwise.nil, List.Perm.refl _⟩

theorem current_rebuild (sort : SortBy VNode.hash) (m : Membership) :
    (m.rebuild sum64 sort m.live).Current sum64 :=
  Ring.build_builtFrom sort m.live m.ring

/-- With the ring untouched, it stays current exactly when the same members are not
dead. -/
theorem current_iff_of_ring_eq {m m' : Membership} (hring : m'.ring = m.ring)
    (h : m.Current sum64) :
    m'.Current sum64 ↔ ∀ id, id ∈ m.liveIDs ↔ id ∈ m'.liveIDs := by
  unfold Current
  rw [hring]
  exact ⟨fun h' => h.mem_iff h', fun hmem => h.of_perm (liveIDs_perm hmem)⟩

/-! ## Sequential runs -/

inductive Op where
  | upsert (n : Node)
  | remove (id : NodeID)
  | mark (id : NodeID) (state : Node.State)
  | refute (id : NodeID)

def step (sum64 : List UInt8 → UInt64) (m : Membership) : Runtime × Op → Membership
  | (rt, .upsert n) => m.upsert sum64 rt n
  | (rt, .remove id) => (m.remove sum64 rt id).2
  | (rt, .mark id state) => (m.mark rt.now id state).2
  | (rt, .refute id) => (m.refute rt.now id).2

/-- The operation takes no present member into or out of the dead state without
rebuilding the ring. -/
def KeepsDead (m : Membership) : Runtime × Op → Prop
  | (_, .mark id state) => ∀ n, m.nodes.get id = some n → (n.state = .dead ↔ state = .dead)
  | (_, .refute id) => ∀ n, m.nodes.get id = some n → n.state ≠ .dead
  | (_, .upsert _) => True
  | (_, .remove _) => True

/-- Replacing the record of a member keeps the ring current exactly when the old and the
new record are both dead or both not. -/
theorem current_put_iff {m : Membership} {n n' : Node} {version : UInt64}
    (hget : m.nodes.get n.id = some n) (hid : n'.id = n.id) (h : m.Current sum64) :
    ({ m with nodes := m.nodes.put n', version := version } : Membership).Current sum64 ↔
      (n.state = .dead ↔ n'.state = .dead) := by
  generalize hm' : ({ m with nodes := m.nodes.put n', version := version } : Membership) = m'
  have hget' : ∀ id, m'.nodes.get id = if id = n.id then some n' else m.nodes.get id := by
    intro id
    rw [← hm', Keyed.Store.get_put, hid]
  have hring : m'.ring = m.ring := by rw [← hm']
  rw [current_iff_of_ring_eq hring h]
  have hself : n.id ∈ m.liveIDs ↔ n.state ≠ .dead := by simp [mem_liveIDs, hget]
  have hself' : n.id ∈ m'.liveIDs ↔ n'.state ≠ .dead := by simp [mem_liveIDs, hget']
  constructor
  · intro h
    have := h n.id
    rw [hself, hself'] at this
    exact not_iff_not.mp this
  · intro h id
    by_cases hn : id = n.id
    · subst hn
      rw [hself, hself']
      exact not_iff_not.mpr h
    · rw [mem_liveIDs, mem_liveIDs, hget', if_neg hn]

theorem step_current_iff (m : Membership) (a : Runtime × Op) (h : m.Current sum64) :
    (m.step sum64 a).Current sum64 ↔ m.KeepsDead a := by
  rcases a with ⟨rt, n | id | ⟨id, state⟩ | id⟩
  case upsert => exact iff_of_true (current_rebuild _ _) trivial
  case remove =>
    refine iff_of_true ?_ trivial
    show (m.remove sum64 rt id).2.Current sum64
    unfold remove
    split
    · exact h
    · exact current_rebuild _ _
  case mark =>
    show (m.mark rt.now id state).2.Current sum64 ↔
      ∀ n, m.nodes.get id = some n → (n.state = .dead ↔ state = .dead)
    unfold mark
    split
    case h_1 hnone => exact iff_of_true h (by simp [hnone])
    case h_2 n hget =>
      have hid : n.id = id := Keyed.Store.key_of_get hget
      subst hid
      have hall : (∀ n', m.nodes.get n.id = some n' → (n'.state = .dead ↔ state = .dead)) ↔
          (n.state = .dead ↔ state = .dead) := by simp [hget]
      rw [hall]
      by_cases hsame : n.state = state
      · rw [if_pos hsame, ← hsame]
        exact current_put_iff hget rfl h
      · rw [if_neg hsame]
        exact current_put_iff hget rfl h
  case refute =>
    show (m.refute rt.now id).2.Current sum64 ↔
      ∀ n, m.nodes.get id = some n → n.state ≠ .dead
    unfold refute
    split
    case h_1 hnone => exact iff_of_true h (by simp [hnone])
    case h_2 n hget =>
      have hid : n.id = id := Keyed.Store.key_of_get hget
      subst hid
      have hall : (∀ n', m.nodes.get n.id = some n' → n'.state ≠ .dead) ↔
          (n.state = .dead ↔ Node.State.alive = .dead) := by simp [hget]
      rw [hall]
      exact current_put_iff hget rfl h

/-- While no `Mark` or `Refute` moves a member into or out of the dead state, `Lookup`
answers as a ring built from the members that are not dead.  The condition is exact for
the virtual nodes themselves: they are those of the members that are not dead after
every operation of a run precisely when the run meets it. -/
theorem lookup_fresh_of_keepsDead (replication vnPerNode : Nat) (hvn : 0 < vnPerNode)
    (ops : List (Runtime × Op)) :
    (Along (step sum64) KeepsDead (new replication vnPerNode hvn) ops →
      (ops.foldl (step sum64) (new replication vnPerNode hvn)).ring.AnswersAs sum64
        (ops.foldl (step sum64) (new replication vnPerNode hvn)).live) ∧
    (Along (step sum64) KeepsDead (new replication vnPerNode hvn) ops ↔
      Along (step sum64) (fun m a => (m.step sum64 a).Current sum64)
        (new replication vnPerNode hvn) ops) := by
  have hnew : (new replication vnPerNode hvn).Current sum64 := current_new _ _ hvn
  refine ⟨fun h => ?_, (along_invariant_iff step_current_iff hnew).symm⟩
  have hcurrent : (ops.foldl (step sum64) (new replication vnPerNode hvn)).Current sum64 :=
    h.invariant (fun m a hm hkeep => (step_current_iff m a hm).mpr hkeep) hnew
  exact Ring.BuiltFrom.answersAs hcurrent

/-- A node joins, is suspected and refutes. -/
def suspectedThenRefuted : List (Runtime × Op) :=
  [({}, .upsert { id := [97] }), ({}, .mark [97] .suspect), ({}, .refute [97])]

theorem lookup_fresh_of_suspicion :
    (suspectedThenRefuted.foldl (step (fun _ => 0)) (new 1 1 Nat.one_pos)).ring.AnswersAs
      (fun _ => 0)
      (suspectedThenRefuted.foldl (step (fun _ => 0)) (new 1 1 Nat.one_pos)).live := by
  refine (lookup_fresh_of_keepsDead 1 1 Nat.one_pos _).1 ⟨trivial, ?_, ?_, trivial⟩
  · rintro n ⟨⟩
    decide
  · rintro n ⟨⟩
    decide

/-- Gossip reports a node dead and a probe then finds it alive. -/
def deadThenAlive : List (Runtime × Op) :=
  [({}, .upsert { id := [97], state := .dead }), ({}, .mark [97] .alive)]

/-- `Mark` leaves the ring empty, so every key has no owner, where a fresh ring gives it
to the node. -/
theorem lookup_stale_after_mark_alive :
    (deadThenAlive.foldl (step (fun _ => 0)) (new 1 1 Nat.one_pos)).liveIDs = [[97]] ∧
      (deadThenAlive.foldl (step (fun _ => 0)) (new 1 1 Nat.one_pos)).ring.lookup
        (fun _ => 0) [107] = [] ∧
      ¬ (deadThenAlive.foldl (step (fun _ => 0)) (new 1 1 Nat.one_pos)).ring.AnswersAs
        (fun _ => 0) (deadThenAlive.foldl (step (fun _ => 0)) (new 1 1 Nat.one_pos)).live := by
  refine ⟨by decide, by decide, ?_⟩
  rintro ⟨sort, hlookup⟩
  have hone : sort.sort [⟨0, [97]⟩] = [⟨0, [97]⟩] := List.perm_singleton.mp (sort.perm _)
  have hkey := hlookup [107]
  change ([] : List NodeID) =
    Ring.lookup (fun _ => 0) ⟨sort.sort [⟨0, [97]⟩], 1, 1, Nat.one_pos⟩ [107] at hkey
  rw [hone] at hkey
  exact absurd hkey (by decide)

/-! ## Concurrent calls -/

/-- The calls that rebuild the ring. -/
inductive Update where
  | upsert (n : Node)
  | remove (id : NodeID)

/-- The atomic steps of the calls a goroutine makes, one call at a time. -/
inductive Act where
  | lock (g : Nat) (now : Time) (call : Update)
  | build (g : Nat) (sort : SortBy VNode.hash)

namespace Act

def goroutine : Act → Nat
  | .lock g _ _ => g
  | .build g _ => g

def isBuild : Act → Bool
  | .lock .. => false
  | .build .. => true

end Act

/-- The membership and, for each goroutine inside a call, the snapshot it took under the
lock and has not built the ring from yet. -/
structure Shared where
  members : Membership
  snapshot : Nat → Option (List Node)

/-- The section of a call under the lock: the new membership, unless the call returns
without building. -/
def locked (now : Time) (m : Membership) : Update → Option Membership
  | .upsert n => some (m.upsertLocked now n)
  | .remove id => m.removeLocked id

namespace Shared

def new (replication vnPerNode : Nat) (h : 0 < vnPerNode) : Shared :=
  ⟨.new replication vnPerNode h, fun _ => none⟩

def step (sum64 : List UInt8 → UInt64) (s : Shared) : Act → Shared
  | .lock g now call =>
      match s.members.locked now call with
      | none => s
      | some m => ⟨m, Function.update s.snapshot g (some m.live)⟩
  | .build g sort =>
      match s.snapshot g with
      | none => s
      | some nodes => ⟨s.members.rebuild sum64 sort nodes, Function.update s.snapshot g none⟩

/-- A goroutine starts a call when it is in none, and builds inside one. -/
def Enabled (s : Shared) : Act → Prop
  | .lock g _ _ => s.snapshot g = none
  | .build g _ => (s.snapshot g).isSome

/-- The call that builds last is the last to have changed who is not dead: no other call
did so between its locked section and its build. -/
def LastBuildCurrent (sum64 : List UInt8 → UInt64) (s : Shared) (acts : List Act) : Prop :=
  ∀ pre g now call mid sort post,
    acts = (pre ++ [Act.lock g now call]) ++ mid ++ Act.build g sort :: post →
    (∀ a ∈ mid, a.goroutine ≠ g) → (∀ a ∈ post, a.isBuild = false) →
    ∀ id, id ∈ ((pre ++ [Act.lock g now call]).foldl (step sum64) s).members.liveIDs ↔
      id ∈ ((pre ++ [Act.lock g now call] ++ mid).foldl (step sum64) s).members.liveIDs

/-- A step of another goroutine leaves a snapshot alone. -/
theorem step_snapshot_other (s : Shared) {a : Act} {g : Nat} (h : a.goroutine ≠ g) :
    (s.step sum64 a).snapshot g = s.snapshot g := by
  cases a with
  | lock g' now call =>
      rw [step]
      split
      · rfl
      · exact Function.update_of_ne (Ne.symm h) _ _
  | build g' sort =>
      rw [step]
      split
      · rfl
      · exact Function.update_of_ne (Ne.symm h) _ _

theorem foldl_snapshot_other {g : Nat} (acts : List Act) (h : ∀ a ∈ acts, a.goroutine ≠ g)
    (s : Shared) : (acts.foldl (step sum64) s).snapshot g = s.snapshot g := by
  induction acts generalizing s with
  | nil => rfl
  | cons a rest ih =>
      obtain ⟨ha, hrest⟩ := List.forall_mem_cons.mp h
      rw [List.foldl_cons, ih hrest, step_snapshot_other s ha]

/-- Without a build a call in progress stays in progress. -/
theorem foldl_lock_isSome {g : Nat} (acts : List Act) (h : ∀ a ∈ acts, a.isBuild = false)
    {s : Shared} (hs : (s.snapshot g).isSome) :
    ((acts.foldl (step sum64) s).snapshot g).isSome := by
  induction acts generalizing s with
  | nil => exact hs
  | cons a rest ih =>
      obtain ⟨ha, hrest⟩ := List.forall_mem_cons.mp h
      refine ih hrest ?_
      cases a with
      | build g' sort => exact absurd ha (by simp [Act.isBuild])
      | lock g' now call =>
          rw [step]
          split
          · exact hs
          · by_cases hg : g = g'
            · subst hg
              simp
            · simpa [Function.update_of_ne hg] using hs

/-- A run without builds after which no call is in progress changes nothing. -/
theorem foldl_lock_of_returned (acts : List Act) (h : ∀ a ∈ acts, a.isBuild = false)
    {s : Shared} (hret : ∀ g, (acts.foldl (step sum64) s).snapshot g = none) :
    acts.foldl (step sum64) s = s := by
  induction acts generalizing s with
  | nil => rfl
  | cons a rest ih =>
      obtain ⟨ha, hrest⟩ := List.forall_mem_cons.mp h
      rw [List.foldl_cons, ih hrest hret]
      cases a with
      | build g sort => exact absurd ha (by simp [Act.isBuild])
      | lock g now call =>
          rw [step]
          split
          · rfl
          case h_2 m hlocked =>
            -- The call would still be in progress at the end.
            have hsome : ((s.step sum64 (.lock g now call)).snapshot g).isSome := by
              simp [step, hlocked]
            have hend : (((Act.lock g now call :: rest).foldl (step sum64) s).snapshot g).isSome :=
              foldl_lock_isSome rest hrest hsome
            rw [hret g] at hend
            exact absurd hend (by simp)

/-- A goroutine with a snapshot took it in its last step. -/
theorem exists_lock_of_snapshot {g : Nat} (acts : List Act) {s : Shared}
    (hs : s.snapshot g = none) (h : ((acts.foldl (step sum64) s).snapshot g).isSome) :
    ∃ pre now call mid, acts = (pre ++ [Act.lock g now call]) ++ mid ∧
      ∀ a ∈ mid, a.goroutine ≠ g := by
  induction acts using List.reverseRecOn with
  | nil =>
      rw [List.foldl_nil, hs] at h
      exact absurd h (by simp)
  | append_singleton acts a ih =>
      rw [List.foldl_append, List.foldl_cons, List.foldl_nil] at h
      by_cases ha : a.goroutine = g
      · subst ha
        cases a with
        | lock g now call => exact ⟨acts, now, call, [], by simp [Act.goroutine], by simp⟩
        | build g sort =>
            rw [step] at h
            split at h
            case h_1 hnone => simp [Act.goroutine, hnone] at h
            case h_2 => simp [Act.goroutine] at h
      · rw [step_snapshot_other _ ha] at h
        obtain ⟨pre, now, call, mid, hacts, hmid⟩ := ih h
        refine ⟨pre, now, call, mid ++ [a], by simp [hacts], ?_⟩
        intro b hb
        rcases List.mem_append.mp hb with hb | hb
        · exact hmid b hb
        · rw [List.mem_singleton.mp hb]
          exact ha

/-- The snapshot a locked section leaves behind is the new membership's. -/
theorem snapshot_lock {s : Shared} {g : Nat} {now : Time} {call : Update}
    (hs : s.snapshot g = none)
    (h : ((s.step sum64 (.lock g now call)).snapshot g).isSome) :
    (s.step sum64 (.lock g now call)).snapshot g =
      some (s.step sum64 (.lock g now call)).members.live := by
  rw [step] at h ⊢
  split at h
  · rw [hs] at h
    exact absurd h (by simp)
  case h_2 m hlocked =>
    exact Function.update_self _ _ _

/-- The last build of a finished run decides: the ring is current exactly when the
membership it took its snapshot of has the same members that are not dead as the one it
was built under. -/
theorem current_iff_of_last_build {s : Shared} {pre mid post : List Act} {g : Nat} {now : Time}
    {call : Update} {sort : SortBy VNode.hash}
    (hrun : Along (step sum64) Enabled s
      ((pre ++ [Act.lock g now call]) ++ mid ++ Act.build g sort :: post))
    (hmid : ∀ a ∈ mid, a.goroutine ≠ g) (hpost : ∀ a ∈ post, a.isBuild = false)
    (hret : ∀ g', (((pre ++ [Act.lock g now call]) ++ mid ++ Act.build g sort :: post).foldl
      (step sum64) s).snapshot g' = none) :
    (((pre ++ [Act.lock g now call]) ++ mid ++ Act.build g sort :: post).foldl
        (step sum64) s).members.Current sum64 ↔
      ∀ id, id ∈ ((pre ++ [Act.lock g now call]).foldl (step sum64) s).members.liveIDs ↔
        id ∈ ((pre ++ [Act.lock g now call] ++ mid).foldl (step sum64) s).members.liveIDs := by
  obtain ⟨hbefore, hbuild, -⟩ := along_append.mp hrun
  obtain ⟨hlocking, -⟩ := along_append.mp hbefore
  obtain ⟨-, hfree, -⟩ := along_append.mp hlocking
  rw [List.foldl_append, List.foldl_cons] at hret ⊢
  rw [foldl_lock_of_returned post hpost hret]
  rw [List.foldl_append (l := pre ++ [Act.lock g now call])] at hbuild ⊢
  rw [List.foldl_append (l := pre), List.foldl_cons, List.foldl_nil] at hbuild ⊢
  generalize hs₁ : (pre.foldl (step sum64) s).step sum64 (.lock g now call) = s₁ at hbuild ⊢
  have hsnap : (mid.foldl (step sum64) s₁).snapshot g = s₁.snapshot g :=
    foldl_snapshot_other mid hmid s₁
  change ((mid.foldl (step sum64) s₁).snapshot g).isSome at hbuild
  have htaken : s₁.snapshot g = some s₁.members.live := by
    rw [hsnap, ← hs₁] at hbuild
    rw [← hs₁]
    exact snapshot_lock hfree hbuild
  rw [step, hsnap, htaken]
  have hbuilt : Ring.BuiltFrom sum64 s₁.members.liveIDs
      ((mid.foldl (step sum64) s₁).members.ring.build sum64 sort s₁.members.live) :=
    Ring.build_builtFrom sort s₁.members.live _
  constructor
  · intro h
    exact hbuilt.mem_iff h
  · intro h
    exact hbuilt.of_perm (liveIDs_perm h)

theorem exists_last_build (acts : List Act) :
    (∀ a ∈ acts, a.isBuild = false) ∨
      ∃ before g sort post, acts = before ++ Act.build g sort :: post ∧
        ∀ a ∈ post, a.isBuild = false := by
  induction acts with
  | nil => exact Or.inl (by simp)
  | cons a rest ih =>
      rcases ih with hnone | ⟨before, g, sort, post, rfl, hpost⟩
      · cases a with
        | lock g now call => exact Or.inl (List.forall_mem_cons.mpr ⟨rfl, hnone⟩)
        | build g sort => exact Or.inr ⟨[], g, sort, rest, rfl, hnone⟩
      · exact Or.inr ⟨a :: before, g, sort, post, rfl, hpost⟩

/-- Once all calls have returned, the ring is the one built from the final members that
are not dead exactly when the call that built last built from a snapshot that no other
call had outdated. -/
theorem ring_current_iff_lastBuildCurrent (replication vnPerNode : Nat) (hvn : 0 < vnPerNode)
    (acts : List Act) (hrun : Along (step sum64) Enabled (new replication vnPerNode hvn) acts)
    (hret : ∀ g, (acts.foldl (step sum64) (new replication vnPerNode hvn)).snapshot g = none) :
    (acts.foldl (step sum64) (new replication vnPerNode hvn)).members.Current sum64 ↔
      LastBuildCurrent sum64 (new replication vnPerNode hvn) acts := by
  constructor
  · rintro h pre g now call mid sort post rfl hmid hpost
    exact (current_iff_of_last_build hrun hmid hpost hret).mp h
  · intro h
    rcases exists_last_build acts with hnone | ⟨before, g, sort, post, rfl, hpost⟩
    · rw [foldl_lock_of_returned acts hnone hret]
      exact current_new _ _ hvn
    · have hbuild : ((before.foldl (step sum64) (new replication vnPerNode hvn)).snapshot
          g).isSome := (along_append.mp hrun).2.1
      obtain ⟨pre, now, call, mid, rfl, hmid⟩ := exists_lock_of_snapshot before rfl hbuild
      exact (current_iff_of_last_build hrun hmid hpost hret).mpr
        (h pre g now call mid sort post rfl hmid hpost)

/-- Two joins.  Their builds run in the order of their locked sections, or the other way
round. -/
def twoJoins (swap : Bool) : List Act :=
  [.lock 0 0 (.upsert { id := [97] }), .lock 1 0 (.upsert { id := [98] })] ++
    if swap then [.build 1 (.insertion _), .build 0 (.insertion _)]
    else [.build 0 (.insertion _), .build 1 (.insertion _)]

theorem twoJoins_enabled (swap : Bool) :
    Along (step (fun _ => 0)) Enabled (new 1 1 Nat.one_pos) (twoJoins swap) := by
  cases swap <;> exact ⟨rfl, rfl, rfl, rfl, trivial⟩

theorem twoJoins_returned (swap : Bool) (g : Nat) :
    ((twoJoins swap).foldl (step (fun _ => 0)) (new 1 1 Nat.one_pos)).snapshot g = none := by
  cases swap <;> rcases g with _ | _ | g <;> rfl

theorem twoJoins_in_order :
    ((twoJoins false).foldl (step (fun _ => 0)) (new 1 1 Nat.one_pos)).members.Current
        (fun _ => 0) ∧
      LastBuildCurrent (fun _ => 0) (new 1 1 Nat.one_pos) (twoJoins false) := by
  have hcurrent : ((twoJoins false).foldl (step (fun _ => 0))
      (new 1 1 Nat.one_pos)).members.Current (fun _ => 0) := ⟨by decide, by decide⟩
  exact ⟨hcurrent, (ring_current_iff_lastBuildCurrent 1 1 Nat.one_pos (twoJoins false)
    (twoJoins_enabled false) (twoJoins_returned false)).mp hcurrent⟩

/-- The first call builds last, from the snapshot it took before the second node joined:
both calls have returned, both nodes are members, and the ring knows only the first. -/
theorem twoJoins_swapped :
    ((twoJoins true).foldl (step (fun _ => 0)) (new 1 1 Nat.one_pos)).members.liveIDs =
        [[98], [97]] ∧
      ((twoJoins true).foldl (step (fun _ => 0)) (new 1 1 Nat.one_pos)).members.ring.vnodes =
        [⟨0, [97]⟩] ∧
      ¬ ((twoJoins true).foldl (step (fun _ => 0)) (new 1 1 Nat.one_pos)).members.Current
        (fun _ => 0) := by
  refine ⟨by decide, by decide, ?_⟩
  intro h
  have hlen := h.2.length_eq
  exact absurd hlen (by decide)

end Shared

end Membership

end HyperCache
