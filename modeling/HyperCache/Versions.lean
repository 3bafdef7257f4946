/-
The versions that `Set` and `Remove` leave for a key.

A coordinated write takes the next value of the coordinator's counter, a
forwarded write keeps the version of the client's item, and a delete takes one
above the stored item or the node's tombstone counter.  `drawn` says this from
the state before the call.  `left` reads the versions back from the histories of
the nodes.
-/
import Mathlib.Data.Set.Insert
import HyperCache.Lib.Runs
import HyperCache.Write

namespace HyperCache

namespace World

variable {V : Type} {C : Cluster}

/-! ## Versions left and versions drawn -/

/-- The versions for `key` that nodes gained on the way from `w` to `w'`. -/
def left (key : Key) (w w' : World V) : Set UInt64 :=
  { v | ∃ m, (w' m).applied = (key, v) :: (w m).applied }

/-- When the covered nodes log one more entry and the others none, the versions
left are those of the covered nodes. -/
theorem left_of_covers {net : Net} {key : Key} {s : NodeID} {owners : List NodeID}
    {w w' : World V} (ver : NodeID → UInt64)
    (h : ∀ m, (w' m).applied =
      if covers C net s owners m then (key, ver m) :: (w m).applied else (w m).applied) :
    left key w w' = { v | ∃ m, covers C net s owners m = true ∧ v = ver m } := by
  ext v
  refine exists_congr fun m => ?_
  rw [h m]
  by_cases hc : covers C net s owners m = true
  · simp [hc, eq_comm]
  · simp [hc]

theorem left_self (key : Key) (w : World V) : left key w w = ∅ := by
  ext v
  simp [left]

end World

/-- A call on the key under study, with its surroundings. -/
inductive Call (V : Type) where
  | set (net : Net) (n : NodeID) (item : Item V)
  | remove (net : Net) (n : NodeID)

namespace Call

open World

variable {V : Type} [SizedValue V] (C : Cluster) (R : Placement) (key : Key)

def exec : Call V → World V → World V × Option Err
  | .set net n item, w => World.set C net n { item with key := key } w
  | .remove net n, w => World.remove C net n [key] w

/-- The versions a call takes, from the state before it. -/
def drawn : Call V → World V → Set UInt64
  | .set net n item, w =>
      match writeRoute C net n { item with key := key } w with
      | .refused _ => ∅
      | .forward _ => {item.version}
      | .coordinate => {(w n).versionCounter + 1}
  | .remove net n, w =>
      match removeSite C net n key w with
      | .ok (some s) =>
          { v | ∃ m, covers C net s (R.lookup key) m = true ∧ v = (w m).tombVersion key }
      | _ => ∅

/-- The value a delete of `key` on a node counts on from: the version of the item
it drops, or the tombstone counter when there is none. -/
def deleteBase (st : NodeState V) : UInt64 :=
  if st.nextVer key = 0 then st.tombVersionCounter
  else match st.shard.items.get key with
    | some it => it.version
    | none => st.tombVersionCounter

/-- The source a call takes its version from is ahead of the versions `earlier`.
A forwarded write takes it from the client, a coordinated write from the counter
of the coordinator, and a delete at each node from what that node holds. -/
def Ahead (earlier : Set UInt64) (w : World V) : Call V → Prop
  | .set net n item =>
      match writeRoute C net n { item with key := key } w with
      | .refused _ => True
      | .forward _ => ∀ v ∈ earlier, v < item.version
      | .coordinate =>
          ∀ v ∈ earlier, v ≤ (w n).versionCounter ∧ (w n).versionCounter + 1 ≠ 0
  | .remove net n =>
      match removeSite C net n key w with
      | .ok (some s) =>
          ∀ m, covers C net s (R.lookup key) m = true → ∀ v ∈ earlier,
            v ≤ deleteBase key (w m) ∧ deleteBase key (w m) + 1 ≠ 0
      | _ => True

omit [SizedValue V] in
theorem tombVersion_eq (st : NodeState V) : st.tombVersion key = deleteBase key st + 1 := by
  rw [NodeState.tombVersion, deleteBase]
  split
  · rfl
  · rename_i hver
    rw [NodeState.nextVer] at hver ⊢
    cases hget : st.shard.items.get key with
    | none => simp [hget] at hver
    | some it => rfl

omit [SizedValue V] in
theorem ahead_iff (earlier : Set UInt64) (w : World V) (c : Call V) :
    c.Ahead C R key earlier w ↔ ∀ v ∈ earlier, ∀ v' ∈ c.drawn C R key w, v < v' := by
  cases c with
  | set net n item =>
      rw [Ahead, drawn]
      split
      · simp
      · simp
      · simp [UInt64.lt_add_one_iff_machine]
  | remove net n =>
      rw [Ahead, drawn]
      split
      · rename_i s _
        constructor
        · rintro h v hv v' ⟨m, hm, rfl⟩
          rw [tombVersion_eq]
          exact UInt64.lt_add_one_iff_machine.mpr (h m hm v hv)
        · intro h m hm v hv
          rw [← UInt64.lt_add_one_iff_machine, ← tombVersion_eq]
          exact h v hv _ ⟨m, hm, rfl⟩
      · simp

variable {C R}

theorem left_set (hR : C.Shares R) (net : Net) (n : NodeID) (item : Item V) (w : World V) :
    left key w ((Call.set net n item).exec C key w).1 = (Call.set net n item).drawn C R key w := by
  have hdata := set_data net hR n { item with key := key } w
  have hone : ∀ (s : NodeID) (ver : UInt64),
      { v | ∃ m, covers C net s (R.lookup key) m = true ∧ v = ver } = {ver} := by
    intro s ver
    ext v
    exact ⟨fun ⟨_, _, h⟩ => h, fun h => ⟨s, covers_self net s _, h⟩⟩
  rw [drawn, exec]
  cases hr : writeRoute C net n { item with key := key } w with
  | refused e =>
      simp only [reached, hr, Bool.false_eq_true, if_false] at hdata
      ext v
      simp [left, (hdata _).applied]
  | forward primary =>
      simp only [reached, written, hr, lookupOwners_eq hR] at hdata
      dsimp only
      rw [← hone primary item.version]
      refine left_of_covers (fun _ => item.version) (fun m => ?_)
      rw [(hdata m).applied]
      split <;> rfl
  | coordinate =>
      simp only [reached, written, hr, lookupOwners_eq hR] at hdata
      dsimp only
      rw [← hone n ((w n).versionCounter + 1)]
      refine left_of_covers (fun _ => (w n).versionCounter + 1) (fun m => ?_)
      rw [(hdata m).applied]
      split <;> rfl

theorem left_remove (hR : C.Shares R) (net : Net) (n : NodeID) (w : World V) :
    left key w ((Call.remove net n).exec C key w).1 = (Call.remove net n).drawn C R key w := by
  rw [drawn, exec]
  obtain ⟨e, hs, hrem⟩ | ⟨hs, hrem⟩ | ⟨s, hs, -, hrem⟩ := remove_cases net hR n key w
  · rw [hs, hrem, left_self]
  · rw [hs, hrem, left_self]
  · rw [hs]
    refine left_of_covers (fun m => (w m).tombVersion key) (fun m => ?_)
    rw [hrem m]
    split <;> rfl

theorem left_exec (hR : C.Shares R) (c : Call V) (w : World V) :
    left key w (c.exec C key w).1 = c.drawn C R key w := by
  cases c with
  | set net n item => exact left_set key hR net n item w
  | remove net n => exact left_remove key hR net n w

variable (C) in
def track (s : World V × Set UInt64) (c : Call V) : World V × Set UInt64 :=
  ((c.exec C key s.1).1, s.2 ∪ left key s.1 (c.exec C key s.1).1)

/-- Along a sequence of calls every version left exceeds the versions left before
it exactly when every call takes its version from a source that is ahead of them.
Nothing enforces that: a client, the counters of different coordinators and the
tombstone counters know nothing of one another. -/
theorem versions_rise_iff (hR : C.Shares R) (w : World V) (calls : List (Call V)) :
    Runs.Along (track C key)
      (fun s c => ∀ v ∈ s.2, ∀ v' ∈ left key s.1 (c.exec C key s.1).1, v < v') (w, ∅) calls ↔
    Runs.Along (track C key) (fun s c => c.Ahead C R key s.2 s.1) (w, ∅) calls := by
  have hahead : (fun (s : World V × Set UInt64) (c : Call V) =>
      ∀ v ∈ s.2, ∀ v' ∈ left key s.1 (c.exec C key s.1).1, v < v') =
      fun s c => c.Ahead C R key s.2 s.1 := by
    funext s c
    rw [left_exec key hR, ahead_iff]
  rw [hahead]

/-- A write at the primary followed by its delete leaves the versions 1 and 2 at three owners. -/
theorem versions_rise_set_remove :
    quorumCluster.Shares threeOwners ∧
      Runs.Along (track quorumCluster [107])
        (fun s c => ∀ v ∈ s.2, ∀ v' ∈ left [107] s.1 (c.exec quorumCluster [107] s.1).1, v < v')
        (fresh, ∅) [.set allUp [97] sampleItem, .remove allUp [97]] := by
  have hR : quorumCluster.Shares threeOwners := Cluster.uniform_shares rfl
  refine ⟨hR, (versions_rise_iff [107] hR fresh _).mpr ⟨?_, ?_, trivial⟩⟩
  · intro v hv
    exact absurd hv (Set.notMem_empty v)
  · intro m hm v hv
    have hroute : writeRoute quorumCluster allUp [97] { sampleItem with key := [107] }
        (fresh : World Str) = .coordinate := by
      decide
    have hv₁ : v = 1 := by
      have h := (Set.mem_union _ _ _).mp hv
      rw [left_exec [107] hR] at h
      simpa [drawn, hroute, fresh] using h
    have hm₁ : m = [97] ∨ m = [98] ∨ m = [99] := by
      by_contra hne
      simp [covers, threeOwners, Placement.fixed] at hm
      tauto
    rw [hv₁]
    rcases hm₁ with rfl | rfl | rfl <;> decide

/-- A write at the primary `a` leaves version 1, and the next one, forwarded by
the non-owner `d` with the version zero of a new item, leaves 0.  Both return
nil. -/
theorem versions_fall_forwarded :
    let net : Net := allUp
    let first := (Call.set net [97] sampleItem).exec quorumCluster [107] fresh
    let second := (Call.set net [100] sampleItem).exec quorumCluster [107] first.1
    quorumCluster.Shares threeOwners ∧ first.2 = none ∧ second.2 = none ∧
      ¬Runs.Along (track quorumCluster [107])
        (fun s c => ∀ v ∈ s.2, ∀ v' ∈ left [107] s.1 (c.exec quorumCluster [107] s.1).1, v < v')
        (fresh, ∅) [.set net [97] sampleItem, .set net [100] sampleItem] := by
  intro net first second
  refine ⟨Cluster.uniform_shares rfl, by decide, by decide, fun h => ?_⟩
  have hfirst : (1 : UInt64) ∈ left [107] fresh first.1 := ⟨[97], by decide⟩
  have hsecond : (0 : UInt64) ∈ left [107] first.1 second.1 := ⟨[97], by decide⟩
  exact absurd (h.2.1 1 (Or.inr hfirst) 0 hsecond) (by decide)

end Call

end HyperCache
