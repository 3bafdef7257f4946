/-
The read path: reads at one owner, quorum reads, and the repairs they send.

A quorum read asks the owners for their copies until it has enough, keeps the
one of highest rank and then repairs the owners with it.  The sequential and the
parallel read differ in the order in which the replies come in, so both are
`readQuorum` with their own order.  A parallel read drops the replies after the
last one it needs, and a read changes nothing at the node it asks.

With a repair queue, remote repairs are stored at the reader and sent when the
queue is flushed.
-/
import HyperCache.Write

namespace HyperCache

open Pointwise

structure Tally (V : Type) where
  chosen : Option (Item V) := none
  acks : Nat := 0
  stale : List NodeID := []

/-- One reply in `collectQuorum`.  An owner is listed as stale when its copy
replaces an earlier choice, which by `chooseNewer_some` is when the copy ranks
higher. -/
def Tally.add {V : Type} (oid : NodeID) (it : Item V) (t : Tally V) : Tally V where
  chosen := chooseNewer t.chosen (some it)
  acks := t.acks + 1
  stale :=
    match t.chosen with
    | none => t.stale
    | some prev => if isHigherVersion it prev then t.stale ++ [oid] else t.stale

@[simp] theorem Tally.add_acks {V : Type} (oid : NodeID) (it : Item V) (t : Tally V) :
    (t.add oid it).acks = t.acks + 1 := rfl

@[simp] theorem Tally.add_chosen {V : Type} (oid : NodeID) (it : Item V) (t : Tally V) :
    (t.add oid it).chosen = LastWriter.keepGreater Item.rank t.chosen it :=
  chooseNewer_eq_keepGreater t.chosen it

namespace World

variable {V : Type} (C : Cluster) (net : Net)

/-! ## Reads at one owner -/

def tryLocalGet (n : NodeID) (key : Key) (oid : NodeID) (w : World V) : Option (Item V) :=
  if oid = n then (w n).shard.items.get key else none

/-- `tryRemoteGet`, with the repair of an owner that has no copy. -/
def tryRemoteGet (n : NodeID) (key : Key) (oid : NodeID) (w : World V) :
    World V × Option (Item V) :=
  if oid = n ∨ (C.cfg n).hasTransport = false then (w, none)
  else
    match forwardGet net oid key w with
    | .error _ => (w, none)
    | .ok none => (w, none)
    | .ok (some it) =>
        (modify w n (fun st => { st with shard := st.shard.repairMissing (C.cfg n) key it }),
          some it)

def getOne (n : NodeID) (key : Key) : List NodeID → World V → World V × Option (Item V)
  | [], w => (w, none)
  | oid :: rest, w =>
      match tryLocalGet n key oid w with
      | some it => (w, some it)
      | none =>
          match tryRemoteGet C net n key oid w with
          | (w, some it) => (w, some it)
          | (w, none) => getOne n key rest w

/-! ## Quorum reads -/

def fetchOwner (n : NodeID) (key : Key) (w : World V) (oid : NodeID) : Option (Item V) :=
  if oid = n then (w n).shard.items.get key
  else if !(C.cfg n).hasTransport then none
  else
    match forwardGet net oid key w with
    | .error _ => none
    | .ok reply => reply

/-- `collectQuorum` over the owners in the order of their replies. -/
def collectQuorum (n : NodeID) (key : Key) (needed : Nat) (w : World V) :
    List NodeID → Tally V → Tally V
  | [], t => t
  | oid :: rest, t =>
      match fetchOwner C net n key w oid with
      | none => collectQuorum n key needed w rest t
      | some it =>
          let t := t.add oid it
          if t.acks ≥ needed && t.chosen.isSome then t
          else collectQuorum n key needed w rest t

def repairRemoteReplica (n : NodeID) (chosen : Item V) (oid : NodeID) (w : World V) : World V :=
  if !(C.cfg n).hasTransport then w
  else
    match (C.cfg n).repairBatch with
    | some _ => modify w n (NodeState.enqueueRepair oid chosen)
    | none => (forwardReplica C net oid chosen w).1

def repairStaleOwners (n : NodeID) (chosen : Item V) (stale : List NodeID) (w : World V) :
    World V :=
  if !(C.cfg n).hasTransport then w
  else
    stale.foldl
      (fun w oid => if oid = n then w else repairRemoteReplica C net n chosen oid w) w

def repairReplicas (n : NodeID) (key : Key) (chosen : Item V) (owners : List NodeID)
    (w : World V) : World V :=
  owners.foldl
    (fun w oid =>
      if oid = n then
        modify w n (fun st =>
          { st with shard := st.shard.repairLocalReplica (C.cfg n) key chosen })
      else repairRemoteReplica C net n chosen oid w) w

/-- A quorum read of the owners whose replies come in the order `replies`. -/
def readQuorum (n : NodeID) (key : Key) (owners replies : List NodeID) (w : World V) :
    World V × Option (Item V) :=
  let needed := requiredAcks owners.length (C.cfg n).readConsistency
  let t := collectQuorum C net n key needed w replies {}
  match t.chosen with
  | none => (w, none)
  | some chosen =>
      if t.acks < needed then (w, none)
      else
        (repairReplicas C net n key chosen owners (repairStaleOwners C net n chosen t.stale w),
          some chosen)

def getWithConsistency (n : NodeID) (key : Key) (owners : List NodeID) (w : World V) :
    World V × Option (Item V) :=
  readQuorum C net n key owners owners w

def getWithConsistencyParallel (n : NodeID) (key : Key) (owners : List NodeID) (w : World V) :
    World V × Option (Item V) :=
  readQuorum C net n key owners (net.arrival owners) w

def getImpl (n : NodeID) (key : Key) (w : World V) : World V × Option (Item V) :=
  let consistent (w : World V) : World V × Option (Item V) :=
    match (C.cfg n).lookupOwners key with
    | [] => (w, none)
    | owners =>
        if (C.cfg n).readConsistency = .one then getOne C net n key owners w
        else if (C.cfg n).parallelReads then getWithConsistencyParallel C net n key owners w
        else getWithConsistency C net n key owners w
  if (C.cfg n).readConsistency = .one then
    match (w n).shard.items.get key with
    | some it => (w, some it)
    | none => consistent w
  else consistent w

/-! ## What a quorum read returns -/

theorem fetchOwner_get {n : NodeID} {key : Key} {w : World V} {oid : NodeID} {it : Item V}
    (h : fetchOwner C net n key w oid = some it) : (w oid).shard.items.get key = some it := by
  rw [fetchOwner] at h
  by_cases hn : oid = n
  · subst hn
    simpa using h
  · rw [if_neg hn] at h
    by_cases ht : (C.cfg n).hasTransport = true
    swap
    · simp [ht] at h
    rw [forwardGet] at h
    by_cases hup : net.up oid = true
    · simpa [ht, hup] using h
    · simp [ht, hup] at h

/-- The owners whose copies a quorum read that needs `needed` of them compares: the
first that answer, and at least one. -/
def seen (n : NodeID) (key : Key) (needed : Nat) (w : World V) (replies : List NodeID) :
    List NodeID :=
  (replies.filter (fun oid => (fetchOwner C net n key w oid).isSome)).take (max 1 needed)

/-- `collectQuorum` counts the owners it sees and folds their copies into the
choice. -/
theorem collectQuorum_spec (n : NodeID) (key : Key) (needed : Nat) (w : World V)
    (replies : List NodeID) (t : Tally V) :
    (collectQuorum C net n key needed w replies t).acks =
        t.acks + (seen C net n key (needed - t.acks) w replies).length ∧
      (collectQuorum C net n key needed w replies t).chosen =
        ((seen C net n key (needed - t.acks) w replies).filterMap
          (fetchOwner C net n key w)).foldl (LastWriter.keepGreater Item.rank) t.chosen := by
  induction replies generalizing t with
  | nil => simp [seen, collectQuorum]
  | cons oid rest ih =>
      cases hf : fetchOwner C net n key w oid with
      | none =>
          have hskip : seen C net n key (needed - t.acks) w (oid :: rest) =
              seen C net n key (needed - t.acks) w rest := by
            rw [seen, List.filter_cons_of_neg (by simp [hf]), seen]
          rw [collectQuorum, hf, hskip]
          exact ih t
      | some it =>
          rw [collectQuorum, hf]
          dsimp only
          by_cases hdone : t.acks + 1 ≥ needed
          · have hone : seen C net n key (needed - t.acks) w (oid :: rest) = [oid] := by
              rw [seen, List.filter_cons_of_pos (by simp [hf]),
                show max 1 (needed - t.acks) = 1 by omega]
              rfl
            obtain ⟨chosen, hsome⟩ := LastWriter.keepGreater_isSome Item.rank t.chosen it
            rw [if_pos (by simp [hdone, hsome]), hone]
            exact ⟨rfl, by simp [hf]⟩
          · have hmore : seen C net n key (needed - t.acks) w (oid :: rest) =
                oid :: seen C net n key (needed - (t.add oid it).acks) w rest := by
              rw [seen, List.filter_cons_of_pos (by simp [hf]), seen, Tally.add_acks,
                show max 1 (needed - t.acks) = max 1 (needed - (t.acks + 1)) + 1 by omega,
                List.take_succ_cons]
            obtain ⟨hacks, hchosen⟩ := ih (t.add oid it)
            rw [if_neg (by simp [hdone]), hmore]
            refine ⟨?_, ?_⟩
            · rw [hacks, Tally.add_acks, List.length_cons]
              omega
            · rw [hchosen]
              simp [hf]

theorem seen_sublist (n : NodeID) (key : Key) (needed : Nat) (w : World V)
    (replies : List NodeID) : (seen C net n key needed w replies).Sublist replies :=
  (List.take_sublist _ _).trans List.filter_sublist

theorem fetchOwner_of_seen {n : NodeID} {key : Key} {needed : Nat} {w : World V}
    {replies : List NodeID} {oid : NodeID} (h : oid ∈ seen C net n key needed w replies) :
    ∃ it, fetchOwner C net n key w oid = some it :=
  Option.isSome_iff_exists.mp (List.mem_filter.mp (List.mem_of_mem_take h)).2

theorem collectQuorum_stale {n : NodeID} {key : Key} {needed : Nat} {w : World V}
    {replies : List NodeID} {t : Tally V} {oid : NodeID}
    (h : oid ∈ (collectQuorum C net n key needed w replies t).stale) :
    oid ∈ t.stale ∨ oid ∈ replies := by
  induction replies generalizing t with
  | nil => exact .inl h
  | cons a rest ih =>
      rw [collectQuorum] at h
      cases hf : fetchOwner C net n key w a with
      | none =>
          rw [hf] at h
          exact (ih h).imp_right (List.mem_cons_of_mem a)
      | some it =>
          rw [hf] at h
          have hadd : oid ∈ (t.add a it).stale → oid ∈ t.stale ∨ oid ∈ a :: rest := by
            rw [Tally.add]
            dsimp only
            split
            · exact .inl
            · split
              · intro h
                refine (List.mem_append.mp h).imp_right (fun h => ?_)
                rw [List.mem_singleton.mp h]
                exact List.mem_cons_self
              · exact .inl
          dsimp only at h
          split at h
          · exact hadd h
          · exact (ih h).elim hadd (fun hrest => .inr (List.mem_cons_of_mem a hrest))

/-- A hit of a quorum read is the copy of one of the owners it saw, which were
enough, and none of them holds a copy of higher rank. -/
theorem readQuorum_hit {n : NodeID} {key : Key} {owners replies : List NodeID} {w : World V}
    {it : Item V} (h : (readQuorum C net n key owners replies w).2 = some it) :
    let needed := requiredAcks owners.length (C.cfg n).readConsistency
    needed ≤ (seen C net n key needed w replies).length ∧
      (∃ oid ∈ seen C net n key needed w replies, (w oid).shard.items.get key = some it) ∧
      ∀ oid ∈ seen C net n key needed w replies,
        ∃ copy, (w oid).shard.items.get key = some copy ∧ copy.rank ≤ it.rank := by
  intro needed
  obtain ⟨hacks, hchosen⟩ := collectQuorum_spec C net n key needed w replies {}
  rw [readQuorum] at h
  split at h
  · cases h
  · rename_i chosen hc
    split at h
    · cases h
    · rename_i hlt
      obtain rfl : chosen = it := Option.some.inj h
      rw [hc] at hchosen
      obtain ⟨hmem, -, hmax⟩ := LastWriter.foldl_keepGreater_spec Item.rank hchosen.symm
      refine ⟨?_, ?_, fun oid hoid => ?_⟩
      · rw [hacks] at hlt
        simpa using hlt
      · obtain ⟨oid, hoid, hfetch⟩ := List.mem_filterMap.mp (hmem.resolve_left (by simp))
        exact ⟨oid, hoid, fetchOwner_get C net hfetch⟩
      · obtain ⟨copy, hcopy⟩ := fetchOwner_of_seen C net hoid
        exact ⟨copy, fetchOwner_get C net hcopy,
          hmax copy (List.mem_filterMap.mpr ⟨oid, hoid, hcopy⟩)⟩

theorem readQuorum_of_seen {n : NodeID} {key : Key} {owners replies : List NodeID} {w : World V}
    (hpos : owners ≠ [])
    (h : requiredAcks owners.length (C.cfg n).readConsistency ≤ (seen C net n key
      (requiredAcks owners.length (C.cfg n).readConsistency) w replies).length) :
    ∃ it, (readQuorum C net n key owners replies w).2 = some it := by
  have hneeded := requiredAcks_pos (C.cfg n).readConsistency (List.length_pos_iff.mpr hpos)
  rw [readQuorum]
  generalize requiredAcks owners.length (C.cfg n).readConsistency = needed at h hneeded ⊢
  obtain ⟨hacks, hchosen⟩ := collectQuorum_spec C net n key needed w replies {}
  have hsome : ∃ chosen, (collectQuorum C net n key needed w replies {}).chosen = some chosen := by
    rw [hchosen]
    show ∃ chosen, List.foldl _ none ((seen C net n key needed w replies).filterMap _) = _
    cases hseen : seen C net n key needed w replies with
    | nil =>
        rw [hseen, List.length_nil] at h
        omega
    | cons oid rest =>
        obtain ⟨it, hit⟩ := fetchOwner_of_seen C net (hseen ▸ List.mem_cons_self)
        rw [List.filterMap_cons_some hit, List.foldl_cons]
        exact LastWriter.foldl_keepGreater_isSome Item.rank _ it
  obtain ⟨chosen, hc⟩ := hsome
  have hlt : ¬(collectQuorum C net n key needed w replies {}).acks < needed := by
    rw [hacks]
    simpa using h
  exact ⟨chosen, by simp [hc, hlt]⟩

/-! ## What the repairs change -/

/-- A read repair of `chosen`, issued at `n`, as it acts on the data of `oid`.
Repairs that go to the queue do not act yet. -/
def repairAt (n : NodeID) (key : Key) (chosen : Item V) (oid : NodeID) (sh : DistShard V) :
    DistShard V :=
  if oid = n then sh.repairLocalReplica (C.cfg n) key chosen
  else if (C.cfg n).hasTransport && ((C.cfg n).repairBatch.isNone && net.up oid) then
    sh.applyForwardedSet (C.cfg oid) chosen
  else sh

theorem shards_repairRemoteReplica {n oid : NodeID} (hn : oid ≠ n) (key : Key) (chosen : Item V)
    (w : World V) :
    shards (repairRemoteReplica C net n chosen oid w) =
      modify (shards w) oid (repairAt C net n key chosen oid) := by
  rw [repairRemoteReplica]
  by_cases ht : (C.cfg n).hasTransport = true
  swap
  · have hid : repairAt C net n key chosen oid = fun sh => sh := by
      funext sh
      simp [repairAt, hn, ht]
    rw [hid, modify_id]
    simp [ht]
  cases hq : (C.cfg n).repairBatch with
  | some size =>
      have hid : repairAt C net n key chosen oid = fun sh => sh := by
        funext sh
        simp [repairAt, hn, hq]
      rw [hid, modify_id]
      simp only [ht, Bool.not_true, Bool.false_eq_true, if_false]
      exact (comp_modify NodeState.shard w n (fun sh => sh)
        (NodeState.enqueueRepair_shard oid chosen (w n))).trans (modify_id _ n)
  | none =>
      simp only [ht, Bool.not_true, Bool.false_eq_true, if_false, forwardReplica]
      by_cases hup : net.up oid = true
      · simp only [hup, if_true]
        refine comp_modify NodeState.shard w oid _ ?_
        rw [NodeState.applyForwardedSet_shard]
        simp [repairAt, hn, ht, hq, hup]
      · have hid : repairAt C net n key chosen oid = fun sh => sh := by
          funext sh
          simp [repairAt, hn, hup]
        rw [hid, modify_id]
        simp [hup]

theorem shards_repairReplicas (n : NodeID) (key : Key) (chosen : Item V) (owners : List NodeID)
    (w : World V) :
    shards (repairReplicas C net n key chosen owners w) =
      owners.foldl (fun sh oid => modify sh oid (repairAt C net n key chosen oid)) (shards w) := by
  rw [repairReplicas]
  refine (List.foldl_hom shards (fun w oid => ?_)).symm
  by_cases hn : oid = n
  · subst hn
    rw [if_pos rfl]
    refine (comp_modify NodeState.shard w oid _ ?_).symm
    simp [repairAt]
  · rw [if_neg hn, shards_repairRemoteReplica C net hn key]

theorem shards_repairStaleOwners (n : NodeID) (key : Key) (chosen : Item V)
    (stale : List NodeID) (w : World V) :
    shards (repairStaleOwners C net n chosen stale w) =
      (stale.filter (· ≠ n)).foldl
        (fun sh oid => modify sh oid (repairAt C net n key chosen oid)) (shards w) := by
  have hfold : repairStaleOwners C net n chosen stale w = stale.foldl
      (fun w oid => if oid = n then w else repairRemoteReplica C net n chosen oid w) w := by
    rw [repairStaleOwners]
    by_cases ht : (C.cfg n).hasTransport = true
    · simp [ht]
    · simp [ht, repairRemoteReplica]
  rw [hfold, List.foldl_filter]
  refine (List.foldl_hom shards (fun w oid => ?_)).symm
  by_cases hn : oid = n
  · simp [hn]
  · simp [hn, shards_repairRemoteReplica C net hn key]

/-! ## What a `Get` does -/

/-- A read at one owner misses, or returns a copy some node holds and at most
keeps it at a reader that has none. -/
theorem getOne_cases (n : NodeID) (key : Key) (owners : List NodeID) (w : World V) :
    getOne C net n key owners w = (w, none) ∨
    ∃ it m, (w m).shard.items.get key = some it ∧
      (getOne C net n key owners w).2 = some it ∧
      (shards (getOne C net n key owners w).1 = shards w ∨
        shards (getOne C net n key owners w).1 =
          modify (shards w) n (·.repairMissing (C.cfg n) key it)) := by
  induction owners with
  | nil => exact .inl rfl
  | cons oid rest ih =>
      rw [getOne, tryLocalGet, tryRemoteGet]
      by_cases hn : oid = n
      · cases hget : (w n).shard.items.get key with
        | some it =>
            rw [if_pos hn]
            exact .inr ⟨it, n, hget, rfl, .inl rfl⟩
        | none =>
            rw [if_pos hn, if_pos (.inl hn)]
            exact ih
      rw [if_neg hn]
      dsimp only
      by_cases ht : (C.cfg n).hasTransport = false
      · rw [if_pos (.inr ht)]
        exact ih
      rw [if_neg (by simp [hn, ht]), forwardGet]
      by_cases hup : net.up oid = true
      swap
      · simp only [hup, if_false, Bool.false_eq_true]
        exact ih
      simp only [hup, if_true]
      cases hget : (w oid).shard.items.get key with
      | none => exact ih
      | some it => exact .inr ⟨it, oid, hget, rfl, .inr (comp_modify NodeState.shard w n _ rfl)⟩

/-- A quorum read misses, or repairs the owners with the copy it returns, some of
them twice. -/
theorem readQuorum_cases (n : NodeID) (key : Key) (owners replies : List NodeID)
    (w : World V) :
    readQuorum C net n key owners replies w = (w, none) ∨
    ∃ it m stale, (w m).shard.items.get key = some it ∧
      (readQuorum C net n key owners replies w).2 = some it ∧
      (∀ oid ∈ stale, oid ≠ n ∧ oid ∈ replies) ∧
      shards (readQuorum C net n key owners replies w).1 =
        (stale ++ owners).foldl
          (fun sh oid => modify sh oid (repairAt C net n key it oid)) (shards w) := by
  have heq := readQuorum.eq_1 C net n key owners replies w
  generalize ht : collectQuorum C net n key
    (requiredAcks owners.length (C.cfg n).readConsistency) w replies {} = t at heq
  cases hchosen : t.chosen with
  | none => exact .inl (by simp only [heq, hchosen])
  | some chosen =>
      simp only [hchosen] at heq
      by_cases hlt : t.acks < requiredAcks owners.length (C.cfg n).readConsistency
      · rw [if_pos hlt] at heq
        exact .inl heq
      · rw [if_neg hlt] at heq
        have hres : (readQuorum C net n key owners replies w).2 = some chosen := by rw [heq]
        obtain ⟨-, ⟨m, -, hm⟩, -⟩ := readQuorum_hit C net hres
        refine .inr ⟨chosen, m, t.stale.filter (· ≠ n), hm, hres, fun oid hoid => ?_, ?_⟩
        · obtain ⟨hmem, hne⟩ := List.mem_filter.mp hoid
          rw [← ht] at hmem
          exact ⟨of_decide_eq_true hne, (collectQuorum_stale C net hmem).resolve_left (by simp)⟩
        · rw [heq, shards_repairReplicas, shards_repairStaleOwners C net n key,
            ← List.foldl_append]

def replies (n : NodeID) (key : Key) : List NodeID :=
  if (C.cfg n).parallelReads then net.arrival ((C.cfg n).lookupOwners key)
  else (C.cfg n).lookupOwners key

theorem replies_perm (n : NodeID) (key : Key) :
    (replies C net n key).Perm ((C.cfg n).lookupOwners key) := by
  rw [replies]
  split
  · exact net.arrival_perm _
  · exact .refl _

theorem getImpl_quorum {n : NodeID} {key : Key} (w : World V)
    (hone : (C.cfg n).readConsistency ≠ .one) (howners : (C.cfg n).lookupOwners key ≠ []) :
    getImpl C net n key w =
      readQuorum C net n key ((C.cfg n).lookupOwners key) (replies C net n key) w := by
  rw [getImpl, replies]
  simp only [hone, if_false]
  split <;> rfl

/-- A `Get` misses and changes nothing, or returns a copy some node holds.  At
`ONE` it at most keeps the copy at a reader that has none, and at the other levels
it repairs the owners. -/
theorem getImpl_cases (n : NodeID) (key : Key) (w : World V) :
    getImpl C net n key w = (w, none) ∨
    ∃ it m, (w m).shard.items.get key = some it ∧ (getImpl C net n key w).2 = some it ∧
      (((C.cfg n).readConsistency = .one ∧
        (shards (getImpl C net n key w).1 = shards w ∨
          shards (getImpl C net n key w).1 =
            modify (shards w) n (·.repairMissing (C.cfg n) key it))) ∨
      ((C.cfg n).readConsistency ≠ .one ∧ ∃ stale : List NodeID,
        (∀ oid ∈ stale, oid ≠ n ∧ oid ∈ (C.cfg n).lookupOwners key) ∧
        shards (getImpl C net n key w).1 =
          (stale ++ (C.cfg n).lookupOwners key).foldl
            (fun sh oid => modify sh oid (repairAt C net n key it oid)) (shards w))) := by
  by_cases hone : (C.cfg n).readConsistency = .one
  · rw [getImpl]
    simp only [hone, if_true, ne_eq, not_true_eq_false, false_and, or_false, true_and]
    cases hget : (w n).shard.items.get key with
    | some it => exact .inr ⟨it, n, hget, rfl, .inl rfl⟩
    | none =>
        dsimp only
        split
        · exact .inl rfl
        · exact getOne_cases C net n key _ w
  · by_cases howners : (C.cfg n).lookupOwners key = []
    · exact .inl (by simp [getImpl, hone, howners])
    · rw [getImpl_quorum C net w hone howners]
      obtain h | ⟨it, m, stale, hm, hres, hne, hsh⟩ := readQuorum_cases C net n key
        ((C.cfg n).lookupOwners key) (replies C net n key) w
      · exact .inl h
      · exact .inr ⟨it, m, hm, hres, .inr ⟨hone, stale,
          fun oid hoid => (hne oid hoid).imp_right (replies_perm C net n key).mem_iff.mp, hsh⟩⟩

/-- The owners whose copies a `Get` at `n` above `ONE` compares. -/
def quorumSeen (n : NodeID) (key : Key) (w : World V) : List NodeID :=
  seen C net n key (requiredAcks ((C.cfg n).lookupOwners key).length (C.cfg n).readConsistency) w
    (replies C net n key)

/-- A hit above `ONE` is the copy of highest rank among those of the owners the
read saw, which were enough. -/
theorem getImpl_quorum_hit {n : NodeID} {key : Key} {w : World V} {it : Item V}
    (hone : (C.cfg n).readConsistency ≠ .one) (h : (getImpl C net n key w).2 = some it) :
    requiredAcks ((C.cfg n).lookupOwners key).length (C.cfg n).readConsistency ≤
        (quorumSeen C net n key w).length ∧
      (∃ oid ∈ quorumSeen C net n key w, (w oid).shard.items.get key = some it) ∧
      ∀ oid ∈ quorumSeen C net n key w,
        ∃ copy, (w oid).shard.items.get key = some copy ∧ copy.rank ≤ it.rank := by
  by_cases howners : (C.cfg n).lookupOwners key = []
  · simp [getImpl, hone, howners] at h
  · rw [getImpl_quorum C net w hone howners] at h
    exact readQuorum_hit C net h

theorem quorumSeen_nodup (n : NodeID) (key : Key) (w : World V) :
    (quorumSeen C net n key w).Nodup :=
  ((replies_perm C net n key).nodup_iff.mpr ((C.cfg n).lookupOwners_nodup key)).sublist
    (seen_sublist C net n key _ w _)

theorem quorumSeen_subset (n : NodeID) (key : Key) (w : World V) :
    quorumSeen C net n key w ⊆ (C.cfg n).lookupOwners key :=
  fun _ hoid => (replies_perm C net n key).mem_iff.mp ((seen_sublist C net n key _ w _).subset hoid)

/-! ## How many owners a quorum read needs -/

/-- The owners that answer a read with an item, each position of the list on its own. -/
def answering (n : NodeID) (key : Key) (w : World V) (owners : List NodeID) : Nat :=
  owners.countP (fun oid => (fetchOwner C net n key w oid).isSome)

/-- The owners that hold a copy of version `v` or above, reachable or not. -/
def holding (key : Key) (v : UInt64) (w : World V) (owners : List NodeID) : Nat :=
  owners.countP (fun oid => ((w oid).shard.items.get key).any (fun it => decide (v ≤ it.version)))

theorem length_seen (n : NodeID) (key : Key) (needed : Nat) (w : World V)
    (replies : List NodeID) :
    (seen C net n key needed w replies).length =
      min (max 1 needed) (answering C net n key w replies) := by
  rw [seen, List.length_take, answering, List.countP_eq_length_filter]

/-- A read of at least one owner hits exactly when enough of them answer, in whatever order
they do. -/
theorem readQuorum_isSome_iff {n : NodeID} {key : Key} {owners replies : List NodeID}
    (w : World V) (howners : owners ≠ []) (hperm : replies.Perm owners) :
    (readQuorum C net n key owners replies w).2.isSome = true ↔
      requiredAcks owners.length (C.cfg n).readConsistency ≤ answering C net n key w owners := by
  have hpos := requiredAcks_pos (C.cfg n).readConsistency (List.length_pos_iff.mpr howners)
  have hcount : answering C net n key w replies = answering C net n key w owners :=
    hperm.countP_eq _
  constructor
  · intro h
    obtain ⟨it, hit⟩ := Option.isSome_iff_exists.mp h
    obtain ⟨hlen, -⟩ := readQuorum_hit C net hit
    rw [length_seen, hcount] at hlen
    omega
  · intro h
    have hlen : requiredAcks owners.length (C.cfg n).readConsistency ≤ (seen C net n key
        (requiredAcks owners.length (C.cfg n).readConsistency) w replies).length := by
      rw [length_seen, hcount]
      omega
    exact Option.isSome_iff_exists.mpr (readQuorum_of_seen C net howners hlen)

/-- What lies in a part of a list and lacks a property does not count towards it. -/
theorem countP_add_length_le {α : Type} {p : α → Bool} {part l : List α} (h : part.Sublist l)
    (hnot : ∀ a ∈ part, p a = false) : l.countP p + part.length ≤ l.length := by
  have hpart : part.countP (fun a => !p a) = part.length :=
    List.countP_eq_length.mpr (fun a ha => by rw [hnot a ha]; rfl)
  have hle : part.countP (fun a => !p a) ≤ l.countP (fun a => !p a) := h.countP_le
  have hsplit := List.length_eq_countP_add_countP p (l := l)
  simp only [Bool.not_eq_true, Bool.decide_eq_false] at hsplit
  omega

theorem version_le_of_rank_le {a b : Item V} (h : a.rank ≤ b.rank) : a.version ≤ b.version := by
  refine le_of_not_gt (fun hlt => absurd h (not_le.mpr ?_))
  exact rank_lt_iff.mpr (Or.inl hlt)

/-- A majority of answers meets every majority of holders. -/
theorem readQuorum_version {n : NodeID} {key : Key} {owners replies : List NodeID} {w : World V}
    {v : UInt64} {it : Item V} (hperm : replies.Perm owners)
    (hlevel : (C.cfg n).readConsistency = .quorum)
    (hheld : requiredAcks owners.length .quorum ≤ holding key v w owners)
    (hit : (readQuorum C net n key owners replies w).2 = some it) : v ≤ it.version := by
  obtain ⟨hlen, -, hmax⟩ := readQuorum_hit C net hit
  rw [hlevel] at hlen hmax
  by_contra hlow
  have hnot : ∀ oid ∈ seen C net n key (requiredAcks owners.length .quorum) w replies,
      ((w oid).shard.items.get key).any (fun it => decide (v ≤ it.version)) = false := by
    intro oid hoid
    obtain ⟨copy, hcopy, hrank⟩ := hmax oid hoid
    rw [hcopy, Option.any_some, decide_eq_false_iff_not]
    exact fun hv => hlow (hv.trans (version_le_of_rank_le hrank))
  have hle := countP_add_length_le (seen_sublist C net n key _ w replies) hnot
  rw [hperm.countP_eq, hperm.length_eq] at hle
  have hmajority : requiredAcks owners.length .quorum = owners.length / 2 + 1 := rfl
  rw [holding] at hheld
  omega

/-- The sequential and the parallel read of at least one owner hit exactly when enough owners
answer, and at `QUORUM` both see every version that a majority of the owners holds. -/
theorem quorum_reads {n : NodeID} {key : Key} {owners : List NodeID} (w : World V)
    (howners : owners ≠ []) :
    ((getWithConsistency C net n key owners w).2.isSome = true ↔
        requiredAcks owners.length (C.cfg n).readConsistency ≤
          answering C net n key w owners) ∧
      ((getWithConsistencyParallel C net n key owners w).2.isSome = true ↔
        requiredAcks owners.length (C.cfg n).readConsistency ≤
          answering C net n key w owners) ∧
      ((C.cfg n).readConsistency = .quorum →
        ∀ v, requiredAcks owners.length .quorum ≤ holding key v w owners →
          ∀ it, ((getWithConsistency C net n key owners w).2 = some it ∨
            (getWithConsistencyParallel C net n key owners w).2 = some it) → v ≤ it.version) := by
  have harrival := net.arrival_perm owners
  refine ⟨readQuorum_isSome_iff C net w howners (.refl owners),
    readQuorum_isSome_iff C net w howners harrival, fun hlevel v hheld it hit => ?_⟩
  rcases hit with hit | hit
  · exact readQuorum_version C net (.refl owners) hlevel hheld hit
  · exact readQuorum_version C net harrival hlevel hheld hit

/-- The nodes `a` and `b` hold version 4 of the sample item. -/
def twoHolders : World Str := fun n =>
  if n = [97] ∨ n = [98] then
    { shard := DistShard.empty.applySet (quorumCluster.cfg n) { sampleItem with version := 4 } }
  else { shard := .empty }

theorem quorum_reads_twoHolders :
    threeOwners.lookup [107] ≠ [] ∧ (quorumCluster.cfg [99]).readConsistency = .quorum ∧
      requiredAcks (threeOwners.lookup [107]).length .quorum ≤
        holding [107] 4 twoHolders (threeOwners.lookup [107]) ∧
      ∀ it, ((getWithConsistency quorumCluster allUp [99] [107] (threeOwners.lookup [107])
          twoHolders).2 = some it ∨
        (getWithConsistencyParallel quorumCluster allUp [99] [107] (threeOwners.lookup [107])
          twoHolders).2 = some it) → 4 ≤ it.version := by
  have howners : threeOwners.lookup [107] ≠ [] := by decide
  have hheld : requiredAcks (threeOwners.lookup [107]).length .quorum ≤
      holding [107] 4 twoHolders (threeOwners.lookup [107]) := by decide
  exact ⟨howners, rfl, hheld,
    (quorum_reads quorumCluster allUp twoHolders howners).2.2 rfl 4 hheld⟩

/-- Nobody has to answer at `ALL` when a key has no owner, and the read still misses. -/
theorem quorum_reads_no_owner :
    let C : Cluster := .uniform { localNode := [], ring := none, readConsistency := .all }
    ¬((getWithConsistency C allUp [97] [107] [] (fresh : World Str)).2.isSome = true ↔
      requiredAcks ([] : List NodeID).length (C.cfg [97]).readConsistency ≤
        answering C allUp [97] [107] (fresh : World Str) []) := by
  decide

end World

end HyperCache
