/-
Rebalancing: handing keys over when the ring has changed.

A tick collects the stored keys that the node no longer owns, or of which it was the
primary and is not any more, and forwards each to its new primary.  When the forward
fails a hint is queued instead.  A key the node no longer owns is then released: at
once, or after a grace period by the shedding step at the end of a later tick.  In
between the tick sends the keys the node is primary of to their new replicas.

The batches of a tick run concurrently in the source.  A migration takes two steps, the
hand-over and the release, and a tick takes the steps of its migrations in any order that
has the two of each migration in theirs.
-/
import HyperCache.Lib.Runs
import HyperCache.Write

namespace HyperCache

open Pointwise Runs

variable {V : Type}

/-- A node that does not own a key knows another node as its primary. -/
theorem DistConfig.primary_of_not_owned (cfg : DistConfig) {key : Key}
    (h : cfg.ownsKeyInternal key = false) :
    ∃ primary rest, cfg.lookupOwners key = primary :: rest ∧ primary ≠ cfg.localNode := by
  unfold DistConfig.ownsKeyInternal at h
  unfold DistConfig.lookupOwners
  cases hring : cfg.ring with
  | none => simp [hring] at h
  | some ring =>
      rw [hring] at h
      dsimp only at h ⊢
      cases hlookup : ring.lookup key with
      | nil => simp [hlookup] at h
      | cons primary rest =>
          refine ⟨primary, rest, rfl, ?_⟩
          rintro rfl
          simp [hlookup] at h

namespace DistShard

/-- Remember when the node first saw that it does not own the key. -/
def recordRemoval (now : Time) (key : Key) (sh : DistShard V) : DistShard V :=
  if key ∈ sh.removedAt then sh else { sh with removedAt := sh.removedAt.insert key now }

/-- The verdict of `shouldRebalance`. -/
def lostKey (cfg : DistConfig) (key : Key) (sh : DistShard V) : Bool :=
  if !cfg.ownsKeyInternal key then true
  else
    match cfg.lookupOwners key, sh.originalPrimary.lookup key with
    | [], _ => false
    | _, none => false
    | curPrimary :: _, some prevPrimary =>
        decide (prevPrimary = cfg.localNode) && decide (curPrimary ≠ cfg.localNode)

def shouldRebalance (cfg : DistConfig) (now : Time) (it : Item V) (sh : DistShard V) :
    DistShard V × Bool :=
  (if !cfg.ownsKeyInternal it.key && decide (cfg.removalGracePeriod > 0) then
      sh.recordRemoval now it.key
    else sh, sh.lostKey cfg it.key)

def collectItem (cfg : DistConfig) (now : Time) (acc : DistShard V × List (Item V))
    (it : Item V) : DistShard V × List (Item V) :=
  match acc.1.shouldRebalance cfg now it with
  | (sh, true) => (sh, acc.2 ++ [it])
  | (sh, false) => (sh, acc.2)

/-- `collectRebalanceCandidates` over the items in the order of the scan. -/
def collectOver (cfg : DistConfig) (now : Time) (items : List (Item V)) (sh : DistShard V) :
    DistShard V × List (Item V) :=
  items.foldl (collectItem cfg now) (sh, [])

def collectRebalanceCandidates (cfg : DistConfig) (now : Time) (sh : DistShard V) :
    DistShard V × List (Item V) :=
  sh.collectOver cfg now sh.items.all

theorem collectItem_fst (cfg : DistConfig) (now : Time) (acc : DistShard V × List (Item V))
    (it : Item V) : (collectItem cfg now acc it).1 = (acc.1.shouldRebalance cfg now it).1 := by
  unfold collectItem
  rcases acc.1.shouldRebalance cfg now it with ⟨sh, lost⟩
  cases lost <;> rfl

theorem collectItem_snd (cfg : DistConfig) (now : Time) (acc : DistShard V × List (Item V))
    (it : Item V) :
    (collectItem cfg now acc it).2 =
      if acc.1.lostKey cfg it.key then acc.2 ++ [it] else acc.2 := by
  unfold collectItem shouldRebalance
  cases acc.1.lostKey cfg it.key <;> rfl

/-- The end of `migrateIfNeeded`, once the item is handed over. -/
def release (cfg : DistConfig) (now : Time) (primary : NodeID) (key : Key) (sh : DistShard V) :
    DistShard V :=
  let sh := { sh with originalPrimary := sh.originalPrimary.insert key primary }
  if !cfg.ownsKeyInternal key then
    if cfg.removalGracePeriod > 0 then sh.recordRemoval now key
    else { sh with items := sh.items.remove key }
  else sh

def maybeRecordRemoval (cfg : DistConfig) (now : Time) (key : Key) (sh : DistShard V) :
    DistShard V :=
  if cfg.removalGracePeriod ≤ 0 then sh
  else if cfg.ownsKeyInternal key then sh
  else sh.recordRemoval now key

/-- The keys whose grace period is over. -/
def due (cfg : DistConfig) (now : Time) (sh : DistShard V) : List Key :=
  (sh.removedAt.entries.filter (fun e => Time.sub now e.2 ≥ cfg.removalGracePeriod)).map (·.1)

def shedShard (cfg : DistConfig) (now : Time) (sh : DistShard V) : DistShard V :=
  let dels := sh.due cfg now
  let sh := { sh with removedAt := dels.foldl (fun m k => m.erase k) sh.removedAt }
  dels.foldl (fun sh k =>
    if !cfg.ownsKeyInternal k then { sh with items := sh.items.remove k } else sh) sh

def shedRemovedKeys (cfg : DistConfig) (now : Time) (sh : DistShard V) : DistShard V :=
  if cfg.removalGracePeriod ≤ 0 then sh else sh.shedShard cfg now

end DistShard

/-- `migrateIfNeeded` forwards the item or queues it as a hint, and then releases it.  No lock
is held from the one to the other. -/
inductive MigrationStep (V : Type) where
  | handOver (item : Item V)
  | release (item : Item V)
  deriving DecidableEq

namespace MigrationStep

def item : MigrationStep V → Item V
  | .handOver item => item
  | .release item => item

@[simp] theorem item_handOver (it : Item V) : (handOver it).item = it := rfl

@[simp] theorem item_release (it : Item V) : (release it).item = it := rfl

def migrateIfNeeded (item : Item V) : List (MigrationStep V) := [.handOver item, .release item]

/-- The steps of the migrations of `items`, in any interleaving.  The batches of `migrateItems`
run in some of these. -/
structure Schedule (items : List (Item V)) (steps : List (MigrationStep V)) : Prop where
  perm : steps.Perm (items.flatMap migrateIfNeeded)
  inOrder : ∀ item ∈ items, (migrateIfNeeded item).Sublist steps

section

variable {items : List (Item V)} {steps : List (MigrationStep V)} (h : Schedule items steps)

include h in
theorem Schedule.mem {s : MigrationStep V} (hs : s ∈ steps) : s.item ∈ items := by
  obtain ⟨item, hitem, hmem⟩ := List.mem_flatMap.mp (h.perm.mem_iff.mp hs)
  rw [migrateIfNeeded, List.mem_pair] at hmem
  rcases hmem with rfl | rfl
  · exact hitem
  · exact hitem

theorem countP_key_migrateIfNeeded (key : Key) (items : List (Item V)) :
    (items.flatMap migrateIfNeeded).countP (fun step => step.item.key == key) =
      2 * items.countP (fun it => it.key == key) := by
  induction items with
  | nil => rfl
  | cons item rest ih =>
      rw [List.flatMap_cons, List.countP_append, ih, List.countP_cons]
      by_cases hkey : item.key = key
      · simp [migrateIfNeeded, hkey]
        omega
      · simp [migrateIfNeeded, hkey]

variable (hkeys : (items.map Item.key).Nodup)

include h hkeys in
/-- A candidate is handed over once and then released once. -/
theorem Schedule.split {item : Item V} (hitem : item ∈ items) :
    ∃ pre mid post, steps = pre ++ .handOver item :: (mid ++ .release item :: post) ∧
      ∀ step ∈ pre ++ mid ++ post, step.item.key ≠ item.key := by
  obtain ⟨front, back, rfl, hfront, hback⟩ := List.cons_sublist_iff.mp (h.inOrder item hitem)
  obtain ⟨pre, mid, rfl⟩ := List.append_of_mem hfront
  obtain ⟨mid', post, rfl⟩ := List.append_of_mem (List.singleton_sublist.mp hback)
  refine ⟨pre, mid ++ mid', post, by simp, ?_⟩
  -- The other candidates have other keys, so two steps in all concern this one.
  have hone : items.countP (fun it => it.key == item.key) ≤ 1 := by
    have hcount := List.nodup_iff_count_le_one.mp hkeys item.key
    rwa [List.count, List.countP_map] at hcount
  have htwo := (h.perm.countP_eq (fun step => step.item.key == item.key)).trans
    (countP_key_migrateIfNeeded item.key items)
  simp only [List.countP_append, List.countP_cons, item_handOver, item_release, beq_self_eq_true,
    if_true] at htwo
  intro step hstep hkey
  have hpos : 0 < (pre ++ (mid ++ mid') ++ post).countP (fun s => s.item.key == item.key) :=
    List.countP_pos_iff.mpr ⟨step, hstep, by simpa using hkey⟩
  simp only [List.countP_append] at hpos
  omega

include h hkeys in
theorem Schedule.handOver_split {pre rest : List (MigrationStep V)} {item : Item V}
    (heq : steps = pre ++ .handOver item :: rest) :
    ∃ mid post, rest = mid ++ .release item :: post ∧
      ∀ step ∈ pre ++ mid ++ post, step.item.key ≠ item.key := by
  obtain ⟨pre', mid, post, hsplit, hother⟩ :=
    h.split hkeys (h.mem (s := .handOver item) (by simp [heq]))
  have hout : ∀ l, l ⊆ pre' ++ mid ++ post → MigrationStep.handOver item ∉ l :=
    fun l hl hmem => hother _ (hl hmem) rfl
  obtain ⟨rfl, -, hrest⟩ := (List.append_cons_inj_of_notMem (hout pre' (by simp))
    (by simpa using ⟨hout mid (by simp), hout post (by simp)⟩)).mp (hsplit.symm.trans heq)
  exact ⟨mid, post, hrest.symm, hother⟩

include h hkeys in
theorem Schedule.release_split {front post : List (MigrationStep V)} {item : Item V}
    (heq : steps = front ++ .release item :: post) :
    ∃ pre mid, front = pre ++ .handOver item :: mid ∧
      ∀ step ∈ pre ++ mid, step.item.key ≠ item.key := by
  obtain ⟨pre, mid, post', hsplit, hother⟩ :=
    h.split hkeys (h.mem (s := .release item) (by simp [heq]))
  have hout : ∀ l, l ⊆ pre ++ mid ++ post' → MigrationStep.release item ∉ l :=
    fun l hl hmem => hother _ (hl hmem) rfl
  have hsplit' : steps = (pre ++ .handOver item :: mid) ++ .release item :: post' := by
    simp [hsplit]
  obtain ⟨rfl, -, -⟩ := (List.append_cons_inj_of_notMem
    (by simpa using ⟨hout pre (by simp), hout mid (by simp)⟩)
    (hout post' (by simp))).mp (hsplit'.symm.trans heq)
  exact ⟨pre, mid, rfl, fun step hs => hother step (List.mem_append_left _ hs)⟩

end

end MigrationStep

namespace NodeState

def onShard (f : DistShard V → DistShard V) (st : NodeState V) : NodeState V :=
  { st with shard := f st.shard }

end NodeState

namespace World

section

variable [SizedValue V] (C : Cluster) (net : Net) (n : NodeID)

/-- Forward the item to its new primary and queue a hint when that fails. -/
def handOver (primary : NodeID) (item : Item V) (w : World V) : World V :=
  match forwardSet C net primary item true w with
  | (w, none) => w
  | (w, some _) => modify w n (NodeState.queueHint (C.cfg n) net.now primary item .migration)

/-- The node a key is migrated to, if it is: the early returns of `migrateIfNeeded`. -/
def target (key : Key) : Option NodeID :=
  match (C.cfg n).lookupOwners key with
  | [] => none
  | primary :: _ =>
      if primary = n then none
      else if !(C.cfg n).hasTransport then none
      else some primary

def migrateStep (w : World V) : MigrationStep V → World V
  | .handOver item =>
      match target C n item.key with
      | none => w
      | some primary => handOver C net n primary item w
  | .release item =>
      match target C n item.key with
      | none => w
      | some primary =>
          modify w n (NodeState.onShard (DistShard.release (C.cfg n) net.now primary item.key))

/-- The loop of `sendReplicaDiff`, with the number of sends so far. -/
def sendReplicaDiff (limit : Nat) (item : Item V) :
    List NodeID → World V × Nat → World V × Nat
  | [], acc => acc
  | rid :: rest, (w, processed) =>
      if rid = n then sendReplicaDiff limit item rest (w, processed)
      else
        let w := (forwardSet C net rid item false w).1
        if limit > 0 ∧ processed + 1 ≥ limit then (w, processed + 1)
        else sendReplicaDiff limit item rest (w, processed + 1)

/-- One round of the loop in `replDiffShard`. -/
def replDiffItem (limit : Nat) (acc : World V × Nat) (item : Item V) : World V × Nat :=
  if limit > 0 ∧ acc.2 ≥ limit then acc
  else
    match (C.cfg n).lookupOwners item.key with
    | [] =>
        (modify acc.1 n (NodeState.onShard
          (DistShard.maybeRecordRemoval (C.cfg n) net.now item.key)), acc.2)
    | primary :: replicas =>
        if primary ≠ n then
          (modify acc.1 n (NodeState.onShard
            (DistShard.maybeRecordRemoval (C.cfg n) net.now item.key)), acc.2)
        else
          let baseline := NodeState.onShard (fun sh =>
            { sh with
              originalOwners := sh.originalOwners.insert item.key (primary :: replicas) })
          match (acc.1 n).shard.originalOwners.lookup item.key with
          | none => (modify acc.1 n baseline, acc.2)
          | some prev =>
              match replicas.filter (fun o => !prev.contains o) with
              | [] => acc
              | newRepls =>
                  let (w, processed) := sendReplicaDiff C net n limit item newRepls acc
                  (modify w n baseline, processed)

def replicateNewReplicas (w : World V) : World V :=
  if (C.cfg n).ring.isNone || !(C.cfg n).hasTransport then w
  else
    ((w n).shard.items.all.foldl
      (replDiffItem C net n (C.cfg n).replicaDiffMaxPerTick) (w, 0)).1

/-- The world and the candidates after the scan. -/
def collected (w : World V) : World V × List (Item V) :=
  let found := (w n).shard.collectRebalanceCandidates (C.cfg n) net.now
  (modify w n (NodeState.onShard (fun _ => found.1)), found.2)

/-- `runRebalanceTick`, with the steps of the migrations in the order they are taken.  The
shedding step reads the clock again. -/
def runRebalanceTick (steps : List (MigrationStep V)) (shedAt : Time) (w : World V) : World V :=
  let migrated := steps.foldl (migrateStep C net n) (collected C net n w).1
  modify (replicateNewReplicas C net n migrated) n
    (NodeState.onShard (DistShard.shedRemovedKeys (C.cfg n) shedAt))

end

section

variable (C : Cluster) (net : Net) (n : NodeID)

/-! ## Where a key goes -/

theorem target_eq_some_iff {key : Key} {primary : NodeID} :
    target C n key = some primary ↔
      ((C.cfg n).lookupOwners key).head? = some primary ∧ primary ≠ n ∧
        (C.cfg n).hasTransport = true := by
  rw [target]
  cases (C.cfg n).lookupOwners key with
  | nil => simp
  | cons first rest =>
      by_cases hself : first = n
      · simp only [hself, if_true, List.head?_cons, Option.some.injEq, reduceCtorEq, false_iff]
        rintro ⟨rfl, hne, -⟩
        exact hne rfl
      · cases (C.cfg n).hasTransport with
        | false => simp [hself]
        | true =>
            simp only [hself, if_false, Bool.not_true, Bool.false_eq_true, Option.some.injEq,
              List.head?_cons, and_true]
            exact ⟨fun h => ⟨h, h ▸ hself⟩, fun h => h.1⟩

theorem ne_self_of_not_owned {key : Key} (h : (C.cfg n).ownsKeyInternal key = false)
    {primary : NodeID} (hprimary : ((C.cfg n).lookupOwners key).head? = some primary) :
    primary ≠ n := by
  obtain ⟨primary', rest, howners, hne⟩ := (C.cfg n).primary_of_not_owned h
  rw [howners, List.head?_cons, Option.some.injEq] at hprimary
  rwa [← hprimary, ← C.localNode_eq n]

/-! ## Where the item is -/

/-- The primary stores the item, or a hint that carries it is queued for the primary. -/
def Secured (primary : NodeID) (item : Item V) (w : World V) : Prop :=
  (w primary).shard.items.get item.key = some item ∨
    item ∈ ((w n).hints.queue primary).map HintedEntry.item

/-- Whatever local copy a phase of the tick deletes for lack of ownership is secured. -/
def DeletesSafely (w w' : World V) : Prop :=
  ∀ key item primary, (w n).shard.items.get key = some item →
    (w' n).shard.items.get key = none → (C.cfg n).ownsKeyInternal key = false →
    ((C.cfg n).lookupOwners key).head? = some primary → Secured n primary item w'

theorem deletesSafely_of_get_eq {w w' : World V}
    (h : ∀ key, (C.cfg n).ownsKeyInternal key = false →
      (w' n).shard.items.get key = (w n).shard.items.get key) : DeletesSafely C n w w' := by
  intro key item primary hget hgone howns
  rw [h key howns, hget] at hgone
  cases hgone

/-! ## What a forwarded set and a release leave alone -/

theorem forwardSet_cases (dst : NodeID) (item : Item V) (replicate : Bool) (w : World V)
    (m : NodeID) :
    (forwardSet C net dst item replicate w).1 m = w m ∨
      (forwardSet C net dst item replicate w).1 m =
        (w m).applyForwardedSet (C.cfg m) item := by
  unfold forwardSet
  split
  · exact applyForwardedSet_cases C net dst item replicate w m
  · exact Or.inl rfl

theorem forwardSet_hints (dst : NodeID) (item : Item V) (replicate : Bool) (w : World V)
    (m : NodeID) :
    ((forwardSet C net dst item replicate w).1 m).hints = (w m).hints := by
  rcases forwardSet_cases C net dst item replicate w m with h | h
  · rw [h]
  · rw [h, NodeState.applyForwardedSet]
    split <;> rfl

/-- A forwarded set touches no other key, and no node that does not own the key. -/
theorem forwardSet_get (dst : NodeID) (item : Item V) (replicate : Bool) (w : World V)
    {m : NodeID} {key : Key}
    (h : key ≠ item.key ∨ (C.cfg m).acceptsForwarded item.key = false) :
    ((forwardSet C net dst item replicate w).1 m).shard.items.get key =
      (w m).shard.items.get key := by
  rcases forwardSet_cases C net dst item replicate w m with hsame | hset
  · rw [hsame]
  · rw [hset, NodeState.applyForwardedSet_shard, DistShard.applyForwardedSet]
    rcases h with hkey | hrefuse
    · split
      · rw [DistShard.applySet_items, ConcurrentMap.get_set_ne _ hkey]
      · rfl
    · rw [if_neg (by simp [hrefuse])]

theorem release_get (cfg : DistConfig) (now : Time) (primary : NodeID) (key : Key)
    (sh : DistShard V) (k : Key) :
    (sh.release cfg now primary key).items.get k =
      if cfg.ownsKeyInternal key = false ∧ cfg.removalGracePeriod ≤ 0 ∧ k = key then none
      else sh.items.get k := by
  have hrecord : ∀ sh : DistShard V, (sh.recordRemoval now key).items = sh.items := by
    intro sh
    unfold DistShard.recordRemoval
    split <;> rfl
  unfold DistShard.release
  dsimp only
  cases howns : cfg.ownsKeyInternal key with
  | true => simp
  | false =>
      by_cases hgrace : cfg.removalGracePeriod > 0
      · rw [if_pos Bool.not_false, if_pos hgrace, hrecord,
          if_neg (fun h => not_le.mpr hgrace h.2.1)]
      · rw [if_pos Bool.not_false, if_neg hgrace]
        by_cases hk : k = key
        · subst hk
          rw [if_pos ⟨rfl, not_lt.mp hgrace, rfl⟩]
          exact ConcurrentMap.get_remove_self _ _
        · rw [if_neg (fun h => hk h.2.2)]
          exact ConcurrentMap.get_remove_ne _ hk

/-! ## The phases without a migration -/

/-- Nothing happens to the copies of a key, nor to the hints. -/
def SameFor (key : Key) (w w' : World V) : Prop :=
  (∀ m, (w' m).shard.items.get key = (w m).shard.items.get key) ∧ (w' n).hints = (w n).hints

theorem SameFor.trans {key : Key} {w w' w'' : World V} (h : SameFor n key w w')
    (h' : SameFor n key w' w'') : SameFor n key w w'' :=
  ⟨fun m => (h'.1 m).trans (h.1 m), h'.2.trans h.2⟩

theorem secured_of_sameFor {item : Item V} {w w' : World V} (h : SameFor n item.key w w')
    {primary : NodeID} (hsecured : Secured n primary item w) : Secured n primary item w' := by
  unfold Secured at hsecured ⊢
  rwa [h.1 primary, h.2]

theorem sameFor_onShard (key : Key) (w : World V) {f : DistShard V → DistShard V}
    (h : (f (w n).shard).items = (w n).shard.items) :
    SameFor n key w (modify w n (NodeState.onShard f)) := by
  refine ⟨fun m => ?_, by rw [modify_self]; rfl⟩
  by_cases hm : m = n
  · subst hm
    rw [modify_self]
    show (f (w m).shard).items.get key = _
    rw [h]
  · rw [modify_ne _ _ hm]

theorem sameFor_sendReplicaDiff {limit : Nat} {item : Item V} {key : Key}
    (hkey : key ≠ item.key) (rids : List NodeID) (acc : World V × Nat) :
    SameFor n key acc.1 (sendReplicaDiff C net n limit item rids acc).1 := by
  induction rids generalizing acc with
  | nil => exact ⟨fun m => rfl, rfl⟩
  | cons rid rest ih =>
      have hsend : SameFor n key acc.1 (forwardSet C net rid item false acc.1).1 :=
        ⟨fun m => forwardSet_get C net rid item false acc.1 (Or.inl hkey),
          forwardSet_hints C net rid item false acc.1 n⟩
      rw [sendReplicaDiff]
      split
      · exact ih acc
      · split
        · exact hsend
        · exact hsend.trans n (ih (_, acc.2 + 1))

theorem maybeRecordRemoval_items (cfg : DistConfig) (now : Time) (key : Key)
    (sh : DistShard V) : (sh.maybeRecordRemoval cfg now key).items = sh.items := by
  unfold DistShard.maybeRecordRemoval DistShard.recordRemoval
  split
  · rfl
  · split
    · rfl
    · split <;> rfl

/-- The replica diff only sends keys the node is primary of. -/
theorem sameFor_replDiffItem {limit : Nat} {key : Key}
    (hkey : ((C.cfg n).lookupOwners key).head? ≠ some n) (acc : World V × Nat) (item : Item V) :
    SameFor n key acc.1 (replDiffItem C net n limit acc item).1 := by
  have hremoval := sameFor_onShard n key acc.1
    (maybeRecordRemoval_items (C.cfg n) net.now item.key (acc.1 n).shard)
  unfold replDiffItem
  split
  · exact ⟨fun m => rfl, rfl⟩
  · split
    · exact hremoval
    case h_2 primary replicas howners =>
      split
      · exact hremoval
      case isFalse hself =>
        have hne : key ≠ item.key := by
          rintro rfl
          rw [howners, not_not.mp hself] at hkey
          exact hkey rfl
        have hsend : ∀ rids, SameFor n key acc.1
            (sendReplicaDiff C net n limit item rids acc).1 :=
          fun rids => sameFor_sendReplicaDiff C net n hne rids acc
        dsimp only
        split
        · exact sameFor_onShard n key acc.1 rfl
        · split
          · exact ⟨fun m => rfl, rfl⟩
          · exact (hsend _).trans n (sameFor_onShard n key _ rfl)

theorem sameFor_replicateNewReplicas {key : Key}
    (hkey : ((C.cfg n).lookupOwners key).head? ≠ some n) (w : World V) :
    SameFor n key w (replicateNewReplicas C net n w) := by
  unfold replicateNewReplicas
  split
  · exact ⟨fun m => rfl, rfl⟩
  · exact List.foldlRecOn (motive := fun acc : World V × Nat => SameFor n key w acc.1) _ _
      ⟨fun m => rfl, rfl⟩ fun acc hacc item _ =>
        hacc.trans n (sameFor_replDiffItem C net n hkey acc item)

theorem deletesSafely_replicateNewReplicas (w : World V) :
    DeletesSafely C n w (replicateNewReplicas C net n w) := by
  refine deletesSafely_of_get_eq C n (fun key howns => ?_)
  have hkey : ((C.cfg n).lookupOwners key).head? ≠ some n :=
    fun hself => ne_self_of_not_owned C n howns hself rfl
  exact (sameFor_replicateNewReplicas C net n hkey w).1 n

theorem shouldRebalance_fst (cfg : DistConfig) (now : Time) (it : Item V) (sh : DistShard V) :
    (sh.shouldRebalance cfg now it).1.items = sh.items ∧
      (sh.shouldRebalance cfg now it).1.originalPrimary = sh.originalPrimary := by
  unfold DistShard.shouldRebalance DistShard.recordRemoval
  dsimp only
  split
  · split <;> exact ⟨rfl, rfl⟩
  · exact ⟨rfl, rfl⟩

/-- The scan keeps the items and the recorded primaries and finds the items it has lost. -/
theorem collectOver_spec (cfg : DistConfig) (now : Time) (items : List (Item V))
    (sh : DistShard V) :
    (sh.collectOver cfg now items).1.items = sh.items ∧
      (sh.collectOver cfg now items).1.originalPrimary = sh.originalPrimary ∧
      (sh.collectOver cfg now items).2 = items.filter (fun it => sh.lostKey cfg it.key) := by
  have hfold : ∀ (l : List (Item V)) (acc : DistShard V × List (Item V)),
      acc.1.items = sh.items → acc.1.originalPrimary = sh.originalPrimary →
      (l.foldl (DistShard.collectItem cfg now) acc).1.items = sh.items ∧
        (l.foldl (DistShard.collectItem cfg now) acc).1.originalPrimary = sh.originalPrimary ∧
        (l.foldl (DistShard.collectItem cfg now) acc).2 =
          acc.2 ++ l.filter (fun it => sh.lostKey cfg it.key) := by
    intro l
    induction l with
    | nil => exact fun acc hitems hprimary => ⟨hitems, hprimary, (List.append_nil _).symm⟩
    | cons it rest ih =>
        intro acc hitems hprimary
        obtain ⟨hkeep, hkeep'⟩ := shouldRebalance_fst cfg now it acc.1
        rw [← DistShard.collectItem_fst] at hkeep hkeep'
        have hverdict : acc.1.lostKey cfg it.key = sh.lostKey cfg it.key := by
          rw [DistShard.lostKey, DistShard.lostKey, hprimary]
        obtain ⟨hi, hp, hout⟩ := ih (DistShard.collectItem cfg now acc it) (hkeep.trans hitems)
          (hkeep'.trans hprimary)
        refine ⟨hi, hp, hout.trans ?_⟩
        rw [DistShard.collectItem_snd, hverdict, List.filter_cons]
        split <;> simp
  exact hfold items (sh, []) rfl rfl

theorem collectRebalanceCandidates_spec (cfg : DistConfig) (now : Time) (sh : DistShard V) :
    (sh.collectRebalanceCandidates cfg now).1.items = sh.items ∧
      (sh.collectRebalanceCandidates cfg now).2 =
        sh.items.all.filter (fun it => sh.lostKey cfg it.key) := by
  obtain ⟨hitems, -, hlost⟩ := collectOver_spec cfg now sh.items.all sh
  exact ⟨hitems, hlost⟩

theorem collected_get (w : World V) (key : Key) :
    ((collected C net n w).1 n).shard.items.get key = (w n).shard.items.get key := by
  show ((modify w n _) n).shard.items.get key = _
  rw [modify_self]
  show ((w n).shard.collectRebalanceCandidates (C.cfg n) net.now).1.items.get key = _
  rw [(collectRebalanceCandidates_spec (C.cfg n) net.now (w n).shard).1]

theorem mem_collected {w : World V} {item : Item V} :
    item ∈ (collected C net n w).2 ↔
      (w n).shard.items.get item.key = some item ∧
        (w n).shard.lostKey (C.cfg n) item.key = true := by
  show item ∈ ((w n).shard.collectRebalanceCandidates (C.cfg n) net.now).2 ↔ _
  rw [(collectRebalanceCandidates_spec (C.cfg n) net.now (w n).shard).2, List.mem_filter,
    ConcurrentMap.mem_all]

theorem nodup_collected (w : World V) : ((collected C net n w).2.map Item.key).Nodup := by
  show (((w n).shard.collectRebalanceCandidates (C.cfg n) net.now).2.map Item.key).Nodup
  rw [(collectRebalanceCandidates_spec (C.cfg n) net.now (w n).shard).2]
  refine List.Nodup.sublist (List.filter_sublist.map _) ?_
  rw [ConcurrentMap.map_key_all]
  exact (w n).shard.items.keys_nodup

/-- Without a grace period the shedding step does nothing. -/
theorem deletesSafely_shed (hgrace : (C.cfg n).removalGracePeriod ≤ 0) (shedAt : Time)
    (w : World V) :
    DeletesSafely C n w
      (modify w n (NodeState.onShard (DistShard.shedRemovedKeys (C.cfg n) shedAt))) := by
  refine deletesSafely_of_get_eq C n (fun key _ => ?_)
  rw [modify_self]
  show (DistShard.shedRemovedKeys _ _ _).items.get key = _
  rw [DistShard.shedRemovedKeys, if_pos hgrace]

/-! ## The newest hints -/

theorem suffix_tail {α : Type} {l q : List α} (h : l <:+ q) (hlen : l.length < q.length) :
    l <:+ q.tail := by
  obtain ⟨pre, rfl⟩ := h
  cases pre with
  | nil => simp at hlen
  | cons a pre => exact ⟨pre, rfl⟩

/-- An entry is dropped only when the queue is longer than the newest hints. -/
theorem suffix_dropOldest (cfg : DistConfig) {peer : NodeID} {hs : HintStore V}
    {recent : List (Item V)} (h : recent <:+ (hs.queue peer).map HintedEntry.item)
    (hroom : cfg.hintMaxPerNode = 0 ∨ recent.length < cfg.hintMaxPerNode) :
    recent <:+ (hs.dropOldest cfg peer).1.map HintedEntry.item := by
  rcases HintStore.dropOldest_kept cfg peer hs with hall | ⟨hpos, hfull, htail⟩
  · rw [hall]
    exact h
  · rw [htail, List.map_tail]
    refine suffix_tail h ?_
    rw [List.length_map]
    omega

end

section

variable [SizedValue V] (C : Cluster) (net : Net) (n : NodeID)

/-! ## One migration -/

theorem handOver_of_up {primary : NodeID} (item : Item V) (w : World V)
    (hup : net.up primary = true) :
    handOver C net n primary item w = applyForwardedSet C net primary item true w := by
  rw [handOver, forwardSet, if_pos hup]

theorem handOver_of_down {primary : NodeID} (item : Item V) (w : World V)
    (hdown : net.up primary = false) :
    handOver C net n primary item w =
      modify w n (NodeState.queueHint (C.cfg n) net.now primary item .migration) := by
  rw [handOver, forwardSet, if_neg (by simp [hdown])]

theorem handOver_get {primary : NodeID} (item : Item V) (w : World V) {m : NodeID} {key : Key}
    (h : key ≠ item.key ∨ (C.cfg m).acceptsForwarded item.key = false) :
    (handOver C net n primary item w m).shard.items.get key = (w m).shard.items.get key := by
  cases hup : net.up primary with
  | true =>
      have hforward := forwardSet_get C net primary item true w h
      rw [forwardSet, if_pos hup] at hforward
      rw [handOver_of_up C net n item w hup]
      exact hforward
  | false =>
      rw [handOver_of_down C net n item w hup]
      by_cases hm : m = n
      · subst hm
        rw [modify_self]
        rfl
      · rw [modify_ne _ _ hm]

/-- The hints held for a peer after a hand-over. -/
theorem handOver_queue {primary : NodeID} (item : Item V) (w : World V) (peer : NodeID) :
    ((handOver C net n primary item w n).hints.queue peer).map HintedEntry.item =
      if net.up primary = false ∧ peer = primary ∧
          (w n).hints.takes (C.cfg n) primary item = true then
        ((w n).hints.dropOldest (C.cfg n) primary).1.map HintedEntry.item ++ [item]
      else ((w n).hints.queue peer).map HintedEntry.item := by
  cases hup : net.up primary with
  | true =>
      have hforward := forwardSet_hints C net primary item true w n
      rw [forwardSet, if_pos hup] at hforward
      rw [handOver_of_up C net n item w hup, if_neg (by simp)]
      exact congrArg (fun hs => (HintStore.queue hs peer).map HintedEntry.item) hforward
  | false =>
      rw [handOver_of_down C net n item w hup, modify_self]
      show (((w n).hints.queueHint _ _ _ _ _).queue peer).map HintedEntry.item = _
      by_cases hpeer : peer = primary
      · subst hpeer
        rw [HintStore.queue_queueHint]
        simp
      · rw [HintStore.queue_queueHint_ne _ _ _ _ _ hpeer, if_neg (by simp [hpeer])]

/-- The hand-over reaches the primary, or the hint queue when the primary is unreachable. -/
def Delivered (primary : NodeID) (item : Item V) (w : World V) : Prop :=
  if net.up primary = true then (C.cfg primary).acceptsForwarded item.key = true
  else (w n).hints.takes (C.cfg n) primary item = true

theorem step_handOver_get {m : NodeID} {key : Key} {item : Item V} (w : World V)
    (h : key ≠ item.key ∨ (C.cfg m).acceptsForwarded item.key = false) :
    (migrateStep C net n w (.handOver item) m).shard.items.get key =
      (w m).shard.items.get key := by
  rw [migrateStep]
  cases target C n item.key with
  | none => rfl
  | some primary => exact handOver_get C net n item w h

theorem step_release_get (w : World V) (item : Item V) (m : NodeID) (key : Key) :
    (migrateStep C net n w (.release item) m).shard.items.get key =
      if m = n ∧ target C n item.key ≠ none ∧ (C.cfg n).ownsKeyInternal item.key = false ∧
          (C.cfg n).removalGracePeriod ≤ 0 ∧ key = item.key then none
      else (w m).shard.items.get key := by
  rw [migrateStep]
  cases target C n item.key with
  | none => exact (if_neg (fun h => h.2.1 rfl)).symm
  | some primary =>
      dsimp only
      by_cases hm : m = n
      · subst hm
        rw [modify_self]
        exact (release_get _ _ _ _ _ _).trans (by simp)
      · rw [modify_ne _ _ hm, if_neg (fun h => hm h.1)]

theorem step_get_ne (w : World V) (step : MigrationStep V) {m : NodeID} {key : Key}
    (h : key ≠ step.item.key) :
    (migrateStep C net n w step m).shard.items.get key = (w m).shard.items.get key := by
  cases step with
  | handOver item => exact step_handOver_get C net n w (Or.inl h)
  | release item =>
      rw [step_release_get, if_neg]
      exact fun hc => h hc.2.2.2.2

/-- A hand-over leaves the node's own copies of the keys it does not own. -/
theorem step_handOver_get_self {key : Key} (howns : (C.cfg n).ownsKeyInternal key = false)
    (w : World V) (item : Item V) :
    (migrateStep C net n w (.handOver item) n).shard.items.get key =
      (w n).shard.items.get key := by
  refine step_handOver_get C net n w (or_iff_not_imp_left.mpr fun hkey => ?_)
  rw [DistConfig.acceptsForwarded_eq, ← not_not.mp hkey, howns]

/-- Under a grace period no step changes the node's own copy of a key it does not own. -/
theorem step_get_not_owned (hgrace : (C.cfg n).removalGracePeriod > 0) {key : Key}
    (howns : (C.cfg n).ownsKeyInternal key = false) (w : World V) (step : MigrationStep V) :
    (migrateStep C net n w step n).shard.items.get key = (w n).shard.items.get key := by
  cases step with
  | handOver item => exact step_handOver_get_self C net n howns w item
  | release item =>
      rw [step_release_get, if_neg]
      exact fun h => not_le.mpr hgrace h.2.2.2.1

theorem step_queue (w : World V) (step : MigrationStep V) (peer : NodeID) :
    ((migrateStep C net n w step n).hints.queue peer).map HintedEntry.item =
      match step with
      | .handOver item =>
          if target C n item.key = some peer ∧ net.up peer = false ∧
              (w n).hints.takes (C.cfg n) peer item = true then
            ((w n).hints.dropOldest (C.cfg n) peer).1.map HintedEntry.item ++ [item]
          else ((w n).hints.queue peer).map HintedEntry.item
      | .release _ => ((w n).hints.queue peer).map HintedEntry.item := by
  cases step with
  | handOver item =>
      dsimp only [migrateStep]
      cases htarget : target C n item.key with
      | none => simp
      | some primary =>
          dsimp only
          rw [handOver_queue]
          by_cases hpeer : peer = primary
          · subst hpeer
            simp
          · rw [if_neg (fun h => hpeer h.2.1),
              if_neg (fun h => hpeer (Option.some.inj h.1).symm)]
  | release item =>
      rw [migrateStep]
      cases target C n item.key with
      | none => rfl
      | some primary =>
          dsimp only
          rw [modify_self]
          rfl

theorem step_primary_get (w : World V) (item : Item V) {primary : NodeID}
    (htarget : target C n item.key = some primary) :
    (migrateStep C net n w (.handOver item) primary).shard.items.get item.key =
      if net.up primary = true ∧ (C.cfg primary).acceptsForwarded item.key = true then some item
      else (w primary).shard.items.get item.key := by
  have hne : primary ≠ n := ((target_eq_some_iff C n).mp htarget).2.1
  rw [migrateStep, htarget]
  dsimp only
  cases hup : net.up primary with
  | true =>
      rw [handOver_of_up C net n item w hup, applyForwardedSet_self,
        NodeState.applyForwardedSet_shard, DistShard.applyForwardedSet]
      by_cases haccept : (C.cfg primary).acceptsForwarded item.key = true
      · rw [if_pos haccept, if_pos ⟨rfl, haccept⟩, DistShard.applySet_items]
        exact ConcurrentMap.get_set_self _ item
      · rw [if_neg haccept, if_neg (fun h => haccept h.2)]
  | false =>
      rw [handOver_of_down C net n item w hup, modify_ne _ _ hne, if_neg (by simp)]

/-- After its hand-over an item is secured exactly when the hand-over was delivered or it was
secured before. -/
theorem secured_handOver_iff (w : World V) (item : Item V) {primary : NodeID}
    (htarget : target C n item.key = some primary) :
    Secured n primary item (migrateStep C net n w (.handOver item)) ↔
      Delivered C net n primary item w ∨ Secured n primary item w := by
  unfold Secured Delivered
  rw [step_primary_get C net n w item htarget, step_queue C net n w _ primary]
  dsimp only
  cases hup : net.up primary with
  | true =>
      by_cases haccept : (C.cfg primary).acceptsForwarded item.key = true
      · simp [haccept]
      · simp [haccept]
  | false =>
      cases htakes : (w n).hints.takes (C.cfg n) primary item with
      | true => simp [htarget]
      | false => simp

theorem secured_release_iff (w : World V) (item other : Item V) {primary : NodeID}
    (hne : primary ≠ n) :
    Secured n primary item (migrateStep C net n w (.release other)) ↔
      Secured n primary item w := by
  unfold Secured
  rw [step_queue, step_release_get, if_neg (fun h => hne h.1)]

/-- Where no hint is dropped for a newer one, the steps of other items neither secure an item
nor lose it. -/
theorem secured_other_iff (hoff : (C.cfg n).hintMaxPerNode = 0) {item : Item V}
    {primary : NodeID} {steps : List (MigrationStep V)}
    (hother : ∀ step ∈ steps, step.item.key ≠ item.key) (w : World V) :
    Secured n primary item (steps.foldl (migrateStep C net n) w) ↔ Secured n primary item w := by
  induction steps generalizing w with
  | nil => exact Iff.rfl
  | cons step rest ih =>
      obtain ⟨hstep, hrest⟩ := List.forall_mem_cons.mp hother
      rw [List.foldl_cons, ih hrest]
      unfold Secured
      rw [step_get_ne C net n w step (Ne.symm hstep), step_queue]
      cases step with
      | handOver new =>
          have hnew : item ≠ new := fun h => hstep (congrArg Item.key h.symm)
          have hkept : ((w n).hints.dropOldest (C.cfg n) primary).1 =
              (w n).hints.queue primary := by
            rcases HintStore.dropOldest_kept (C.cfg n) primary (w n).hints with hall | ⟨hpos, -⟩
            · exact hall
            · omega
          dsimp only
          split
          · rw [hkept, List.mem_append, List.mem_singleton, or_iff_left hnew]
          · rfl
      | release new => exact Iff.rfl

/-- The copies of a key change only by the steps of the key, and those of other nodes not by a
release. -/
theorem foldl_get_other {key : Key} {steps : List (MigrationStep V)} {m : NodeID}
    (hother : ∀ step ∈ steps, step.item.key ≠ key ∨ m ≠ n ∧ step = .release step.item)
    (w : World V) :
    (steps.foldl (migrateStep C net n) w m).shard.items.get key =
      (w m).shard.items.get key := by
  induction steps generalizing w with
  | nil => rfl
  | cons step rest ih =>
      obtain ⟨hstep, hrest⟩ := List.forall_mem_cons.mp hother
      rw [List.foldl_cons, ih hrest]
      obtain hkey | ⟨hm, hrelease⟩ := hstep
      · exact step_get_ne C net n w step (Ne.symm hkey)
      · rw [hrelease, step_release_get, if_neg (fun h => hm h.1)]

/-! ## The newest hints of a run -/

/-- The step hands an item over to `peer`. -/
def handsTo (peer : NodeID) : MigrationStep V → Bool
  | .handOver item => target C n item.key = some peer
  | .release _ => false

/-- The newest hints for a peer outlive a run that queues no more hints for it than the cap
has room for beside them. -/
theorem queue_run {peer : NodeID} {steps : List (MigrationStep V)} {w : World V}
    {recent : List (Item V)}
    (hrecent : recent <:+ ((w n).hints.queue peer).map HintedEntry.item)
    (hcap : (C.cfg n).hintMaxPerNode = 0 ∨
      recent.length + steps.countP (handsTo C n peer) ≤ (C.cfg n).hintMaxPerNode)
    {x : Item V} (hx : x ∈ recent) :
    x ∈ ((steps.foldl (migrateStep C net n) w n).hints.queue peer).map HintedEntry.item := by
  induction steps generalizing w recent with
  | nil => exact hrecent.subset hx
  | cons step rest ih =>
      rw [List.foldl_cons]
      have hqueue := step_queue C net n w step peer
      have hrest : (C.cfg n).hintMaxPerNode = 0 ∨
          recent.length + rest.countP (handsTo C n peer) ≤ (C.cfg n).hintMaxPerNode := by
        refine hcap.imp_right (fun hle => Nat.le_trans ?_ hle)
        rw [List.countP_cons]
        omega
      cases step with
      | release item => exact ih (hqueue ▸ hrecent) hrest hx
      | handOver item =>
          dsimp only at hqueue
          by_cases hnew : target C n item.key = some peer ∧ net.up peer = false ∧
              (w n).hints.takes (C.cfg n) peer item = true
          · rw [if_pos hnew] at hqueue
            have hcap' : (C.cfg n).hintMaxPerNode = 0 ∨
                (recent ++ [item]).length + rest.countP (handsTo C n peer) ≤
                  (C.cfg n).hintMaxPerNode := by
              refine hcap.imp_right (fun hle => ?_)
              rw [List.countP_cons_of_pos (by simpa [handsTo] using hnew.1)] at hle
              rw [List.length_append, List.length_singleton]
              omega
            have hroom : (C.cfg n).hintMaxPerNode = 0 ∨
                recent.length < (C.cfg n).hintMaxPerNode := by
              rw [List.length_append, List.length_singleton] at hcap'
              omega
            refine ih ?_ hcap' (List.mem_append_left _ hx)
            rw [hqueue]
            obtain ⟨older, holder⟩ := suffix_dropOldest (C.cfg n) hrecent hroom
            exact ⟨older, by rw [← holder, List.append_assoc]⟩
          · rw [if_neg hnew] at hqueue
            exact ih (hqueue ▸ hrecent) hrest hx

/-- An item whose hand-over was delivered stays secured through the steps that follow. -/
theorem secured_after {item : Item V} {steps : List (MigrationStep V)} {w : World V}
    {primary : NodeID} (htarget : target C n item.key = some primary)
    (hdelivered : Delivered C net n primary item w)
    (hother : ∀ step ∈ steps, step.item.key ≠ item.key ∨ step = .release step.item)
    (hcap : (C.cfg n).hintMaxPerNode = 0 ∨
      (.handOver item :: steps).countP (handsTo C n primary) ≤ (C.cfg n).hintMaxPerNode) :
    Secured n primary item
      (steps.foldl (migrateStep C net n) (migrateStep C net n w (.handOver item))) := by
  unfold Delivered at hdelivered
  cases hup : net.up primary with
  | true =>
      rw [if_pos hup] at hdelivered
      refine Or.inl ?_
      have hne : primary ≠ n := ((target_eq_some_iff C n).mp htarget).2.1
      rw [foldl_get_other C net n (fun step hs => (hother step hs).imp_right (⟨hne, ·⟩)),
        step_primary_get C net n w item htarget, if_pos ⟨hup, hdelivered⟩]
  | false =>
      rw [if_neg (by simp [hup])] at hdelivered
      have hqueue := step_queue C net n w (.handOver item) primary
      dsimp only at hqueue
      rw [if_pos ⟨htarget, hup, hdelivered⟩] at hqueue
      refine Or.inr (queue_run C net n (hqueue ▸ List.suffix_append _ _) ?_
        (List.mem_singleton_self item))
      refine hcap.imp_right (fun hle => ?_)
      rw [List.countP_cons_of_pos (by simpa [handsTo] using htarget)] at hle
      rw [List.length_singleton]
      omega

omit [SizedValue V] in
theorem countP_handsTo {items : List (Item V)} {steps : List (MigrationStep V)}
    (h : MigrationStep.Schedule items steps) (peer : NodeID) :
    steps.countP (handsTo C n peer) =
      items.countP (fun it => target C n it.key = some peer) := by
  rw [h.perm.countP_eq]
  clear h
  induction items with
  | nil => rfl
  | cons item rest ih =>
      rw [List.flatMap_cons, List.countP_append, ih, List.countP_cons, Nat.add_comm]
      by_cases htarget : target C n item.key = some peer
      · simp [MigrationStep.migrateIfNeeded, handsTo, htarget]
      · simp [MigrationStep.migrateIfNeeded, handsTo, htarget]

/-! ## Releases -/

/-- The hand-over of a key that will be released is delivered, or the item is secured
already. -/
def Ready (w : World V) : MigrationStep V → Prop
  | .handOver item =>
      (C.cfg n).hasTransport = true → (C.cfg n).ownsKeyInternal item.key = false →
        ∀ primary, ((C.cfg n).lookupOwners item.key).head? = some primary →
          Delivered C net n primary item w ∨ Secured n primary item w
  | .release _ => True

/-- The hand-overs of the keys the node does not own are delivered. -/
def HandsOver (w : World V) : MigrationStep V → Prop
  | .handOver item =>
      (C.cfg n).ownsKeyInternal item.key = false →
        ∀ primary, ((C.cfg n).lookupOwners item.key).head? = some primary →
          Delivered C net n primary item w
  | .release _ => True

theorem deletesSafely_handOver (w : World V) (item : Item V) :
    DeletesSafely C n w (migrateStep C net n w (.handOver item)) :=
  deletesSafely_of_get_eq C n (fun _ howns => step_handOver_get_self C net n howns w item)

/-- Without a grace period a release is safe exactly when the item is secured by then. -/
theorem deletesSafely_release_iff (hgrace : (C.cfg n).removalGracePeriod ≤ 0) {w : World V}
    {item : Item V} (hstored : (C.cfg n).ownsKeyInternal item.key = false →
      (w n).shard.items.get item.key = some item) :
    DeletesSafely C n w (migrateStep C net n w (.release item)) ↔
      ((C.cfg n).hasTransport = true → (C.cfg n).ownsKeyInternal item.key = false →
        ∀ primary, ((C.cfg n).lookupOwners item.key).head? = some primary →
          Secured n primary item w) := by
  constructor
  · intro h htransport howns primary hprimary
    have hne := ne_self_of_not_owned C n howns hprimary
    have htarget := (target_eq_some_iff C n).mpr ⟨hprimary, hne, htransport⟩
    have hgone : (migrateStep C net n w (.release item) n).shard.items.get item.key = none := by
      rw [step_release_get, if_pos ⟨rfl, by simp [htarget], howns, hgrace, rfl⟩]
    exact (secured_release_iff C net n w item item hne).mp
      (h item.key item primary (hstored howns) hgone howns hprimary)
  · intro h key it primary hget hgone howns hprimary
    by_cases hkey : key = item.key
    · subst hkey
      obtain rfl : item = it := Option.some.inj ((hstored howns).symm.trans hget)
      have hne := ne_self_of_not_owned C n howns hprimary
      rw [secured_release_iff C net n w item item hne]
      by_cases htransport : (C.cfg n).hasTransport = true
      · exact h htransport howns primary hprimary
      · have htarget : target C n item.key = none := by
          rw [Option.eq_none_iff_forall_ne_some]
          exact fun peer hpeer => htransport ((target_eq_some_iff C n).mp hpeer).2.2
        rw [migrateStep, htarget, hget] at hgone
        cases hgone
    · rw [step_get_ne C net n w _ hkey, hget] at hgone
      cases hgone

section

variable {items : List (Item V)} {steps : List (MigrationStep V)} {w : World V}
  (hsched : MigrationStep.Schedule items steps) (hkeys : (items.map Item.key).Nodup)
  (hstored : ∀ it ∈ items, (w n).shard.items.get it.key = some it)

include hsched hkeys hstored in
/-- The copy of a candidate the node does not own is untouched when its release comes. -/
theorem stored_at_release {front post : List (MigrationStep V)} {item : Item V}
    (heq : steps = front ++ .release item :: post)
    (howns : (C.cfg n).ownsKeyInternal item.key = false) :
    (front.foldl (migrateStep C net n) w n).shard.items.get item.key = some item := by
  obtain ⟨pre, mid, rfl, hother⟩ := hsched.release_split hkeys heq
  rw [List.foldl_append, List.foldl_cons,
    foldl_get_other C net n (fun s hs => .inl (hother s (List.mem_append_right _ hs))),
    step_handOver_get_self C net n howns,
    foldl_get_other C net n (fun s hs => .inl (hother s (List.mem_append_left _ hs)))]
  exact hstored item (hsched.mem (s := .release item) (by simp [heq]))

include hsched hkeys hstored in
/-- Without a grace period, and with no cap on the hints of a peer, the steps delete safely exactly
when each hand-over of a key that is then released is ready for it. -/
theorem along_deletesSafely_iff (hgrace : (C.cfg n).removalGracePeriod ≤ 0)
    (hoff : (C.cfg n).hintMaxPerNode = 0) :
    Along (migrateStep C net n) (fun w step => DeletesSafely C n w (migrateStep C net n w step))
        w steps ↔
      Along (migrateStep C net n) (Ready C net n) w steps := by
  -- A release is safe exactly when its hand-over was ready: in between only other items move.
  have hrelease : ∀ pre mid post item,
      steps = pre ++ .handOver item :: mid ++ .release item :: post →
      (∀ step ∈ mid, step.item.key ≠ item.key) →
      (DeletesSafely C n ((pre ++ .handOver item :: mid).foldl (migrateStep C net n) w)
          (migrateStep C net n ((pre ++ .handOver item :: mid).foldl (migrateStep C net n) w)
            (.release item)) ↔
        Ready C net n (pre.foldl (migrateStep C net n) w) (.handOver item)) := by
    intro pre mid post item heq hmid
    rw [deletesSafely_release_iff C net n hgrace
      (stored_at_release C net n hsched hkeys hstored heq), Ready]
    refine forall_congr' fun htransport => forall_congr' fun howns => ?_
    refine forall_congr' fun primary => forall_congr' fun hprimary => ?_
    have htarget := (target_eq_some_iff C n).mpr
      ⟨hprimary, ne_self_of_not_owned C n howns hprimary, htransport⟩
    rw [List.foldl_append, List.foldl_cons, secured_other_iff C net n hoff hmid,
      secured_handOver_iff C net n _ item htarget]
  rw [along_iff_split, along_iff_split]
  constructor
  · intro h pre step rest heq
    cases step with
    | release item => trivial
    | handOver item =>
        obtain ⟨mid, post, rfl, hother⟩ := hsched.handOver_split hkeys heq
        have heq' : steps = pre ++ .handOver item :: mid ++ .release item :: post := by simp [heq]
        exact (hrelease pre mid post item heq' (fun s hs => hother s (by simp [hs]))).mp
          (h _ _ _ heq')
  · intro h front step post heq
    cases step with
    | handOver item => exact deletesSafely_handOver C net n _ item
    | release item =>
        obtain ⟨pre, mid, rfl, hother⟩ := hsched.release_split hkeys heq
        exact (hrelease pre mid post item heq (fun s hs => hother s (by simp [hs]))).mpr
          (h pre _ (mid ++ .release item :: post) (by simp [heq]))

include hsched hkeys in
/-- Once handed over, an item stays secured to the end of the run when the hand-overs are
delivered and the cap has room for those of one primary. -/
theorem secured_later (htransport : (C.cfg n).hasTransport = true)
    (hcap : ∀ peer, (C.cfg n).hintMaxPerNode = 0 ∨
      items.countP (fun it => target C n it.key = some peer) ≤ (C.cfg n).hintMaxPerNode)
    (hrun : Along (migrateStep C net n) (HandsOver C net n) w steps)
    {pre later rest : List (MigrationStep V)} {item : Item V}
    (heq : steps = pre ++ .handOver item :: (later ++ rest))
    (howns : (C.cfg n).ownsKeyInternal item.key = false) {primary : NodeID}
    (hprimary : ((C.cfg n).lookupOwners item.key).head? = some primary) :
    Secured n primary item
      ((pre ++ .handOver item :: later).foldl (migrateStep C net n) w) := by
  have htarget := (target_eq_some_iff C n).mpr
    ⟨hprimary, ne_self_of_not_owned C n howns hprimary, htransport⟩
  have hdelivered := along_iff_split.mp hrun pre (.handOver item) _ heq howns primary hprimary
  obtain ⟨mid, post, hrest, hother⟩ := hsched.handOver_split hkeys heq
  rw [List.foldl_append, List.foldl_cons]
  refine secured_after C net n htarget hdelivered (fun step hstep => ?_)
    ((hcap primary).imp_right (Nat.le_trans ?_))
  · have hmem : step ∈ mid ++ .release item :: post := hrest ▸ List.mem_append_left _ hstep
    simp only [List.mem_append, List.mem_cons] at hmem
    obtain hmem | rfl | hmem := hmem
    · exact .inl (hother step (by simp [hmem]))
    · exact .inr rfl
    · exact .inl (hother step (by simp [hmem]))
  · rw [← countP_handsTo C n hsched, heq]
    refine List.Sublist.countP_le ?_
    refine List.Sublist.trans ?_ (List.sublist_append_right pre _)
    exact (List.sublist_append_left later rest).cons_cons _

end

/-! ## A whole tick -/

/-- Every deletion of a tick, in each of its phases, is safe. -/
def TickSafe (steps : List (MigrationStep V)) (shedAt : Time) (w : World V) : Prop :=
  let migrated := steps.foldl (migrateStep C net n) (collected C net n w).1
  let replicated := replicateNewReplicas C net n migrated
  DeletesSafely C n w (collected C net n w).1 ∧
    Along (migrateStep C net n) (fun w step => DeletesSafely C n w (migrateStep C net n w step))
      (collected C net n w).1 steps ∧
    DeletesSafely C n migrated replicated ∧
    DeletesSafely C n replicated (runRebalanceTick C net n steps shedAt w)

/-- What is shed was handed over in this tick, and is still where it went. -/
theorem deletesSafely_shed_of_handsOver (hgrace : (C.cfg n).removalGracePeriod > 0)
    {steps : List (MigrationStep V)} {w : World V}
    (hsched : MigrationStep.Schedule (collected C net n w).2 steps)
    (htransport : (C.cfg n).hasTransport = true)
    (hcap : ∀ peer, (C.cfg n).hintMaxPerNode = 0 ∨
      (collected C net n w).2.countP (fun it => target C n it.key = some peer) ≤
        (C.cfg n).hintMaxPerNode)
    (hrun : Along (migrateStep C net n) (HandsOver C net n) (collected C net n w).1 steps)
    (shedAt : Time) :
    DeletesSafely C n
      (replicateNewReplicas C net n (steps.foldl (migrateStep C net n) (collected C net n w).1))
      (runRebalanceTick C net n steps shedAt w) := by
  intro key item primary hget hgone howns hhead
  have hne : primary ≠ n := ne_self_of_not_owned C n howns hhead
  have hkept : (steps.foldl (migrateStep C net n) (collected C net n w).1 n).shard.items.get key =
      (w n).shard.items.get key :=
    List.foldlRecOn steps _ (motive := fun w' =>
      (w' n).shard.items.get key = (w n).shard.items.get key) (collected_get C net n w key)
      (fun w' hw' step _ => (step_get_not_owned C net n hgrace howns w' step).trans hw')
  have hsame := sameFor_replicateNewReplicas C net n
    (fun hself => ne_self_of_not_owned C n howns hself rfl)
    (steps.foldl (migrateStep C net n) (collected C net n w).1)
  have hlocal : (w n).shard.items.get key = some item := by
    rw [← hkept, ← hsame.1 n]
    exact hget
  obtain rfl : item.key = key := ConcurrentMap.key_of_get hlocal
  have hcandidate : item ∈ (collected C net n w).2 := by
    rw [mem_collected]
    refine ⟨hlocal, ?_⟩
    rw [DistShard.lostKey, if_pos (by simp [howns])]
  have hkeys := nodup_collected C net n w
  obtain ⟨pre, mid, post, hsplit, -⟩ := hsched.split hkeys hcandidate
  have hwhole : steps = pre ++ .handOver item :: ((mid ++ .release item :: post) ++ []) :=
    hsplit.trans (by rw [List.append_nil])
  have hend := secured_later C net n hsched hkeys htransport hcap hrun hwhole howns hhead
  rw [← hsplit] at hend
  have hafter := secured_of_sameFor n hsame hend
  unfold Secured at hafter ⊢
  rw [runRebalanceTick, modify_ne _ _ hne, modify_self]
  exact hafter

/-- In every interleaving of the migrations: without a grace period and without a per-node hint
cap a tick deletes safely exactly when each hand-over of a key that is then released reaches the
new primary, which must accept the key, or the hint queue, unless the item was secured before.
With a grace period or a cap it deletes safely when the node has a transport, all those
hand-overs are delivered, and the cap has room for the candidates of one primary. -/
theorem rebalance_deletes_safely (steps : List (MigrationStep V)) (shedAt : Time) (w : World V)
    (hsched : MigrationStep.Schedule (collected C net n w).2 steps) :
    ((C.cfg n).removalGracePeriod ≤ 0 → (C.cfg n).hintMaxPerNode = 0 →
      (TickSafe C net n steps shedAt w ↔
        Along (migrateStep C net n) (Ready C net n) (collected C net n w).1 steps)) ∧
    ((C.cfg n).hasTransport = true →
      Along (migrateStep C net n) (HandsOver C net n) (collected C net n w).1 steps →
      (∀ peer, (C.cfg n).hintMaxPerNode = 0 ∨
        (collected C net n w).2.countP (fun it => target C n it.key = some peer) ≤
          (C.cfg n).hintMaxPerNode) →
      TickSafe C net n steps shedAt w) := by
  have hkeys := nodup_collected C net n w
  have hscan : DeletesSafely C n w (collected C net n w).1 :=
    deletesSafely_of_get_eq C n (fun key _ => collected_get C net n w key)
  have hreplicas := deletesSafely_replicateNewReplicas C net n
    (steps.foldl (migrateStep C net n) (collected C net n w).1)
  have hstored : ∀ it ∈ (collected C net n w).2,
      ((collected C net n w).1 n).shard.items.get it.key = some it := by
    intro it hit
    rw [collected_get]
    exact ((mem_collected C net n).mp hit).1
  refine ⟨fun hgrace hoff => ?_, fun htransport hrun hcap => ?_⟩
  · rw [← along_deletesSafely_iff C net n hsched hkeys hstored hgrace hoff]
    exact ⟨fun h => h.2.1,
      fun h => ⟨hscan, h, hreplicas, deletesSafely_shed C n hgrace shedAt _⟩⟩
  by_cases hgrace : (C.cfg n).removalGracePeriod ≤ 0
  · refine ⟨hscan, along_iff_split.mpr (fun front step post heq => ?_), hreplicas,
      deletesSafely_shed C n hgrace shedAt _⟩
    cases step with
    | handOver item => exact deletesSafely_handOver C net n _ item
    | release item =>
        refine (deletesSafely_release_iff C net n hgrace
          (stored_at_release C net n hsched hkeys hstored heq)).mpr (fun _ howns primary hp => ?_)
        obtain ⟨pre, mid, rfl, -⟩ := hsched.release_split hkeys heq
        exact secured_later C net n hsched hkeys htransport hcap hrun (by simpa using heq) howns hp
  · rw [not_le] at hgrace
    refine ⟨hscan, along_of_forall (fun step _ w' => deletesSafely_of_get_eq C n
      (fun key howns => step_get_not_owned C net n hgrace howns w' step)), hreplicas, ?_⟩
    exact deletesSafely_shed_of_handsOver C net n hgrace hsched htransport hcap hrun shedAt

end

/-- The node `d`, which owns nothing, holds the only copies of two items. -/
def stray : World Str :=
  modify fresh [100] (NodeState.onShard (fun sh =>
    { sh with items := (sh.items.set sampleItem).set { sampleItem with key := [108] } }))

/-- The two items are handed over before either is released. -/
def strayRun : List (MigrationStep Str) :=
  [.handOver sampleItem, .handOver { sampleItem with key := [108] }, .release sampleItem,
    .release { sampleItem with key := [108] }]

theorem schedule_strayRun (net : Net) :
    MigrationStep.Schedule (collected quorumCluster net [100] stray).2 strayRun := by
  have hitems : (collected quorumCluster net [100] stray).2 =
      [{ sampleItem with key := [108] }, sampleItem] := by
    show ((stray [100]).shard.collectRebalanceCandidates _ net.now).2 = _
    rw [(collectRebalanceCandidates_spec _ net.now (stray [100]).shard).2]
    decide
  rw [hitems]
  exact ⟨by decide, by decide⟩

/-- With the primary up, the stray items are migrated safely. -/
theorem rebalance_deletes_safely_all_up :
    MigrationStep.Schedule (collected quorumCluster allUp [100] stray).2 strayRun ∧
      TickSafe quorumCluster allUp [100] strayRun 0 stray := by
  refine ⟨schedule_strayRun allUp, ((rebalance_deletes_safely quorumCluster allUp [100] strayRun 0
    stray (schedule_strayRun allUp)).1 (by decide) rfl).mpr ?_⟩
  have hready : ∀ (key : Key) (w : World Str),
      Ready quorumCluster allUp [100] w (.handOver { sampleItem with key }) := by
    intro key w _ _ primary hhead
    obtain rfl : [97] = primary := Option.some.inj hhead
    exact Or.inl rfl
  exact ⟨hready [107] _, hready [108] _, trivial, trivial, trivial⟩

/-- With the primary down and hints off, as they are by default, the tick drops the only
copies. -/
theorem rebalance_drops_only_copy :
    MigrationStep.Schedule
        (collected quorumCluster { allUp with up := (· ≠ [97]) } [100] stray).2 strayRun ∧
      (stray [100]).shard.items.get [107] = some sampleItem ∧
      (quorumCluster.cfg [100]).ownsKeyInternal [107] = false ∧
      ((quorumCluster.cfg [100]).lookupOwners [107]).head? = some [97] ∧
      (runRebalanceTick quorumCluster { allUp with up := (· ≠ [97]) } [100] strayRun 0 stray
        [100]).shard.items.get [107] = none ∧
      ¬Secured [100] [97] sampleItem
        (runRebalanceTick quorumCluster { allUp with up := (· ≠ [97]) } [100] strayRun 0
          stray) := by
  refine ⟨schedule_strayRun _, by decide, by decide, by decide, by decide, ?_⟩
  unfold Secured
  decide

end World

end HyperCache
