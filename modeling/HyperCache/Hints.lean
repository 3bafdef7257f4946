/-
Hinted handoff: the writes a node keeps for peers it could not reach.

The source guards the queues and their accounting with one mutex, and the model
keeps them in one record.  Replaying the queues needs the transport and is
modelled with the cluster.
-/
import HyperCache.Shard

namespace HyperCache

inductive HintSource where
  | replication
  | migration
  deriving DecidableEq, Repr

structure HintedEntry (V : Type) where
  item : Item V
  queuedAt : Time
  expire : Time
  size : Int
  source : HintSource

structure HintMetrics where
  hintedQueued : Nat := 0
  hintedReplayed : Nat := 0
  hintedExpired : Nat := 0
  hintedGlobalDropped : Nat := 0
  migrationHintQueued : Nat := 0
  migrationHintReplayed : Nat := 0
  migrationHintExpired : Nat := 0
  migrationHintDropped : Nat := 0

structure HintStore (V : Type) where
  queues : AList (fun _ : NodeID => List (HintedEntry V)) := ∅
  total : Int := 0
  bytes : Int := 0
  metrics : HintMetrics := {}

namespace HintStore

variable {V : Type}

/-- `adjustHintAccounting`, which clamps both counters at zero. -/
def adjustHintAccounting (countDelta bytesDelta : Int) (hs : HintStore V) : HintStore V :=
  { hs with
    total := max 0 (hs.total + countDelta)
    bytes := max 0 (hs.bytes + bytesDelta) }

/-- `approxHintSize`.  A nil value counts its JSON encoding, `null`. -/
def approxHintSize [SizedValue V] (item : Item V) : Int :=
  item.key.length + (match item.value with
    | none => 4
    | some v => SizedValue.valueSize v)

/-- The queued hints for a peer. -/
def queue (hs : HintStore V) (peer : NodeID) : List (HintedEntry V) :=
  (hs.queues.lookup peer).getD []

/-- The queue and the accounting after a full per-node queue has given up its
oldest entry. -/
def dropOldest (cfg : DistConfig) (peer : NodeID) (hs : HintStore V) :
    List (HintedEntry V) × HintStore V :=
  match hs.queue peer with
  | [] => ([], hs)
  | dropped :: rest =>
      if cfg.hintMaxPerNode > 0 ∧ (dropped :: rest).length ≥ cfg.hintMaxPerNode then
        (rest, hs.adjustHintAccounting (-1) (-dropped.size))
      else (dropped :: rest, hs)

def exceedsCaps (cfg : DistConfig) (size : Int) (hs : HintStore V) : Bool :=
  (decide (cfg.hintMaxTotal > 0) && decide (hs.total ≥ cfg.hintMaxTotal)) ||
    (decide (cfg.hintMaxBytes > 0) && decide (hs.bytes + size > cfg.hintMaxBytes))

/-- `queueHint`.  When the queue has dropped its oldest entry and a global cap
then refuses the new one, the accounting has changed and the stored queue has
not. -/
def queueHint [SizedValue V] (cfg : DistConfig) (now : Time) (peer : NodeID) (item : Item V)
    (source : HintSource) (hs : HintStore V) : HintStore V :=
  if cfg.hintTTL ≤ 0 then hs
  else
    let size := approxHintSize item
    let migration := if source = .migration then 1 else 0
    let (kept, hs) := hs.dropOldest cfg peer
    if hs.exceedsCaps cfg size then
      { hs with
        metrics := { hs.metrics with
          hintedGlobalDropped := hs.metrics.hintedGlobalDropped + 1
          migrationHintDropped := hs.metrics.migrationHintDropped + migration } }
    else
      let entry : HintedEntry V :=
        { item, queuedAt := now, expire := now + cfg.hintTTL, size, source }
      let hs := { hs with queues := hs.queues.insert peer (kept ++ [entry]) }
      let hs := hs.adjustHintAccounting 1 size
      { hs with
        metrics := { hs.metrics with
          hintedQueued := hs.metrics.hintedQueued + 1
          migrationHintQueued := hs.metrics.migrationHintQueued + migration } }

/-- Whether `queueHint` keeps the hint. -/
def takes [SizedValue V] (cfg : DistConfig) (peer : NodeID) (item : Item V) (hs : HintStore V) :
    Bool :=
  decide (cfg.hintTTL > 0) && !(hs.dropOldest cfg peer).2.exceedsCaps cfg (approxHintSize item)

theorem dropOldest_queues (cfg : DistConfig) (peer : NodeID) (hs : HintStore V) :
    (hs.dropOldest cfg peer).2.queues = hs.queues := by
  unfold dropOldest
  split
  · rfl
  · split <;> rfl

/-- What is left of a queue before the new hint: all of it, or all but its oldest entry when
the cap is reached. -/
theorem dropOldest_kept (cfg : DistConfig) (peer : NodeID) (hs : HintStore V) :
    (hs.dropOldest cfg peer).1 = hs.queue peer ∨
      (0 < cfg.hintMaxPerNode ∧ cfg.hintMaxPerNode ≤ (hs.queue peer).length ∧
        (hs.dropOldest cfg peer).1 = (hs.queue peer).tail) := by
  unfold dropOldest
  split
  case h_1 hq => exact Or.inl hq.symm
  case h_2 dropped rest hq =>
    rw [hq]
    split
    case isTrue hcap => exact Or.inr ⟨hcap.1, hcap.2, rfl⟩
    case isFalse => exact Or.inl rfl

theorem queue_queueHint_ne [SizedValue V] (cfg : DistConfig) (now : Time) {peer peer' : NodeID}
    (item : Item V) (source : HintSource) (hs : HintStore V) (h : peer' ≠ peer) :
    (hs.queueHint cfg now peer item source).queue peer' = hs.queue peer' := by
  have hqueues := dropOldest_queues cfg peer hs
  unfold queueHint
  split
  · rfl
  · dsimp only
    split
    · rw [queue, hqueues, queue]
    · rw [queue, queue]
      show (((hs.dropOldest cfg peer).2.queues.insert peer _).lookup peer').getD [] = _
      rw [AList.lookup_insert_ne h, hqueues]

theorem queue_queueHint [SizedValue V] (cfg : DistConfig) (now : Time) (peer : NodeID)
    (item : Item V) (source : HintSource) (hs : HintStore V) :
    ((hs.queueHint cfg now peer item source).queue peer).map HintedEntry.item =
      if hs.takes cfg peer item then (hs.dropOldest cfg peer).1.map HintedEntry.item ++ [item]
      else (hs.queue peer).map HintedEntry.item := by
  have hqueues := dropOldest_queues cfg peer hs
  unfold queueHint
  by_cases hoff : cfg.hintTTL ≤ 0
  · have htakes : hs.takes cfg peer item = false := by
      have hon : ¬ cfg.hintTTL > 0 := not_lt.mpr hoff
      simp [takes, hon]
    rw [if_pos hoff, htakes, if_neg Bool.false_ne_true]
  · have hon : cfg.hintTTL > 0 := not_le.mp hoff
    rw [if_neg hoff]
    dsimp only
    by_cases hfull : (hs.dropOldest cfg peer).2.exceedsCaps cfg (approxHintSize item) = true
    · have htakes : hs.takes cfg peer item = false := by simp [takes, hfull]
      rw [if_pos hfull, htakes, if_neg Bool.false_ne_true, queue, hqueues, queue]
    · have htakes : hs.takes cfg peer item = true := by simp [takes, hfull, hon]
      rw [if_neg hfull, if_pos htakes, queue]
      show ((((hs.dropOldest cfg peer).2.queues.insert peer _).lookup peer).getD []).map _ = _
      rw [AList.lookup_insert]
      simp

end HintStore

end HyperCache
