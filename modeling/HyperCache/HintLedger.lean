/-
The ledger of the hints: where the hint of every `queueHint` call of a run has gone.

A hint is replayed, expires, is refused by a global cap or is still queued, or a newer
hint for the same peer has pushed it out of a full queue.  The first three have counters.
-/
import HyperCache.HintAccounting

namespace HyperCache

open Keyed

/-- The counters come twice, for all hints and for those of migrations. -/
inductive HintKind where
  | all
  | migration

def HintKind.counts : HintKind → HintSource → Bool
  | .all, _ => true
  | .migration, source => decide (source = .migration)

/-- The hints that have left the queues, or never joined them, and are counted. -/
def HintMetrics.settled (m : HintMetrics) : HintKind → Nat
  | .all => m.hintedReplayed + m.hintedExpired + m.hintedGlobalDropped
  | .migration => m.migrationHintReplayed + m.migrationHintExpired + m.migrationHintDropped

namespace HintKind

variable {V : Type} (k : HintKind)

def tally (l : List (HintedEntry V)) : Nat := l.countP (fun e => k.counts e.source)

theorem tally_append (l₁ l₂ : List (HintedEntry V)) :
    k.tally (l₁ ++ l₂) = k.tally l₁ + k.tally l₂ := List.countP_append

theorem tally_perm {l₁ l₂ : List (HintedEntry V)} (h : l₁.Perm l₂) : k.tally l₁ = k.tally l₂ :=
  h.countP_eq _

theorem tally_all (l : List (HintedEntry V)) : HintKind.all.tally l = l.length :=
  congrFun List.countP_true l

theorem tally_singleton (e : HintedEntry V) :
    k.tally [e] = if k.counts e.source then 1 else 0 := List.countP_singleton

end HintKind

namespace HintStore

variable {V : Type}

theorem metrics_dropOldest (cfg : DistConfig) (peer : NodeID) (hs : HintStore V) :
    (hs.dropOldest cfg peer).2.metrics = hs.metrics := by
  unfold dropOldest
  split
  · rfl
  · split <;> rfl

section

variable [SizedValue V] (k : HintKind) {cfg : DistConfig} {peer : NodeID} {item : Item V}
  {hs : HintStore V}

theorem settled_of_takes (hon : 0 < cfg.hintTTL) (htakes : hs.takes cfg peer item = true)
    (now : Time) (source : HintSource) :
    (hs.queueHint cfg now peer item source).metrics.settled k = hs.metrics.settled k := by
  have hcaps : ¬ (hs.dropOldest cfg peer).2.exceedsCaps cfg (approxHintSize item) = true := by
    simpa [takes, hon] using htakes
  rw [queueHint, if_neg (not_le.mpr hon)]
  dsimp only
  rw [if_neg hcaps]
  cases k <;> simp only [HintMetrics.settled, adjustHintAccounting, metrics_dropOldest]

theorem settled_of_not_takes (hon : 0 < cfg.hintTTL)
    (htakes : hs.takes cfg peer item = false) (now : Time) (source : HintSource) :
    (hs.queueHint cfg now peer item source).metrics.settled k =
      hs.metrics.settled k + if k.counts source then 1 else 0 := by
  rw [queueHint, if_neg (not_le.mpr hon)]
  dsimp only
  rw [if_pos ((takes_eq_false_iff hon).mp htakes)]
  cases k with
  | all =>
      simp only [HintMetrics.settled, metrics_dropOldest, HintKind.counts, if_true]
      omega
  | migration =>
      simp only [HintMetrics.settled, metrics_dropOldest, HintKind.counts, decide_eq_true_eq]
      omega

end

end HintStore

namespace HintPass

open HintStore HintKind

variable {V : Type} (k : HintKind)

theorem settled_noteExpired (entry : HintedEntry V) (hs : HintStore V) :
    (hs.noteExpired entry).metrics.settled k = hs.metrics.settled k + k.tally [entry] := by
  rw [tally_singleton]
  cases k with
  | all =>
      simp only [HintMetrics.settled, noteExpired, counts, if_true]
      omega
  | migration =>
      simp only [HintMetrics.settled, noteExpired, counts, decide_eq_true_eq]
      omega

theorem settled_noteReplayed (entry : HintedEntry V) (hs : HintStore V) :
    (hs.noteReplayed entry).metrics.settled k = hs.metrics.settled k + k.tally [entry] := by
  rw [tally_singleton]
  cases k with
  | all =>
      simp only [HintMetrics.settled, noteReplayed, counts, if_true]
      omega
  | migration =>
      simp only [HintMetrics.settled, noteReplayed, counts, decide_eq_true_eq]
      omega

theorem settled_settle (now : Time) (entry : HintedEntry V) (hs : HintStore V) :
    (settle now entry hs).metrics.settled k = hs.metrics.settled k + k.tally [entry] := by
  rw [settle]
  split
  · exact settled_noteExpired k entry hs
  · exact settled_noteReplayed k entry hs

theorem settled_foldl_settle (now : Time) (left : List (HintedEntry V)) (hs : HintStore V) :
    (left.foldl (fun hs entry => settle now entry hs) hs).metrics.settled k =
      hs.metrics.settled k + k.tally left := by
  induction left generalizing hs with
  | nil => rfl
  | cons entry rest ih =>
      have hcons := tally_append k [entry] rest
      rw [List.singleton_append] at hcons
      rw [List.foldl_cons, ih, settled_settle, hcons]
      omega

/-- A pass moves hints from the queues to the counters. -/
theorem balance_replayHints (now : Time) (transport : Option Deliveries)
    (order : VisitOrder (HintQueue V)) (hs : HintStore V) :
    (replayHints now transport order hs).hints.metrics.settled k +
        k.tally (replayHints now transport order hs).hints.pending =
      hs.metrics.settled k + k.tally hs.pending := by
  cases transport with
  | none => rfl
  | some delivers =>
      refine replayHints_inv now delivers
        (I := fun p => p.hints.metrics.settled k + k.tally p.hints.pending =
          hs.metrics.settled k + k.tally hs.pending) (fun p q hq hp => ?_) order rfl
      have hqueue : p.hints.queue q.1 = q.2 := by rw [HintStore.queue, hq]; rfl
      have hbefore := tally_perm k (p.hints.pending_perm q.1)
      have hsplit := tally_perm k (perm_remaining_leaving now delivers q.1 q.2)
      have hsettled := settled_foldl_settle k now (leaving now delivers q.1 q.2) p.hints
      rw [hqueue, tally_append] at hbefore
      rw [tally_append] at hsplit
      rw [← replayQueue_settles] at hsettled
      dsimp only at hsettled
      rw [pending_replayQueue, tally_append, hsettled]
      omega

end HintPass

namespace HintOp

open HintStore HintKind

variable {V : Type}

/-- The source of the hint that a `queueHint` call brings. -/
def call : HintOp V → Option HintSource
  | .queueHint _ _ _ source => some source
  | .replayHints .. => none

/-- The `queueHint` calls of a run, by source. -/
def calls (ops : List (HintOp V)) : List HintSource := ops.filterMap call

variable [SizedValue V] (cfg : DistConfig)

/-- The hint that leaves a full queue for one that is taken. -/
def displacedBy (hs : HintStore V) : HintOp V → List (HintedEntry V)
  | .queueHint _ peer item _ =>
      if hs.full cfg peer && hs.takes cfg peer item then (hs.queue peer).take 1 else []
  | .replayHints .. => []

/-- The hints displaced in a run. -/
def displaced : HintStore V → List (HintOp V) → List (HintedEntry V)
  | _, [] => []
  | hs, op :: rest => displacedBy cfg hs op ++ displaced (step cfg hs op) rest

variable (k : HintKind)

theorem queue_eq_displaced {peer : NodeID} {item : Item V} {hs : HintStore V}
    (htakes : hs.takes cfg peer item = true) (now : Time) (source : HintSource) :
    hs.queue peer =
      displacedBy cfg hs (.queueHint now peer item source) ++ (hs.dropOldest cfg peer).1 := by
  rw [displacedBy, htakes, Bool.and_true]
  cases hfull : hs.full cfg peer with
  | false =>
      rw [dropOldest_of_not_full hfull]
      rfl
  | true =>
      obtain ⟨dropped, rest, hq, hdrop⟩ := dropOldest_of_full hfull
      rw [hdrop, hq]
      rfl

/-- A call adds its hint to the queues, which may displace another, or to the counter of
refused hints. -/
theorem balance_step (hon : 0 < cfg.hintTTL) (hs : HintStore V) (op : HintOp V) :
    (step cfg hs op).metrics.settled k + k.tally (step cfg hs op).pending +
        k.tally (displacedBy cfg hs op) =
      hs.metrics.settled k + k.tally hs.pending + op.call.toList.countP k.counts := by
  cases op with
  | replayHints now transport order =>
      exact HintPass.balance_replayHints k now transport order hs
  | queueHint now peer item source =>
      rw [call, Option.toList_some, List.countP_singleton, step]
      cases htakes : hs.takes cfg peer item with
      | false =>
          rw [settled_of_not_takes k hon htakes, pending,
            (queueHint_of_not_takes now source hon htakes).1, displacedBy, htakes, Bool.and_false]
          show _ + k.tally hs.pending + 0 = _
          omega
      | true =>
          obtain ⟨entry, -, hsource, hq, -, -⟩ := queueHint_of_takes now source htakes
          have hbefore := tally_perm k (hs.pending_perm peer)
          rw [queue_eq_displaced cfg htakes now source, tally_append, tally_append] at hbefore
          rw [settled_of_takes k hon htakes, pending_insert hq, tally_append, tally_append,
            tally_singleton, hsource]
          omega

theorem balance_run (hon : 0 < cfg.hintTTL) (ops : List (HintOp V)) (hs : HintStore V) :
    (ops.foldl (step cfg) hs).metrics.settled k + k.tally (ops.foldl (step cfg) hs).pending +
        k.tally (displaced cfg hs ops) =
      hs.metrics.settled k + k.tally hs.pending + (calls ops).countP k.counts := by
  induction ops generalizing hs with
  | nil => rfl
  | cons op rest ih =>
      have hone := balance_step cfg k hon hs op
      have hrest := ih (step cfg hs op)
      have hcalls : (calls (op :: rest)).countP k.counts =
          op.call.toList.countP k.counts + (calls rest).countP k.counts := by
        rw [← List.countP_append, calls, List.filterMap_cons, calls]
        cases op.call <;> rfl
      rw [List.foldl_cons, displaced, tally_append, hcalls]
      omega

/-- Every hint of a run is replayed, expired, refused by a global cap, still queued, or was
displaced by a newer hint of the same peer's full queue, and so is every migration hint by
the counters of its own. -/
theorem hint_balance (hon : 0 < cfg.hintTTL) (ops : List (HintOp V)) :
    let hs := ops.foldl (step cfg) {}
    (calls ops).length =
        hs.metrics.hintedReplayed + hs.metrics.hintedExpired + hs.metrics.hintedGlobalDropped +
          hs.pending.length + (displaced cfg {} ops).length ∧
      (calls ops).countP (· = .migration) =
        hs.metrics.migrationHintReplayed + hs.metrics.migrationHintExpired +
          hs.metrics.migrationHintDropped + hs.pending.countP (·.source = .migration) +
          (displaced cfg {} ops).countP (·.source = .migration) := by
  intro hs
  have hempty : ∀ k : HintKind, ({} : HintStore V).metrics.settled k +
      k.tally ({} : HintStore V).pending = 0 := fun k => by cases k <;> rfl
  have hrun : ∀ k : HintKind, (calls ops).countP k.counts =
      hs.metrics.settled k + k.tally hs.pending + k.tally (displaced cfg {} ops) := by
    intro k
    rw [balance_run cfg k hon ops {}, hempty, Nat.zero_add]
  constructor
  · have hall := hrun .all
    rw [tally_all, tally_all] at hall
    exact (congrFun List.countP_true (calls ops)).symm.trans hall
  · exact hrun .migration

/-- A replication hint displaces a migration hint, is refused for its size the next time,
and the pass then delivers it. -/
def displacingRun : List (HintOp Str) :=
  [queueBytes [112] 4 .migration, queueBytes [112] 4 .replication,
    queueBytes [112] 20 .migration, .replayHints 1 (some fun _ _ => true) (.asStored _)]

theorem hint_balance_displacingRun :
    let hs := displacingRun.foldl (step tightCaps) {}
    0 < tightCaps.hintTTL ∧ hs.metrics.hintedReplayed = 1 ∧
      (calls displacingRun).length =
        hs.metrics.hintedReplayed + hs.metrics.hintedExpired + hs.metrics.hintedGlobalDropped +
          hs.pending.length + (displaced tightCaps {} displacingRun).length :=
  ⟨by decide, by decide, (hint_balance tightCaps (by decide) displacingRun).1⟩

/-- Two hints for a node whose queue holds one: the first is in no queue and no counter. -/
theorem hint_displaced_uncounted :
    let ops := [queueBytes [112] 4 .migration, queueBytes [112] 4 .migration]
    let hs := ops.foldl (step tightCaps) {}
    0 < tightCaps.hintTTL ∧ (calls ops).length = 2 ∧
      hs.metrics.hintedReplayed + hs.metrics.hintedExpired + hs.metrics.hintedGlobalDropped +
        hs.pending.length = 1 ∧
      (calls ops).countP (· = .migration) = 2 ∧
      hs.metrics.migrationHintReplayed + hs.metrics.migrationHintExpired +
        hs.metrics.migrationHintDropped + hs.pending.countP (·.source = .migration) = 1 := by
  decide

end HintOp

end HyperCache
