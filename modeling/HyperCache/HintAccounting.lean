/-
The accounting of the hint queues over whole runs of `queueHint` and `replayHints`: the
counters `hintTotal` and `hintBytes` against what the queues hold, and the caps.
-/
import HyperCache.HintReplay
import HyperCache.Lib.Runs
import Mathlib.Algebra.BigOperators.Group.List.Basic
import Mathlib.Algebra.Order.Ring.Int

namespace HyperCache

open InPlace Keyed Runs

namespace HintStore

variable {V : Type}

/-- All queued hints. -/
def pending (hs : HintStore V) : List (HintedEntry V) := (Keyed.elems hs.queues).flatten

/-- The hints queued for the other nodes. -/
def others (hs : HintStore V) (peer : NodeID) : List (HintedEntry V) :=
  (Keyed.elems (hs.queues.erase peer)).flatten

/-- The test of `queueHint` that makes it drop the oldest hint. -/
def full (cfg : DistConfig) (peer : NodeID) (hs : HintStore V) : Bool :=
  decide (0 < cfg.hintMaxPerNode) && decide (cfg.hintMaxPerNode ≤ (hs.queue peer).length)

def sizes (l : List (HintedEntry V)) : Int := (l.map HintedEntry.size).sum

theorem pending_perm (hs : HintStore V) (peer : NodeID) :
    hs.pending.Perm (hs.queue peer ++ hs.others peer) := by
  rw [pending, queue, others]
  cases hq : hs.queues.lookup peer with
  | none =>
      have hnot : peer ∉ hs.queues := AList.lookup_eq_none.mp hq
      rw [Keyed.elems_erase_of_notMem hnot]
      rfl
  | some q => exact (Keyed.perm_elems_of_lookup hq).flatten

theorem pending_insert {hs : HintStore V} {peer : NodeID} {q : List (HintedEntry V)}
    {hs' : HintStore V} (h : hs'.queues = hs.queues.insert peer q) :
    hs'.pending = q ++ hs.others peer := by
  rw [pending, h, Keyed.elems_insert]
  rfl

theorem pending_storeQueue (hs : HintStore V) (peer : NodeID) (out : List (HintedEntry V)) :
    (hs.storeQueue peer out).pending = out ++ hs.others peer := by
  rw [pending, storeQueue]
  dsimp only
  split
  case isTrue hempty =>
    rw [List.isEmpty_iff.mp hempty]
    rfl
  case isFalse =>
    rw [Keyed.elems_insert]
    rfl

theorem sizes_append (l₁ l₂ : List (HintedEntry V)) : sizes (l₁ ++ l₂) = sizes l₁ + sizes l₂ := by
  simp [sizes]

theorem sizes_cons (e : HintedEntry V) (l : List (HintedEntry V)) :
    sizes (e :: l) = e.size + sizes l := by
  simp [sizes]

theorem sizes_nonneg {l : List (HintedEntry V)} (h : ∀ e ∈ l, 0 ≤ e.size) : 0 ≤ sizes l := by
  induction l with
  | nil => exact le_refl 0
  | cons e rest ih =>
      obtain ⟨he, hrest⟩ := List.forall_mem_cons.mp h
      have := ih hrest
      rw [sizes_cons]
      omega

theorem sizes_perm {l₁ l₂ : List (HintedEntry V)} (h : l₁.Perm l₂) : sizes l₁ = sizes l₂ :=
  (h.map _).sum_eq

theorem approxHintSize_nonneg [SizedValue V] (item : Item V) : 0 ≤ approxHintSize item := by
  rw [approxHintSize]
  split <;> omega

/-! ## The accounting -/

def NonNeg (hs : HintStore V) : Prop := ∀ e ∈ hs.pending, 0 ≤ e.size

/-- The counters are those of the queued hints. -/
structure Counted (hs : HintStore V) : Prop where
  total : hs.total = hs.pending.length
  bytes : hs.bytes = sizes hs.pending
  nonneg : hs.NonNeg

/-- The counters are those of the queued hints, and every positive cap is respected. -/
structure Sound (cfg : DistConfig) (hs : HintStore V) : Prop where
  total : hs.total = hs.pending.length
  bytes : hs.bytes = (hs.pending.map HintedEntry.size).sum
  perNode : 0 < cfg.hintMaxPerNode → ∀ peer, (hs.queue peer).length ≤ cfg.hintMaxPerNode
  maxTotal : 0 < cfg.hintMaxTotal → hs.pending.length ≤ cfg.hintMaxTotal
  maxBytes : 0 < cfg.hintMaxBytes →
    (hs.pending.map HintedEntry.size).sum ≤ cfg.hintMaxBytes

theorem NonNeg.split {hs : HintStore V} (h : hs.NonNeg) (peer : NodeID) :
    (∀ e ∈ hs.queue peer, 0 ≤ e.size) ∧ ∀ e ∈ hs.others peer, 0 ≤ e.size := by
  have hmem := fun e => (hs.pending_perm peer).mem_iff (a := e)
  exact ⟨fun e he => h e ((hmem e).mpr (List.mem_append_left _ he)),
    fun e he => h e ((hmem e).mpr (List.mem_append_right _ he))⟩

theorem NonNeg.of_pending {hs hs' : HintStore V} {q : List (HintedEntry V)} {peer : NodeID}
    (h : hs.NonNeg) (hpending : hs'.pending = q ++ hs.others peer)
    (hq : ∀ e ∈ q, 0 ≤ e.size) : hs'.NonNeg := by
  intro e he
  rw [hpending] at he
  rcases List.mem_append.mp he with he | he
  · exact hq e he
  · exact (h.split peer).2 e he

theorem Counted.split {hs : HintStore V} (h : Counted hs) (peer : NodeID) :
    hs.total = (hs.queue peer).length + (hs.others peer).length ∧
      hs.bytes = sizes (hs.queue peer) + sizes (hs.others peer) := by
  have hperm := hs.pending_perm peer
  constructor
  · rw [h.total, hperm.length_eq, List.length_append]
    omega
  · rw [h.bytes, sizes_perm hperm, sizes_append]

/-- Giving up a hint that is counted takes exactly its share off the counters: the clamps
have nothing to cut. -/
theorem adjustHintAccounting_of_le (hs : HintStore V) {e : HintedEntry V} (htotal : 1 ≤ hs.total)
    (hbytes : e.size ≤ hs.bytes) :
    hs.adjustHintAccounting (-1) (-e.size) =
      { hs with total := hs.total - 1, bytes := hs.bytes - e.size } := by
  rw [adjustHintAccounting, max_eq_right (by omega), max_eq_right (by omega)]
  rfl

theorem dropOldest_of_not_full {cfg : DistConfig} {peer : NodeID} {hs : HintStore V}
    (h : hs.full cfg peer = false) : hs.dropOldest cfg peer = (hs.queue peer, hs) := by
  have hroom : ¬ (cfg.hintMaxPerNode > 0 ∧ (hs.queue peer).length ≥ cfg.hintMaxPerNode) := by
    simpa [full] using h
  unfold dropOldest
  split
  case h_1 hq => rw [hq]
  case h_2 dropped rest hq =>
    rw [hq] at hroom
    rw [if_neg hroom, hq]

theorem dropOldest_of_full {cfg : DistConfig} {peer : NodeID} {hs : HintStore V}
    (h : hs.full cfg peer = true) :
    ∃ dropped rest, hs.queue peer = dropped :: rest ∧
      hs.dropOldest cfg peer = (rest, hs.adjustHintAccounting (-1) (-dropped.size)) := by
  have hcap : cfg.hintMaxPerNode > 0 ∧ (hs.queue peer).length ≥ cfg.hintMaxPerNode := by
    simpa [full] using h
  unfold dropOldest
  split
  case h_1 hq =>
    rw [hq, List.length_nil] at hcap
    omega
  case h_2 dropped rest hq =>
    refine ⟨dropped, rest, hq, ?_⟩
    rw [hq] at hcap
    rw [if_pos hcap]

theorem dropOldest_counted (cfg : DistConfig) (peer : NodeID) {hs : HintStore V}
    (h : Counted hs) :
    (hs.dropOldest cfg peer).2.total =
        (hs.dropOldest cfg peer).1.length + (hs.others peer).length ∧
      (hs.dropOldest cfg peer).2.bytes =
        sizes (hs.dropOldest cfg peer).1 + sizes (hs.others peer) := by
  obtain ⟨htotal, hbytes⟩ := h.split peer
  obtain ⟨hqueue, hothers⟩ := h.nonneg.split peer
  cases hfull : hs.full cfg peer with
  | false =>
      rw [dropOldest_of_not_full hfull]
      exact ⟨htotal, hbytes⟩
  | true =>
      obtain ⟨dropped, rest, hq, hdrop⟩ := dropOldest_of_full hfull
      rw [hq] at htotal hbytes hqueue
      rw [sizes_cons] at hbytes
      rw [List.length_cons] at htotal
      have hrest := sizes_nonneg (fun e he => hqueue e (List.mem_cons_of_mem _ he))
      have hother := sizes_nonneg hothers
      rw [hdrop, adjustHintAccounting_of_le hs (by omega) (by omega)]
      constructor
      · show hs.total - 1 = rest.length + (hs.others peer).length
        omega
      · show hs.bytes - dropped.size = sizes rest + sizes (hs.others peer)
        omega

theorem mem_queue_of_mem_dropOldest {cfg : DistConfig} {peer : NodeID} {hs : HintStore V}
    {e : HintedEntry V} (he : e ∈ (hs.dropOldest cfg peer).1) : e ∈ hs.queue peer := by
  rcases dropOldest_kept cfg peer hs with hall | ⟨-, -, htail⟩
  · rwa [hall] at he
  · rw [htail] at he
    exact List.mem_of_mem_tail he

section

variable [SizedValue V] {cfg : DistConfig} (now : Time) {peer : NodeID} {item : Item V}
  (source : HintSource) {hs : HintStore V}

theorem takes_eq_false_iff (hon : 0 < cfg.hintTTL) :
    hs.takes cfg peer item = false ↔
      (hs.dropOldest cfg peer).2.exceedsCaps cfg (approxHintSize item) = true := by
  simp [takes, hon]

theorem queueHint_of_off (hoff : cfg.hintTTL ≤ 0) :
    hs.queueHint cfg now peer item source = hs := by
  rw [queueHint, if_pos hoff]

/-- A refused hint leaves the queues as they are and the accounting as `dropOldest`
left it. -/
theorem queueHint_of_not_takes (hon : 0 < cfg.hintTTL) (h : hs.takes cfg peer item = false) :
    (hs.queueHint cfg now peer item source).queues = hs.queues ∧
      (hs.queueHint cfg now peer item source).total = (hs.dropOldest cfg peer).2.total ∧
      (hs.queueHint cfg now peer item source).bytes = (hs.dropOldest cfg peer).2.bytes := by
  rw [queueHint, if_neg (not_le.mpr hon)]
  dsimp only
  rw [if_pos ((takes_eq_false_iff hon).mp h)]
  exact ⟨dropOldest_queues cfg peer hs, rfl, rfl⟩

theorem queueHint_of_takes (h : hs.takes cfg peer item = true) :
    ∃ entry : HintedEntry V, entry.size = approxHintSize item ∧ entry.source = source ∧
      (hs.queueHint cfg now peer item source).queues =
        hs.queues.insert peer ((hs.dropOldest cfg peer).1 ++ [entry]) ∧
      (hs.queueHint cfg now peer item source).total =
        max 0 ((hs.dropOldest cfg peer).2.total + 1) ∧
      (hs.queueHint cfg now peer item source).bytes =
        max 0 ((hs.dropOldest cfg peer).2.bytes + approxHintSize item) := by
  have hon : 0 < cfg.hintTTL := by
    rw [takes, Bool.and_eq_true, decide_eq_true_eq] at h
    exact h.1
  have hcaps : ¬ (hs.dropOldest cfg peer).2.exceedsCaps cfg (approxHintSize item) = true := by
    simpa [takes, hon] using h
  rw [queueHint, if_neg (not_le.mpr hon)]
  dsimp only
  rw [if_neg hcaps, dropOldest_queues]
  exact ⟨_, rfl, rfl, rfl, rfl, rfl⟩

theorem not_exceedsCaps_of_takes (h : hs.takes cfg peer item = true) :
    (0 < cfg.hintMaxTotal → (hs.dropOldest cfg peer).2.total < cfg.hintMaxTotal) ∧
      (0 < cfg.hintMaxBytes →
        (hs.dropOldest cfg peer).2.bytes + approxHintSize item ≤ cfg.hintMaxBytes) := by
  have hcaps : (hs.dropOldest cfg peer).2.exceedsCaps cfg (approxHintSize item) = false := by
    rw [takes, Bool.and_eq_true, Bool.not_eq_true'] at h
    exact h.2
  rw [exceedsCaps, Bool.or_eq_false_iff] at hcaps
  constructor
  · intro hpos
    simpa [hpos] using hcaps.1
  · intro hpos
    simpa [hpos] using hcaps.2

theorem nonneg_queueHint (h : hs.NonNeg) :
    (hs.queueHint cfg now peer item source).NonNeg := by
  by_cases hoff : cfg.hintTTL ≤ 0
  · rw [queueHint_of_off now source hoff]
    exact h
  have hon : 0 < cfg.hintTTL := not_le.mp hoff
  cases htakes : hs.takes cfg peer item with
  | false =>
      rw [NonNeg, pending, (queueHint_of_not_takes now source hon htakes).1]
      exact h
  | true =>
      obtain ⟨entry, hsize, -, hq, -, -⟩ := queueHint_of_takes now source htakes
      refine h.of_pending (pending_insert hq) (fun e he => ?_)
      rcases List.mem_append.mp he with he | he
      · exact (h.split peer).1 e (mem_queue_of_mem_dropOldest he)
      · rw [List.mem_singleton.mp he, hsize]
        exact approxHintSize_nonneg item

/-- A hint that is taken is counted, and so is one that is refused without another hint
having been given up for it. -/
theorem counted_queueHint (h : Counted hs)
    (hkept : ¬ (hs.full cfg peer = true ∧ 0 < cfg.hintTTL ∧ hs.takes cfg peer item = false)) :
    Counted (hs.queueHint cfg now peer item source) := by
  obtain ⟨htotal, hbytes⟩ := dropOldest_counted cfg peer h
  by_cases hoff : cfg.hintTTL ≤ 0
  · rw [queueHint_of_off now source hoff]
    exact h
  have hon : 0 < cfg.hintTTL := not_le.mp hoff
  cases htakes : hs.takes cfg peer item with
  | false =>
      obtain ⟨hq, ht, hb⟩ := queueHint_of_not_takes now source hon htakes
      have hfull : hs.full cfg peer = false := by
        rw [Bool.eq_false_iff]
        exact fun hfull => hkept ⟨hfull, hon, htakes⟩
      have hpending : (hs.queueHint cfg now peer item source).pending = hs.pending := by
        rw [pending, hq, pending]
      rw [dropOldest_of_not_full hfull] at ht hb
      refine ⟨?_, ?_, nonneg_queueHint now source h.nonneg⟩
      · rw [ht, hpending]
        exact h.total
      · rw [hb, hpending]
        exact h.bytes
  | true =>
      obtain ⟨entry, hsize, -, hq, ht, hb⟩ := queueHint_of_takes now source htakes
      obtain ⟨hqueue, hothers⟩ := h.nonneg.split peer
      have hentry : 0 ≤ entry.size := hsize ▸ approxHintSize_nonneg item
      have hkept : ∀ e ∈ (hs.dropOldest cfg peer).1, 0 ≤ e.size :=
        fun e he => hqueue e (mem_queue_of_mem_dropOldest he)
      have hkeptSum := sizes_nonneg hkept
      have hotherSum := sizes_nonneg hothers
      refine ⟨?_, ?_, nonneg_queueHint now source h.nonneg⟩
      · rw [ht, pending_insert hq, htotal]
        simp only [List.length_append, List.length_cons, List.length_nil]
        omega
      · rw [hb, pending_insert hq, hbytes, ← hsize, sizes_append, sizes_append]
        rw [show sizes [entry] = entry.size from Int.add_zero _]
        omega

/-- A hint given up for one that is then refused is still queued but no longer counted. -/
theorem total_queueHint_of_refused (h : Counted hs) (hfull : hs.full cfg peer = true)
    (hon : 0 < cfg.hintTTL) (htakes : hs.takes cfg peer item = false) :
    (hs.queueHint cfg now peer item source).total + 1 =
      (hs.queueHint cfg now peer item source).pending.length := by
  obtain ⟨hq, ht, -⟩ := queueHint_of_not_takes now source hon htakes
  obtain ⟨htotal, -⟩ := dropOldest_counted cfg peer h
  obtain ⟨dropped, rest, hqueue, hdrop⟩ := dropOldest_of_full hfull
  have hlen := (hs.pending_perm peer).length_eq
  rw [hqueue, List.length_append, List.length_cons] at hlen
  rw [hdrop] at htotal
  have hpending : (hs.queueHint cfg now peer item source).pending = hs.pending := by
    rw [pending, hq, pending]
  rw [ht, hpending, hlen, hdrop]
  show (hs.adjustHintAccounting (-1) (-dropped.size)).total + 1 = _
  have hleft : (hs.adjustHintAccounting (-1) (-dropped.size)).total =
      rest.length + (hs.others peer).length := htotal
  omega

end

theorem Sound.counted {cfg : DistConfig} {hs : HintStore V} (h : Sound cfg hs)
    (hnonneg : hs.NonNeg) : Counted hs :=
  ⟨h.total, h.bytes, hnonneg⟩

/-- The queue a hint joins keeps within the cap, because it gave up its oldest hint if it
was full. -/
theorem length_dropOldest_lt {cfg : DistConfig} {peer : NodeID} {hs : HintStore V}
    (hpos : 0 < cfg.hintMaxPerNode) (hcap : (hs.queue peer).length ≤ cfg.hintMaxPerNode) :
    (hs.dropOldest cfg peer).1.length < cfg.hintMaxPerNode := by
  cases hfull : hs.full cfg peer with
  | false =>
      have hroom : (hs.queue peer).length < cfg.hintMaxPerNode := by
        simpa [full, hpos] using hfull
      rw [dropOldest_of_not_full hfull]
      exact hroom
  | true =>
      obtain ⟨dropped, rest, hq, hdrop⟩ := dropOldest_of_full hfull
      rw [hq, List.length_cons] at hcap
      rw [hdrop]
      exact hcap

section

variable [SizedValue V] {cfg : DistConfig} (now : Time) {peer : NodeID} {item : Item V}
  (source : HintSource) {hs : HintStore V}

/-- A refused hint leaves the queues alone, so they still keep within the caps. -/
theorem sound_queueHint_of_refused (h : Sound cfg hs) (hon : 0 < cfg.hintTTL)
    (htakes : hs.takes cfg peer item = false)
    (hcounted : Counted (hs.queueHint cfg now peer item source)) :
    Sound cfg (hs.queueHint cfg now peer item source) := by
  obtain ⟨hq, -, -⟩ := queueHint_of_not_takes now source hon htakes
  have hpending : (hs.queueHint cfg now peer item source).pending = hs.pending := by
    rw [pending, hq, pending]
  refine ⟨hcounted.total, hcounted.bytes, ?_, ?_, ?_⟩
  · intro hpos peer'
    rw [queue, hq]
    exact h.perNode hpos peer'
  · rw [hpending]
    exact h.maxTotal
  · rw [hpending]
    exact h.maxBytes

/-- A hint is taken only where it fits all three caps. -/
theorem sound_queueHint_of_taken (h : Sound cfg hs) (htakes : hs.takes cfg peer item = true)
    (hcounted : Counted (hs.queueHint cfg now peer item source)) :
    Sound cfg (hs.queueHint cfg now peer item source) := by
  obtain ⟨entry, -, -, hq, ht, hb⟩ := queueHint_of_takes now source htakes
  obtain ⟨hmaxTotal, hmaxBytes⟩ := not_exceedsCaps_of_takes htakes
  refine ⟨hcounted.total, hcounted.bytes, ?_, ?_, ?_⟩
  · intro hpos peer'
    have hlen := length_dropOldest_lt hpos (h.perNode hpos peer)
    rw [queue, hq]
    by_cases hpeer : peer' = peer
    · rw [hpeer, AList.lookup_insert, Option.getD_some, List.length_append]
      exact hlen
    · rw [AList.lookup_insert_ne hpeer]
      exact h.perNode hpos peer'
  · intro hpos
    have hlt := hmaxTotal hpos
    have htotal := hcounted.total
    rw [ht] at htotal
    omega
  · intro hpos
    have hle := hmaxBytes hpos
    have hbytes : _ = sizes _ := hcounted.bytes
    rw [hb] at hbytes
    show sizes _ ≤ _
    omega

end

theorem sound_queueHint_iff [SizedValue V] {cfg : DistConfig} (now : Time) (peer : NodeID)
    (item : Item V) (source : HintSource) {hs : HintStore V} (h : Sound cfg hs)
    (hnonneg : hs.NonNeg) :
    Sound cfg (hs.queueHint cfg now peer item source) ↔
      ¬ (hs.full cfg peer = true ∧ 0 < cfg.hintTTL ∧ hs.takes cfg peer item = false) := by
  have hcounted := h.counted hnonneg
  constructor
  · rintro hsound ⟨hfull, hon, htakes⟩
    have hlost := total_queueHint_of_refused now source hcounted hfull hon htakes
    rw [hsound.total] at hlost
    omega
  · intro hkept
    have hcounted' := counted_queueHint now source hcounted hkept
    by_cases hoff : cfg.hintTTL ≤ 0
    · rw [queueHint_of_off now source hoff]
      exact h
    · cases htakes : hs.takes cfg peer item with
      | false =>
          exact sound_queueHint_of_refused now source h (not_le.mp hoff) htakes hcounted'
      | true => exact sound_queueHint_of_taken now source h htakes hcounted'

end HintStore

namespace HintPass

variable {V : Type}

open HintStore

/-! ## What a pass does to the accounting -/

section

variable (now : Time) (delivers : Deliveries) (peer : NodeID)

/-- The hints of a queue that a pass takes off it. -/
def leaving (queue : List (HintedEntry V)) : List (HintedEntry V) :=
  (queue.zipIdx.filter (fun e => !undelivered now delivers peer e)).map Prod.fst

theorem perm_remaining_leaving (queue : List (HintedEntry V)) :
    queue.Perm (remaining now delivers peer queue ++ leaving now delivers peer queue) := by
  have hsplit := (List.filter_append_perm (undelivered now delivers peer) queue.zipIdx).map Prod.fst
  rw [List.zipIdx_map_fst, List.map_append] at hsplit
  exact hsplit.symm

theorem pending_replayQueue (p : HintPass V) (q : HintQueue V) :
    (replayQueue now (some delivers) p q).hints.pending =
      remaining now delivers q.1 q.2 ++ p.hints.others q.1 := by
  rw [replayQueue, filterInPlace_eq]
  dsimp only
  rw [pending_storeQueue, sift_kept, others, sift_queues]
  rfl

/-- Apart from the queues, a visit settles the hints that leave. -/
theorem replayQueue_settles (p : HintPass V) (q : HintQueue V) :
    { (replayQueue now (some delivers) p q).hints with queues := p.hints.queues } =
      (leaving now delivers q.1 q.2).foldl (fun hs entry => settle now entry hs) p.hints := by
  have hqueues := foldl_settle_queues now (leaving now delivers q.1 q.2) p.hints
  rw [replayQueue, filterInPlace_eq]
  dsimp only
  rw [sift_hints]
  rw [← hqueues]
  rfl

theorem settle_of_le (entry : HintedEntry V) (hs : HintStore V) (htotal : 1 ≤ hs.total)
    (hbytes : entry.size ≤ hs.bytes) :
    (settle now entry hs).total = hs.total - 1 ∧
      (settle now entry hs).bytes = hs.bytes - entry.size := by
  unfold settle
  split
  · rw [adjustHintAccounting_of_le (hs.noteExpired entry) htotal hbytes]
    exact ⟨rfl, rfl⟩
  · rw [adjustHintAccounting_of_le (hs.noteReplayed entry) htotal hbytes]
    exact ⟨rfl, rfl⟩

theorem foldl_settle_counters {left : List (HintedEntry V)} (hs : HintStore V)
    (hnonneg : ∀ e ∈ left, 0 ≤ e.size) (htotal : left.length ≤ hs.total)
    (hbytes : sizes left ≤ hs.bytes) :
    let hs' := left.foldl (fun hs entry => settle now entry hs) hs
    hs'.total = hs.total - left.length ∧ hs'.bytes = hs.bytes - sizes left := by
  induction left generalizing hs with
  | nil => simp [sizes]
  | cons entry rest ih =>
      obtain ⟨hentry, hrest⟩ := List.forall_mem_cons.mp hnonneg
      have hsum := sizes_nonneg hrest
      rw [List.length_cons] at htotal
      rw [sizes_cons] at hbytes
      obtain ⟨ht, hb⟩ := settle_of_le now entry hs (by omega) (by omega)
      obtain ⟨ht', hb'⟩ := ih (settle now entry hs) hrest (by omega) (by omega)
      rw [List.foldl_cons, List.length_cons, sizes_cons]
      exact ⟨by omega, by omega⟩

theorem nonneg_replayQueue {p : HintPass V} {q : HintQueue V}
    (hq : p.hints.queues.lookup q.1 = some q.2) (h : p.hints.NonNeg) :
    (replayQueue now (some delivers) p q).hints.NonNeg := by
  have hqueue : p.hints.queue q.1 = q.2 := by rw [HintStore.queue, hq]; rfl
  refine h.of_pending (pending_replayQueue now delivers p q) (fun e he => ?_)
  refine (h.split q.1).1 e ?_
  rw [hqueue]
  exact (perm_remaining_leaving now delivers q.1 q.2).mem_iff.mpr (List.mem_append_left _ he)

/-- A visit keeps the counters those of the queued hints, and does not raise them. -/
theorem counted_replayQueue {p : HintPass V} {q : HintQueue V}
    (hq : p.hints.queues.lookup q.1 = some q.2) (h : Counted p.hints) :
    Counted (replayQueue now (some delivers) p q).hints ∧
      (replayQueue now (some delivers) p q).hints.total ≤ p.hints.total ∧
      (replayQueue now (some delivers) p q).hints.bytes ≤ p.hints.bytes := by
  have hqueue : p.hints.queue q.1 = q.2 := by rw [HintStore.queue, hq]; rfl
  obtain ⟨htotal, hbytes⟩ := h.split q.1
  obtain ⟨hnonneg, hothers⟩ := h.nonneg.split q.1
  rw [hqueue] at htotal hbytes hnonneg
  have hperm := perm_remaining_leaving now delivers q.1 q.2
  have hlen := hperm.length_eq
  have hsizes := sizes_perm hperm
  rw [List.length_append] at hlen
  rw [sizes_append] at hsizes
  have hmem : ∀ e ∈ remaining now delivers q.1 q.2 ++ leaving now delivers q.1 q.2, 0 ≤ e.size :=
    fun e he => hnonneg e (hperm.mem_iff.mpr he)
  obtain ⟨hkept, hleft⟩ := List.forall_mem_append.mp hmem
  have hkeptSum := sizes_nonneg hkept
  have hleftSum := sizes_nonneg hleft
  have hotherSum := sizes_nonneg hothers
  obtain ⟨ht, hb⟩ := foldl_settle_counters now p.hints hleft (by omega) (by omega)
  rw [← replayQueue_settles] at ht hb
  dsimp only at ht hb
  refine ⟨⟨?_, ?_, nonneg_replayQueue now delivers hq h.nonneg⟩, by omega, by omega⟩
  · rw [ht, pending_replayQueue, List.length_append]
    omega
  · rw [hb, pending_replayQueue, sizes_append]
    omega

theorem lookup_replayQueue_ne (p : HintPass V) (q : HintQueue V) {k : NodeID} (hk : k ≠ q.1) :
    (replayQueue now (some delivers) p q).hints.queues.lookup k = p.hints.queues.lookup k := by
  have hseen := seen_replayQueue now delivers p q k
  rw [if_neg hk] at hseen
  exact congrArg Prod.fst hseen

/-- What every visit of a queue keeps, a pass keeps. -/
theorem replayHints_inv {I : HintPass V → Prop}
    (hstep : ∀ p q, p.hints.queues.lookup q.1 = some q.2 → I p →
      I (replayQueue now (some delivers) p q))
    (order : VisitOrder (HintQueue V)) {hs : HintStore V} (h : I { hints := hs }) :
    I (replayHints now (some delivers) order hs) := by
  refine Keyed.foldl_visit_inv (m := fun p => p.hints.queues)
    (fun p q k hk => lookup_replayQueue_ne now delivers p q hk) hstep
    (nodupKeys_arrange order hs) (fun q hq => ?_) h
  exact AList.mem_lookup_iff.mpr ((order.perm _).mem_iff.mp hq)

end

theorem nonneg_replayHints (now : Time) (transport : Option Deliveries)
    (order : VisitOrder (HintQueue V)) {hs : HintStore V} (h : hs.NonNeg) :
    (replayHints now transport order hs).hints.NonNeg := by
  cases transport with
  | none => exact h
  | some delivers =>
      exact replayHints_inv now delivers (I := fun p => p.hints.NonNeg)
        (fun p q hq hp => nonneg_replayQueue now delivers hq hp) order h

theorem sound_replayHints {cfg : DistConfig} (now : Time) (transport : Option Deliveries)
    (order : VisitOrder (HintQueue V)) {hs : HintStore V} (h : Sound cfg hs) (hnonneg : hs.NonNeg) :
    Sound cfg (replayHints now transport order hs).hints := by
  cases transport with
  | none => exact h
  | some delivers =>
      obtain ⟨hcounted, htotal, hbytes⟩ := replayHints_inv now delivers
        (I := fun p => Counted p.hints ∧ p.hints.total ≤ hs.total ∧ p.hints.bytes ≤ hs.bytes)
        (fun p q hq ⟨hp, ht, hb⟩ => by
          obtain ⟨hp', ht', hb'⟩ := counted_replayQueue now delivers hq hp
          exact ⟨hp', ht'.trans ht, hb'.trans hb⟩)
        order ⟨h.counted hnonneg, le_refl _, le_refl _⟩
      refine ⟨hcounted.total, hcounted.bytes, ?_, ?_, ?_⟩
      · intro hpos peer
        rw [queue_replayHints, remaining, List.length_map]
        refine (List.length_filter_le _ _).trans ?_
        rw [List.length_zipIdx]
        exact h.perNode hpos peer
      · intro hpos
        have hcap := h.maxTotal hpos
        have ht := h.total
        have ht' := hcounted.total
        omega
      · intro hpos
        have hcap := h.maxBytes hpos
        have hb := h.bytes
        have hb' := hcounted.bytes
        show sizes _ ≤ _
        omega

end HintPass

inductive HintOp (V : Type) where
  | queueHint (now : Time) (peer : NodeID) (item : Item V) (source : HintSource)
  | replayHints (now : Time) (transport : Option Deliveries) (order : VisitOrder (HintQueue V))

namespace HintOp

open HintStore

variable {V : Type} [SizedValue V] (cfg : DistConfig)

def step (hs : HintStore V) : HintOp V → HintStore V
  | .queueHint now peer item source => hs.queueHint cfg now peer item source
  | .replayHints now transport order => (HintPass.replayHints now transport order hs).hints

/-- The call finds the queue of its peer full, gives up the oldest hint, and is then
refused by a global cap. -/
def DropsForNothing (hs : HintStore V) : HintOp V → Prop
  | .queueHint _ peer item _ =>
      hs.full cfg peer = true ∧ 0 < cfg.hintTTL ∧
        (hs.dropOldest cfg peer).2.exceedsCaps cfg (approxHintSize item) = true
  | .replayHints .. => False

theorem nonneg_step (hs : HintStore V) (op : HintOp V) (h : hs.NonNeg) :
    (step cfg hs op).NonNeg := by
  cases op with
  | queueHint now peer item source => exact nonneg_queueHint now source h
  | replayHints now transport order => exact HintPass.nonneg_replayHints now transport order h

theorem sound_step_iff {hs : HintStore V} (op : HintOp V) (h : Sound cfg hs)
    (hnonneg : hs.NonNeg) : Sound cfg (step cfg hs op) ↔ ¬ op.DropsForNothing cfg hs := by
  cases op with
  | queueHint now peer item source =>
      rw [step, sound_queueHint_iff now peer item source h hnonneg, DropsForNothing]
      refine not_congr (and_congr_right (fun _ => and_congr_right (fun hon => ?_)))
      exact takes_eq_false_iff hon
  | replayHints now transport order =>
      have hsound := HintPass.sound_replayHints now transport order h hnonneg
      exact ⟨fun _ hdrops => hdrops, fun _ => hsound⟩

omit [SizedValue V] in
theorem sound_empty : Sound cfg ({} : HintStore V) := by
  refine ⟨rfl, rfl, ?_, ?_, ?_⟩
  · intro _ peer
    exact Nat.zero_le _
  · intro _
    exact Nat.zero_le _
  · intro _
    exact Int.natCast_nonneg _

/-- The books are right after every call of a run exactly when no call of the run gives
up a hint for one that is then refused. -/
theorem sound_run_iff (ops : List (HintOp V)) :
    Along (step cfg) (fun hs op => Sound cfg (step cfg hs op)) {} ops ↔
      Along (step cfg) (fun hs op => ¬ op.DropsForNothing cfg hs) {} ops := by
  have hnil : ({} : HintStore V).NonNeg := fun e he => absurd he List.not_mem_nil
  have hboth : Along (step cfg) (fun hs op => Sound cfg (step cfg hs op) ∧
      (step cfg hs op).NonNeg) {} ops ↔ _ := along_invariant_iff
    (I := fun hs => Sound cfg hs ∧ hs.NonNeg) (Q := fun hs op => ¬ op.DropsForNothing cfg hs)
    (fun hs op h => by
      rw [← sound_step_iff cfg op h.1 h.2]
      exact and_iff_left (nonneg_step cfg hs op h.2))
    ⟨sound_empty cfg, hnil⟩
  rw [← hboth]
  exact along_congr (I := NonNeg) (nonneg_step cfg)
    (fun hs op h => (and_iff_left (nonneg_step cfg hs op h)).symm) hnil ops

/-- One hint per node and ten bytes in all. -/
def tightCaps : DistConfig :=
  { localNode := [110], ring := none, hintTTL := 60, hintMaxPerNode := 1, hintMaxBytes := 10 }

def queueBytes (peer : NodeID) (bytes : Nat) (source : HintSource) : HintOp Str :=
  .queueHint 0 peer { key := [107], value := some (List.replicate bytes 0) } source

/-- The second hint is too large and is refused after the first has been taken off the
counters.  The first stays queued, and a third hint then passes the byte cap. -/
theorem sound_run_refused :
    let ops := [queueBytes [112] 4 .replication, queueBytes [112] 20 .replication]
    let hs := ops.foldl (step tightCaps) {}
    let later := step tightCaps hs (queueBytes [113] 9 .replication)
    hs.pending.length = 1 ∧ hs.total = 0 ∧ (hs.pending.map HintedEntry.size).sum = 5 ∧
      hs.bytes = 0 ∧ later.bytes = 10 ∧ (later.pending.map HintedEntry.size).sum = 15 := by
  decide

end HintOp

end HyperCache
