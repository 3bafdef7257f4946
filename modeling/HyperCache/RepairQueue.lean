/-
The queue of read repairs, under every interleaving of its callers and flushers.

`enqueue` keeps one item for each peer and key, the newest, and starts a flush of its own
once a peer has enough of them.  `flushPeer` takes the entries of a peer out of the map
under the lock and sends them after it has released it.  `flushAll` does so for the peers
that it found in the map.

A goroutine that flushes is somewhere in its list of peers, or waits for the calls of one
batch to end.  The calls of a batch run in parallel.  They are sent in some order and
counted later.
-/
import HyperCache.Lib.Interleaving
import HyperCache.Lib.LastWriter
import HyperCache.Lib.Tally
import HyperCache.Replay

open Interleaving Keyed LastWriter Tally

namespace HyperCache

variable {V : Type}

/-- The batch of one flush. -/
structure Flush (V : Type) where
  peer : NodeID
  waiting : List (Item V)
  sent : List (Item V) := []
  counted : Nat := 0

/-- Where a goroutine that flushes is, with the peers it has still to flush. -/
inductive FlushPc (V : Type) where
  | walking (peers : List NodeID)
  | sending (f : Flush V) (peers : List NodeID)

structure RepairConfig where
  maxBatchSize : Nat
  hasTransport : Bool := true

/-- `repairQueue` with its counters and the goroutines that flush it, in the order in which they
were started.  `since` is history: what was enqueued for each peer since its entries were last
taken, newest first. -/
structure RepairQueue (V : Type) where
  entries : AList (fun _ : NodeID => ConcurrentMap V) := ∅
  readRepairCoalesced : Nat := 0
  readRepairBatched : Nat := 0
  threads : List (FlushPc V) := []
  since : NodeID → List (Item V) := fun _ => []

namespace RepairQueue

/-- A call, or the next step of a goroutine. -/
inductive Act (V : Type) where
  | enqueue (peer : NodeID) (item : Option (Item V))
  | flushPeer (peer : NodeID)
  | flushAll (order : VisitOrder NodeID)
  | detach (i : Nat) (order : VisitOrder (Item V))
  | send (i : Nat)
  | count (i : Nat)
  | finish (i : Nat)

def start (pc : FlushPc V) (q : RepairQueue V) : RepairQueue V :=
  { q with threads := q.threads ++ [pc] }

def setThread (i : Nat) (pc : FlushPc V) (q : RepairQueue V) : RepairQueue V :=
  { q with threads := q.threads.set i pc }

/-- `peerEntries[item.Key] = &cloned`, and the flush that a full batch starts. -/
def store (cfg : RepairConfig) (peer : NodeID) (peerEntries : ConcurrentMap V) (item : Item V)
    (q : RepairQueue V) : RepairQueue V :=
  let peerEntries := peerEntries.set item
  let shouldFlush : Bool := peerEntries.count ≥ cfg.maxBatchSize
  { q with
    entries := q.entries.insert peer peerEntries
    threads := if shouldFlush then q.threads ++ [.walking [peer]] else q.threads }

/-- `enqueue` of an item. -/
def enqueue (cfg : RepairConfig) (peer : NodeID) (item : Item V) (q : RepairQueue V) :
    RepairQueue V :=
  let q := { q with since := Function.update q.since peer (item :: q.since peer) }
  let peerEntries := (q.entries.lookup peer).getD .empty
  match peerEntries.get item.key with
  | some existing =>
      let q := { q with readRepairCoalesced := q.readRepairCoalesced + 1 }
      if !isHigherVersion item existing then
        { q with entries := q.entries.insert peer peerEntries }
      else q.store cfg peer peerEntries item
  | none => q.store cfg peer peerEntries item

/-- The entries of a peer are taken. -/
def taken (peer : NodeID) (q : RepairQueue V) : RepairQueue V :=
  { q with
    entries := q.entries.erase peer
    since := Function.update q.since peer [] }

/-- The critical section of `flushPeer`, by goroutine `i` with `rest` still to come. -/
def detach (cfg : RepairConfig) (i : Nat) (peer : NodeID) (rest : List NodeID)
    (order : VisitOrder (Item V)) (q : RepairQueue V) : RepairQueue V :=
  let peerEntries := (q.entries.lookup peer).getD .empty
  if peerEntries.count = 0 then q.setThread i (.walking rest)
  else
    let batch : Flush V := ⟨peer, order.arrange peerEntries.all, [], 0⟩
    let q := q.taken peer
    if !cfg.hasTransport then q.setThread i (.walking rest)
    else q.setThread i (.sending batch rest)

def step (cfg : RepairConfig) (q : RepairQueue V) : Act V → Option (RepairQueue V)
  | .enqueue _ none => some q
  | .enqueue peer (some item) => some (q.enqueue cfg peer item)
  | .flushPeer peer => some (q.start (.walking [peer]))
  | .flushAll order => some (q.start (.walking (order.arrange q.entries.keys)))
  | .detach i order =>
      match q.threads[i]? with
      | some (.walking (peer :: rest)) => some (q.detach cfg i peer rest order)
      | _ => none
  | .send i =>
      match q.threads[i]? with
      | some (.sending f rest) =>
          match f.waiting with
          | it :: waiting =>
              some (q.setThread i (.sending { f with waiting, sent := f.sent ++ [it] } rest))
          | [] => none
      | _ => none
  | .count i =>
      match q.threads[i]? with
      | some (.sending f rest) =>
          if f.counted < f.sent.length then
            some (setThread i (.sending { f with counted := f.counted + 1 } rest)
              { q with readRepairBatched := q.readRepairBatched + 1 })
          else none
      | _ => none
  | .finish i =>
      match q.threads[i]? with
      | some (.sending f rest) =>
          if f.waiting = [] ∧ f.counted = f.sent.length then
            some (q.setThread i (.walking rest))
          else none
      | _ => none

/-- The steps, with the outcomes of `flushPeer` apart. -/
inductive Moves (cfg : RepairConfig) (q : RepairQueue V) : Act V → RepairQueue V → Prop where
  | ignore {peer : NodeID} : Moves cfg q (.enqueue peer none) q
  | enqueue {peer : NodeID} {item : Item V} :
      Moves cfg q (.enqueue peer (some item)) (q.enqueue cfg peer item)
  | flushPeer {peer : NodeID} : Moves cfg q (.flushPeer peer) (q.start (.walking [peer]))
  | flushAll {order : VisitOrder NodeID} :
      Moves cfg q (.flushAll order) (q.start (.walking (order.arrange q.entries.keys)))
  | skip {i : Nat} {order : VisitOrder (Item V)} {peer : NodeID} {rest : List NodeID}
      (hpc : q.threads[i]? = some (.walking (peer :: rest)))
      (hnone : ((q.entries.lookup peer).getD .empty).count = 0) :
      Moves cfg q (.detach i order) (q.setThread i (.walking rest))
  | detach {i : Nat} {order : VisitOrder (Item V)} {peer : NodeID} {rest : List NodeID}
      {peerEntries : ConcurrentMap V} (hpc : q.threads[i]? = some (.walking (peer :: rest)))
      (hentries : q.entries.lookup peer = some peerEntries) (hsome : peerEntries.count ≠ 0) :
      Moves cfg q (.detach i order)
        ((q.taken peer).setThread i (.sending ⟨peer, order.arrange peerEntries.all, [], 0⟩ rest))
  | drop {i : Nat} {order : VisitOrder (Item V)} {peer : NodeID} {rest : List NodeID}
      (hpc : q.threads[i]? = some (.walking (peer :: rest))) (hnone : cfg.hasTransport = false) :
      Moves cfg q (.detach i order) ((q.taken peer).setThread i (.walking rest))
  | send {i : Nat} {f : Flush V} {rest : List NodeID} {it : Item V} {waiting : List (Item V)}
      (hpc : q.threads[i]? = some (.sending f rest)) (hwaiting : f.waiting = it :: waiting) :
      Moves cfg q (.send i)
        (q.setThread i (.sending { f with waiting, sent := f.sent ++ [it] } rest))
  | count {i : Nat} {f : Flush V} {rest : List NodeID}
      (hpc : q.threads[i]? = some (.sending f rest)) (hsent : f.counted < f.sent.length) :
      Moves cfg q (.count i)
        (setThread i (.sending { f with counted := f.counted + 1 } rest)
          { q with readRepairBatched := q.readRepairBatched + 1 })
  | finish {i : Nat} {f : Flush V} {rest : List NodeID}
      (hpc : q.threads[i]? = some (.sending f rest)) (hwaiting : f.waiting = [])
      (hcounted : f.counted = f.sent.length) :
      Moves cfg q (.finish i) (q.setThread i (.walking rest))

theorem moves_of_step {cfg : RepairConfig} {q q' : RepairQueue V} {a : Act V}
    (h : q.step cfg a = some q') : Moves cfg q a q' := by
  cases a with
  | enqueue peer item =>
      cases item with
      | none =>
          cases h
          exact .ignore
      | some item =>
          cases h
          exact .enqueue
  | flushPeer peer =>
      cases h
      exact .flushPeer
  | flushAll order =>
      cases h
      exact .flushAll
  | detach i order =>
      rw [step] at h
      split at h
      case h_1 peer rest hpc =>
        cases h
        unfold detach
        dsimp only
        split
        case isTrue hnone => exact .skip hpc hnone
        case isFalse hsome =>
          cases hentries : q.entries.lookup peer with
          | none =>
              rw [hentries] at hsome
              exact absurd rfl hsome
          | some peerEntries =>
              rw [hentries] at hsome
              cases ht : cfg.hasTransport with
              | false => exact .drop hpc ht
              | true => exact .detach hpc hentries hsome
      case h_2 => cases h
  | send i =>
      rw [step] at h
      split at h
      case h_1 f rest hpc =>
        split at h
        case h_1 it waiting hwaiting =>
          cases h
          exact .send hpc hwaiting
        case h_2 => cases h
      case h_2 => cases h
  | count i =>
      rw [step] at h
      split at h
      case h_1 f rest hpc =>
        split at h
        case isTrue hsent =>
          cases h
          exact .count hpc hsent
        case isFalse => cases h
      case h_2 => cases h
  | finish i =>
      rw [step] at h
      split at h
      case h_1 f rest hpc =>
        split at h
        case isTrue hdone =>
          cases h
          exact .finish hpc hdone.1 hdone.2
        case isFalse => cases h
      case h_2 => cases h

/-! ## What a call of `enqueue` changes -/

section

variable {cfg : RepairConfig} {peer : NodeID} {item : Item V} {q : RepairQueue V}

/-- The pending entries. -/
def pending (q : RepairQueue V) : Nat := total ConcurrentMap.count (elems q.entries)

/-- The pending entries of a peer. -/
def entriesOf (q : RepairQueue V) (peer : NodeID) : ConcurrentMap V :=
  (q.entries.lookup peer).getD .empty

/-- The call leaves the newest of the entry there was and the item, and counts the other. -/
structure Enqueued (peer : NodeID) (item : Item V) (q q' : RepairQueue V) : Prop where
  entries : ∃ m, q'.entries = q.entries.insert peer m ∧
    (∀ k, m.get k = if k = item.key then keepGreater Item.rank ((q.entriesOf peer).get k) item
      else (q.entriesOf peer).get k) ∧
    q'.readRepairCoalesced + m.count = q.readRepairCoalesced + (q.entriesOf peer).count + 1
  batched : q'.readRepairBatched = q.readRepairBatched
  threads : q'.threads = q.threads ∨ q'.threads = q.threads ++ [.walking [peer]]
  since : q'.since = Function.update q.since peer (item :: q.since peer)

theorem store_threads (peerEntries : ConcurrentMap V) :
    (q.store cfg peer peerEntries item).threads = q.threads ∨
      (q.store cfg peer peerEntries item).threads = q.threads ++ [.walking [peer]] := by
  unfold store
  dsimp only
  split
  · exact Or.inr rfl
  · exact Or.inl rfl

theorem enqueued_store {coalesced : Nat}
    (hcount : coalesced + ((q.entriesOf peer).set item).count =
      q.readRepairCoalesced + (q.entriesOf peer).count + 1)
    (hnewer : ∀ existing, (q.entriesOf peer).get item.key = some existing →
      existing.rank < item.rank) :
    Enqueued peer item q (store cfg peer (q.entriesOf peer) item
      { q with
        readRepairCoalesced := coalesced
        since := Function.update q.since peer (item :: q.since peer) }) := by
  have hget : ∀ k, ((q.entriesOf peer).set item).get k =
      if k = item.key then keepGreater Item.rank ((q.entriesOf peer).get k) item
      else (q.entriesOf peer).get k := by
    intro k
    rw [ConcurrentMap.get_set]
    by_cases hk : k = item.key
    · rw [if_pos hk, if_pos hk, hk]
      cases hexisting : (q.entriesOf peer).get item.key with
      | none => rfl
      | some existing => exact (if_pos (hnewer existing hexisting)).symm
    · rw [if_neg hk, if_neg hk]
  exact ⟨⟨_, rfl, hget, hcount⟩, rfl, store_threads _, rfl⟩

theorem enqueued (cfg : RepairConfig) (peer : NodeID) (item : Item V) (q : RepairQueue V) :
    Enqueued peer item q (q.enqueue cfg peer item) := by
  unfold enqueue
  dsimp only
  cases hexisting : (q.entriesOf peer).get item.key with
  | none =>
      have hnot : item.key ∉ (q.entriesOf peer).keys := by
        intro hmem
        obtain ⟨_, h⟩ := ConcurrentMap.mem_keys.mp hmem
        cases hexisting.symm.trans h
      rw [show ((q.entries.lookup peer).getD .empty).get item.key = none from hexisting]
      apply enqueued_store
      · rw [ConcurrentMap.count_set, if_neg hnot]
        omega
      · intro existing h
        cases hexisting.symm.trans h
  | some existing =>
      have hmem : item.key ∈ (q.entriesOf peer).keys := ConcurrentMap.mem_keys.mpr ⟨_, hexisting⟩
      rw [show ((q.entries.lookup peer).getD .empty).get item.key = some existing from hexisting]
      dsimp only
      split
      case isTrue hold =>
        have hnot : ¬existing.rank < item.rank := by
          rw [← isHigherVersion_iff]
          simpa using hold
        refine ⟨⟨q.entriesOf peer, rfl, fun k => ?_, ?_⟩, rfl, Or.inl rfl, rfl⟩
        · by_cases hk : k = item.key
          · rw [if_pos hk, hk, hexisting]
            exact (if_neg hnot).symm
          · rw [if_neg hk]
        · show q.readRepairCoalesced + 1 + _ = _
          omega
      case isFalse hnew =>
        have hnewer : existing.rank < item.rank := by
          rw [← isHigherVersion_iff]
          simpa using hnew
        apply enqueued_store
        · rw [ConcurrentMap.count_set, if_pos hmem]
          omega
        · intro existing' h
          cases hexisting.symm.trans h
          exact hnewer

end

/-! ## Invariants -/

end RepairQueue

/-- The calls of a batch that are not counted yet. -/
def FlushPc.uncounted : FlushPc V → Nat
  | .walking _ => 0
  | .sending f _ => f.waiting.length + f.sent.length - f.counted

/-- The items have different keys, and are newest ones of what was enqueued for each key. -/
structure Newest (enqueued items : List (Item V)) : Prop where
  nodup : (items.map Item.key).Nodup
  newest : ∀ it ∈ items, it ∈ enqueued ∧ ∀ b ∈ enqueued, b.key = it.key → b.rank ≤ it.rank
  covers : ∀ b ∈ enqueued, ∃ it ∈ items, it.key = b.key

theorem newest_of_summary {m : ConcurrentMap V} {enqueued items : List (Item V)}
    (h : Summary Item.rank Item.key m.get enqueued) (hitems : items.Perm m.all) :
    Newest enqueued items where
  nodup := by
    rw [(hitems.map Item.key).nodup_iff, ConcurrentMap.map_key_all]
    exact m.keys_nodup
  newest := by
    intro it hit
    obtain ⟨hmem, -, hmax⟩ := h.newest _ _ (ConcurrentMap.mem_all.mp (hitems.mem_iff.mp hit))
    exact ⟨hmem, hmax⟩
  covers := by
    intro b hb
    obtain ⟨it, hit⟩ := h.covers b hb
    have hkey : it.key = b.key := ConcurrentMap.key_of_get hit
    rw [← hkey] at hit
    exact ⟨it, hitems.mem_iff.mpr (ConcurrentMap.mem_all.mpr hit), hkey⟩

namespace RepairQueue

/-- The call enqueues an item. -/
def Act.isEnqueue : Act V → Bool
  | .enqueue _ (some _) => true
  | _ => false

/-- After the actions `as` the entries of a peer summarise what was enqueued since they were last
taken, and every enqueued item is an entry, in a batch, or was counted. -/
structure Coherent (as : List (Act V)) (q : RepairQueue V) : Prop where
  held : ∀ peer, Summary Item.rank Item.key (q.entriesOf peer).get (q.since peer)
  running : ∀ f peers, .sending f peers ∈ q.threads → f.counted ≤ f.sent.length
  balance : as.countP Act.isEnqueue =
    q.readRepairCoalesced + q.readRepairBatched + q.pending + total FlushPc.uncounted q.threads

theorem coherent_new : Coherent [] ({} : RepairQueue V) where
  held := fun _ => Summary.empty Item.rank Item.key
  running := fun _ _ h => absurd h List.not_mem_nil
  balance := rfl

section

variable {cfg : RepairConfig} {q q' : RepairQueue V} {i : Nat}

theorem entriesOf_insert (q : RepairQueue V) (peer : NodeID) (m : ConcurrentMap V)
    (peer' : NodeID) :
    ((q.entries.insert peer m).lookup peer').getD .empty =
      if peer' = peer then m else q.entriesOf peer' := by
  by_cases h : peer' = peer
  · rw [if_pos h, h, AList.lookup_insert]
    rfl
  · rw [if_neg h, AList.lookup_insert_ne h]
    rfl

theorem entriesOf_erase (q : RepairQueue V) (peer peer' : NodeID) :
    ((q.entries.erase peer).lookup peer').getD .empty =
      if peer' = peer then .empty else q.entriesOf peer' := by
  by_cases h : peer' = peer
  · rw [if_pos h, h, AList.lookup_erase]
    rfl
  · rw [if_neg h, AList.lookup_erase_ne h]
    rfl

variable {as : List (Act V)} {a : Act V}

theorem countP_isEnqueue_concat (as : List (Act V)) (a : Act V) :
    (as ++ [a]).countP Act.isEnqueue =
      as.countP Act.isEnqueue + if a.isEnqueue then 1 else 0 := by
  rw [List.countP_append, List.countP_singleton]

/-- A thread that starts with no batch changes no invariant. -/
theorem Coherent.start (h : q.Coherent as) (ha : a.isEnqueue = false) (peers : List NodeID) :
    (q.start (.walking peers)).Coherent (as ++ [a]) where
  held := h.held
  running := by
    intro f rest hf
    rcases List.mem_append.mp hf with hf | hf
    · exact h.running f rest hf
    · cases List.mem_singleton.mp hf
  balance := by
    show _ = _ + _ + q.pending + total FlushPc.uncounted (q.threads ++ [.walking peers])
    rw [countP_isEnqueue_concat, ha, total_append]
    exact h.balance

theorem Coherent.enqueued {peer : NodeID} {item : Item V} (h : q.Coherent as)
    (he : Enqueued peer item q q') : q'.Coherent (as ++ [.enqueue peer (some item)]) := by
  obtain ⟨m, hentries, hget, hcount⟩ := he.entries
  have hof : ∀ peer', q'.entriesOf peer' = if peer' = peer then m else q.entriesOf peer' := by
    intro peer'
    rw [entriesOf, hentries]
    exact entriesOf_insert q peer m peer'
  have hthreads : total FlushPc.uncounted q'.threads = total FlushPc.uncounted q.threads ∧
      ∀ f peers, .sending f peers ∈ q'.threads → .sending f peers ∈ q.threads := by
    rcases he.threads with hsame | hstart
    · rw [hsame]
      exact ⟨rfl, fun _ _ h => h⟩
    · rw [hstart, total_append]
      refine ⟨rfl, fun f peers hf => ?_⟩
      rcases List.mem_append.mp hf with hf | hf
      · exact hf
      · cases List.mem_singleton.mp hf
  refine ⟨fun peer' => ?_, fun f peers hf => h.running f peers (hthreads.2 f peers hf), ?_⟩
  · rw [hof, he.since]
    by_cases hp : peer' = peer
    · rw [if_pos hp, hp, Function.update_self]
      exact (h.held peer).arrive Item.rank Item.key hget
    · rw [if_neg hp, Function.update_of_ne hp]
      exact h.held peer'
  · have hpending : q'.pending + (q.entriesOf peer).count = q.pending + m.count := by
      have hinsert := total_insert ConcurrentMap.count (m := q.entries) (k := peer) m
      rw [pending, hentries, entriesOf]
      cases hlookup : q.entries.lookup peer with
      | none =>
          rw [hlookup] at hinsert
          exact hinsert
      | some old =>
          rw [hlookup] at hinsert
          exact hinsert
    rw [countP_isEnqueue_concat, he.batched, hthreads.1]
    have hbalance := h.balance
    simp only [Act.isEnqueue, if_true]
    omega

/-- A thread moves on, and counts no more calls of its batch than it has sent. -/
theorem running_set {threads : List (FlushPc V)} {pc : FlushPc V}
    (h : ∀ f peers, .sending f peers ∈ threads → f.counted ≤ f.sent.length)
    (hpc : ∀ f peers, pc = .sending f peers → f.counted ≤ f.sent.length) :
    ∀ f peers, .sending f peers ∈ threads.set i pc → f.counted ≤ f.sent.length := by
  intro f peers hf
  rcases List.mem_or_eq_of_mem_set hf with hf | hf
  · exact h f peers hf
  · exact hpc f peers hf.symm

/-- A thread moves on without the lock, and a call it counts goes to the counter. -/
theorem Coherent.setThread (h : q.Coherent as) (ha : a.isEnqueue = false) {pc pc' : FlushPc V}
    {batched : Nat} (hpc : q.threads[i]? = some pc)
    (hsound : ∀ f peers, pc' = .sending f peers → f.counted ≤ f.sent.length)
    (hcount : batched + pc'.uncounted = q.readRepairBatched + pc.uncounted) :
    (RepairQueue.setThread i pc' { q with readRepairBatched := batched }).Coherent
      (as ++ [a]) := by
  refine ⟨h.held, running_set h.running hsound, ?_⟩
  have hset := total_set FlushPc.uncounted hpc pc'
  have hbalance := h.balance
  show _ = q.readRepairCoalesced + batched + q.pending +
    total FlushPc.uncounted (q.threads.set i pc')
  rw [countP_isEnqueue_concat, ha]
  simp only [Bool.false_eq_true, if_false]
  omega

/-- The entries of a peer become a batch. -/
theorem Coherent.detach (h : q.Coherent as) (ha : a.isEnqueue = false) {peer : NodeID}
    {rest peers : List NodeID} {peerEntries : ConcurrentMap V} (order : VisitOrder (Item V))
    (hpc : q.threads[i]? = some (.walking peers))
    (hentries : q.entries.lookup peer = some peerEntries) :
    ((q.taken peer).setThread i
      (.sending ⟨peer, order.arrange peerEntries.all, [], 0⟩ rest)).Coherent (as ++ [a]) := by
  refine ⟨fun peer' => ?_, running_set h.running ?_, ?_⟩
  · show Summary _ _ (((q.entries.erase peer).lookup peer').getD .empty).get
      (Function.update q.since peer [] peer')
    rw [entriesOf_erase]
    by_cases hp : peer' = peer
    · rw [if_pos hp, hp, Function.update_self]
      exact Summary.empty Item.rank Item.key
    · rw [if_neg hp, Function.update_of_ne hp]
      exact h.held peer'
  · intro f peers' hf
    cases hf
    exact Nat.le_refl _
  · have hset := total_set FlushPc.uncounted hpc
      (.sending ⟨peer, order.arrange peerEntries.all, [], 0⟩ rest)
    have hbatch : FlushPc.uncounted
        (.sending ⟨peer, order.arrange peerEntries.all, [], 0⟩ rest) = peerEntries.count := by
      show (order.arrange peerEntries.all).length = peerEntries.count
      rw [(order.perm _).length_eq, ConcurrentMap.count, ConcurrentMap.all, List.length_map]
    have hwalking : FlushPc.uncounted (.walking peers : FlushPc V) = 0 := rfl
    have herase : total ConcurrentMap.count (elems (q.entries.erase peer)) +
        peerEntries.count = q.pending := total_erase _ hentries
    have hbalance := h.balance
    show _ = q.readRepairCoalesced + q.readRepairBatched +
      total ConcurrentMap.count (elems (q.entries.erase peer)) + total FlushPc.uncounted
        (q.threads.set i (.sending ⟨peer, order.arrange peerEntries.all, [], 0⟩ rest))
    rw [countP_isEnqueue_concat, ha]
    simp only [Bool.false_eq_true, if_false]
    omega

theorem Coherent.moves (ht : cfg.hasTransport = true) (h : q.Coherent as)
    (hm : Moves cfg q a q') : q'.Coherent (as ++ [a]) := by
  cases hm with
  | drop hpc hnone => cases ht.symm.trans hnone
  | ignore =>
      refine ⟨h.held, h.running, ?_⟩
      rw [countP_isEnqueue_concat]
      exact h.balance
  | enqueue => exact h.enqueued (RepairQueue.enqueued _ _ _ _)
  | flushPeer => exact h.start rfl _
  | flushAll => exact h.start rfl _
  | skip hpc hnone => exact h.setThread rfl hpc nofun rfl
  | detach hpc hentries hsome => exact h.detach rfl _ hpc hentries
  | @send i f rest it waiting hpc hwaiting =>
      have hcounted := h.running f rest (List.mem_of_getElem? hpc)
      refine h.setThread rfl hpc (fun f' peers hf => ?_) ?_
      · cases hf
        rw [List.length_append]
        exact Nat.le_add_right_of_le hcounted
      · show _ + (waiting.length + (f.sent ++ [it]).length - f.counted) =
          _ + (f.waiting.length + f.sent.length - f.counted)
        rw [hwaiting, List.length_append, List.length_singleton, List.length_cons]
        omega
  | @count i f rest hpc hsent =>
      refine h.setThread rfl hpc (fun f' peers hf => ?_) ?_
      · cases hf
        exact hsent
      · show q.readRepairBatched + 1 + (f.waiting.length + f.sent.length - (f.counted + 1)) =
          q.readRepairBatched + (f.waiting.length + f.sent.length - f.counted)
        omega
  | @finish i f rest hpc hwaiting hcounted =>
      refine h.setThread rfl hpc nofun ?_
      show q.readRepairBatched + 0 =
        q.readRepairBatched + (f.waiting.length + f.sent.length - f.counted)
      rw [hwaiting, hcounted, List.length_nil, Nat.zero_add, Nat.sub_self]

theorem coherent_run (ht : cfg.hasTransport = true) (hrun : run (step cfg) {} as = some q) :
    q.Coherent as :=
  run_history coherent_new (fun hq hstep => hq.moves ht (moves_of_step hstep)) hrun

/-- A peer without entries has had nothing enqueued since they were last taken. -/
theorem Coherent.since_eq_nil (h : q.Coherent as) {peer : NodeID}
    (hnone : (q.entriesOf peer).count = 0) : q.since peer = [] := by
  refine List.eq_nil_iff_forall_not_mem.mpr (fun b hb => ?_)
  obtain ⟨it, hit⟩ := (h.held peer).covers b hb
  have hmem : b.key ∈ (q.entriesOf peer).keys := ConcurrentMap.mem_keys.mpr ⟨it, hit⟩
  rw [ConcurrentMap.count_eq] at hnone
  exact absurd hnone (List.length_pos_of_mem hmem).ne'

/-! ## What a run enqueues and sends -/

/-- The peer whose entries the goroutine `i` takes next. -/
def flushing (q : RepairQueue V) (i : Nat) : Option NodeID :=
  match q.threads[i]? with
  | some (.walking (peer :: _)) => some peer
  | _ => none

/-- What is enqueued for the peer since its last detach, after one more action. -/
def enqueuedBy (peer : NodeID) (q : RepairQueue V) (items : List (Item V)) :
    Act V → List (Item V)
  | .enqueue p (some item) => if p = peer then item :: items else items
  | .detach i _ => if q.flushing i = some peer then [] else items
  | _ => items

/-- What the actions enqueue for the peer since its last detach, newest first. -/
def enqueuedSince (cfg : RepairConfig) (peer : NodeID) :
    RepairQueue V → List (Item V) → List (Act V) → List (Item V)
  | _, items, [] => items
  | q, items, a :: rest =>
      match q.step cfg a with
      | none => items
      | some q' => enqueuedSince cfg peer q' (enqueuedBy peer q items a) rest

/-- Goroutine `i` is done with its batch. -/
def Act.finishes (i : Nat) : Act V → Bool
  | .finish j => j = i
  | _ => false

/-- The `ForwardSet` call of goroutine `i`, with the peer. -/
def callOf (i : Nat) (q : RepairQueue V) : Act V → List (NodeID × Item V)
  | .send j =>
      match q.threads[j]? with
      | some (.sending f _) => if j = i then (f.waiting.head?.map (f.peer, ·)).toList else []
      | _ => []
  | _ => []

/-- The `ForwardSet` calls of goroutine `i` until it is done with its batch. -/
def callsOf (cfg : RepairConfig) (i : Nat) :
    RepairQueue V → List (Act V) → List (NodeID × Item V)
  | _, [] => []
  | q, a :: rest =>
      if a.finishes i then []
      else
        q.callOf i a ++
          match q.step cfg a with
          | none => []
          | some q' => callsOf cfg i q' rest

theorem flushing_eq {peer : NodeID} {rest : List NodeID}
    (hpc : q.threads[i]? = some (.walking (peer :: rest))) : q.flushing i = some peer := by
  rw [flushing, hpc]

theorem enqueuedBy_moves (h : q.Coherent as) (peer : NodeID) (hm : Moves cfg q a q') :
    enqueuedBy peer q (q.since peer) a = q'.since peer := by
  have htaken : ∀ {p : NodeID} {rest : List NodeID} {j : Nat} {order : VisitOrder (Item V)},
      q.threads[j]? = some (.walking (p :: rest)) →
      enqueuedBy peer q (q.since peer) (.detach j order) = Function.update q.since p [] peer := by
    intro p rest j order hpc
    rw [enqueuedBy, flushing_eq hpc, Function.update_apply]
    simp only [Option.some.injEq, eq_comm]
  cases hm with
  | @enqueue p item =>
      rw [enqueuedBy, (RepairQueue.enqueued cfg p item q).since, Function.update_apply]
      by_cases hp : p = peer
      · rw [if_pos hp, if_pos hp.symm, hp]
      · rw [if_neg hp, if_neg (Ne.symm hp)]
  | @skip j order p rest hpc hnone =>
      have hnil : q.since p = [] := h.since_eq_nil hnone
      rw [htaken hpc, ← hnil, Function.update_eq_self]
      rfl
  | detach hpc hentries hsome => exact htaken hpc
  | drop hpc hnone => exact htaken hpc
  | _ => rfl

/-- The history field is what the actions enqueue. -/
theorem since_run (ht : cfg.hasTransport = true) {past : List (Act V)} (h : q.Coherent past)
    (peer : NodeID) (hrun : run (step cfg) q as = some q') :
    enqueuedSince cfg peer q (q.since peer) as = q'.since peer := by
  induction as generalizing q past with
  | nil =>
      cases hrun
      rfl
  | cons a rest ih =>
      rw [run, Option.bind_eq_some_iff] at hrun
      obtain ⟨t, hstep, hrest⟩ := hrun
      have hm := moves_of_step hstep
      rw [enqueuedSince, hstep]
      dsimp only
      rw [enqueuedBy_moves h peer hm]
      exact ih (h.moves ht hm) hrest

/-! ## A batch on its way -/

theorem getElem?_set_thread {pc : FlushPc V} (hpc : q.threads[i]? = some pc) (pc' : FlushPc V) :
    (q.threads.set i pc')[i]? = some pc' :=
  List.getElem?_set_self (List.getElem?_eq_some_iff.mp hpc).1

/-- What a step does to a batch that goroutine `i` is sending. -/
theorem thread_moves {f : Flush V} {rest : List NodeID} (hm : Moves cfg q a q')
    (hpc : q.threads[i]? = some (.sending f rest)) :
    (a.finishes i = true ∧ f.waiting = []) ∨
      a.finishes i = false ∧ ∃ f', q'.threads[i]? = some (.sending f' rest) ∧ f'.peer = f.peer ∧
        (q.callOf i a).map Prod.snd ++ f'.waiting = f.waiting ∧
        ∀ call ∈ q.callOf i a, call.1 = f.peer := by
  -- The step of another goroutine leaves this one where it is.
  have hother : ∀ {j pc}, j ≠ i → (q.threads.set j pc)[i]? = some (.sending f rest) := by
    intro j pc hj
    rw [List.getElem?_set_ne hj]
    exact hpc
  have happend : ∀ pc, (q.threads ++ [pc])[i]? = some (.sending f rest) := by
    intro pc
    rw [List.getElem?_append_left (List.getElem?_eq_some_iff.mp hpc).1]
    exact hpc
  have hwalks : ∀ {j peers}, q.threads[j]? = some (.walking peers) → j ≠ i := by
    rintro j peers hj rfl
    cases hj.symm.trans hpc
  cases hm with
  | ignore => exact .inr ⟨rfl, f, hpc, rfl, rfl, nofun⟩
  | @enqueue peer item =>
      refine .inr ⟨rfl, f, ?_, rfl, rfl, nofun⟩
      rcases (RepairQueue.enqueued cfg peer item q).threads with hsame | hstart
      · rw [hsame]
        exact hpc
      · rw [hstart]
        exact happend _
  | flushPeer => exact .inr ⟨rfl, f, happend _, rfl, rfl, nofun⟩
  | flushAll => exact .inr ⟨rfl, f, happend _, rfl, rfl, nofun⟩
  | skip hj hnone => exact .inr ⟨rfl, f, hother (hwalks hj), rfl, rfl, nofun⟩
  | detach hj hentries hsome => exact .inr ⟨rfl, f, hother (hwalks hj), rfl, rfl, nofun⟩
  | drop hj hnone => exact .inr ⟨rfl, f, hother (hwalks hj), rfl, rfl, nofun⟩
  | @send j g rest' it waiting hj hwaiting =>
      refine .inr ⟨rfl, ?_⟩
      by_cases hji : j = i
      · subst hji
        cases hj.symm.trans hpc
        refine ⟨_, getElem?_set_thread hpc _, rfl, ?_, ?_⟩
        · simp [callOf, hpc, hwaiting]
        · simp [callOf, hpc, hwaiting]
      · refine ⟨f, hother hji, rfl, ?_, ?_⟩
        · simp [callOf, hj, hji]
        · simp [callOf, hj, hji]
  | @count j g rest' hj hsent =>
      refine .inr ⟨rfl, ?_⟩
      by_cases hji : j = i
      · subst hji
        cases hj.symm.trans hpc
        exact ⟨_, getElem?_set_thread hpc _, rfl, rfl, nofun⟩
      · exact ⟨f, hother hji, rfl, rfl, nofun⟩
  | @finish j g rest' hj hwaiting hcounted =>
      by_cases hji : j = i
      · subst hji
        cases hj.symm.trans hpc
        exact .inl ⟨decide_eq_true rfl, hwaiting⟩
      · exact .inr ⟨decide_eq_false hji, f, hother hji, rfl, rfl, nofun⟩

/-- The calls of a batch are its items in their order, and all of them once it is done. -/
theorem callsOf_spec {f : Flush V} {rest : List NodeID}
    (hpc : q.threads[i]? = some (.sending f rest)) (hrun : run (step cfg) q as = some q') :
    (∀ call ∈ callsOf cfg i q as, call.1 = f.peer) ∧
      ∃ left, (callsOf cfg i q as).map Prod.snd ++ left = f.waiting ∧
        ((∃ a ∈ as, a.finishes i = true) → left = []) ∧
        (¬(∃ a ∈ as, a.finishes i = true) →
          ∃ f', q'.threads[i]? = some (.sending f' rest)) := by
  induction as generalizing q f with
  | nil =>
      cases hrun
      exact ⟨by simp [callsOf], f.waiting, rfl, by simp, fun _ => ⟨f, hpc⟩⟩
  | cons a more ih =>
      rw [run, Option.bind_eq_some_iff] at hrun
      obtain ⟨t, hstep, hrest⟩ := hrun
      obtain ⟨hfin, hnone⟩ | ⟨hfin, f', hpc', hpeer, hitems, hcalls⟩ :=
        thread_moves (moves_of_step hstep) hpc
      · rw [callsOf, if_pos hfin]
        exact ⟨by simp, [], hnone.symm, fun _ => rfl,
          fun h => absurd ⟨a, List.mem_cons_self, hfin⟩ h⟩
      · obtain ⟨hpeers, left, hleft, hdone, hgoes⟩ := ih hpc' hrest
        have hends : (∃ b ∈ a :: more, b.finishes i = true) ↔ ∃ b ∈ more, b.finishes i = true := by
          simp [hfin]
        rw [callsOf, if_neg (by simp [hfin]), hstep, hends]
        refine ⟨fun call hcall => ?_, left, ?_, hdone, hgoes⟩
        · obtain hcall | hcall := List.mem_append.mp hcall
          · exact hcalls call hcall
          · exact (hpeers call hcall).trans hpeer
        · rw [List.map_append, List.append_assoc, hleft, hitems]

/-- A goroutine that is sending can go on by itself until it is done with its batch. -/
theorem exists_finish {f : Flush V} {rest : List NodeID}
    (hpc : q.threads[i]? = some (.sending f rest)) (hcounted : f.counted ≤ f.sent.length) :
    ∃ own q', run (step cfg) q own = some q' ∧ ∃ a ∈ own, a.finishes i = true := by
  induction hn : 2 * f.waiting.length + (f.sent.length - f.counted) using Nat.strongRecOn
    generalizing q f with
  | ind n ih =>
      -- One more step of the goroutine, and then the rest of the batch.
      have hgo : ∀ {a t g}, q.step cfg a = some t → t.threads[i]? = some (.sending g rest) →
          g.counted ≤ g.sent.length →
          2 * g.waiting.length + (g.sent.length - g.counted) < n →
          ∃ own q', run (step cfg) q own = some q' ∧ ∃ a ∈ own, a.finishes i = true := by
        intro a t g hstep hpc' hcounted' hless
        obtain ⟨own, q', hown, b, hb, hfin⟩ := ih _ hless hpc' hcounted' rfl
        exact ⟨a :: own, q', by rw [run, hstep]; exact hown, b, List.mem_cons_of_mem a hb, hfin⟩
      by_cases hlt : f.counted < f.sent.length
      · refine hgo (a := .count i) (g := { f with counted := f.counted + 1 })
          (by rw [step, hpc]; exact if_pos hlt) (getElem?_set_thread hpc _) hlt ?_
        show 2 * f.waiting.length + (f.sent.length - (f.counted + 1)) < n
        omega
      · cases hwaiting : f.waiting with
        | nil =>
            have hstep : q.step cfg (.finish i) = some (q.setThread i (.walking rest)) := by
              rw [step, hpc]
              exact if_pos ⟨hwaiting, by omega⟩
            exact ⟨[.finish i], _, by rw [run, hstep]; rfl, .finish i, List.mem_singleton_self _,
              decide_eq_true rfl⟩
        | cons it waiting =>
            refine hgo (a := .send i) (by rw [step, hpc]; dsimp only; rw [hwaiting])
              (getElem?_set_thread hpc _) ?_ ?_
            · show f.counted ≤ (f.sent ++ [it]).length
              rw [List.length_append]
              omega
            · show 2 * waiting.length + ((f.sent ++ [it]).length - f.counted) < n
              rw [hwaiting, List.length_cons] at hn
              rw [List.length_append, List.length_singleton]
              omega

/-- Goroutine `i` has taken what was enqueued for the peer, and the actions `post` follow.  It
sends newest items only and no key twice, everything until it is done, and it can always get
there. -/
structure Sends (cfg : RepairConfig) (i : Nat) (peer : NodeID) (enqueued : List (Item V))
    (q : RepairQueue V) (post : List (Act V)) : Prop where
  toPeer : ∀ call ∈ callsOf cfg i q post, call.1 = peer
  once : ((callsOf cfg i q post).map (fun call => call.2.key)).Nodup
  newest : ∀ call ∈ callsOf cfg i q post,
    call.2 ∈ enqueued ∧ ∀ b ∈ enqueued, b.key = call.2.key → b.rank ≤ call.2.rank
  all : (∃ a ∈ post, a.finishes i = true) →
    Newest enqueued ((callsOf cfg i q post).map Prod.snd)
  ends : ∃ more q', run (step cfg) q (post ++ more) = some q' ∧
    ∃ a ∈ post ++ more, a.finishes i = true

theorem Coherent.sends (h : q'.Coherent as) {f : Flush V} {rest : List NodeID}
    {enqueued : List (Item V)} (hpc : q.threads[i]? = some (.sending f rest))
    (hnewest : Newest enqueued f.waiting) {post : List (Act V)}
    (hrun : run (step cfg) q post = some q') : Sends cfg i f.peer enqueued q post := by
  obtain ⟨hpeers, left, hleft, hdone, hgoes⟩ := callsOf_spec hpc hrun
  rw [← hleft] at hnewest
  refine ⟨hpeers, ?_, fun call hcall => ?_, fun hfin => ?_, ?_⟩
  · have hnodup := hnewest.nodup
    rw [List.map_append, List.map_map] at hnodup
    exact (List.nodup_append.mp hnodup).1
  · exact hnewest.newest call.2 (List.mem_append_left _ (List.mem_map_of_mem hcall))
  · rw [hdone hfin, List.append_nil] at hnewest
    exact hnewest
  · by_cases hfin : ∃ a ∈ post, a.finishes i = true
    · exact ⟨[], q', by rw [List.append_nil]; exact hrun, by rw [List.append_nil]; exact hfin⟩
    · obtain ⟨f', hpc'⟩ := hgoes hfin
      have hends : ∃ own t, run (step cfg) q' own = some t ∧ ∃ a ∈ own, a.finishes i = true :=
        exists_finish hpc' (h.running f' rest (List.mem_of_getElem? hpc'))
      obtain ⟨own, t, hown, b, hb, hbfin⟩ := hends
      refine ⟨own, t, ?_, b, List.mem_append_right _ hb, hbfin⟩
      rw [run_append, hrun]
      exact hown

/-- In every interleaving, where a flush takes the entries of a peer for which something was
enqueued since they were last taken, it sends one item for each of those keys, a newest one.
When every goroutine has returned, each call with an item was coalesced or batched, or its item
is pending. -/
theorem flushes_send_newest (ht : cfg.hasTransport = true)
    (hrun : run (step cfg) {} as = some q) :
    (∀ pre i order post q₀ q₁ peer, as = pre ++ .detach i order :: post →
      run (step cfg) {} pre = some q₀ → q₀.flushing i = some peer →
      q₀.step cfg (.detach i order) = some q₁ →
      (enqueuedSince cfg peer {} [] pre = [] → ∃ rest, q₁.threads[i]? = some (.walking rest)) ∧
      (enqueuedSince cfg peer {} [] pre ≠ [] →
        Sends cfg i peer (enqueuedSince cfg peer {} [] pre) q₁ post)) ∧
      ((∀ pc ∈ q.threads, pc = .walking []) →
        as.countP Act.isEnqueue =
          q.readRepairCoalesced + q.readRepairBatched + q.pending) := by
  refine ⟨?_, fun hreturned => ?_⟩
  · intro pre i order post q₀ q₁ peer has hpre hpeer hstep
    have h₀ : q₀.Coherent pre := coherent_run ht hpre
    have hsince : enqueuedSince cfg peer {} [] pre = q₀.since peer :=
      since_run ht coherent_new peer hpre
    have hpost : run (step cfg) q₁ post = some q := by
      rw [has, run_append, hpre, Option.bind_some, run, hstep] at hrun
      exact hrun
    rw [hsince]
    cases moves_of_step hstep with
    | @skip _ _ peer' rest hpc hnone =>
        obtain rfl : peer' = peer := Option.some.inj ((flushing_eq hpc).symm.trans hpeer)
        exact ⟨fun _ => ⟨rest, getElem?_set_thread hpc _⟩,
          fun hne => absurd (h₀.since_eq_nil hnone) hne⟩
    | drop hpc hnone => cases ht.symm.trans hnone
    | @detach _ _ peer' rest m hpc hentries hsome =>
        obtain rfl : peer' = peer := Option.some.inj ((flushing_eq hpc).symm.trans hpeer)
        have hheld := h₀.held peer'
        rw [entriesOf, hentries] at hheld
        have hnewest := newest_of_summary hheld (order.perm m.all)
        refine ⟨fun hnil => ?_, fun _ => ?_⟩
        · have hall : m.all ≠ [] := by
            intro hempty
            apply hsome
            rw [ConcurrentMap.count, List.map_eq_nil_iff.mp hempty, List.length_nil]
          obtain ⟨it, hit⟩ := List.exists_mem_of_ne_nil _ hall
          have hmem := (hheld.newest it.key it (ConcurrentMap.mem_all.mp hit)).1
          rw [hnil] at hmem
          cases hmem
        · exact (coherent_run ht hrun).sends (getElem?_set_thread hpc _) hnewest hpost
  · have hnone : total FlushPc.uncounted q.threads = 0 := by
      apply total_eq_zero
      intro pc hpc
      rw [hreturned pc hpc]
      rfl
    have hbalance := (coherent_run ht hrun).balance
    rw [hnone] at hbalance
    exact hbalance

end

/-- Two versions of one item, enqueued for the same peer. -/
def coalescingRun : List (Act Str) :=
  [.enqueue [98] (some World.sampleItem),
    .enqueue [98] (some { World.sampleItem with version := 2 }), .flushPeer [98]]

/-- The flush of the peer. -/
def coalescingFlush : List (Act Str) := [.send 0, .count 0, .finish 0]

theorem flushes_send_newest_coalescing :
    ∃ q₀ q₁ q : RepairQueue Str,
      run (step { maxBatchSize := 10 }) {} coalescingRun = some q₀ ∧
      q₀.step { maxBatchSize := 10 } (.detach 0 (.asStored _)) = some q₁ ∧
      run (step { maxBatchSize := 10 }) {}
        (coalescingRun ++ .detach 0 (.asStored _) :: coalescingFlush) = some q ∧
      callsOf { maxBatchSize := 10 } 0 q₁ coalescingFlush =
        [([98], { World.sampleItem with version := 2 })] ∧
      Sends { maxBatchSize := 10 } 0 [98]
        [{ World.sampleItem with version := 2 }, World.sampleItem] q₁ coalescingFlush ∧
      2 = q.readRepairCoalesced + q.readRepairBatched + q.pending := by
  have hpre : run (step { maxBatchSize := 10 }) {} coalescingRun = some _ := rfl
  have hrun : run (step { maxBatchSize := 10 }) {}
    (coalescingRun ++ .detach 0 (.asStored _) :: coalescingFlush) = some _ := rfl
  obtain ⟨hsends, hbalance⟩ := flushes_send_newest rfl hrun
  exact ⟨_, _, _, hpre, rfl, hrun, rfl,
    (hsends coalescingRun 0 (.asStored _) coalescingFlush _ _ [98] rfl hpre rfl rfl).2
      (List.cons_ne_nil _ _),
    hbalance (fun pc hpc => List.mem_singleton.mp hpc)⟩

end RepairQueue

end HyperCache
