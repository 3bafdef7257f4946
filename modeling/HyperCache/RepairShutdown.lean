/-
Stopping the queue of read repairs.

`DistMemory.Stop` cancels the context of the node and then stops the queue, which closes
its channel and waits for the flusher to end.  The flusher flushes everything once more on
either signal.  It may see the context first, so that its last flush is over before `stop`
is called, and nobody takes what is enqueued in between.
-/
import HyperCache.RepairQueue

open Interleaving Keyed

namespace HyperCache

variable {V : Type}

/-- Where the goroutine of `run` is.  It flushes as the thread `i` of the queue, for the last time
if `final` is set. -/
inductive FlusherPc where
  | selecting
  | flushing (final : Bool) (i : Nat)
  | exited
  deriving DecidableEq

/-- Where the call of `DistMemory.Stop` is. -/
inductive StopPc where
  | start
  | cancelled
  | waiting
  | returned
  deriving DecidableEq

/-- The queue with its flusher while the node is stopped.  `owed` is history: what was enqueued
for each peer before `stop` was called and has not been taken since. -/
structure RepairShutdown (V : Type) where
  queue : RepairQueue V := {}
  ctxDone : Bool := false
  stopClosed : Bool := false
  doneClosed : Bool := false
  flusher : FlusherPc := .selecting
  stop : StopPc := .start
  owed : NodeID → List (Item V) := fun _ => []

def FlushPc.peers : FlushPc V → List NodeID
  | .walking peers => peers
  | .sending _ peers => peers

namespace RepairQueue

/-- Only the flusher calls `flushAll`, and only `enqueue` starts a flush of one peer. -/
def Act.isCall : Act V → Bool
  | .flushPeer _ => true
  | .flushAll _ => true
  | _ => false

/-- The peers that thread `i` has still to flush. -/
def remaining (q : RepairQueue V) (i : Nat) : List NodeID :=
  ((q.threads[i]?).map FlushPc.peers).getD []

end RepairQueue

namespace RepairShutdown

inductive Act (V : Type) where
  | queue (a : RepairQueue.Act V)
  | tick (order : VisitOrder NodeID)
  | seeDone (order : VisitOrder NodeID)
  | seeStop (order : VisitOrder NodeID)
  | flushed
  | cancel
  | stop
  | ret

def afterQueue (q : RepairQueue V) (s : RepairShutdown V) : RepairShutdown V :=
  { s with
    queue := q
    owed := fun peer => if (q.since peer).isEmpty then [] else s.owed peer }

/-- The flusher calls `flushAll`. -/
def flushAll (final : Bool) (order : VisitOrder NodeID) (s : RepairShutdown V) :
    RepairShutdown V :=
  { s with
    queue := s.queue.start (.walking (order.arrange s.queue.entries.keys))
    flusher := .flushing final s.queue.threads.length }

def step (cfg : RepairConfig) (s : RepairShutdown V) : Act V → Option (RepairShutdown V)
  | .queue a => if a.isCall then none else (s.queue.step cfg a).map s.afterQueue
  | .tick order => if s.flusher = .selecting then some (s.flushAll false order) else none
  | .seeDone order =>
      if s.flusher = .selecting ∧ s.ctxDone then some (s.flushAll true order) else none
  | .seeStop order =>
      if s.flusher = .selecting ∧ s.stopClosed then some (s.flushAll true order) else none
  | .flushed =>
      match s.flusher with
      | .flushing final i =>
          match s.queue.threads[i]? with
          | some (.walking []) =>
              if final then some { s with flusher := .exited, doneClosed := true }
              else some { s with flusher := .selecting }
          | _ => none
      | _ => none
  | .cancel => if s.stop = .start then some { s with ctxDone := true, stop := .cancelled } else none
  | .stop =>
      if s.stop = .cancelled then
        some { s with stopClosed := true, stop := .waiting, owed := s.queue.since }
      else none
  | .ret => if s.stop = .waiting ∧ s.doneClosed then some { s with stop := .returned } else none

/-- The flusher will still look at the entries of the peer. -/
def willVisit (s : RepairShutdown V) (peer : NodeID) : Bool :=
  match s.flusher with
  | .selecting => true
  | .flushing false _ => true
  | .flushing true i => (s.queue.remaining i).contains peer
  | .exited => false

/-- `repairQueue.stop` was called. -/
def stopCalled (s : RepairShutdown V) : Bool := s.stop = .waiting ∨ s.stop = .returned

/-- The peer for which an item is enqueued. -/
def Act.enqueuesFor : Act V → Option NodeID
  | .queue (.enqueue peer (some _)) => some peer
  | _ => none

/-- Before `stop` is called, an item is enqueued only for a peer that the flusher will visit. -/
def Timely (s : RepairShutdown V) (a : Act V) : Prop :=
  ∀ peer ∈ a.enqueuesFor, s.stopCalled = false → s.willVisit peer = true

instance (s : RepairShutdown V) (a : Act V) : Decidable (s.Timely a) :=
  inferInstanceAs (Decidable (∀ peer ∈ a.enqueuesFor, _ → _))

end RepairShutdown

/-! ## Steps of the queue -/

namespace RepairQueue

variable {cfg : RepairConfig} {q q' : RepairQueue V} {a : Act V}

/-- A peer for which something was enqueued since its entries were last taken has entries. -/
def Held (q : RepairQueue V) : Prop := ∀ peer, q.since peer ≠ [] → (q.entriesOf peer).count ≠ 0

theorem held_erase (h : q.Held) (peer : NodeID) :
    ∀ peer', Function.update q.since peer [] peer' ≠ [] →
      (((q.entries.erase peer).lookup peer').getD .empty).count ≠ 0 := by
  intro peer' hsince
  by_cases hp : peer' = peer
  · rw [hp, Function.update_self] at hsince
    exact absurd rfl hsince
  · rw [Function.update_of_ne hp] at hsince
    rw [entriesOf_erase, if_neg hp]
    exact h peer' hsince

theorem Held.moves (h : q.Held) (hm : Moves cfg q a q') : q'.Held := by
  cases hm with
  | @enqueue peer item =>
      have he := enqueued cfg peer item q
      obtain ⟨m, hentries, hget, -⟩ := he.entries
      intro peer' hsince
      rw [entriesOf, hentries, entriesOf_insert]
      by_cases hp : peer' = peer
      · rw [if_pos hp, ConcurrentMap.count_eq]
        obtain ⟨it, hit⟩ := LastWriter.keepGreater_isSome Item.rank
          ((q.entriesOf peer).get item.key) item
        have hmem : item.key ∈ m.keys := by
          apply ConcurrentMap.mem_keys.mpr
          exact ⟨it, by rw [hget, if_pos rfl, hit]⟩
        exact (List.length_pos_of_mem hmem).ne'
      · rw [if_neg hp]
        rw [he.since, Function.update_of_ne hp] at hsince
        exact h peer' hsince
  | detach => exact held_erase h _
  | drop => exact held_erase h _
  | _ => exact h

theorem since_moves (hm : Moves cfg q a q') (peer : NodeID) :
    q'.since peer = q.since peer ∨ q'.since peer = [] ∨
      ∃ item, a = .enqueue peer (some item) := by
  have hclear : ∀ p, Function.update q.since p [] peer = q.since peer ∨
      Function.update q.since p [] peer = [] := by
    intro p
    by_cases hp : peer = p
    · rw [hp, Function.update_self]
      exact Or.inr rfl
    · rw [Function.update_of_ne hp]
      exact Or.inl rfl
  cases hm with
  | @enqueue p item =>
      rw [(enqueued cfg p item q).since]
      by_cases hp : peer = p
      · exact Or.inr (Or.inr ⟨item, by rw [hp]⟩)
      · rw [Function.update_of_ne hp]
        exact Or.inl rfl
  | detach => exact (hclear _).imp_right Or.inl
  | drop => exact (hclear _).imp_right Or.inl
  | _ => exact Or.inl rfl

theorem remaining_set {i j : Nat} {pc pc' : FlushPc V} (hpc : q.threads[j]? = some pc)
    (hpeers : pc'.peers = pc.peers) :
    (((q.threads.set j pc')[i]?).map FlushPc.peers).getD [] = q.remaining i := by
  rw [remaining, List.getElem?_set]
  split
  case isTrue hij =>
    subst hij
    have hlt := (List.getElem?_eq_some_iff.mp hpc).1
    rw [if_pos hlt, hpc]
    exact hpeers
  case isFalse => rfl

theorem remaining_append {i : Nat} (hi : i < q.threads.length) (pc : FlushPc V) :
    (((q.threads ++ [pc])[i]?).map FlushPc.peers).getD [] = q.remaining i := by
  rw [remaining, List.getElem?_append_left hi]

/-- Thread `j` is done with the first of its peers. -/
theorem remaining_taken {i j : Nat} {peer : NodeID} {rest : List NodeID} {pc' : FlushPc V}
    (hpc : q.threads[j]? = some (.walking (peer :: rest))) (hpeers : pc'.peers = rest) :
    (((q.threads.set j pc')[i]?).map FlushPc.peers).getD [] = q.remaining i ∨
      q.remaining i = peer :: (((q.threads.set j pc')[i]?).map FlushPc.peers).getD [] := by
  rw [remaining, List.getElem?_set]
  split
  case isTrue hij =>
    subst hij
    have hlt := (List.getElem?_eq_some_iff.mp hpc).1
    rw [if_pos hlt, hpc]
    exact Or.inr (congrArg (peer :: ·) hpeers.symm)
  case isFalse => exact Or.inl rfl

theorem remaining_start (q : RepairQueue V) (peers : List NodeID) :
    (q.start (.walking peers)).remaining q.threads.length = peers := by
  show (((q.threads ++ [FlushPc.walking peers])[q.threads.length]?).map FlushPc.peers).getD [] = _
  rw [List.getElem?_concat_length]
  rfl

theorem Held.since_eq_nil (h : q.Held) {peer : NodeID} (hpeer : peer ∉ q.entries.keys) :
    q.since peer = [] := by
  by_contra hsince
  apply h peer hsince
  rw [entriesOf, AList.lookup_eq_none.mpr hpeer]
  rfl

/-- A step leaves what a thread has still to flush as it is, or takes the entries of the first of
its peers, of which nothing is left then. -/
theorem remaining_moves (h : q.Held) (hm : Moves cfg q a q') {i : Nat}
    (hi : i < q.threads.length) :
    i < q'.threads.length ∧ (q'.remaining i = q.remaining i ∨
      ∃ peer, q.remaining i = peer :: q'.remaining i ∧ q'.since peer = []) := by
  have happend : ∀ pc, i < (q.threads ++ [pc]).length := by
    intro pc
    rw [List.length_append]
    exact Nat.lt_add_right _ hi
  have hset : ∀ j pc, i < (q.threads.set j pc).length := by
    intro j pc
    rw [List.length_set]
    exact hi
  cases hm with
  | ignore => exact ⟨hi, Or.inl rfl⟩
  | @enqueue peer item =>
      rcases (enqueued cfg peer item q).threads with hsame | hstart
      · rw [remaining, hsame]
        exact ⟨hi, Or.inl rfl⟩
      · rw [remaining, hstart]
        exact ⟨happend _, Or.inl (remaining_append hi _)⟩
  | flushPeer => exact ⟨happend _, Or.inl (remaining_append hi _)⟩
  | flushAll => exact ⟨happend _, Or.inl (remaining_append hi _)⟩
  | @skip j order peer rest hpc hnone =>
      refine ⟨hset _ _, (remaining_taken hpc rfl).imp_right (fun htaken => ⟨peer, htaken, ?_⟩)⟩
      by_contra hsince
      exact h peer hsince hnone
  | @detach j order peer rest m hpc hentries =>
      refine ⟨hset _ _, (remaining_taken hpc rfl).imp_right (fun htaken => ⟨peer, htaken, ?_⟩)⟩
      exact Function.update_self ..
  | @drop j order peer rest hpc hnone =>
      refine ⟨hset _ _, (remaining_taken hpc rfl).imp_right (fun htaken => ⟨peer, htaken, ?_⟩)⟩
      exact Function.update_self ..
  | send hpc hwaiting => exact ⟨hset _ _, Or.inl (remaining_set hpc rfl)⟩
  | count hpc hsent => exact ⟨hset _ _, Or.inl (remaining_set hpc rfl)⟩
  | finish hpc hwaiting hcounted => exact ⟨hset _ _, Or.inl (remaining_set hpc rfl)⟩

end RepairQueue

/-! ## Runs -/

namespace RepairShutdown

variable {cfg : RepairConfig} {s s' : RepairShutdown V}

/-- What the flusher has still to take care of. -/
def unsettled (s : RepairShutdown V) (peer : NodeID) : List (Item V) :=
  if s.stopCalled then s.owed peer else s.queue.since peer

/-- The flusher has still to visit every peer that has something unsettled. -/
structure Draining (s : RepairShutdown V) : Prop where
  held : s.queue.Held
  owed : ∀ peer, s.queue.since peer = [] → s.owed peer = []
  running : ∀ final i, s.flusher = .flushing final i → i < s.queue.threads.length
  visits : ∀ peer, s.willVisit peer = false → s.unsettled peer = []
  done : s.doneClosed = true → s.flusher = .exited
  returned : s.stop = .returned → s.doneClosed = true

theorem draining_new : Draining ({} : RepairShutdown V) where
  held := fun _ h => absurd rfl h
  owed := fun _ _ => rfl
  running := nofun
  visits := nofun
  done := nofun
  returned := nofun

theorem Draining.unsettled_eq_nil (h : s.Draining) {peer : NodeID}
    (hsince : s.queue.since peer = []) : s.unsettled peer = [] := by
  unfold unsettled
  split
  · exact h.owed peer hsince
  · exact hsince

theorem Draining.flushAll (h : s.Draining) (hpc : s.flusher = .selecting) (final : Bool)
    (order : VisitOrder NodeID) : (s.flushAll final order).Draining where
  held := h.held
  owed := h.owed
  running := by
    intro final' i hi
    cases hi
    show s.queue.threads.length < (s.queue.threads ++ [_]).length
    rw [List.length_append]
    exact Nat.lt_succ_self _
  visits := by
    intro peer hnot
    cases final with
    | false => cases hnot
    | true =>
        have hcontains : ((s.queue.start (.walking (order.arrange s.queue.entries.keys))).remaining
            s.queue.threads.length).contains peer = false := hnot
        rw [RepairQueue.remaining_start, ← Bool.not_eq_true, List.contains_iff_mem,
          (order.perm _).mem_iff] at hcontains
        exact h.unsettled_eq_nil (h.held.since_eq_nil hcontains)
  done := by
    intro hdone
    cases hpc.symm.trans (h.done hdone)
  returned := h.returned

/-- A peer that the flusher does not visit any more was settled before the step, or the step took
its entries. -/
theorem Draining.visits_queue {q : RepairQueue V} {a : RepairQueue.Act V} (h : s.Draining)
    (hm : RepairQueue.Moves cfg s.queue a q) {peer : NodeID}
    (hnot : (s.afterQueue q).willVisit peer = false) :
    s.willVisit peer = false ∨ q.since peer = [] := by
  unfold willVisit at hnot ⊢
  rw [show (s.afterQueue q).flusher = s.flusher from rfl] at hnot
  cases hpc : s.flusher with
  | selecting =>
      rw [hpc] at hnot
      cases hnot
  | exited => exact Or.inl rfl
  | flushing final i =>
      rw [hpc] at hnot
      cases final with
      | false => cases hnot
      | true =>
          have hcontains : (q.remaining i).contains peer = false := hnot
          obtain ⟨-, hsame | ⟨p, hfirst, hsince⟩⟩ :=
            RepairQueue.remaining_moves h.held hm (h.running true i hpc)
          · rw [hsame] at hcontains
            exact Or.inl hcontains
          · by_cases hp : peer = p
            · rw [hp]
              exact Or.inr hsince
            · refine Or.inl ?_
              show (s.queue.remaining i).contains peer = false
              rw [hfirst, List.contains_cons, hcontains, Bool.or_false]
              exact beq_false_of_ne hp

theorem unsettled_afterQueue_of_nil {q : RepairQueue V} {peer : NodeID}
    (hsince : q.since peer = []) : (s.afterQueue q).unsettled peer = [] := by
  show (if s.stopCalled then (if (q.since peer).isEmpty then [] else s.owed peer)
    else q.since peer) = []
  rw [hsince]
  split <;> rfl

theorem Draining.queue {q : RepairQueue V} {a : RepairQueue.Act V} (h : s.Draining)
    (htimely : s.Timely (.queue a)) (hm : RepairQueue.Moves cfg s.queue a q) :
    (s.afterQueue q).Draining where
  held := h.held.moves hm
  owed := by
    intro peer hsince
    exact if_pos (by rw [show q.since peer = [] from hsince]; rfl)
  running := by
    intro final i hpc
    exact (RepairQueue.remaining_moves h.held hm (h.running final i hpc)).1
  visits := by
    intro peer hnot
    rcases h.visits_queue hm hnot with hbefore | hsince
    · have hsettled := h.visits peer hbefore
      cases hcalled : s.stopCalled with
      | true =>
          rw [unsettled, hcalled] at hsettled
          have howed : s.owed peer = [] := hsettled
          show (if s.stopCalled then (if (q.since peer).isEmpty then [] else s.owed peer)
            else q.since peer) = []
          rw [hcalled, howed]
          exact ite_self _
      | false =>
          rw [unsettled, hcalled] at hsettled
          have hempty : s.queue.since peer = [] := hsettled
          rcases RepairQueue.since_moves hm peer with hsame | hnil | ⟨item, rfl⟩
          · exact unsettled_afterQueue_of_nil (hsame.trans hempty)
          · exact unsettled_afterQueue_of_nil hnil
          · cases hbefore.symm.trans (htimely peer rfl hcalled)
    · exact unsettled_afterQueue_of_nil hsince
  done := h.done
  returned := h.returned

theorem Draining.flushed (h : s.Draining) {final : Bool} {i : Nat}
    (hpc : s.flusher = .flushing final i) (hthread : s.queue.threads[i]? = some (.walking [])) :
    Draining (if final then { s with flusher := .exited, doneClosed := true }
      else { s with flusher := .selecting }) := by
  have hrest : s.queue.remaining i = [] := by
    rw [RepairQueue.remaining, hthread]
    rfl
  cases final with
  | false =>
      refine ⟨h.held, h.owed, nofun, nofun, fun hdone => ?_, h.returned⟩
      cases hpc.symm.trans (h.done hdone)
  | true =>
      refine ⟨h.held, h.owed, nofun, fun peer _ => ?_, fun _ => rfl, fun _ => rfl⟩
      apply h.visits peer
      rw [willVisit, hpc]
      show (s.queue.remaining i).contains peer = false
      rw [hrest]
      rfl

theorem Draining.step {a : Act V} (h : s.Draining) (htimely : s.Timely a)
    (hstep : s.step cfg a = some s') : s'.Draining := by
  cases a with
  | queue a =>
      rw [RepairShutdown.step] at hstep
      split at hstep
      · cases hstep
      · obtain ⟨q, hq, rfl⟩ := Option.map_eq_some_iff.mp hstep
        exact h.queue htimely (RepairQueue.moves_of_step hq)
  | tick order =>
      obtain ⟨hpc, hs⟩ := Option.ite_none_right_eq_some.mp hstep
      cases hs
      exact h.flushAll hpc false order
  | seeDone order =>
      obtain ⟨hpc, hs⟩ := Option.ite_none_right_eq_some.mp hstep
      cases hs
      exact h.flushAll hpc.1 true order
  | seeStop order =>
      obtain ⟨hpc, hs⟩ := Option.ite_none_right_eq_some.mp hstep
      cases hs
      exact h.flushAll hpc.1 true order
  | flushed =>
      rw [RepairShutdown.step] at hstep
      split at hstep
      case h_1 final i hpc =>
        split at hstep
        case h_1 hthread =>
          have hflushed := h.flushed hpc hthread
          cases final with
          | false =>
              cases hstep
              exact hflushed
          | true =>
              cases hstep
              exact hflushed
        case h_2 => cases hstep
      case h_2 => cases hstep
  | cancel =>
      obtain ⟨hpc, hs⟩ := Option.ite_none_right_eq_some.mp hstep
      cases hs
      refine ⟨h.held, h.owed, h.running, fun peer hnot => ?_, h.done, nofun⟩
      have hsettled := h.visits peer hnot
      rw [unsettled, stopCalled, hpc] at hsettled
      exact hsettled
  | stop =>
      obtain ⟨hpc, hs⟩ := Option.ite_none_right_eq_some.mp hstep
      cases hs
      refine ⟨h.held, fun _ hsince => hsince, h.running, fun peer hnot => ?_, h.done, nofun⟩
      have hsettled := h.visits peer hnot
      rw [unsettled, stopCalled, hpc] at hsettled
      exact hsettled
  | ret =>
      obtain ⟨⟨hpc, hdone⟩, hs⟩ := Option.ite_none_right_eq_some.mp hstep
      cases hs
      refine ⟨h.held, h.owed, h.running, fun peer hnot => ?_, h.done, fun _ => hdone⟩
      have hsettled := h.visits peer hnot
      rw [unsettled, stopCalled, hpc] at hsettled
      exact hsettled

/-- If every item that is enqueued before the call of `stop` finds the flusher still on its way to
the peer, then nothing of what was enqueued before the call is left when it returns. -/
theorem stop_drains {as : List (Act V)} (hrun : run (step cfg) {} as = some s)
    (htimely : Always (step cfg) Timely {} as) (hreturned : s.stop = .returned) :
    ∀ peer, s.owed peer = [] := by
  have h : s.Draining := run_always (fun hs ha hstep => hs.step ha hstep) draining_new htimely hrun
  intro peer
  have hnot : s.willVisit peer = false := by
    rw [willVisit, h.done (h.returned hreturned)]
  have hunsettled := h.visits peer hnot
  rw [unsettled, stopCalled, hreturned] at hunsettled
  exact hunsettled

/-- A repair that is pending when `stop` is called. -/
def pendingRun : List (Act Str) :=
  [.queue (.enqueue [98] (some World.sampleItem)), .cancel, .stop]

/-- The flusher sees the closed channel and takes the repair in its last flush. -/
def drainedRun : List (Act Str) :=
  pendingRun ++ [.seeStop (.asStored _), .queue (.detach 0 (.asStored _)), .queue (.send 0),
    .queue (.count 0), .queue (.finish 0), .flushed, .ret]

theorem stop_drains_drainedRun :
    (∃ s, run (step { maxBatchSize := 10 }) {} pendingRun = some s ∧
      s.owed [98] = [World.sampleItem]) ∧
    ∃ s, run (step { maxBatchSize := 10 }) {} drainedRun = some s ∧ s.stop = .returned ∧
      ∀ peer, s.owed peer = [] := by
  have hrun : run (step { maxBatchSize := 10 }) {} drainedRun = some _ := rfl
  have htimely : Always (step { maxBatchSize := 10 }) Timely {} drainedRun := by decide
  exact ⟨⟨_, rfl, rfl⟩, _, hrun, rfl, stop_drains hrun htimely rfl⟩

/-- The flusher sees the context, flushes nothing and ends, and then an item is enqueued. -/
def lateRun : List (Act Str) :=
  [.cancel, .seeDone (.asStored _), .flushed, .queue (.enqueue [98] (some World.sampleItem)),
    .stop, .ret]

theorem stop_leaves_late_repair :
    ∃ s, run (step { maxBatchSize := 10 }) {} lateRun = some s ∧ s.stop = .returned ∧
      s.owed [98] = [World.sampleItem] ∧
      (s.queue.entriesOf [98]).get World.sampleItem.key = some World.sampleItem :=
  ⟨_, rfl, rfl, rfl, rfl⟩

end RepairShutdown

end HyperCache
