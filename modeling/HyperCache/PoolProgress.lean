/-
Whether a shutdown of the worker pool always comes to its end.

Nobody receives from `Errors()`, so the channel of errors takes as many as it has
room for, which is one for every worker.  As long as no more jobs fail than that,
some step is enabled until every call of `Shutdown` has returned.  If more fail, all
of them can be enqueued before the shutdown starts, a worker is left with an error
it cannot send, and the shutdown waits for its job for ever.
-/
import Mathlib.Algebra.BigOperators.Group.Finset.Piecewise
import HyperCache.PoolShutdown

namespace HyperCache

open Interleaving Tally

def ShutdownPc.Finished (pc : ShutdownPc) : Prop := pc = .returned ∨ pc = .ignored

namespace WorkerPool

variable {E S : Type} {workers : Nat} {st st' : WorkerPool E S workers} {fails : E → Bool}

/-! ## Why a party is blocked -/

theorem enqueueStep_eq_none [DecidableEq E] {e : E} (h : st.enqueueStep e = none) :
    (st.enqueue e = .start ∧ st.writer = true) ∨
      (st.enqueue e = .sending ∧ workers ≤ st.jobs.length) ∨
      st.enqueue e = .enqueued ∨ st.enqueue e = .dropped := by
  rw [enqueueStep] at h
  generalize st.enqueue e = pc at h ⊢
  cases pc with
  | start =>
      dsimp only at h
      split at h
      case isTrue hwriter => exact Or.inl ⟨rfl, hwriter⟩
      · cases h
  | sending =>
      dsimp only at h
      split at h
      · cases h
      split at h
      · cases h
      case isFalse hfull => exact Or.inr (Or.inl ⟨rfl, Nat.le_of_not_lt hfull⟩)
  | enqueued => exact Or.inr (Or.inr (Or.inl rfl))
  | dropped => exact Or.inr (Or.inr (Or.inr rfl))
  | _ => cases h

theorem shutdownStep_eq_none [DecidableEq S] {s : S} (h : st.shutdownStep s = none) :
    (st.shutdown s = .start ∧ st.writer = true) ∨ (st.shutdown s = .locking ∧ st.readers ≠ 0) ∨
      (st.shutdown s = .waiting ∧ st.wg ≠ 0) ∨ (st.shutdown s).Finished := by
  rw [shutdownStep] at h
  generalize st.shutdown s = pc at h ⊢
  cases pc with
  | start =>
      dsimp only at h
      split at h
      case isTrue hwriter => exact Or.inl ⟨rfl, hwriter⟩
      · cases h
  | locking =>
      dsimp only at h
      split at h
      · cases h
      case isFalse hreaders => exact Or.inr (Or.inl ⟨rfl, hreaders⟩)
  | waiting =>
      dsimp only at h
      split at h
      · cases h
      case isFalse hwg => exact Or.inr (Or.inr (Or.inl ⟨rfl, hwg⟩))
  | returned => exact Or.inr (Or.inr (Or.inr (Or.inl rfl)))
  | ignored => exact Or.inr (Or.inr (Or.inr (Or.inr rfl)))
  | locked | closing | closingQuit | closingErrors =>
      dsimp only at h
      split at h <;> cases h
  | _ => cases h

theorem workerStep_eq_none [DecidableEq E] {w : Fin workers} (h : st.workerStep fails w = none) :
    (st.worker w = .selecting ∧ st.jobs = []) ∨
      (∃ job, st.worker w = .reporting job ∧ workers ≤ st.errorChan) ∨
      st.worker w = .exited := by
  rw [workerStep] at h
  generalize st.worker w = pc at h ⊢
  cases pc with
  | selecting =>
      dsimp only at h
      split at h
      · cases h
      case h_2 hjobs => exact Or.inl ⟨rfl, hjobs⟩
  | running job => cases h
  | reporting job =>
      dsimp only at h
      split at h
      · cases h
      split at h
      · cases h
      case isFalse hfull => exact Or.inr (Or.inl ⟨job, rfl, Nat.le_of_not_lt hfull⟩)
  | finishing job =>
      dsimp only at h
      split at h <;> cases h
  | exited => exact Or.inr (Or.inr rfl)

/-- A worker that cannot report stays so while nobody takes an error. -/
theorem blocked_moves [DecidableEq E] [DecidableEq S] {a : Act E S workers} {w : Fin workers}
    {job : E} (hpc : st.worker w = .reporting job)
    (hfull : workers ≤ st.errorChan) (hm : Moves fails st a st') (ha : a ≠ .takeError) :
    st'.worker w = .reporting job ∧ workers ≤ st'.errorChan := by
  have hother : ∀ {w' : Fin workers} {old new : WorkerPc E}, st.worker w' = old →
      (∀ job, old ≠ .reporting job) → Function.update st.worker w' new w = .reporting job := by
    intro w' old new hw' hne
    have hdiff : w ≠ w' := by
      rintro rfl
      exact hne job (hw'.symm.trans hpc)
    rw [Function.update_of_ne hdiff]
    exact hpc
  cases hm with
  | receive hw' _ => exact ⟨hother hw' nofun, hfull⟩
  | exit hw' _ _ => exact ⟨hother hw' nofun, hfull⟩
  | fail hw' _ => exact ⟨hother hw' nofun, hfull⟩
  | succeed hw' _ => exact ⟨hother hw' nofun, hfull⟩
  | done hw' _ => exact ⟨hother hw' nofun, hfull⟩
  | quit hw' _ => exact ⟨hother hw' nofun, hfull⟩
  | report _ hroom => exact absurd hroom (Nat.not_lt.mpr hfull)
  | takeError _ => exact absurd rfl ha
  | _ => exact ⟨hpc, hfull⟩

variable [Fintype E]

/-! ## Errors -/

/-- How often failing jobs have run. -/
def failures (fails : E → Bool) (ran : E → Nat) : Nat :=
  count id (fun e => if fails e then ran e else 0)

theorem failures_update [DecidableEq E] (fails : E → Bool) (ran : E → Nat) (job : E) (n : Nat) :
    failures fails (Function.update ran job n) + (if fails job then ran job else 0) =
      failures fails ran + if fails job then n else 0 := by
  have hupdate : (fun e => if fails e then Function.update ran job n e else 0) =
      Function.update (fun e => if fails e then ran e else 0) job
        (if fails job then n else 0) := by
    funext e
    by_cases he : e = job
    · subst he
      rw [Function.update_self, Function.update_self]
    · rw [Function.update_of_ne he, Function.update_of_ne he]
  rw [failures, hupdate]
  exact count_update id _ job _

/-- The error of every job that failed is in the channel or with a worker, and the channel has not
more than it has room for. -/
structure Reported (fails : E → Bool) (st : WorkerPool E S workers) : Prop where
  errors : st.errorChan + count WorkerPc.reports st.worker = failures fails st.ran
  bounded : st.errorChan ≤ workers

theorem Reported.moves [DecidableEq E] [DecidableEq S] {a : Act E S workers}
    (h : Reported fails st) (hm : Moves fails st a st') (ha : a ≠ .takeError) :
    Reported fails st' := by
  obtain ⟨herrors, hbounded⟩ := h
  -- A worker without an error stays without one.
  have hquiet : ∀ {w : Fin workers} {new : WorkerPc E}, (st.worker w).reports = 0 →
      new.reports = 0 → count WorkerPc.reports (Function.update st.worker w new) =
        count WorkerPc.reports st.worker := by
    intro w new hold hnew
    have hcount := count_update WorkerPc.reports st.worker w new
    rw [hold, hnew] at hcount
    exact hcount
  cases hm with
  | receive hpc _ => exact ⟨(congrArg _ (hquiet (by rw [hpc]; rfl) rfl)).trans herrors, hbounded⟩
  | exit hpc _ _ => exact ⟨(congrArg _ (hquiet (by rw [hpc]; rfl) rfl)).trans herrors, hbounded⟩
  | done hpc _ => exact ⟨(congrArg _ (hquiet (by rw [hpc]; rfl) rfl)).trans herrors, hbounded⟩
  | quit hpc _ => exact ⟨(congrArg _ (hquiet (by rw [hpc]; rfl) rfl)).trans herrors, hbounded⟩
  | @fail w job hpc hfails =>
      have hcount : count WorkerPc.reports (Function.update st.worker w (.reporting job)) + 0 =
          count WorkerPc.reports st.worker + 1 := count_move _ hpc _
      have hsum := failures_update fails st.ran job (st.ran job + 1)
      rw [if_pos hfails, if_pos hfails] at hsum
      refine ⟨?_, hbounded⟩
      show st.errorChan + count _ (Function.update st.worker w (.reporting job)) =
        failures fails (Function.update st.ran job (st.ran job + 1))
      omega
  | @succeed w job hpc hfails =>
      have hsum := failures_update fails st.ran job (st.ran job + 1)
      rw [hfails] at hsum
      refine ⟨(congrArg _ (hquiet (by rw [hpc]; rfl) rfl)).trans (herrors.trans ?_), hbounded⟩
      exact hsum.symm
  | @report w job hpc hroom =>
      have hcount : count WorkerPc.reports (Function.update st.worker w (.finishing job)) + 1 =
          count WorkerPc.reports st.worker + 0 := count_move _ hpc _
      refine ⟨?_, hroom⟩
      show st.errorChan + 1 + count _ (Function.update st.worker w (.finishing job)) =
        failures fails st.ran
      omega
  | takeError _ => exact absurd rfl ha
  | _ => exact ⟨herrors, hbounded⟩

/-- The number of jobs that fail. -/
def failing (fails : E → Bool) : Nat := (Finset.univ.filter fun e => fails e = true).card

theorem failures_one : failures fails (fun _ : E => 1) = failing fails :=
  (Finset.card_filter _ _).symm

theorem failures_le {ran : E → Nat} (h : ∀ e, ran e ≤ 1) : failures fails ran ≤ failing fails := by
  rw [← failures_one]
  refine Finset.sum_le_sum (fun e _ => ?_)
  show (if fails e then ran e else 0) ≤ if fails e then 1 else 0
  split
  · exact h e
  · exact Nat.le_refl 0

end WorkerPool

/-! ## Every step is progress -/

def EnqueuePc.todo : EnqueuePc → Nat
  | .start => 9
  | .reading => 8
  | .adding => 7
  | .sending => 6
  | .unlocking | .dropping => 1
  | .enqueued | .dropped => 0

def ShutdownPc.todo : ShutdownPc → Nat
  | .start => 8
  | .locking => 7
  | .locked => 6
  | .closing => 5
  | .unlocking => 4
  | .waiting => 3
  | .closingQuit => 2
  | .leaving | .closingErrors => 1
  | .returned | .ignored => 0

def WorkerPc.todo {E : Type} : WorkerPc E → Nat
  | .running _ => 4
  | .reporting _ => 3
  | .finishing _ => 2
  | .selecting => 1
  | .exited => 0

namespace WorkerPool

variable {E S : Type} [Fintype E] [Fintype S] {workers : Nat} {st st' : WorkerPool E S workers}
  {fails : E → Bool} {a : Act E S workers}

/-- What is left to do, with a job in the channel for as much as a worker has to do with it. -/
def todo (st : WorkerPool E S workers) : Nat :=
  count EnqueuePc.todo st.enqueue + 4 * st.jobs.length + count ShutdownPc.todo st.shutdown +
    count WorkerPc.todo st.worker

theorem todo_setEnqueue [DecidableEq E] {e : E} {old new : EnqueuePc} (hpc : st.enqueue e = old)
    (hlt : new.todo < old.todo) {readers wg : Nat} :
    todo (setEnqueue e new { st with readers, wg }) < todo st := by
  have hmove := count_move EnqueuePc.todo hpc new
  unfold todo setEnqueue
  dsimp only
  omega

theorem todo_setShutdown [DecidableEq S] {s : S} {old new : ShutdownPc} (hpc : st.shutdown s = old)
    (hlt : new.todo < old.todo) {writer closed jobsClosed quitClosed errorClosed : Bool} :
    todo (setShutdown s new { st with writer, closed, jobsClosed, quitClosed, errorClosed }) <
      todo st := by
  have hmove := count_move ShutdownPc.todo hpc new
  unfold todo setShutdown
  dsimp only
  omega

theorem todo_setWorker {w : Fin workers} {old new : WorkerPc E} (hpc : st.worker w = old)
    (hlt : new.todo < old.todo) {errorChan wg : Nat} {ran : E → Nat} :
    todo (setWorker w new { st with errorChan, wg, ran }) < todo st := by
  have hmove := count_move WorkerPc.todo hpc new
  unfold todo setWorker
  dsimp only
  omega

/-- While a worker has a job, the call that closes the pool has not returned. -/
theorem exists_unfinished [Nonempty S] (h : Inv st) {w : Fin workers} {job : E}
    (hpc : st.worker w = .reporting job) : ∃ s, ¬(st.shutdown s).Finished := by
  by_contra hall
  have hwg := h.wg_of_carries (w := w) (by rw [hpc]; rfl)
  have hwaited := h.waited
  have hignored : ∀ s, st.shutdown s = .ignored := by
    intro s
    rcases Classical.not_not.mp (not_exists.mp hall s) with hreturned | hignored
    · have hone := le_count ShutdownPc.waited st.shutdown s
      rw [hreturned] at hone
      simp at hone
      omega
    · exact hignored
  -- A call is ignored only if another one closed the pool.
  have hcloses : count ShutdownPc.closes st.shutdown = 0 := by
    refine count_eq_zero.mpr (fun s => ?_)
    rw [hignored s]
    rfl
  obtain ⟨s⟩ := ‹Nonempty S›
  have hone := le_count ShutdownPc.repeats st.shutdown s
  have hrepeated := h.repeated
  have hclosed := h.closed
  rw [hignored s] at hone
  simp at hone
  omega

/-- The state after a run without a receiver of errors. -/
structure Sound [DecidableEq E] (fails : E → Bool) (st : WorkerPool E S workers) : Prop where
  inv : Inv st
  once : Once st
  reported : Reported fails st

theorem sound_new [DecidableEq E] : Sound fails ({} : WorkerPool E S workers) := by
  refine ⟨inv_new, once_new, ?_, Nat.zero_le _⟩
  have hreports : count WorkerPc.reports (fun _ : Fin workers => WorkerPc.selecting (E := E)) = 0 :=
    count_eq_zero.mpr fun _ => rfl
  have hfailures : failures fails (fun _ : E => 0) = 0 :=
    count_eq_zero.mpr fun e => ite_self 0
  show 0 + count WorkerPc.reports (fun _ : Fin workers => .selecting) = failures fails fun _ => 0
  rw [hreports, hfailures]

variable [DecidableEq E] [DecidableEq S]

theorem todo_moves (hm : Moves fails st a st') (ha : a ≠ .takeError) : todo st' < todo st := by
  cases hm with
  | rlock hpc _ => exact todo_setEnqueue hpc (by decide)
  | refuse hpc _ => exact todo_setEnqueue hpc (by decide)
  | proceed hpc _ => exact todo_setEnqueue hpc (by decide)
  | add hpc => exact todo_setEnqueue hpc (by decide)
  | @send e hpc _ =>
      have hmove : count EnqueuePc.todo (Function.update st.enqueue e .unlocking) + 6 =
          count EnqueuePc.todo st.enqueue + 1 := count_move _ hpc _
      unfold todo setEnqueue
      dsimp only
      rw [List.length_append, List.length_singleton]
      omega
  | runlock hpc => exact todo_setEnqueue hpc (by decide)
  | drop hpc => exact todo_setEnqueue hpc (by decide)
  | announce hpc _ => exact todo_setShutdown hpc (by decide)
  | lock hpc _ => exact todo_setShutdown hpc (by decide)
  | ignore hpc _ => exact todo_setShutdown hpc (by decide)
  | close hpc _ => exact todo_setShutdown hpc (by decide)
  | closeJobs hpc _ => exact todo_setShutdown hpc (by decide)
  | unlock hpc => exact todo_setShutdown hpc (by decide)
  | leave hpc => exact todo_setShutdown hpc (by decide)
  | wait hpc _ => exact todo_setShutdown hpc (by decide)
  | closeQuit hpc _ => exact todo_setShutdown hpc (by decide)
  | closeErrors hpc _ => exact todo_setShutdown hpc (by decide)
  | @receive w job rest hpc hjobs =>
      have hmove : count WorkerPc.todo (Function.update st.worker w (.running job)) + 1 =
          count WorkerPc.todo st.worker + 4 := count_move _ hpc _
      unfold todo setWorker
      dsimp only
      rw [hjobs, List.length_cons]
      omega
  | exit hpc _ _ => exact todo_setWorker hpc (by simp [WorkerPc.todo])
  | fail hpc _ => exact todo_setWorker hpc (by simp [WorkerPc.todo])
  | succeed hpc _ => exact todo_setWorker hpc (by simp [WorkerPc.todo])
  | report hpc _ => exact todo_setWorker hpc (by simp [WorkerPc.todo])
  | done hpc _ => exact todo_setWorker hpc (by simp [WorkerPc.todo])
  | quit hpc _ => exact todo_setWorker hpc (by simp [WorkerPc.todo])
  | takeError _ => exact absurd rfl ha

/-- The parties of a pool that has not panicked, each at its own step. -/
theorem Inv.stuck (h : Inv st) {kind : Act E S workers → Prop}
    (hstuck : ∀ a, kind a → step fails st a = none) :
    (∀ e, kind (.enqueue e) → st.enqueueStep e = none) ∧
      (∀ s, kind (.shutdown s) → st.shutdownStep s = none) ∧
      ∀ w, kind (.worker w) → st.workerStep fails w = none := by
  have hgo : ¬st.panicked = true := Bool.eq_false_iff.mp h.panicked
  refine ⟨fun e he => ?_, fun s hs => ?_, fun w hw => ?_⟩
  · have hnone := hstuck _ he
    rwa [step, if_neg hgo] at hnone
  · have hnone := hstuck _ hs
    rwa [step, if_neg hgo] at hnone
  · have hnone := hstuck _ hw
    rwa [step, if_neg hgo] at hnone

/-! ## Room for every error -/

/-- A pool with room for its errors is stuck only when every `Shutdown` has returned. -/
theorem finished_of_stuck (h : Inv st) (hworkers : 0 < workers)
    (hroom : ∀ w job, st.worker w = .reporting job → st.errorChan < workers)
    (hstuck : ∀ a, a ≠ .takeError → step fails st a = none) (s : S) : (st.shutdown s).Finished := by
  obtain ⟨henqueue, hshutdown, hworker⟩ := h.stuck hstuck
  have hidle : ∀ w, st.worker w = .selecting ∧ st.jobs = [] ∨ st.worker w = .exited := by
    intro w
    rcases workerStep_eq_none (hworker w nofun) with hselecting | ⟨job, hpc, hfull⟩ | hexited
    · exact Or.inl hselecting
    · exact absurd (hroom w job hpc) (Nat.not_lt.mpr hfull)
    · exact Or.inr hexited
  have hjobs : st.jobs.length = 0 := by
    rcases hidle ⟨0, hworkers⟩ with ⟨-, hnil⟩ | hexited
    · exact List.length_eq_zero_iff.mpr hnil
    · exact (h.closed_of_exited hexited).2
  have henqueues : ∀ e, st.enqueue e = .start ∨ st.enqueue e = .enqueued ∨
      st.enqueue e = .dropped := by
    intro e
    rcases enqueueStep_eq_none (henqueue e nofun) with ⟨hpc, -⟩ | ⟨-, hfull⟩ | hpc
    · exact Or.inl hpc
    · omega
    · exact Or.inr hpc
  obtain ⟨hreaders, hwg⟩ := h.released hjobs (fun w => (hidle w).imp_left And.left) henqueues
  have hshutdowns : ∀ s, st.shutdown s = .start ∧ st.writer = true ∨
      (st.shutdown s).Finished := by
    intro s
    rcases shutdownStep_eq_none (hshutdown s nofun) with hstart | ⟨-, hne⟩ | ⟨-, hne⟩ | hpc
    · exact Or.inl hstart
    · exact absurd hreaders hne
    · exact absurd hwg hne
    · exact Or.inr hpc
  -- A call that has not started would have to wait for a writer, and there is none.
  rcases hshutdowns s with ⟨-, hwriter⟩ | hpc
  · have hnone : count ShutdownPc.writes st.shutdown = 0 := by
      refine count_eq_zero.mpr (fun s' => ?_)
      rcases hshutdowns s' with ⟨hpc, -⟩ | hpc | hpc <;> rw [hpc] <;> rfl
    have hone := h.writer
    rw [hwriter, hnone] at hone
    cases hone
  · exact hpc

/-! ## More errors than room -/

/-- A step of an `Enqueue` or of a worker. -/
def Act.Works : Act E S workers → Prop
  | .enqueue _ | .worker _ => True
  | _ => False

/-- When more jobs fail than there is room for errors, and no shutdown has begun, the pool runs
into a worker that cannot report. -/
theorem blocked_of_stuck (h : Inv st) (honce : Once st) (hreported : Reported fails st)
    (hworkers : 0 < workers) (hmany : workers < failing fails)
    (hstart : ∀ s, st.shutdown s = .start)
    (hstuck : ∀ a, a.Works → step fails st a = none) :
    ∃ w job, st.worker w = .reporting job ∧ workers ≤ st.errorChan := by
  by_contra hnone
  obtain ⟨henqueue, -, hworker⟩ := h.stuck hstuck
  have hflags : ∀ w : ShutdownPc → Nat, w .start = 0 → count w st.shutdown = 0 := by
    intro w hw
    refine count_eq_zero.mpr (fun s => ?_)
    rw [hstart s, hw]
  have hidle : ∀ w, st.worker w = .selecting ∧ st.jobs = [] := by
    intro w
    rcases workerStep_eq_none (hworker w trivial) with hselecting | ⟨job, hpc, hfull⟩ | hexited
    · exact hselecting
    · exact absurd ⟨w, job, hpc, hfull⟩ hnone
    · have hopen := h.jobsClosed.trans (hflags _ rfl)
      have hclosed := (h.closed_of_exited hexited).1
      omega
  obtain ⟨-, hjobs⟩ := hidle ⟨0, hworkers⟩
  -- Every job went in and has run.
  have hran : st.ran = fun _ => 1 := by
    funext e
    have hpc : st.enqueue e = .enqueued := by
      rcases enqueueStep_eq_none (henqueue e trivial) with ⟨-, hwriter⟩ | ⟨-, hfull⟩ | hpc | hpc
      · have hfree := h.writer.trans (hflags _ rfl)
        rw [hwriter] at hfree
        cases hfree
      · rw [hjobs, List.length_nil] at hfull
        omega
      · exact hpc
      · have hone := le_count EnqueuePc.refused st.enqueue e
        have hopen := h.closed.trans (hflags _ rfl)
        have hrefused := h.refused
        rw [hpc] at hone
        simp at hone
        omega
    have hruns : count (WorkerPc.runs e) st.worker = 0 := by
      refine count_eq_zero.mpr (fun w => ?_)
      rw [(hidle w).1]
      rfl
    have hone := honce e
    rw [hjobs, hruns, hpc] at hone
    exact hone
  have hreports : count WorkerPc.reports st.worker = 0 := by
    refine count_eq_zero.mpr (fun w => ?_)
    rw [(hidle w).1]
    rfl
  have herrors := hreported.errors
  have hbounded := hreported.bounded
  rw [hreports, hran, failures_one] at herrors
  omega

theorem Sound.moves (h : Sound fails st) (hm : Moves fails st a st') (ha : a ≠ .takeError) :
    Sound fails st' :=
  ⟨h.inv.moves hm, h.once.moves hm, h.reported.moves hm ha⟩

theorem sound_run {acts : List (Act E S workers)} (hrun : run (step fails) {} acts = some st)
    (hnone : Act.takeError ∉ acts) : Sound fails st := by
  refine run_history (I := fun acts st => Act.takeError ∉ acts → Sound fails st)
    (fun _ => sound_new) (fun {acts st a st'} h hstep hnone => ?_) hrun hnone
  have hsound := h (fun hmem => hnone (List.mem_append_left _ hmem))
  refine hsound.moves (moves_of_step hsound.inv hstep) ?_
  rintro rfl
  exact hnone (List.mem_append_right _ List.mem_cons_self)

/-- A call of `Shutdown` has not returned, and nothing is enabled but to receive an error. -/
def Deadlocks (fails : E → Bool) (st : WorkerPool E S workers) : Prop :=
  (∃ s, ¬(st.shutdown s).Finished) ∧ ∀ a, a ≠ .takeError → step fails st a = none

theorem exists_deadlock [Nonempty S] (fails : E → Bool) (hworkers : 0 < workers)
    (hmany : workers < failing fails) :
    ∃ (acts : List (Act E S workers)) (st : WorkerPool E S workers),
      run (step fails) {} acts = some st ∧ Act.takeError ∉ acts ∧ st.Deadlocks fails := by
  -- First everything is enqueued, and the workers do what they can.
  obtain ⟨acts, st₁, hacts, hrun, ⟨hsound, hstart⟩, hstuck⟩ :=
    exists_stuck (step fails) Act.Works todo
      (I := fun st : WorkerPool E S workers => Sound fails st ∧ ∀ s, st.shutdown s = .start)
      (fun {st a st'} h ha hstep => by
        have hm := moves_of_step h.1.inv hstep
        have hne : a ≠ .takeError := by
          rintro rfl
          cases ha
        refine ⟨⟨h.1.moves hm hne, ?_⟩, todo_moves hm hne⟩
        cases hm <;> first | exact h.2 | cases ha)
      ⟨sound_new, fun _ => rfl⟩
  obtain ⟨w, job, hpc, hfull⟩ := blocked_of_stuck hsound.inv hsound.once hsound.reported hworkers
    hmany hstart hstuck
  -- Then everything else runs on.
  obtain ⟨acts', st₂, hacts', hrun', ⟨hinv, hpc', -⟩, hstuck'⟩ :=
    exists_stuck (step fails) (fun a => a ≠ .takeError) todo
      (I := fun st : WorkerPool E S workers =>
        Inv st ∧ st.worker w = .reporting job ∧ workers ≤ st.errorChan)
      (fun {st a st'} h ha hstep => by
        have hm := moves_of_step h.1 hstep
        exact ⟨⟨h.1.moves hm, blocked_moves h.2.1 h.2.2 hm ha⟩, todo_moves hm ha⟩)
      ⟨hsound.inv, hpc, hfull⟩
  refine ⟨acts ++ acts', st₂, ?_, ?_, exists_unfinished hinv hpc', hstuck'⟩
  · rw [run_append, hrun]
    exact hrun'
  · intro hmem
    rcases List.mem_append.mp hmem with hmem | hmem
    · exact hacts _ hmem
    · exact hacts' _ hmem rfl

/-- With nobody receiving from `Errors()`, no interleaving is stuck before every call of
`Shutdown` has returned exactly when no more jobs fail than there are workers. -/
theorem no_deadlock_iff [Nonempty S] (hworkers : 0 < workers) (fails : E → Bool) :
    (∀ (acts : List (Act E S workers)) (st : WorkerPool E S workers),
        run (step fails) {} acts = some st → Act.takeError ∉ acts → ¬st.Deadlocks fails) ↔
      failing fails ≤ workers := by
  constructor
  · intro hfree
    by_contra hmany
    obtain ⟨acts, st, hrun, hnone, hdeadlock⟩ :=
      exists_deadlock (S := S) fails hworkers (Nat.lt_of_not_le hmany)
    exact hfree acts st hrun hnone hdeadlock
  · intro hfew acts st hrun hnone ⟨⟨s, hs⟩, hstuck⟩
    have hsound := sound_run hrun hnone
    refine hs (finished_of_stuck hsound.inv hworkers (fun w job hpc => ?_) hstuck s)
    have hran : ∀ e, st.ran e ≤ 1 := by
      intro e
      have hone := hsound.once e
      have hsent : (st.enqueue e).sent ≤ 1 := by
        cases st.enqueue e <;> decide
      omega
    have hfailures : failures fails st.ran ≤ failing fails := failures_le hran
    have herrors := hsound.reported.errors
    have hone := le_count WorkerPc.reports st.worker w
    rw [hpc] at hone
    change 1 ≤ _ at hone
    omega

/-- A pool with one worker takes two jobs.  The worker is done with the first and has run the second
when the pool is shut down. -/
def twoJobs : List (Act Bool Unit 1) :=
  List.replicate 5 (.enqueue true) ++ List.replicate 4 (.worker ⟨0, Nat.one_pos⟩) ++
    List.replicate 5 (.enqueue false) ++ List.replicate 2 (.worker ⟨0, Nat.one_pos⟩) ++
    List.replicate 5 (.shutdown ())

/-- One of the jobs fails. -/
theorem no_deadlock_one_error :
    ∃ st, run (step fun job => job) {} twoJobs = some st ∧ ¬st.Deadlocks fun job => job :=
  ⟨_, rfl, (no_deadlock_iff Nat.one_pos _).mpr (by decide) twoJobs _ rfl (by simp [twoJobs])⟩

/-- Both jobs fail. -/
theorem deadlock_two_errors :
    ∃ st, run (step fun _ => true) {} twoJobs = some st ∧ Act.takeError ∉ twoJobs ∧
      st.Deadlocks fun _ => true := by
  refine ⟨_, rfl, by simp [twoJobs], ⟨(), ?_⟩, fun a ha => ?_⟩
  · rintro (h | h) <;> cases h
  · match a with
    | .enqueue true => rfl
    | .enqueue false => rfl
    | .shutdown () => rfl
    | .worker 0 => rfl
    | .quit 0 => rfl
    | .takeError => exact absurd rfl ha

end WorkerPool

end HyperCache
