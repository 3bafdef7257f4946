/-
What a shutdown of the worker pool guarantees.

No step panics, so nothing is sent on a closed channel and nothing is closed twice.
A job that was accepted is in the channel, with a worker, or has run, so that it has
run once when the wait group is down to zero, which is when the call of `Shutdown`
that closed the pool goes on.  Whether that point is reached depends on the errors:
nobody receives them, and a worker that cannot send its error keeps its job in the
group.
-/
import HyperCache.WorkerPool

namespace HyperCache

open Interleaving Tally

namespace WorkerPool

variable {E S : Type} [DecidableEq E] {workers : Nat} {st st' : WorkerPool E S workers}

/-! ## Jobs run once -/

/-- A job that was accepted waits in the channel or with a worker, or has run, and is in one of
these places once. -/
def Once (st : WorkerPool E S workers) : Prop :=
  ∀ e, st.ran e + st.jobs.count e + count (WorkerPc.runs e) st.worker = (st.enqueue e).sent

theorem once_new : Once ({} : WorkerPool E S workers) := by
  intro e
  have hruns : count (WorkerPc.runs e) (fun _ : Fin workers => .selecting) = 0 :=
    count_eq_zero.mpr fun _ => rfl
  show 0 + 0 + count (WorkerPc.runs e) (fun _ : Fin workers => .selecting) = 0
  rw [hruns]

theorem Once.setEnqueue (h : Once st) {e : E} {pc : EnqueuePc}
    (hsent : (st.enqueue e).sent = pc.sent) {readers wg : Nat} :
    Once (setEnqueue e pc { st with readers, wg }) := by
  intro e'
  show _ = (Function.update st.enqueue e pc e').sent
  by_cases he : e' = e
  · subst he
    rw [Function.update_self, ← hsent]
    exact h e'
  · rw [Function.update_of_ne he]
    exact h e'

theorem Once.setWorker (h : Once st) {w : Fin workers} {pc : WorkerPc E}
    (hold : ∀ e, (st.worker w).runs e = 0) (hnew : ∀ e, pc.runs e = 0) {errorChan wg : Nat} :
    Once (setWorker w pc { st with errorChan, wg }) := by
  intro e
  have hcount := count_update (WorkerPc.runs e) st.worker w pc
  rw [hold e, hnew e] at hcount
  have honce := h e
  show st.ran e + st.jobs.count e + count (WorkerPc.runs e) (Function.update st.worker w pc) =
    (st.enqueue e).sent
  omega

/-- A worker runs its job. -/
theorem Once.run (h : Once st) {w : Fin workers} {job : E} (hpc : st.worker w = .running job)
    {pc : WorkerPc E} (hnew : ∀ e, pc.runs e = 0) :
    Once (WorkerPool.setWorker w pc
      { st with ran := Function.update st.ran job (st.ran job + 1) }) := by
  intro e
  have hcount := count_move (WorkerPc.runs e) hpc pc
  rw [hnew e, WorkerPc.runs] at hcount
  have honce := h e
  show Function.update st.ran job (st.ran job + 1) e + st.jobs.count e +
    count (WorkerPc.runs e) (Function.update st.worker w pc) = (st.enqueue e).sent
  by_cases he : job = e
  · subst he
    rw [if_pos rfl] at hcount
    rw [Function.update_self]
    omega
  · rw [if_neg he] at hcount
    rw [Function.update_of_ne (fun heq => he heq.symm)]
    omega

variable [DecidableEq S] {fails : E → Bool} {a : Act E S workers}

theorem Once.moves (h : Once st) (hm : Moves fails st a st') : Once st' := by
  cases hm with
  | rlock hpc _ => exact h.setEnqueue (by rw [hpc]; rfl)
  | refuse hpc _ => exact h.setEnqueue (by rw [hpc]; rfl)
  | proceed hpc _ => exact h.setEnqueue (by rw [hpc]; rfl)
  | add hpc => exact h.setEnqueue (by rw [hpc]; rfl)
  | @send e hpc _ =>
      intro e'
      have honce := h e'
      show st.ran e' + (st.jobs ++ [e]).count e' + count (WorkerPc.runs e') st.worker =
        (Function.update st.enqueue e .unlocking e').sent
      rw [List.count_append, List.count_singleton]
      by_cases he : e = e'
      · subst he
        rw [hpc] at honce
        change _ = 0 at honce
        rw [Function.update_self, beq_self_eq_true, if_pos rfl]
        show _ = 1
        omega
      · rw [Function.update_of_ne (fun heq => he heq.symm), if_neg (fun heq => he (eq_of_beq heq))]
        exact honce
  | runlock hpc => exact h.setEnqueue (by rw [hpc]; rfl)
  | drop hpc => exact h.setEnqueue (by rw [hpc]; rfl)
  | @receive w job rest hpc hlist =>
      intro e
      have honce := h e
      have hcount : count (WorkerPc.runs e) (Function.update st.worker w (.running job)) + 0 =
          count (WorkerPc.runs e) st.worker + if job = e then 1 else 0 :=
        count_move (WorkerPc.runs e) hpc (.running job)
      rw [hlist, List.count_cons] at honce
      show st.ran e + rest.count e + count _ (Function.update st.worker w (.running job)) =
        (st.enqueue e).sent
      simp only [beq_iff_eq] at honce
      omega
  | exit hpc _ _ => exact h.setWorker (fun e => by rw [hpc]; rfl) (fun e => rfl)
  | fail hpc _ => exact h.run hpc (fun e => rfl)
  | succeed hpc _ => exact h.run hpc (fun e => rfl)
  | report hpc _ => exact h.setWorker (fun e => by rw [hpc]; rfl) (fun e => rfl)
  | done hpc _ => exact h.setWorker (fun e => by rw [hpc]; rfl) (fun e => rfl)
  | quit hpc _ => exact h.setWorker (fun e => by rw [hpc]; rfl) (fun e => rfl)
  | _ => exact h

variable [Fintype E] [Fintype S]

theorem once_run {acts : List (Act E S workers)} (hrun : run (step fails) {} acts = some st) :
    Once st :=
  (run_invariant (I := fun st : WorkerPool E S workers => Inv st ∧ Once st)
    (fun h hstep => ⟨inv_step h.1 hstep, h.2.moves (moves_of_step h.1 hstep)⟩)
    ⟨inv_new, once_new⟩ hrun).2

/-- The job is in the channel or has been. -/
def Accepted (st : WorkerPool E S workers) (e : E) : Prop :=
  st.enqueue e = .unlocking ∨ st.enqueue e = .enqueued

/-- In every state of every interleaving nothing has panicked, a job that was dropped has not
run, and once the call of `Shutdown` that closed the pool has returned every job that was accepted
has run once. -/
theorem shutdown_safe {acts : List (Act E S workers)}
    (hrun : run (step fails) {} acts = some st) :
    st.panicked = false ∧ (∀ e, st.enqueue e = .dropped → st.ran e = 0) ∧
      ∀ s, st.shutdown s = .returned → ∀ e, st.Accepted e → st.ran e = 1 := by
  have hinv := inv_run hrun
  have honce := once_run hrun
  refine ⟨hinv.panicked, fun e he => ?_, fun s hs e he => ?_⟩
  · have hone := honce e
    rw [he] at hone
    change _ = 0 at hone
    omega
  · have hwg := hinv.wg
    have hwaited := hinv.waited
    have hreturned := le_count ShutdownPc.waited st.shutdown s
    have hruns : count (WorkerPc.runs e) st.worker ≤ count WorkerPc.carries st.worker := by
      refine count_le_count (fun pc => ?_) _
      cases pc with
      | running job =>
          rw [WorkerPc.runs]
          split
          · exact Nat.le_refl 1
          · exact Nat.zero_le _
      | _ => exact Nat.zero_le _
    have hjobs := List.count_le_length (a := e) (l := st.jobs)
    have hone := honce e
    have hsent : (st.enqueue e).sent = 1 := by
      rcases he with he | he <;> rw [he] <;> rfl
    rw [hs] at hreturned
    simp at hreturned
    omega

/-- A job goes in before the pool closes, and another one comes too late. -/
def lateJob : List (Act Bool Unit 1) :=
  List.replicate 5 (.enqueue true) ++ List.replicate 5 (.shutdown ()) ++
    List.replicate 3 (.enqueue false) ++ List.replicate 4 (.worker ⟨0, Nat.one_pos⟩) ++
    List.replicate 3 (.shutdown ())

theorem shutdown_safe_late_job :
    ∃ st, run (step fun _ => true) {} lateJob = some st ∧ st.shutdown () = .returned ∧
      st.panicked = false ∧ st.ran true = 1 ∧ st.ran false = 0 := by
  have hlate : ∃ st, run (step fun _ => true) {} lateJob = some st ∧
      st.shutdown () = .returned ∧ st.enqueue true = .enqueued ∧ st.enqueue false = .dropped :=
    ⟨_, rfl, rfl, rfl, rfl⟩
  obtain ⟨st, hrun, hs, haccepted, hlost⟩ := hlate
  obtain ⟨hpanicked, hdropped, hran⟩ := shutdown_safe hrun
  exact ⟨st, hrun, hs, hpanicked, hran () hs true (Or.inr haccepted), hdropped false hlost⟩

end WorkerPool

end HyperCache
