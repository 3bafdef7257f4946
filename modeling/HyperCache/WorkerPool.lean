/-
The worker pool, under every interleaving of its callers and workers.

`Enqueue` holds the read lock from the check of the flag to the end of its send, and
`Shutdown` closes the channel of jobs under the write lock.  The state says where
every call and every worker is.  The lock is kept as the number of readers and
whether a writer has asked for it, since a waiting writer keeps new readers out.  A
channel is its contents and whether it is closed.  Errors are only counted.

`Resize` is left out, so `quit` never carries a signal and is only closed.
-/
import HyperCache.Lib.Interleaving
import HyperCache.Lib.Tally

namespace HyperCache

open Interleaving Tally

/-- Where a call of `Enqueue` is. -/
inductive EnqueuePc where
  | start
  | reading
  | adding
  | sending
  | unlocking
  | dropping
  | enqueued
  | dropped

/-- Where a call of `Shutdown` is.  A repeated call ends as `ignored`. -/
inductive ShutdownPc where
  | start
  | locking
  | locked
  | closing
  | unlocking
  | leaving
  | waiting
  | closingQuit
  | closingErrors
  | returned
  | ignored

/-- Where a worker is, with the job it has. -/
inductive WorkerPc (E : Type) where
  | selecting
  | running (job : E)
  | reporting (job : E)
  | finishing (job : E)
  | exited

/-- The pool, with one call of `Enqueue` for every job and the calls of `Shutdown`.  `ran` counts
how often a job was run. -/
structure WorkerPool (E S : Type) (workers : Nat) where
  readers : Nat := 0
  writer : Bool := false
  closed : Bool := false
  jobs : List E := []
  jobsClosed : Bool := false
  quitClosed : Bool := false
  errorChan : Nat := 0
  errorClosed : Bool := false
  wg : Nat := 0
  enqueue : E → EnqueuePc := fun _ => .start
  shutdown : S → ShutdownPc := fun _ => .start
  worker : Fin workers → WorkerPc E := fun _ => .selecting
  ran : E → Nat := fun _ => 0
  panicked : Bool := false

namespace WorkerPool

variable {E S : Type} [DecidableEq E] [DecidableEq S] {workers : Nat}

/-- The next step of one party, or the end of its choice in `select`. -/
inductive Act (E S : Type) (workers : Nat) where
  | enqueue (e : E)
  | shutdown (s : S)
  | worker (w : Fin workers)
  | quit (w : Fin workers)
  /-- Somebody receives from `Errors()`. -/
  | takeError

def setEnqueue (e : E) (pc : EnqueuePc) (st : WorkerPool E S workers) : WorkerPool E S workers :=
  { st with enqueue := Function.update st.enqueue e pc }

def setShutdown (s : S) (pc : ShutdownPc) (st : WorkerPool E S workers) :
    WorkerPool E S workers :=
  { st with shutdown := Function.update st.shutdown s pc }

def setWorker (w : Fin workers) (pc : WorkerPc E) (st : WorkerPool E S workers) :
    WorkerPool E S workers :=
  { st with worker := Function.update st.worker w pc }

def enqueueStep (e : E) (st : WorkerPool E S workers) : Option (WorkerPool E S workers) :=
  match st.enqueue e with
  | .start =>
      if st.writer then none else some (setEnqueue e .reading { st with readers := st.readers + 1 })
  | .reading => some (st.setEnqueue e (if st.closed then .dropping else .adding))
  | .adding => some (setEnqueue e .sending { st with wg := st.wg + 1 })
  | .sending =>
      if st.jobsClosed then some { st with panicked := true }
      else if st.jobs.length < workers then
        some (setEnqueue e .unlocking { st with jobs := st.jobs ++ [e] })
      else none
  | .unlocking => some (setEnqueue e .enqueued { st with readers := st.readers - 1 })
  | .dropping => some (setEnqueue e .dropped { st with readers := st.readers - 1 })
  | .enqueued => none
  | .dropped => none

def shutdownStep (s : S) (st : WorkerPool E S workers) : Option (WorkerPool E S workers) :=
  match st.shutdown s with
  | .start => if st.writer then none else some (setShutdown s .locking { st with writer := true })
  | .locking => if st.readers = 0 then some (st.setShutdown s .locked) else none
  | .locked =>
      if st.closed then some (st.setShutdown s .leaving)
      else some (setShutdown s .closing { st with closed := true })
  | .closing =>
      if st.jobsClosed then some { st with panicked := true }
      else some (setShutdown s .unlocking { st with jobsClosed := true })
  | .unlocking => some (setShutdown s .waiting { st with writer := false })
  | .leaving => some (setShutdown s .ignored { st with writer := false })
  | .waiting => if st.wg = 0 then some (st.setShutdown s .closingQuit) else none
  | .closingQuit =>
      if st.quitClosed then some { st with panicked := true }
      else some (setShutdown s .closingErrors { st with quitClosed := true })
  | .closingErrors =>
      if st.errorClosed then some { st with panicked := true }
      else some (setShutdown s .returned { st with errorClosed := true })
  | .returned => none
  | .ignored => none

def workerStep (fails : E → Bool) (w : Fin workers) (st : WorkerPool E S workers) :
    Option (WorkerPool E S workers) :=
  match st.worker w with
  | .selecting =>
      match st.jobs with
      | job :: rest => some (setWorker w (.running job) { st with jobs := rest })
      | [] => if st.jobsClosed then some (st.setWorker w .exited) else none
  | .running job =>
      some (setWorker w (if fails job then .reporting job else .finishing job)
        { st with ran := Function.update st.ran job (st.ran job + 1) })
  | .reporting job =>
      if st.errorClosed then some { st with panicked := true }
      else if st.errorChan < workers then
        some (setWorker w (.finishing job) { st with errorChan := st.errorChan + 1 })
      else none
  | .finishing _ =>
      if st.wg = 0 then some { st with panicked := true }
      else some (setWorker w .selecting { st with wg := st.wg - 1 })
  | .exited => none

/-- The other case of the workers' `select`. -/
def quitStep (w : Fin workers) (st : WorkerPool E S workers) : Option (WorkerPool E S workers) :=
  match st.worker w with
  | .selecting => if st.quitClosed then some (st.setWorker w .exited) else none
  | _ => none

/-- A pool that has panicked takes no more steps. -/
def step (fails : E → Bool) (st : WorkerPool E S workers) :
    Act E S workers → Option (WorkerPool E S workers)
  | .enqueue e => if st.panicked then none else st.enqueueStep e
  | .shutdown s => if st.panicked then none else st.shutdownStep s
  | .worker w => if st.panicked then none else st.workerStep fails w
  | .quit w => if st.panicked then none else st.quitStep w
  | .takeError =>
      if st.panicked ∨ st.errorChan = 0 then none
      else some { st with errorChan := st.errorChan - 1 }

/-- The steps that do not panic. -/
inductive Moves (fails : E → Bool) (st : WorkerPool E S workers) :
    Act E S workers → WorkerPool E S workers → Prop where
  | rlock {e : E} (hpc : st.enqueue e = .start) (hfree : st.writer = false) :
      Moves fails st (.enqueue e) (setEnqueue e .reading { st with readers := st.readers + 1 })
  | refuse {e : E} (hpc : st.enqueue e = .reading) (hset : st.closed = true) :
      Moves fails st (.enqueue e) (st.setEnqueue e .dropping)
  | proceed {e : E} (hpc : st.enqueue e = .reading) (hopen : st.closed = false) :
      Moves fails st (.enqueue e) (st.setEnqueue e .adding)
  | add {e : E} (hpc : st.enqueue e = .adding) :
      Moves fails st (.enqueue e) (setEnqueue e .sending { st with wg := st.wg + 1 })
  | send {e : E} (hpc : st.enqueue e = .sending) (hroom : st.jobs.length < workers) :
      Moves fails st (.enqueue e) (setEnqueue e .unlocking { st with jobs := st.jobs ++ [e] })
  | runlock {e : E} (hpc : st.enqueue e = .unlocking) :
      Moves fails st (.enqueue e) (setEnqueue e .enqueued { st with readers := st.readers - 1 })
  | drop {e : E} (hpc : st.enqueue e = .dropping) :
      Moves fails st (.enqueue e) (setEnqueue e .dropped { st with readers := st.readers - 1 })
  | announce {s : S} (hpc : st.shutdown s = .start) (hfree : st.writer = false) :
      Moves fails st (.shutdown s) (setShutdown s .locking { st with writer := true })
  | lock {s : S} (hpc : st.shutdown s = .locking) (hnone : st.readers = 0) :
      Moves fails st (.shutdown s) (st.setShutdown s .locked)
  | ignore {s : S} (hpc : st.shutdown s = .locked) (hset : st.closed = true) :
      Moves fails st (.shutdown s) (st.setShutdown s .leaving)
  | close {s : S} (hpc : st.shutdown s = .locked) (hopen : st.closed = false) :
      Moves fails st (.shutdown s) (setShutdown s .closing { st with closed := true })
  | closeJobs {s : S} (hpc : st.shutdown s = .closing) (hopen : st.jobsClosed = false) :
      Moves fails st (.shutdown s) (setShutdown s .unlocking { st with jobsClosed := true })
  | unlock {s : S} (hpc : st.shutdown s = .unlocking) :
      Moves fails st (.shutdown s) (setShutdown s .waiting { st with writer := false })
  | leave {s : S} (hpc : st.shutdown s = .leaving) :
      Moves fails st (.shutdown s) (setShutdown s .ignored { st with writer := false })
  | wait {s : S} (hpc : st.shutdown s = .waiting) (hzero : st.wg = 0) :
      Moves fails st (.shutdown s) (st.setShutdown s .closingQuit)
  | closeQuit {s : S} (hpc : st.shutdown s = .closingQuit) (hopen : st.quitClosed = false) :
      Moves fails st (.shutdown s) (setShutdown s .closingErrors { st with quitClosed := true })
  | closeErrors {s : S} (hpc : st.shutdown s = .closingErrors) (hopen : st.errorClosed = false) :
      Moves fails st (.shutdown s) (setShutdown s .returned { st with errorClosed := true })
  | receive {w : Fin workers} {job : E} {rest : List E} (hpc : st.worker w = .selecting)
      (hjobs : st.jobs = job :: rest) :
      Moves fails st (.worker w) (setWorker w (.running job) { st with jobs := rest })
  | exit {w : Fin workers} (hpc : st.worker w = .selecting) (hjobs : st.jobs = [])
      (hset : st.jobsClosed = true) : Moves fails st (.worker w) (st.setWorker w .exited)
  | fail {w : Fin workers} {job : E} (hpc : st.worker w = .running job)
      (hfails : fails job = true) :
      Moves fails st (.worker w) (setWorker w (.reporting job)
        { st with ran := Function.update st.ran job (st.ran job + 1) })
  | succeed {w : Fin workers} {job : E} (hpc : st.worker w = .running job)
      (hfails : fails job = false) :
      Moves fails st (.worker w) (setWorker w (.finishing job)
        { st with ran := Function.update st.ran job (st.ran job + 1) })
  | report {w : Fin workers} {job : E} (hpc : st.worker w = .reporting job)
      (hroom : st.errorChan < workers) :
      Moves fails st (.worker w)
        (setWorker w (.finishing job) { st with errorChan := st.errorChan + 1 })
  | done {w : Fin workers} {job : E} (hpc : st.worker w = .finishing job) (hpos : st.wg ≠ 0) :
      Moves fails st (.worker w) (setWorker w .selecting { st with wg := st.wg - 1 })
  | quit {w : Fin workers} (hpc : st.worker w = .selecting) (hset : st.quitClosed = true) :
      Moves fails st (.quit w) (st.setWorker w .exited)
  | takeError (hpos : st.errorChan ≠ 0) :
      Moves fails st .takeError { st with errorChan := st.errorChan - 1 }

end WorkerPool

/-! ## Tallies -/

namespace EnqueuePc

/-- Holds the read lock. -/
@[simp] def reads : EnqueuePc → Nat
  | .reading | .adding | .sending | .unlocking | .dropping => 1
  | _ => 0

/-- Has found the pool open. -/
@[simp] def admitted : EnqueuePc → Nat
  | .adding | .sending => 1
  | _ => 0

/-- Has found the pool closed. -/
@[simp] def refused : EnqueuePc → Nat
  | .dropping | .dropped => 1
  | _ => 0

/-- Is counted by the wait group and has not sent. -/
@[simp] def sends : EnqueuePc → Nat
  | .sending => 1
  | _ => 0

/-- Its job is accepted. -/
def sent : EnqueuePc → Nat
  | .unlocking | .enqueued => 1
  | _ => 0

/-- How the tallies change when one call moves. -/
theorem tallies {E : Type} [DecidableEq E] [Fintype E] {f : E → EnqueuePc} {e : E}
    {old : EnqueuePc} (h : f e = old) (new : EnqueuePc) :
    (count reads (Function.update f e new) + old.reads = count reads f + new.reads) ∧
      (count admitted (Function.update f e new) + old.admitted =
        count admitted f + new.admitted) ∧
      (count refused (Function.update f e new) + old.refused = count refused f + new.refused) ∧
      (count sends (Function.update f e new) + old.sends = count sends f + new.sends) :=
  ⟨count_move _ h new, count_move _ h new, count_move _ h new, count_move _ h new⟩

theorem admitted_le_reads {E : Type} [Fintype E] (f : E → EnqueuePc) :
    count admitted f ≤ count reads f :=
  count_le_count (fun pc => by cases pc <;> decide) f

end EnqueuePc

namespace ShutdownPc

/-- Has asked for the lock or holds it. -/
@[simp] def writes : ShutdownPc → Nat
  | .locking | .locked | .closing | .unlocking | .leaving => 1
  | _ => 0

@[simp] def holds : ShutdownPc → Nat
  | .locked | .closing | .unlocking | .leaving => 1
  | _ => 0

/-- Has set the flag. -/
@[simp] def closes : ShutdownPc → Nat
  | .closing | .unlocking | .waiting | .closingQuit | .closingErrors | .returned => 1
  | _ => 0

@[simp] def closedJobs : ShutdownPc → Nat
  | .unlocking | .waiting | .closingQuit | .closingErrors | .returned => 1
  | _ => 0

@[simp] def waited : ShutdownPc → Nat
  | .closingQuit | .closingErrors | .returned => 1
  | _ => 0

@[simp] def closedQuit : ShutdownPc → Nat
  | .closingErrors | .returned => 1
  | _ => 0

@[simp] def closedErrors : ShutdownPc → Nat
  | .returned => 1
  | _ => 0

/-- Has found the flag set. -/
@[simp] def repeats : ShutdownPc → Nat
  | .leaving | .ignored => 1
  | _ => 0

theorem tallies {S : Type} [DecidableEq S] [Fintype S] {f : S → ShutdownPc} {s : S}
    {old : ShutdownPc} (h : f s = old) (new : ShutdownPc) :
    (count writes (Function.update f s new) + old.writes = count writes f + new.writes) ∧
      (count holds (Function.update f s new) + old.holds = count holds f + new.holds) ∧
      (count closes (Function.update f s new) + old.closes = count closes f + new.closes) ∧
      (count closedJobs (Function.update f s new) + old.closedJobs =
        count closedJobs f + new.closedJobs) ∧
      (count waited (Function.update f s new) + old.waited = count waited f + new.waited) ∧
      (count closedQuit (Function.update f s new) + old.closedQuit =
        count closedQuit f + new.closedQuit) ∧
      (count closedErrors (Function.update f s new) + old.closedErrors =
        count closedErrors f + new.closedErrors) ∧
      (count repeats (Function.update f s new) + old.repeats = count repeats f + new.repeats) :=
  ⟨count_move _ h new, count_move _ h new, count_move _ h new, count_move _ h new,
    count_move _ h new, count_move _ h new, count_move _ h new, count_move _ h new⟩

/-- A call sets the flag before it closes `jobs`, closes `jobs` before it waits, and waits before
it closes the rest. -/
theorem tallies_le {S : Type} [Fintype S] (f : S → ShutdownPc) :
    count holds f ≤ count writes f ∧ count closedJobs f ≤ count closes f ∧
      count waited f ≤ count closedJobs f ∧ count closedQuit f ≤ count waited f ∧
      count closedErrors f ≤ count closedQuit f := by
  refine ⟨?_, ?_, ?_, ?_, ?_⟩ <;> refine count_le_count (fun pc => ?_) f <;> cases pc <;> decide

end ShutdownPc

namespace WorkerPc

variable {E : Type}

@[simp] def carries : WorkerPc E → Nat
  | .running _ | .reporting _ | .finishing _ => 1
  | _ => 0

/-- Is about to run the job. -/
def runs [DecidableEq E] (job : E) : WorkerPc E → Nat
  | .running job' => if job' = job then 1 else 0
  | _ => 0

def reports : WorkerPc E → Nat
  | .reporting _ => 1
  | _ => 0

@[simp] def exits : WorkerPc E → Nat
  | .exited => 1
  | _ => 0

theorem tallies {workers : Nat} {f : Fin workers → WorkerPc E} {w : Fin workers}
    {old : WorkerPc E} (h : f w = old) (new : WorkerPc E) :
    (count carries (Function.update f w new) + old.carries = count carries f + new.carries) ∧
      (count exits (Function.update f w new) + old.exits = count exits f + new.exits) :=
  ⟨count_move _ h new, count_move _ h new⟩

end WorkerPc

/-! ## The invariant -/

namespace WorkerPool

variable {E S : Type} [Fintype E] [Fintype S] {workers : Nat} {st st' : WorkerPool E S workers}

/-- The lock, the flags and the wait group say how many calls and workers are where. -/
structure Inv (st : WorkerPool E S workers) : Prop where
  panicked : st.panicked = false
  readers : st.readers = count EnqueuePc.reads st.enqueue
  writer : st.writer.toNat = count ShutdownPc.writes st.shutdown
  excluded : st.readers = 0 ∨ count ShutdownPc.holds st.shutdown = 0
  closed : st.closed.toNat = count ShutdownPc.closes st.shutdown
  jobsClosed : st.jobsClosed.toNat = count ShutdownPc.closedJobs st.shutdown
  quitClosed : st.quitClosed.toNat = count ShutdownPc.closedQuit st.shutdown
  errorClosed : st.errorClosed.toNat = count ShutdownPc.closedErrors st.shutdown
  repeated : count ShutdownPc.repeats st.shutdown = 0 ∨ st.closed.toNat = 1
  admitted : count EnqueuePc.admitted st.enqueue = 0 ∨ st.closed.toNat = 0
  refused : count EnqueuePc.refused st.enqueue = 0 ∨ st.closed.toNat = 1
  waited : st.wg = 0 ∨ count ShutdownPc.waited st.shutdown = 0
  wg : st.wg = count EnqueuePc.sends st.enqueue + st.jobs.length +
    count WorkerPc.carries st.worker
  exits : count WorkerPc.exits st.worker = 0 ∨ st.jobsClosed.toNat = 1 ∧ st.jobs.length = 0

theorem inv_new : Inv ({} : WorkerPool E S workers) := by
  have henqueue : ∀ w : EnqueuePc → Nat, w .start = 0 → count w (fun _ : E => .start) = 0 :=
    fun w hw => count_eq_zero.mpr fun _ => hw
  have hshutdown : ∀ w : ShutdownPc → Nat, w .start = 0 → count w (fun _ : S => .start) = 0 :=
    fun w hw => count_eq_zero.mpr fun _ => hw
  have hworker : ∀ w : WorkerPc E → Nat, w .selecting = 0 →
      count w (fun _ : Fin workers => .selecting) = 0 :=
    fun w hw => count_eq_zero.mpr fun _ => hw
  exact
    { panicked := rfl
      readers := (henqueue _ rfl).symm
      writer := (hshutdown _ rfl).symm
      excluded := Or.inl rfl
      closed := (hshutdown _ rfl).symm
      jobsClosed := (hshutdown _ rfl).symm
      quitClosed := (hshutdown _ rfl).symm
      errorClosed := (hshutdown _ rfl).symm
      repeated := Or.inl (hshutdown _ rfl)
      admitted := Or.inr rfl
      refused := Or.inl (henqueue _ rfl)
      waited := Or.inl rfl
      wg := by
        show 0 = count _ _ + 0 + count _ _
        rw [henqueue _ rfl, hworker _ rfl]
      exits := Or.inl (hworker _ rfl) }

/-! ### What the counters say -/

/-- A worker exits when the channel of jobs is closed and empty. -/
theorem Inv.closed_of_exited (h : Inv st) {w : Fin workers} (hpc : st.worker w = .exited) :
    st.jobsClosed.toNat = 1 ∧ st.jobs.length = 0 := by
  have hone := le_count WorkerPc.exits st.worker w
  have hexits := h.exits
  rw [hpc] at hone
  simp at hone
  omega

/-- Without a worker that has a job or a call of `Enqueue` on its way, the read lock is free and
the wait group is empty. -/
theorem Inv.released (h : Inv st) (hjobs : st.jobs.length = 0)
    (hworkers : ∀ w, st.worker w = .selecting ∨ st.worker w = .exited)
    (henqueues : ∀ e, st.enqueue e = .start ∨ st.enqueue e = .enqueued ∨
      st.enqueue e = .dropped) : st.readers = 0 ∧ st.wg = 0 := by
  have hcarries : count WorkerPc.carries st.worker = 0 := by
    refine count_eq_zero.mpr (fun w => ?_)
    rcases hworkers w with hpc | hpc <;> rw [hpc] <;> rfl
  have hreads : count EnqueuePc.reads st.enqueue = 0 := by
    refine count_eq_zero.mpr (fun e => ?_)
    rcases henqueues e with hpc | hpc | hpc <;> rw [hpc] <;> rfl
  have hsends : count EnqueuePc.sends st.enqueue = 0 := by
    refine count_eq_zero.mpr (fun e => ?_)
    rcases henqueues e with hpc | hpc | hpc <;> rw [hpc] <;> rfl
  have hreaders := h.readers
  have hwg := h.wg
  omega

/-! ### What one party can upset -/

/-- A call of `Enqueue` moves.  The flags stay. -/
theorem Inv.setEnqueue [DecidableEq E] (h : Inv st) {e : E} {new : EnqueuePc} {readers wg : Nat}
    {jobs : List E}
    (hreaders : readers = count EnqueuePc.reads (Function.update st.enqueue e new))
    (hexcluded : readers = 0 ∨ count ShutdownPc.holds st.shutdown = 0)
    (hadmitted : count EnqueuePc.admitted (Function.update st.enqueue e new) = 0 ∨
      st.closed.toNat = 0)
    (hrefused : count EnqueuePc.refused (Function.update st.enqueue e new) = 0 ∨
      st.closed.toNat = 1)
    (hwaited : wg = 0 ∨ count ShutdownPc.waited st.shutdown = 0)
    (hwg : wg = count EnqueuePc.sends (Function.update st.enqueue e new) + jobs.length +
      count WorkerPc.carries st.worker)
    (hexits : count WorkerPc.exits st.worker = 0 ∨
      st.jobsClosed.toNat = 1 ∧ jobs.length = 0) :
    Inv (WorkerPool.setEnqueue e new { st with readers, wg, jobs }) :=
  { h with
    readers := hreaders
    excluded := hexcluded
    admitted := hadmitted
    refused := hrefused
    waited := hwaited
    wg := hwg
    exits := hexits }

/-- A worker moves.  The lock and the flags stay. -/
theorem Inv.setWorker (h : Inv st) {w : Fin workers} {new : WorkerPc E} {jobs : List E}
    {errorChan wg : Nat} {ran : E → Nat}
    (hwaited : wg = 0 ∨ count ShutdownPc.waited st.shutdown = 0)
    (hwg : wg = count EnqueuePc.sends st.enqueue + jobs.length +
      count WorkerPc.carries (Function.update st.worker w new))
    (hexits : count WorkerPc.exits (Function.update st.worker w new) = 0 ∨
      st.jobsClosed.toNat = 1 ∧ jobs.length = 0) :
    Inv (WorkerPool.setWorker w new { st with jobs, errorChan, wg, ran }) :=
  { h with
    waited := hwaited
    wg := hwg
    exits := hexits }

/-! ### No step panics -/

theorem Inv.jobsClosed_of_sending (h : Inv st) {e : E} (hpc : st.enqueue e = .sending) :
    st.jobsClosed = false := by
  have hle := ShutdownPc.tallies_le st.shutdown
  have hone := le_count EnqueuePc.admitted st.enqueue e
  have hadmitted := h.admitted
  have hclosed := h.closed
  have hjobs := h.jobsClosed
  rw [hpc] at hone
  simp only [EnqueuePc.admitted] at hone
  exact Bool.toNat_eq_zero.mp (by omega)

/-- A call that has set the flag is the only one, so what it is about to close is open. -/
theorem Inv.open_of_closes [DecidableEq S] (h : Inv st) {s : S} (pc : ShutdownPc)
    (hpc : st.shutdown s = pc) :
    (pc = .closing → st.jobsClosed = false) ∧ (pc = .closingQuit → st.quitClosed = false) ∧
      (pc = .closingErrors → st.errorClosed = false) := by
  have hflag := st.closed.toNat_le
  have hclosed := h.closed
  have hjobs := h.jobsClosed
  have hquit := h.quitClosed
  have herror := h.errorClosed
  -- Everything would be closed once the call has returned.
  have hle := ShutdownPc.tallies_le (Function.update st.shutdown s .returned)
  have hmoves := ShutdownPc.tallies hpc .returned
  refine ⟨?_, ?_, ?_⟩ <;> rintro rfl <;> simp only [ShutdownPc.writes, ShutdownPc.holds,
    ShutdownPc.closes, ShutdownPc.closedJobs, ShutdownPc.waited, ShutdownPc.closedQuit,
    ShutdownPc.closedErrors, ShutdownPc.repeats] at hmoves <;>
    exact Bool.toNat_eq_zero.mp (by omega)

theorem Inv.wg_of_carries (h : Inv st) {w : Fin workers} (hpc : (st.worker w).carries = 1) :
    st.wg ≠ 0 := by
  have hone := le_count WorkerPc.carries st.worker w
  have hwg := h.wg
  omega

theorem Inv.errorClosed_of_reporting (h : Inv st) {w : Fin workers} {job : E}
    (hpc : st.worker w = .reporting job) : st.errorClosed = false := by
  have hle := ShutdownPc.tallies_le st.shutdown
  have hpos := h.wg_of_carries (w := w) (by rw [hpc]; rfl)
  have hwaited := h.waited
  have herror := h.errorClosed
  exact Bool.toNat_eq_zero.mp (by omega)

variable [DecidableEq E] [DecidableEq S] {fails : E → Bool} {a : Act E S workers}

theorem moves_enqueue (h : Inv st) {e : E} (hstep : st.enqueueStep e = some st') :
    Moves fails st (.enqueue e) st' := by
  rw [enqueueStep] at hstep
  generalize hpc : st.enqueue e = pc at hstep
  cases pc with
  | start =>
      dsimp only at hstep
      split at hstep
      · cases hstep
      case isFalse hfree =>
        cases hstep
        exact .rlock hpc (Bool.eq_false_iff.mpr hfree)
  | reading =>
      cases hstep
      split
      case isTrue hset => exact .refuse hpc hset
      case isFalse hopen => exact .proceed hpc (Bool.eq_false_iff.mpr hopen)
  | adding =>
      cases hstep
      exact .add hpc
  | sending =>
      dsimp only at hstep
      rw [if_neg (Bool.eq_false_iff.mp (h.jobsClosed_of_sending hpc))] at hstep
      split at hstep
      case isTrue hroom =>
        cases hstep
        exact .send hpc hroom
      · cases hstep
  | unlocking =>
      cases hstep
      exact .runlock hpc
  | dropping =>
      cases hstep
      exact .drop hpc
  | enqueued => cases hstep
  | dropped => cases hstep

theorem moves_shutdown (h : Inv st) {s : S} (hstep : st.shutdownStep s = some st') :
    Moves fails st (.shutdown s) st' := by
  rw [shutdownStep] at hstep
  generalize hpc : st.shutdown s = pc at hstep
  obtain ⟨hjobs, hquit, herrors⟩ := h.open_of_closes pc hpc
  cases pc with
  | start =>
      dsimp only at hstep
      split at hstep
      · cases hstep
      case isFalse hfree =>
        cases hstep
        exact .announce hpc (Bool.eq_false_iff.mpr hfree)
  | locking =>
      dsimp only at hstep
      split at hstep
      case isTrue hnone =>
        cases hstep
        exact .lock hpc hnone
      · cases hstep
  | locked =>
      dsimp only at hstep
      split at hstep
      case isTrue hset =>
        cases hstep
        exact .ignore hpc hset
      case isFalse hopen =>
        cases hstep
        exact .close hpc (Bool.eq_false_iff.mpr hopen)
  | closing =>
      dsimp only at hstep
      rw [if_neg (Bool.eq_false_iff.mp (hjobs rfl))] at hstep
      cases hstep
      exact .closeJobs hpc (hjobs rfl)
  | unlocking =>
      cases hstep
      exact .unlock hpc
  | leaving =>
      cases hstep
      exact .leave hpc
  | waiting =>
      dsimp only at hstep
      split at hstep
      case isTrue hzero =>
        cases hstep
        exact .wait hpc hzero
      · cases hstep
  | closingQuit =>
      dsimp only at hstep
      rw [if_neg (Bool.eq_false_iff.mp (hquit rfl))] at hstep
      cases hstep
      exact .closeQuit hpc (hquit rfl)
  | closingErrors =>
      dsimp only at hstep
      rw [if_neg (Bool.eq_false_iff.mp (herrors rfl))] at hstep
      cases hstep
      exact .closeErrors hpc (herrors rfl)
  | returned => cases hstep
  | ignored => cases hstep

theorem moves_worker (h : Inv st) {w : Fin workers} (hstep : st.workerStep fails w = some st') :
    Moves fails st (.worker w) st' := by
  rw [workerStep] at hstep
  generalize hpc : st.worker w = pc at hstep
  cases pc with
  | selecting =>
      dsimp only at hstep
      split at hstep
      case h_1 job rest hjobs =>
        cases hstep
        exact .receive hpc hjobs
      case h_2 hjobs =>
        split at hstep
        case isTrue hset =>
          cases hstep
          exact .exit hpc hjobs hset
        · cases hstep
  | running job =>
      cases hstep
      split
      case isTrue hfails => exact .fail hpc hfails
      case isFalse hfails => exact .succeed hpc (Bool.eq_false_iff.mpr hfails)
  | reporting job =>
      dsimp only at hstep
      rw [if_neg (Bool.eq_false_iff.mp (h.errorClosed_of_reporting hpc))] at hstep
      split at hstep
      case isTrue hroom =>
        cases hstep
        exact .report hpc hroom
      · cases hstep
  | finishing job =>
      have hpos : st.wg ≠ 0 := h.wg_of_carries (w := w) (by rw [hpc]; rfl)
      dsimp only at hstep
      rw [if_neg hpos] at hstep
      cases hstep
      exact .done hpc hpos
  | exited => cases hstep

theorem moves_of_step (h : Inv st) (hstep : step fails st a = some st') :
    Moves fails st a st' := by
  have hgo : ¬st.panicked = true := Bool.eq_false_iff.mp h.panicked
  cases a with
  | enqueue e =>
      rw [step, if_neg hgo] at hstep
      exact moves_enqueue h hstep
  | shutdown s =>
      rw [step, if_neg hgo] at hstep
      exact moves_shutdown h hstep
  | worker w =>
      rw [step, if_neg hgo] at hstep
      exact moves_worker h hstep
  | quit w =>
      rw [step, if_neg hgo, quitStep] at hstep
      split at hstep
      case h_1 hpc =>
        split at hstep
        case isTrue hset =>
          cases hstep
          exact .quit hpc hset
        · cases hstep
      · cases hstep
  | takeError =>
      rw [step] at hstep
      split at hstep
      · cases hstep
      case isFalse hpos =>
        cases hstep
        exact .takeError (not_or.mp hpos).2

/-! ### Every step keeps the invariant -/

theorem Inv.moves_enqueue {e : E} (h : Inv st) (hm : Moves fails st (.enqueue e) st') :
    Inv st' := by
  have hle := ShutdownPc.tallies_le st.shutdown
  have ⟨_, hreaders, hwriter, hexcluded, hclosed, hjobs, _, _, _, hadmitted, hrefused, hwaited,
    hwg, hexits⟩ := h
  cases hm with
  | rlock hpc hfree =>
      have hmove := EnqueuePc.tallies hpc .reading
      have hfree' := Bool.toNat_eq_zero.mpr hfree
      simp at hmove
      apply h.setEnqueue <;> omega
  | refuse hpc hset =>
      have hmove := EnqueuePc.tallies hpc .dropping
      have hset' := Bool.toNat_eq_one.mpr hset
      simp at hmove
      apply h.setEnqueue <;> omega
  | proceed hpc hopen =>
      have hmove := EnqueuePc.tallies hpc .adding
      have hopen' := Bool.toNat_eq_zero.mpr hopen
      simp at hmove
      apply h.setEnqueue <;> omega
  | add hpc =>
      -- The pool is open, so nobody has waited for the group.
      have hmove := EnqueuePc.tallies hpc .sending
      have hone := le_count EnqueuePc.admitted st.enqueue e
      rw [hpc] at hone
      simp at hmove hone
      apply h.setEnqueue <;> omega
  | send hpc hroom =>
      have hmove := EnqueuePc.tallies hpc .unlocking
      have hone := le_count EnqueuePc.admitted st.enqueue e
      have hlen : (st.jobs ++ [e]).length = st.jobs.length + 1 := List.length_append
      rw [hpc] at hone
      simp at hmove hone
      apply h.setEnqueue <;> omega
  | runlock hpc =>
      have hmove := EnqueuePc.tallies hpc .enqueued
      have hone := le_count EnqueuePc.reads st.enqueue e
      rw [hpc] at hone
      simp at hmove hone
      apply h.setEnqueue <;> omega
  | drop hpc =>
      have hmove := EnqueuePc.tallies hpc .dropped
      have hone := le_count EnqueuePc.reads st.enqueue e
      rw [hpc] at hone
      simp at hmove hone
      apply h.setEnqueue <;> omega

theorem Inv.moves_shutdown {s : S} (h : Inv st) (hm : Moves fails st (.shutdown s) st') :
    Inv st' := by
  have hreads := EnqueuePc.admitted_le_reads st.enqueue
  have hlock := st.writer.toNat_le
  obtain ⟨hpanicked, hreaders, hwriter, hexcluded, hclosed, hjobs, hquit, herror, hrepeated,
    hadmitted, hrefused, hwaited, hwg, hexits⟩ := h
  cases hm with
  | announce hpc hfree =>
      have hmove := ShutdownPc.tallies hpc .locking
      have hfree' := Bool.toNat_eq_zero.mpr hfree
      simp at hmove
      constructor <;> simp only [setShutdown, hmove, Bool.toNat_true] <;> first | assumption | omega
  | lock hpc hnone =>
      have hmove := ShutdownPc.tallies hpc .locked
      simp at hmove
      constructor <;> simp only [setShutdown, hmove] <;> first | assumption | omega
  | ignore hpc hset =>
      have hmove := ShutdownPc.tallies hpc .leaving
      have hset' := Bool.toNat_eq_one.mpr hset
      simp at hmove
      constructor <;> simp only [setShutdown, hmove] <;> first | assumption | omega
  | close hpc hopen =>
      -- The lock is held, so no `Enqueue` has found the pool open.
      have hmove := ShutdownPc.tallies hpc .closing
      have hopen' := Bool.toNat_eq_zero.mpr hopen
      have hone := le_count ShutdownPc.holds st.shutdown s
      rw [hpc] at hone
      simp at hmove hone
      constructor <;> simp only [setShutdown, hmove, Bool.toNat_true] <;> first | assumption | omega
  | closeJobs hpc hopen =>
      have hmove := ShutdownPc.tallies hpc .unlocking
      have hopen' := Bool.toNat_eq_zero.mpr hopen
      simp at hmove
      constructor <;> simp only [setShutdown, hmove, Bool.toNat_true] <;> first | assumption | omega
  | unlock hpc =>
      have hmove := ShutdownPc.tallies hpc .waiting
      simp at hmove
      constructor <;> simp only [setShutdown, hmove, Bool.toNat_false] <;> first | assumption | omega
  | leave hpc =>
      have hmove := ShutdownPc.tallies hpc .ignored
      simp at hmove
      constructor <;> simp only [setShutdown, hmove, Bool.toNat_false] <;> first | assumption | omega
  | wait hpc hzero =>
      have hmove := ShutdownPc.tallies hpc .closingQuit
      simp at hmove
      constructor <;> simp only [setShutdown, hmove] <;> first | assumption | omega
  | closeQuit hpc hopen =>
      have hmove := ShutdownPc.tallies hpc .closingErrors
      have hopen' := Bool.toNat_eq_zero.mpr hopen
      simp at hmove
      constructor <;> simp only [setShutdown, hmove, Bool.toNat_true] <;> first | assumption | omega
  | closeErrors hpc hopen =>
      have hmove := ShutdownPc.tallies hpc .returned
      have hopen' := Bool.toNat_eq_zero.mpr hopen
      simp at hmove
      constructor <;> simp only [setShutdown, hmove, Bool.toNat_true] <;> first | assumption | omega

theorem Inv.moves_worker {w : Fin workers} (h : Inv st) (hm : Moves fails st (.worker w) st') :
    Inv st' := by
  have hwaited := h.waited
  have hwg := h.wg
  have hexits := h.exits
  cases hm with
  | @receive _ job rest hpc hlist =>
      have hmove := WorkerPc.tallies hpc (.running job)
      rw [hlist, List.length_cons] at hwg hexits
      simp at hmove
      apply h.setWorker <;> omega
  | exit hpc hlist hset =>
      have hmove := WorkerPc.tallies hpc .exited
      have hset' := Bool.toNat_eq_one.mpr hset
      have hlen : st.jobs.length = 0 := List.length_eq_zero_iff.mpr hlist
      simp at hmove
      apply h.setWorker <;> omega
  | @fail _ job hpc hfails =>
      have hmove := WorkerPc.tallies hpc (.reporting job)
      simp at hmove
      apply h.setWorker <;> omega
  | @succeed _ job hpc hfails =>
      have hmove := WorkerPc.tallies hpc (.finishing job)
      simp at hmove
      apply h.setWorker <;> omega
  | @report _ job hpc hroom =>
      have hmove := WorkerPc.tallies hpc (.finishing job)
      simp at hmove
      apply h.setWorker <;> omega
  | @done _ job hpc hpos =>
      have hmove := WorkerPc.tallies hpc .selecting
      simp at hmove
      apply h.setWorker <;> omega

theorem Inv.moves_quit {w : Fin workers} (h : Inv st) (hm : Moves fails st (.quit w) st') :
    Inv st' := by
  have hle := ShutdownPc.tallies_le st.shutdown
  have hflag := st.closed.toNat_le
  have ⟨_, _, _, _, hclosed, hjobs, hquit, _, _, _, _, hwaited, hwg, hexits⟩ := h
  cases hm with
  | quit hpc hset =>
      -- The wait is over, so the channel of jobs is closed and empty.
      have hmove := WorkerPc.tallies hpc .exited
      have hset' := Bool.toNat_eq_one.mpr hset
      simp at hmove
      apply h.setWorker <;> omega

theorem Inv.moves (h : Inv st) (hm : Moves fails st a st') : Inv st' := by
  cases a with
  | enqueue e => exact h.moves_enqueue hm
  | shutdown s => exact h.moves_shutdown hm
  | worker w => exact h.moves_worker hm
  | quit w => exact h.moves_quit hm
  | takeError =>
      cases hm
      obtain ⟨⟩ := h
      constructor <;> assumption

theorem inv_step (h : Inv st) (hstep : step fails st a = some st') : Inv st' :=
  h.moves (moves_of_step h hstep)

theorem inv_run {acts : List (Act E S workers)} (hrun : run (step fails) {} acts = some st) :
    Inv st :=
  run_invariant inv_step inv_new hrun

end WorkerPool

end HyperCache
