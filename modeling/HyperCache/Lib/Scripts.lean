/-
Parties that apply atomic operations to a shared object.

Every party has a script, the operations it applies in order.  A schedule says whose turn it
is, and the operation of that turn is applied at once.  The log keeps the operations in the
order of their turns, with what each of them answered.
-/
import HyperCache.Lib.Interleaving

namespace Scripts

variable {ι σ ω ρ : Type}

structure State (ι σ ω ρ : Type) where
  shared : σ
  pc : ι → Nat := fun _ => 0
  log : List (ι × ω × ρ) := []

namespace State

def answers (st : State ι σ ω ρ) : List ρ := st.log.map (fun e => e.2.2)

/-- The party applies an operation. -/
def turn [DecidableEq ι] (apply : σ → ω → σ × ρ) (st : State ι σ ω ρ) (i : ι) (op : ω) :
    State ι σ ω ρ where
  shared := (apply st.shared op).1
  pc := Function.update st.pc i (st.pc i + 1)
  log := st.log ++ [(i, op, (apply st.shared op).2)]

end State

variable [DecidableEq ι] {apply : σ → ω → σ × ρ} {script : ι → List ω}

/-- The party whose turn it is applies the next operation of its script. -/
def step (apply : σ → ω → σ × ρ) (script : ι → List ω) (st : State ι σ ω ρ) (i : ι) :
    Option (State ι σ ω ρ) :=
  (script i)[st.pc i]?.map (st.turn apply i)

/-- A party has turns until its script is at its end. -/
theorem step_eq_none_iff {st : State ι σ ω ρ} {i : ι} :
    step apply script st i = none ↔ (script i).length ≤ st.pc i := by
  rw [step, Option.map_eq_none_iff, List.getElem?_eq_none_iff]

theorem step_eq_some {st st' : State ι σ ω ρ} {i : ι} (h : step apply script st i = some st') :
    ∃ op, (script i)[st.pc i]? = some op ∧ st.turn apply i op = st' :=
  Option.map_eq_some_iff.mp h

end Scripts
