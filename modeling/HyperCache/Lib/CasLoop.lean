/-
Registers that parties move to their values by compare-and-swap.

Each party loads the register and stops where the register is good enough for its own
value.  Otherwise it tries to swap its value in, and loads anew if the register has
changed since.  `keeps r v` says that a register `r` need not move for the value `v`, so
that the order `≤` makes a minimum of the register and its converse a maximum.

What the parties that have stopped know of the register does not depend on the schedule.
A party goes back to its load only after another one has stopped, and `cost` pays for
that.
-/
import Mathlib.Order.Defs.Unbundled

namespace CasLoop

variable {α : Type} (keeps : α → α → Prop)

/-! ## What is known of the register -/

/-- The register is good enough for the parties that have stopped, and it holds a value of
a party if it has moved at all. -/
structure Settled {ι : Type} (value : ι → α) (start r : α) (done : ι → Prop) : Prop where
  kept : ∀ i, done i → keeps r (value i)
  origin : r = start ∨ ∃ i, r = value i

section

variable {keeps} {ι : Type} {value : ι → α} {start r : α} {done done' : ι → Prop}

theorem settled_start (hnone : ∀ i, ¬done i) : Settled keeps value start start done :=
  ⟨fun i hi => absurd hi (hnone i), Or.inl rfl⟩

theorem Settled.stop (h : Settled keeps value start r done) {i : ι} (hi : keeps r (value i))
    (hdone : ∀ j, done' j → done j ∨ j = i) : Settled keeps value start r done' where
  kept j hj := by
    rcases hdone j hj with hj | rfl
    · exact h.kept j hj
    · exact hi
  origin := h.origin

variable [IsLinearOrder α keeps]

theorem Settled.swap (h : Settled keeps value start r done) {i : ι} (hi : ¬keeps r (value i))
    (hdone : ∀ j, done' j → done j ∨ j = i) : Settled keeps value start (value i) done' where
  kept j hj := by
    have hbetter : keeps (value i) r := (Std.Total.total (value i) r).resolve_right hi
    rcases hdone j hj with hj | rfl
    · exact IsTrans.trans _ _ _ hbetter (h.kept j hj)
    · exact Std.Refl.refl _
  origin := Or.inr ⟨i, rfl⟩

/-- Once every party has stopped, the register holds the best of their values. -/
theorem Settled.best (h : Settled keeps value start r done) (hall : ∀ i, done i)
    (hworst : ∀ v, keeps v start) (i : ι) : ∃ j, r = value j := by
  rcases h.origin with heq | hvalue
  · refine ⟨i, Std.Antisymm.antisymm _ _ (h.kept i (hall i)) ?_⟩
    rw [heq]
    exact hworst _
  · exact hvalue

end

/-! ## The steps of a party -/

inductive Pc (α : Type) where
  | load
  | cas (cur : α)
  deriving DecidableEq

/-- The party was right to try the swap. -/
def Due (value : α) : Pc α → Prop
  | .load => True
  | .cas cur => ¬keeps cur value

variable [DecidableEq α]

/-- How many more steps of the party are paid for, with `rivals` parties that may still move
the register. -/
def cost (rivals : Nat) (r : α) : Pc α → Nat
  | .load => 2 * rivals + 1
  | .cas cur => if r = cur then 2 * rivals else 2 * rivals + 2

/-- A party that stops pays for the step that another one loses by it. -/
theorem cost_le (rivals : Nat) (r r' : α) (pc : Pc α) :
    cost rivals r' pc ≤ cost (rivals + 1) r pc := by
  cases pc with
  | load =>
      rw [cost, cost]
      omega
  | cas cur =>
      rw [cost, cost]
      split <;> split <;> omega

variable [DecidableRel keeps]

/-- One atomic step: the register after it, and where the party goes on if it has not
stopped. -/
def step (value r : α) : Pc α → α × Option (Pc α)
  | .load => (r, if keeps r value then none else some (.cas r))
  | .cas cur => if r = cur then (value, none) else (r, some .load)

variable {keeps}

/-- A step stops at a register that is good enough, moves the register and stops, or goes
on. -/
theorem step_cases {value r : α} {pc : Pc α} (hdue : Due keeps value pc) :
    (step keeps value r pc = (r, none) ∧ keeps r value) ∨
      (step keeps value r pc = (value, none) ∧ ¬keeps r value) ∨
      ∃ pc', step keeps value r pc = (r, some pc') ∧ Due keeps value pc' ∧
        ∀ rivals, cost rivals r pc' < cost rivals r pc := by
  cases pc with
  | load =>
      rw [step]
      by_cases h : keeps r value
      · rw [if_pos h]
        exact Or.inl ⟨rfl, h⟩
      · rw [if_neg h]
        refine Or.inr (Or.inr ⟨.cas r, rfl, h, fun rivals => ?_⟩)
        rw [cost, cost, if_pos rfl]
        omega
  | cas cur =>
      rw [step]
      by_cases h : r = cur
      · subst h
        rw [if_pos rfl]
        exact Or.inr (Or.inl ⟨rfl, hdue⟩)
      · rw [if_neg h]
        refine Or.inr (Or.inr ⟨.load, rfl, trivial, fun rivals => ?_⟩)
        rw [cost, cost, if_neg h]
        omega

end CasLoop
