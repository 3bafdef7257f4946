/-
Interleavings of the steps of several parties.

An action is enabled in the states where the step function takes it to a state, and
a run takes every one of its actions where it is enabled.  An invariant may mention
the actions taken so far.  A measure that every step lowers lets every state run
into one where nothing is enabled.
-/
import Mathlib.Data.List.Induction

namespace Interleaving

variable {σ α : Type*} (step : σ → α → Option σ)

def run : σ → List α → Option σ
  | s, [] => some s
  | s, a :: rest => (step s a).bind (fun s' => run s' rest)

/-- Every action of a run meets a condition on the state it is taken in. -/
def Always (Q : σ → α → Prop) : σ → List α → Prop
  | _, [] => True
  | s, a :: rest => Q s a ∧ ∀ s' ∈ step s a, Always Q s' rest

variable {step}

instance Always.decidable {Q : σ → α → Prop} [∀ s a, Decidable (Q s a)] :
    ∀ s as, Decidable (Always step Q s as)
  | _, [] => isTrue trivial
  | s, a :: rest =>
      haveI (s' : σ) : Decidable (Always step Q s' rest) := decidable s' rest
      inferInstanceAs (Decidable (Q s a ∧ ∀ s' ∈ step s a, Always step Q s' rest))

theorem run_append {s : σ} {as bs : List α} :
    run step s (as ++ bs) = (run step s as).bind (fun s' => run step s' bs) := by
  induction as generalizing s with
  | nil => rfl
  | cons a rest ih =>
      rw [List.cons_append, run, run]
      cases step s a with
      | none => rfl
      | some s' => exact ih

theorem run_concat {s : σ} {as : List α} {a : α} :
    run step s (as ++ [a]) = (run step s as).bind (fun s' => step s' a) := by
  rw [run_append]
  refine congrArg _ (funext fun s' => ?_)
  rw [run]
  cases step s' a <;> rfl

/-- What holds at the start and is kept by every step, given the actions before it, holds after
every run. -/
theorem run_history {I : List α → σ → Prop} {s : σ} (hstart : I [] s)
    (hstep : ∀ {as s a s'}, I as s → step s a = some s' → I (as ++ [a]) s') {as : List α} {s' : σ}
    (h : run step s as = some s') : I as s' := by
  induction as using List.reverseRecOn generalizing s' with
  | nil =>
      cases h
      exact hstart
  | append_singleton as a ih =>
      rw [run_concat, Option.bind_eq_some_iff] at h
      obtain ⟨t, ht, ha⟩ := h
      exact hstep (ih ht) ha

theorem run_invariant {I : σ → Prop} (hstep : ∀ {s a s'}, I s → step s a = some s' → I s')
    {s s' : σ} {as : List α} (hstart : I s) (h : run step s as = some s') : I s' :=
  run_history (I := fun _ => I) hstart hstep h

/-- What every step keeps that meets a condition holds after every run whose steps meet it. -/
theorem run_always {Q : σ → α → Prop} {I : σ → Prop}
    (hstep : ∀ {s a s'}, I s → Q s a → step s a = some s' → I s') {s s' : σ} {as : List α}
    (hstart : I s) (hall : Always step Q s as) (h : run step s as = some s') : I s' := by
  induction as generalizing s with
  | nil =>
      cases h
      exact hstart
  | cons a rest ih =>
      rw [run, Option.bind_eq_some_iff] at h
      obtain ⟨t, ht, hrest⟩ := h
      exact ih (hstep hstart hall.1 ht) (hall.2 t ht) hrest

/-- Where every step of some kind lowers a measure, such steps lead to a state that has none. -/
theorem exists_stuck (step : σ → α → Option σ) (kind : α → Prop) (measure : σ → Nat) {I : σ → Prop}
    (hstep : ∀ {s a s'}, I s → kind a → step s a = some s' → I s' ∧ measure s' < measure s)
    {s : σ} (h : I s) :
    ∃ as s', (∀ a ∈ as, kind a) ∧ run step s as = some s' ∧ I s' ∧
      ∀ a, kind a → step s' a = none := by
  induction hn : measure s using Nat.strongRecOn generalizing s with
  | ind n ih =>
      by_cases hstuck : ∀ a, kind a → step s a = none
      · exact ⟨[], s, fun a ha => absurd ha List.not_mem_nil, rfl, h, hstuck⟩
      · obtain ⟨a, hfree⟩ := not_forall.mp hstuck
        obtain ⟨hkind, hsome⟩ := Classical.not_imp.mp hfree
        obtain ⟨t, ht⟩ := Option.ne_none_iff_exists'.mp hsome
        obtain ⟨hI, hlt⟩ := hstep h hkind ht
        obtain ⟨as, s', has, hrun, hend⟩ := ih (measure t) (hn ▸ hlt) hI rfl
        refine ⟨a :: as, s', List.forall_mem_cons.mpr ⟨hkind, has⟩, ?_, hend⟩
        rw [run, ht]
        exact hrun

end Interleaving
