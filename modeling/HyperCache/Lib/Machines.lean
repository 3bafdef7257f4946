/-
Machines whose steps give a reply and may fail.

`run` gives the state and the replies after a list of actions, or nothing where a
step fails. A simulation between two machines carries over to whole runs.
-/
import Mathlib.Logic.Relation

namespace Machines

variable {σ τ α α' ρ : Type*}

def run (exec : σ → α → Option (σ × ρ)) : σ → List α → Option (σ × List ρ)
  | s, [] => some (s, [])
  | s, a :: rest => do
      let (s, r) ← exec s a
      let (s, rs) ← run exec s rest
      some (s, r :: rs)

variable {exec : σ → α → Option (σ × ρ)} {exec' : τ → α' → Option (τ × ρ)}

theorem run_cons {s s' t : σ} {a : α} {r : ρ} {rest : List α} {rs : List ρ}
    (ha : exec s a = some (s', r)) (hrest : run exec s' rest = some (t, rs)) :
    run exec s (a :: rest) = some (t, r :: rs) := by
  rw [run, ha]
  simp [hrest]

/-- Machines that reply alike in related states, and stay related, reply alike in every
run. The actions of the second are those of the first under `g`. -/
theorem run_sim {R : σ → τ → Prop} {g : α → α'}
    (hstep : ∀ s t a, R s t → ∃ s' t' r,
      exec s a = some (s', r) ∧ exec' t (g a) = some (t', r) ∧ R s' t')
    {s : σ} {t : τ} (h : R s t) (as : List α) :
    ∃ s' t' rs, run exec s as = some (s', rs) ∧ run exec' t (as.map g) = some (t', rs) ∧
      R s' t' := by
  induction as generalizing s t with
  | nil => exact ⟨s, t, [], rfl, rfl, h⟩
  | cons a rest ih =>
      obtain ⟨s', t', r, hs, ht, hR⟩ := hstep s t a h
      obtain ⟨s'', t'', rs, hs', ht', hR'⟩ := ih hR
      exact ⟨s'', t'', r :: rs, run_cons hs hs', run_cons ht ht', hR'⟩

/-- No step of the run fails, and `Q` relates each state the run passes through to the
action taken there. -/
def Along (exec : σ → α → Option (σ × ρ)) (Q : σ → α → Prop) : σ → List α → Prop
  | _, [] => True
  | s, a :: rest => Q s a ∧ ∃ s' r, exec s a = some (s', r) ∧ Along exec Q s' rest

theorem along_sim {R : σ → τ → Prop} {g : α → α'} {Q : σ → α → Prop} {Q' : τ → α' → Prop}
    (hstep : ∀ s t a, R s t → ∃ s' t' r,
      exec s a = some (s', r) ∧ exec' t (g a) = some (t', r) ∧ R s' t')
    (hQ : ∀ s t a, R s t → (Q s a ↔ Q' t (g a))) {s : σ} {t : τ} (h : R s t) (as : List α) :
    Along exec Q s as ↔ Along exec' Q' t (as.map g) := by
  induction as generalizing s t with
  | nil => exact Iff.rfl
  | cons a rest ih =>
      obtain ⟨s', t', r, hs, ht, hR⟩ := hstep s t a h
      rw [List.map_cons, Along, Along, hQ s t a h, hs, ht]
      simp only [Option.some.injEq, Prod.mk.injEq, and_assoc, exists_and_left, exists_eq_left',
        ih hR]

/-- What agrees under an invariant agrees along every run of admissible actions. -/
theorem along_congr {J : σ → Prop} {A : α → Prop} {Q Q' : σ → α → Prop}
    (hstep : ∀ s a, J s → A a → ∃ s' r, exec s a = some (s', r) ∧ J s')
    (hQ : ∀ s a, J s → A a → (Q s a ↔ Q' s a)) {s : σ} (hs : J s) {as : List α}
    (has : ∀ a ∈ as, A a) : Along exec Q s as ↔ Along exec Q' s as := by
  induction as generalizing s with
  | nil => exact Iff.rfl
  | cons a rest ih =>
      obtain ⟨ha, hrest⟩ := List.forall_mem_cons.mp has
      obtain ⟨s', r, hexec, hs'⟩ := hstep s a hs ha
      rw [Along, Along, hQ s a hs ha, hexec]
      simp only [Option.some.injEq, Prod.mk.injEq, and_assoc, exists_and_left, exists_eq_left',
        ih hs' hrest]

/-- Where a step keeps a bound exactly under `Q`, the bound holds after every step of a run
exactly when `Q` holds along it. -/
theorem along_bound_iff {J I : σ → Prop} {Q : σ → α → Prop}
    (hstep : ∀ s a, J s → I s → ∃ s' r, exec s a = some (s', r) ∧ J s' ∧ (I s' ↔ Q s a))
    {s : σ} (hs : J s) (hI : I s) (as : List α) :
    Along exec (fun s a => ∀ s' r, exec s a = some (s', r) → I s') s as ↔ Along exec Q s as := by
  induction as generalizing s with
  | nil => exact Iff.rfl
  | cons a rest ih =>
      obtain ⟨s', r, hexec, hs', hiff⟩ := hstep s a hs hI
      rw [Along, Along, hexec]
      simp only [Option.some.injEq, Prod.mk.injEq, and_assoc, exists_and_left, exists_eq_left',
        and_imp]
      constructor
      · rintro ⟨hI', hrest⟩
        have hI' := hI' s' r rfl rfl
        exact ⟨hiff.mp hI', (ih hs' hI').mp hrest⟩
      · rintro ⟨hq, hrest⟩
        have hI' := hiff.mpr hq
        exact ⟨fun _ _ h _ => h ▸ hI', (ih hs' hI').mpr hrest⟩

end Machines
