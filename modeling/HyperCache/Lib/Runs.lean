/-
Runs of a state machine given by a step function and a list of actions.

The state after a run is `List.foldl step s actions`.  `Along step Q s actions`
says that `Q` relates each state the run passes through to the action taken
there, and is how a property or a side condition of every step of a run is
stated.
-/
import Mathlib.Logic.Relation

namespace Runs

variable {σ α : Type*} (step : σ → α → σ)

def Along (Q : σ → α → Prop) : σ → List α → Prop
  | _, [] => True
  | s, a :: rest => Q s a ∧ Along Q (step s a) rest

variable {step} {Q : σ → α → Prop}

theorem along_append {s : σ} {as bs : List α} :
    Along step Q s (as ++ bs) ↔ Along step Q s as ∧ Along step Q (as.foldl step s) bs := by
  induction as generalizing s with
  | nil => simp [Along]
  | cons a rest ih =>
      rw [List.cons_append, Along, Along, List.foldl_cons, ih, and_assoc]

theorem along_of_forall {s : σ} {as : List α} (h : ∀ a ∈ as, ∀ s, Q s a) :
    Along step Q s as := by
  induction as generalizing s with
  | nil => trivial
  | cons a rest ih =>
      obtain ⟨ha, hrest⟩ := List.forall_mem_cons.mp h
      exact ⟨ha s, ih hrest⟩

/-- `Q` holds along a run exactly when it holds wherever the run is split. -/
theorem along_iff_split {s : σ} {as : List α} :
    Along step Q s as ↔ ∀ pre a post, as = pre ++ a :: post → Q (pre.foldl step s) a := by
  refine ⟨fun h pre a post has => ?_, fun h => ?_⟩
  · subst has
    exact (along_append.mp h).2.1
  · induction as generalizing s with
    | nil => trivial
    | cons a rest ih =>
        refine ⟨h [] a rest rfl, ih (fun pre b post hrest => ?_)⟩
        exact h (a :: pre) b post (by rw [hrest]; rfl)

/-- An invariant that every step satisfying `Q` keeps holds after every run along
which `Q` holds. -/
theorem Along.invariant {I : σ → Prop} (hstep : ∀ s a, I s → Q s a → I (step s a)) {s : σ}
    {as : List α} (h : Along step Q s as) (hs : I s) : I (as.foldl step s) := by
  induction as generalizing s with
  | nil => exact hs
  | cons a rest ih => exact ih h.2 (hstep s a hs h.1)

/-- What follows from an invariant of every step holds along every run. -/
theorem along_of_invariant {I : σ → Prop} (hstep : ∀ s a, I s → I (step s a))
    (hI : ∀ s a, I s → Q s a) {s : σ} (hs : I s) (as : List α) : Along step Q s as := by
  induction as generalizing s with
  | nil => trivial
  | cons a rest ih => exact ⟨hI s a hs, ih (hstep s a hs)⟩

/-- What agrees under an invariant agrees along every run. -/
theorem along_congr {I : σ → Prop} {Q' : σ → α → Prop} (hstep : ∀ s a, I s → I (step s a))
    (hQ : ∀ s a, I s → (Q s a ↔ Q' s a)) {s : σ} (hs : I s) (as : List α) :
    Along step Q s as ↔ Along step Q' s as := by
  induction as generalizing s with
  | nil => exact Iff.rfl
  | cons a rest ih => exact and_congr (hQ s a hs) (ih (hstep s a hs))

/-- Where a step keeps an invariant exactly under `Q`, the invariant holds after every
step of a run exactly when `Q` holds along it. -/
theorem along_invariant_iff {I : σ → Prop} (hstep : ∀ s a, I s → (I (step s a) ↔ Q s a)) {s : σ}
    {as : List α} (hs : I s) :
    Along step (fun s a => I (step s a)) s as ↔ Along step Q s as := by
  induction as generalizing s with
  | nil => exact Iff.rfl
  | cons a rest ih =>
      rw [Along, Along]
      constructor
      · rintro ⟨ha, hrest⟩
        exact ⟨(hstep s a hs).mp ha, (ih ha).mp hrest⟩
      · rintro ⟨hq, hrest⟩
        have ha : I (step s a) := (hstep s a hs).mpr hq
        exact ⟨ha, (ih ha).mpr hrest⟩

/-- A run and its image under a map that commutes with the steps. -/
theorem along_map {τ : Type*} {f : σ → τ} {step' : τ → α → τ}
    (hf : ∀ s a, f (step s a) = step' (f s) a) {Q : τ → α → Prop} {s : σ} {as : List α} :
    Along step (fun s a => Q (f s) a) s as ↔ Along step' Q (f s) as := by
  induction as generalizing s with
  | nil => exact Iff.rfl
  | cons a rest ih => rw [Along, Along, ih, hf]

/-- A quantity that never falls ends where it began exactly when no step raises it. -/
theorem foldl_eq_iff_along {g : σ → Int}
    (hstep : ∀ s a, g s ≤ g (step s a) ∧ (g (step s a) = g s ↔ Q s a)) (s : σ) (as : List α) :
    g s ≤ g (as.foldl step s) ∧ (g (as.foldl step s) = g s ↔ Along step Q s as) := by
  induction as generalizing s with
  | nil => exact ⟨Int.le_refl _, iff_of_true rfl trivial⟩
  | cons a rest ih =>
      obtain ⟨hle, hiff⟩ := hstep s a
      obtain ⟨hle', hiff'⟩ := ih (step s a)
      rw [List.foldl_cons, Along, ← hiff, ← hiff']
      omega

/-- A preorder holds across every step of a run exactly when it holds between any
two of its states, the earlier first. -/
theorem along_iff_between {r : σ → σ → Prop} (hrefl : ∀ s, r s s)
    (htrans : ∀ {s t u}, r s t → r t u → r s u) {s : σ} {as : List α} :
    Along step (fun s a => r s (step s a)) s as ↔
      ∀ pre mid post, as = pre ++ mid ++ post →
        r (pre.foldl step s) ((pre ++ mid).foldl step s) := by
  refine ⟨fun h pre mid post has => ?_, fun h => ?_⟩
  · subst has
    have hmid := (along_append.mp (along_append.mp h).1).2
    rw [List.foldl_append]
    exact hmid.invariant (I := r (pre.foldl step s))
      (fun t a hst hr => htrans hst hr) (hrefl _)
  · induction as generalizing s with
    | nil => trivial
    | cons a rest ih =>
        refine ⟨h [] [a] rest rfl, ih (fun pre mid post hrest => ?_)⟩
        exact h (a :: pre) mid post (by rw [hrest]; rfl)

/-- What every step of a relation keeps, any number of steps keeps. -/
theorem reflTransGen_inv {r : σ → σ → Prop} {I : σ → Prop} (hstep : ∀ s t, I s → r s t → I t)
    {s t : σ} (h : Relation.ReflTransGen r s t) (hs : I s) : I t := by
  induction h with
  | refl => exact hs
  | tail _ hlast ih => exact hstep _ _ ih hlast

end Runs
