/-
Folding pointwise updates over distinct indices.

A fan-out visits a list of distinct indices and updates each from its own value.
The order of the visits does not matter: every listed index ends at its update
and every other index keeps its value.
-/
import Mathlib.Data.List.Nodup
import Mathlib.Logic.Function.Basic

namespace Pointwise

variable {ι α : Type} [DecidableEq ι]

/-- A value of an updated function is the new one or an old one. -/
theorem update_cases {w : ι → α} {i j : ι} {a b : α} (h : Function.update w i a j = b) :
    j = i ∧ a = b ∨ j ≠ i ∧ w j = b := by
  by_cases hj : j = i
  · rw [hj, Function.update_self] at h
    exact Or.inl ⟨hj, h⟩
  · rw [Function.update_of_ne hj] at h
    exact Or.inr ⟨hj, h⟩

def modify (w : ι → α) (i : ι) (f : α → α) : ι → α := Function.update w i (f (w i))

@[simp] theorem modify_self (w : ι → α) (i : ι) (f : α → α) : modify w i f i = f (w i) := by
  rw [modify, Function.update_self]

theorem modify_ne (w : ι → α) {i j : ι} (f : α → α) (h : j ≠ i) : modify w i f j = w j := by
  rw [modify, Function.update_of_ne h]

theorem modify_id (w : ι → α) (i : ι) : modify w i (fun a => a) = w := by
  rw [modify, Function.update_eq_self]

theorem modify_apply (w : ι → α) (i j : ι) (f : α → α) :
    modify w i f j = if j = i then f (w j) else w j := by
  by_cases h : j = i
  · subst h
    rw [modify_self, if_pos rfl]
  · rw [modify_ne w f h, if_neg h]

/-- An update seen through a projection is the projected update. -/
theorem comp_modify {β : Type} (g : α → β) (w : ι → α) (i : ι) {f : α → α} (f' : β → β)
    (h : g (f (w i)) = f' (g (w i))) :
    (fun j => g (modify w i f j)) = modify (fun j => g (w j)) i f' := by
  funext j
  by_cases hj : j = i
  · subst hj
    rw [modify_self, modify_self, h]
  · rw [modify_ne _ _ hj, modify_ne _ _ hj]

theorem foldl_modify_apply (g : ι → α → α) {l : List ι} (hl : l.Nodup) (w : ι → α) (i : ι) :
    (l.foldl (fun w j => modify w j (g j)) w) i = if i ∈ l then g i (w i) else w i := by
  induction l generalizing w with
  | nil => rfl
  | cons j rest ih =>
      obtain ⟨hj, hrest⟩ := List.nodup_cons.mp hl
      rw [List.foldl_cons, ih hrest]
      by_cases hij : i = j
      · subst hij
        rw [if_neg hj, if_pos List.mem_cons_self, modify_self]
      · have hmem : i ∈ j :: rest ↔ i ∈ rest := by simp [hij]
        simp only [hmem, modify_ne w (g j) hij]

theorem foldl_modify_of_notMem (g : ι → α → α) {l : List ι} {i : ι} (hi : i ∉ l) (w : ι → α) :
    (l.foldl (fun w j => modify w j (g j)) w) i = w i := by
  induction l generalizing w with
  | nil => rfl
  | cons j rest ih =>
      have hij : i ≠ j := fun h => hi (h ▸ List.mem_cons_self)
      have hrest : i ∉ rest := fun h => hi (List.mem_cons_of_mem j h)
      rw [List.foldl_cons, ih hrest, modify_ne w (g j) hij]

/-- What the update at `i` keeps holds at `i` after any sequence of updates. -/
theorem foldl_modify_inv {I : α → Prop} (g : ι → α → α) {i : ι} (hg : ∀ a, I a → I (g i a))
    (l : List ι) (w : ι → α) (h : I (w i)) :
    I ((l.foldl (fun w j => modify w j (g j)) w) i) := by
  induction l generalizing w with
  | nil => exact h
  | cons j rest ih =>
      refine ih (modify w j (g j)) ?_
      rw [modify_apply]
      split
      · subst_vars
        exact hg _ h
      · exact h

/-- What the update at `i` always establishes holds at `i` once the updates have visited it. -/
theorem foldl_modify_of_mem {P : α → Prop} (g : ι → α → α) {i : ι} (hg : ∀ a, P (g i a))
    {l : List ι} (hi : i ∈ l) (w : ι → α) :
    P ((l.foldl (fun w j => modify w j (g j)) w) i) := by
  induction l generalizing w with
  | nil => cases hi
  | cons j rest ih =>
      rw [List.foldl_cons]
      by_cases hrest : i ∈ rest
      · exact ih hrest (modify w j (g j))
      · obtain rfl : i = j := (List.mem_cons.mp hi).resolve_right hrest
        rw [foldl_modify_of_notMem g hrest, modify_self]
        exact hg (w i)

end Pointwise
