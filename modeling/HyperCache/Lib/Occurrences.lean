/-
How often a key occurs in lists of entries.

That several lists have distinct keys, each of its own and all of them together,
is that no key occurs twice in them. Moving an entry between the lists is then
addition and subtraction.
-/
import Mathlib.Data.List.Sigma
import Mathlib.Data.List.Count

namespace Occurrences

variable {κ β γ : Type} [DecidableEq κ]

def occurs (k : κ) (xs : List (Σ _ : κ, β)) : Nat := xs.keys.count k

variable {xs : List (Σ _ : κ, β)} {k k' : κ}

@[simp] theorem occurs_nil : occurs k ([] : List (Σ _ : κ, β)) = 0 := List.count_nil

theorem occurs_cons (k : κ) (e : Σ _ : κ, β) (xs : List (Σ _ : κ, β)) :
    occurs k (e :: xs) = occurs k xs + if e.1 = k then 1 else 0 := by
  rw [occurs, List.keys_cons, List.count_cons]
  simp [occurs]

theorem occurs_kerase (k' k : κ) (xs : List (Σ _ : κ, β)) :
    occurs k (xs.kerase k') = occurs k xs - if k' = k then 1 else 0 := by
  rw [occurs, List.keys_kerase, List.count_erase]
  simp [occurs]

theorem occurs_dropLast (k : κ) {e : Σ _ : κ, β} (he : xs.getLast? = some e) :
    occurs k xs = occurs k xs.dropLast + if e.1 = k then 1 else 0 := by
  obtain ⟨r, rfl⟩ := List.getLast?_eq_some_iff.mp he
  rw [List.dropLast_concat, occurs, List.keys_append, List.count_append]
  simp [occurs, List.keys, List.count_singleton]

theorem occurs_dropLast_le (k : κ) (xs : List (Σ _ : κ, β)) : occurs k xs.dropLast ≤ occurs k xs :=
  ((List.dropLast_sublist xs).map Sigma.fst).count_le k

theorem occurs_pos : 0 < occurs k xs ↔ k ∈ xs.keys := List.count_pos_iff

theorem occurs_eq_zero : occurs k xs = 0 ↔ k ∉ xs.keys := List.count_eq_zero

/-- Lists of two kinds with distinct keys, among themselves and together. -/
theorem nodup_iff {xs ys : List (Σ _ : κ, β)} {us vs : List (Σ _ : κ, γ)} :
    (xs.keys ++ ys.keys ++ us.keys ++ vs.keys).Nodup ↔
      ∀ k, occurs k xs + occurs k ys + occurs k us + occurs k vs ≤ 1 := by
  rw [List.nodup_iff_count_le_one]
  simp only [List.count_append, occurs]

end Occurrences
