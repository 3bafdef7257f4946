/-
Binary search for the first index at which a test succeeds.

The loop halves an interval that holds the answer.  On a list along which the
test, once it succeeds, goes on succeeding, it finds the same index as a scan from
the front.
-/
import Mathlib.Data.List.Basic

namespace Search

/-- The first index from `i` below `j` at which `f` succeeds, and `j` if there is none. -/
def search (f : Nat → Bool) (i j : Nat) : Nat :=
  if i < j then
    if f ((i + j) / 2) then search f i ((i + j) / 2) else search f ((i + j) / 2 + 1) j
  else i
  termination_by j - i

/-- The test fails before the answer and succeeds from there on, as it does around the
interval. -/
theorem search_spec {f : Nat → Bool} {n : Nat}
    (hmono : ∀ a b, a ≤ b → b < n → f a = true → f b = true) {i j : Nat} (hij : i ≤ j)
    (hj : j ≤ n) (hbelow : ∀ a, a < i → f a = false)
    (habove : ∀ a, j ≤ a → a < n → f a = true) :
    search f i j ≤ n ∧ (∀ a, a < search f i j → f a = false) ∧
      ∀ a, search f i j ≤ a → a < n → f a = true := by
  induction i, j using search.induct f with
  | case1 i j hlt htest ih =>
      rw [search, if_pos hlt, if_pos htest]
      refine ih (by omega) (by omega) hbelow (fun a ha han => ?_)
      exact hmono _ a ha han htest
  | case2 i j hlt htest ih =>
      rw [search, if_pos hlt, if_neg htest]
      refine ih (by omega) hj (fun a ha => ?_) habove
      refine Bool.eq_false_iff.mpr (fun hsucceeds => htest ?_)
      exact hmono a _ (by omega) (by omega) hsucceeds
  | case3 i j hlt =>
      have heq : i = j := by omega
      rw [search, if_neg hlt]
      exact ⟨by omega, hbelow, fun a ha han => habove a (by omega) han⟩

theorem search_eq_findIdx {α : Type} {p : α → Bool} {l : List α}
    (h : l.Pairwise (fun a b => p a = true → p b = true)) :
    search (fun i => l[i]?.any p) 0 l.length = l.findIdx p := by
  have hmono : ∀ a b, a ≤ b → b < l.length → l[a]?.any p = true → l[b]?.any p = true := by
    intro a b hab hb ha
    rcases Nat.eq_or_lt_of_le hab with heq | hlt
    · exact heq ▸ ha
    · have hstep := List.pairwise_iff_getElem.mp h a b (by omega) hb hlt
      rw [List.getElem?_eq_getElem (by omega)] at ha
      rw [List.getElem?_eq_getElem hb]
      exact hstep ha
  obtain ⟨hle, hbelow, habove⟩ := search_spec hmono (Nat.zero_le _) (Nat.le_refl _)
    (fun a ha => absurd ha (Nat.not_lt_zero a)) (fun a ha han => absurd han (Nat.not_lt.mpr ha))
  generalize search (fun i => l[i]?.any p) 0 l.length = k at hle hbelow habove
  rcases Nat.eq_or_lt_of_le hle with heq | hlt
  · subst heq
    refine (List.findIdx_eq_length.mpr (fun x hx => ?_)).symm
    obtain ⟨i, hi, rfl⟩ := List.mem_iff_getElem.mp hx
    have hi' := hbelow i hi
    rwa [List.getElem?_eq_getElem hi] at hi'
  · refine ((List.findIdx_eq hlt).mpr ⟨?_, fun i hi => ?_⟩).symm
    · have hk := habove k (Nat.le_refl k) hlt
      rwa [List.getElem?_eq_getElem hlt] at hk
    · have hi' := hbelow i hi
      rwa [List.getElem?_eq_getElem (by omega)] at hi'

end Search
