/-
Sorting a list by a key.

A library sort that is not stable is only known to return its input in some
order that is sorted by the key.  Any two such sorts agree on the sequence of
keys.
-/
import Mathlib.Data.List.Sort

namespace Sorting

variable {α κ : Type} [LinearOrder κ]

structure SortBy (f : α → κ) where
  sort : List α → List α
  perm : ∀ l, (sort l).Perm l
  sorted : ∀ l, (sort l).Pairwise (fun a b => f a ≤ f b)

namespace SortBy

def insertion (f : α → κ) : SortBy f where
  sort := List.insertionSort (fun a b => f a ≤ f b)
  perm := List.perm_insertionSort _
  sorted l :=
    haveI : Std.Total (fun a b : α => f a ≤ f b) := ⟨fun a b => le_total (f a) (f b)⟩
    haveI : IsTrans α (fun a b => f a ≤ f b) := ⟨fun _ _ _ => le_trans⟩
    List.pairwise_insertionSort _ l

theorem map_eq {f : α → κ} (s t : SortBy f) (l : List α) :
    (s.sort l).map f = (t.sort l).map f := by
  have hperm : ((s.sort l).map f).Perm ((t.sort l).map f) :=
    ((s.perm l).trans (t.perm l).symm).map _
  have hsort : ∀ u : SortBy f, ((u.sort l).map f).Pairwise (· ≤ ·) :=
    fun u => List.pairwise_map.mpr (u.sorted l)
  exact hperm.eq_of_pairwise (fun _ _ _ _ => le_antisymm) (hsort s) (hsort t)

/-- Where the keys differ there is only one sorted arrangement. -/
theorem eq_sort {f : α → κ} (s : SortBy f) {l l' : List α} (hperm : l'.Perm l)
    (hsorted : l'.Pairwise (fun a b => f a ≤ f b))
    (hinj : ∀ a ∈ l, ∀ b ∈ l, f a = f b → a = b) : l' = s.sort l := by
  refine (hperm.trans (s.perm l).symm).eq_of_pairwise (fun a b ha hb hab hba => ?_) hsorted
    (s.sorted l)
  exact hinj a (hperm.mem_iff.mp ha) b ((s.perm l).mem_iff.mp hb) (le_antisymm hab hba)

/-- Every sorted arrangement of a list is the output of some sort. -/
theorem exists_sort_eq [DecidableEq α] {f : α → κ} {l l' : List α} (hperm : l'.Perm l)
    (hsorted : l'.Pairwise (fun a b => f a ≤ f b)) : ∃ s : SortBy f, s.sort l = l' := by
  refine ⟨⟨fun x => if x = l then l' else (insertion f).sort x, ?_, ?_⟩, if_pos rfl⟩
  · intro x
    by_cases h : x = l
    · rw [if_pos h, h]
      exact hperm
    · rw [if_neg h]
      exact (insertion f).perm x
  · intro x
    by_cases h : x = l
    · rw [if_pos h]
      exact hsorted
    · rw [if_neg h]
      exact (insertion f).sorted x

end SortBy

end Sorting
