/-
The contract of a heap package that works through an interface.

The package sees a sequence of elements by index, their order, and three operations:
swap two indices, append an element, drop the last one. What it does beyond that is
which indices it swaps. `Package` is any choice of swaps that meets the documented
contract of `Push`, `Remove` and `Fix`; sorting is one.
-/
import Mathlib.Data.List.Nodup
import Mathlib.Data.List.Perm.Basic
import Mathlib.Order.Lattice

namespace HeapContract

section Swaps

variable {α : Type}

def swapAt (i j : Nat) (l : List α) : List α :=
  match l[i]?, l[j]? with
  | some a, some b => (l.set i b).set j a
  | _, _ => l

theorem swapAt_eq {i j : Nat} {l : List α} {a b : α} (hi : l[i]? = some a) (hj : l[j]? = some b) :
    swapAt i j l = (l.set i b).set j a := by
  rw [swapAt, hi, hj]

theorem getElem?_swapAt {i j : Nat} {l : List α} {a b : α} (hi : l[i]? = some a)
    (hj : l[j]? = some b) (k : Nat) :
    (swapAt i j l)[k]? = if k = j then some a else if k = i then some b else l[k]? := by
  have hilt := (List.getElem?_eq_some_iff.mp hi).1
  have hjlt := (List.getElem?_eq_some_iff.mp hj).1
  rw [swapAt_eq hi hj]
  by_cases hkj : k = j
  · subst hkj
    simp [hjlt]
  · rw [List.getElem?_set_ne (Ne.symm hkj), if_neg hkj]
    by_cases hki : k = i
    · subst hki
      simp [hilt]
    · rw [List.getElem?_set_ne (Ne.symm hki), if_neg hki]

@[simp] theorem length_swapAt (i j : Nat) (l : List α) : (swapAt i j l).length = l.length := by
  rw [swapAt]
  split <;> simp

theorem swapAt_perm (i j : Nat) (l : List α) : (swapAt i j l).Perm l := by
  rw [swapAt]
  split
  · rename_i a b hi hj
    obtain ⟨hilt, rfl⟩ := List.getElem?_eq_some_iff.mp hi
    obtain ⟨hjlt, rfl⟩ := List.getElem?_eq_some_iff.mp hj
    have hperm : (l.toArray.swap i j hilt hjlt).Perm l.toArray := Array.swap_perm hilt hjlt
    simpa [Array.perm_iff_toList_perm, Array.toList_swap] using hperm
  · exact .refl l

theorem swapAt_cons (i j : Nat) (a : α) (l : List α) :
    swapAt (i + 1) (j + 1) (a :: l) = a :: swapAt i j l := by
  simp only [swapAt, List.getElem?_cons_succ]
  split <;> simp_all

def inRange (n : Nat) (script : List (Nat × Nat)) : Prop := ∀ s ∈ script, s.1 < n ∧ s.2 < n

def swapAll (script : List (Nat × Nat)) (l : List α) : List α :=
  script.foldl (fun l s => swapAt s.1 s.2 l) l

theorem swapAll_map_succ (script : List (Nat × Nat)) (a : α) (l : List α) :
    swapAll (script.map fun s => (s.1 + 1, s.2 + 1)) (a :: l) = a :: swapAll script l := by
  induction script generalizing l with
  | nil => rfl
  | cons s rest ih =>
      show swapAll _ (swapAt (s.1 + 1) (s.2 + 1) (a :: l)) = _
      rw [swapAt_cons, ih]
      rfl

/-- Swaps within the range reach every permutation. -/
theorem exists_script {l l' : List α} (h : l.Perm l') :
    ∃ script, inRange l.length script ∧ swapAll script l = l' := by
  induction h with
  | nil => exact ⟨[], by simp [inRange], rfl⟩
  | cons a h ih =>
      obtain ⟨script, hrange, rfl⟩ := ih
      refine ⟨script.map fun s => (s.1 + 1, s.2 + 1), ?_, swapAll_map_succ script a _⟩
      intro s hs
      obtain ⟨s', hs', rfl⟩ := List.mem_map.mp hs
      have := hrange s' hs'
      simp only [List.length_cons]
      omega
  | swap a b l =>
      refine ⟨[(0, 1)], ?_, rfl⟩
      intro s hs
      obtain rfl := List.mem_singleton.mp hs
      simp
  | trans h₁ h₂ ih₁ ih₂ =>
      obtain ⟨script₁, hrange₁, rfl⟩ := ih₁
      obtain ⟨script₂, hrange₂, rfl⟩ := ih₂
      refine ⟨script₁ ++ script₂, ?_, List.foldl_append⟩
      intro s hs
      rcases List.mem_append.mp hs with hs | hs
      · exact hrange₁ s hs
      · have := hrange₂ s hs
        rwa [← h₁.length_eq] at this

end Swaps

section Order

variable {α ρ : Type} [LinearOrder ρ]

/-- No element is before its parent. -/
def Ordered (rank : α → ρ) (l : List α) : Prop :=
  ∀ i j a b, l[i]? = some a → l[j]? = some b → (j = 2 * i + 1 ∨ j = 2 * i + 2) → rank a ≤ rank b

/-- The root is the least element. -/
theorem Ordered.root_le {rank : α → ρ} {l : List α} (h : Ordered rank l) {root : α}
    (hroot : l[0]? = some root) {b : α} (hb : b ∈ l) : rank root ≤ rank b := by
  obtain ⟨j, hj⟩ := List.mem_iff_getElem?.mp hb
  clear hb
  induction j using Nat.strongRecOn generalizing b with
  | _ j ih =>
      cases Nat.eq_zero_or_pos j with
      | inl hzero =>
          rw [hzero, hroot] at hj
          exact le_of_eq (congrArg rank (Option.some.inj hj))
      | inr hpos =>
          have hlt : (j - 1) / 2 < l.length := by
            have := (List.getElem?_eq_some_iff.mp hj).1
            omega
          have hparent := List.getElem?_eq_getElem hlt
          exact le_trans (ih _ (by omega) hparent) (h _ j _ b hparent hj (by omega))

theorem ordered_of_sorted {rank : α → ρ} {l : List α}
    (h : l.Pairwise fun a b => rank a ≤ rank b) : Ordered rank l := by
  intro i j a b ha hb hij
  obtain ⟨hi, rfl⟩ := List.getElem?_eq_some_iff.mp ha
  obtain ⟨hj, rfl⟩ := List.getElem?_eq_some_iff.mp hb
  exact List.pairwise_iff_getElem.mp h i j hi hj (by omega)

end Order

section Packages

variable {σ α ρ : Type} [LinearOrder ρ]

/-- What the package works through. The order of two indices is that of the ranks of their
elements, and none of the three operations changes a rank. -/
structure Interface (σ α ρ : Type) [LT ρ] where
  elems : σ → List α
  rank : σ → α → ρ
  less : Nat → Nat → σ → Bool
  swap : Nat → Nat → σ → σ
  push : α → σ → σ
  pop : σ → σ
  less_iff : ∀ s i j a b, (elems s)[i]? = some a → (elems s)[j]? = some b →
    (less i j s ↔ rank s a < rank s b)
  elems_swap : ∀ s i j, i < (elems s).length → j < (elems s).length →
    elems (swap i j s) = swapAt i j (elems s)
  elems_push : ∀ x s, elems (push x s) = elems s ++ [x]
  elems_pop : ∀ s, elems (pop s) = (elems s).dropLast
  rank_swap : ∀ s i j, rank (swap i j s) = rank s
  rank_push : ∀ x s, rank (push x s) = rank s
  rank_pop : ∀ s, rank (pop s) = rank s

namespace Interface

variable (I : Interface σ α ρ)

def swaps (script : List (Nat × Nat)) (s : σ) : σ := script.foldl (fun s p => I.swap p.1 p.2 s) s

variable {I}

/-- What every swap within the range keeps. -/
theorem swaps_inv {P : σ → Prop} (hswap : ∀ s i j, P s → i < (I.elems s).length →
    j < (I.elems s).length → P (I.swap i j s)) {s : σ} (hs : P s) {script : List (Nat × Nat)}
    (hrange : inRange (I.elems s).length script) : P (I.swaps script s) := by
  induction script generalizing s with
  | nil => exact hs
  | cons p rest ih =>
      obtain ⟨hp, hrest⟩ := List.forall_mem_cons.mp hrange
      refine ih (hswap s p.1 p.2 hs hp.1 hp.2) ?_
      rw [I.elems_swap s p.1 p.2 hp.1 hp.2, length_swapAt]
      exact hrest

theorem elems_swaps {s : σ} {script : List (Nat × Nat)}
    (hrange : inRange (I.elems s).length script) :
    I.elems (I.swaps script s) = swapAll script (I.elems s) := by
  induction script generalizing s with
  | nil => rfl
  | cons p rest ih =>
      obtain ⟨hp, hrest⟩ := List.forall_mem_cons.mp hrange
      have helems := I.elems_swap s p.1 p.2 hp.1 hp.2
      show I.elems (I.swaps rest (I.swap p.1 p.2 s)) = _
      rw [ih (by rw [helems, length_swapAt]; exact hrest), helems]
      rfl

theorem rank_swaps (script : List (Nat × Nat)) (s : σ) : I.rank (I.swaps script s) = I.rank s := by
  induction script generalizing s with
  | nil => rfl
  | cons p rest ih => exact (ih (I.swap p.1 p.2 s)).trans (I.rank_swap s p.1 p.2)

theorem perm_swaps {s : σ} {script : List (Nat × Nat)}
    (hrange : inRange (I.elems s).length script) :
    (I.elems (I.swaps script s)).Perm (I.elems s) := by
  refine swaps_inv (P := fun t => (I.elems t).Perm (I.elems s)) ?_ (.refl _) hrange
  intro t i j ht hi hj
  rw [I.elems_swap t i j hi hj]
  exact (swapAt_perm i j _).trans ht

end Interface

/-- The swaps of a package, by operation, and its contract. `Fix` may be called when the
order was right before the rank of one element changed. `Remove` leaves the element to go at
the end. -/
structure Package (I : Interface σ α ρ) where
  fixSwaps : Nat → σ → List (Nat × Nat)
  pushSwaps : σ → List (Nat × Nat)
  removeSwaps : Nat → σ → List (Nat × Nat)
  fix_inRange : ∀ i s, inRange (I.elems s).length (fixSwaps i s)
  push_inRange : ∀ s, inRange (I.elems s).length (pushSwaps s)
  remove_inRange : ∀ i s, inRange (I.elems s).length (removeSwaps i s)
  fix_ordered : ∀ i s (before : α → ρ), i < (I.elems s).length → Ordered before (I.elems s) →
    (∀ j a, j ≠ i → (I.elems s)[j]? = some a → before a = I.rank s a) →
    Ordered (I.rank s) (I.elems (I.swaps (fixSwaps i s) s))
  push_ordered : ∀ s, Ordered (I.rank s) (I.elems s).dropLast →
    Ordered (I.rank s) (I.elems (I.swaps (pushSwaps s) s))
  remove_last : ∀ i s, i < (I.elems s).length →
    (I.elems (I.swaps (removeSwaps i s) s)).getLast? = (I.elems s)[i]?
  remove_ordered : ∀ i s, i < (I.elems s).length → Ordered (I.rank s) (I.elems s) →
    Ordered (I.rank s) (I.elems (I.swaps (removeSwaps i s) s)).dropLast

namespace Package

variable {I : Interface σ α ρ} (H : Package I)

def fix (i : Nat) (s : σ) : σ := I.swaps (H.fixSwaps i s) s

def push (x : α) (s : σ) : σ := I.swaps (H.pushSwaps (I.push x s)) (I.push x s)

def remove (i : Nat) (s : σ) : σ × Option α :=
  let s := I.swaps (H.removeSwaps i s) s
  (I.pop s, (I.elems s).getLast?)

section Sorting

variable (I)

/-- The elements in the order of their ranks. -/
def sorted (s : σ) (l : List α) : List α := l.mergeSort fun a b => I.rank s a ≤ I.rank s b

theorem sorted_perm (s : σ) (l : List α) : (sorted I s l).Perm l := List.mergeSort_perm l _

theorem ordered_sorted (s : σ) (l : List α) : Ordered (I.rank s) (sorted I s l) := by
  refine ordered_of_sorted ?_
  have hsorted : (sorted I s l).Pairwise fun a b => decide (I.rank s a ≤ I.rank s b) = true := by
    refine List.pairwise_mergeSort ?_ ?_ l
    · intro a b c hab hbc
      simp only [decide_eq_true_eq] at hab hbc ⊢
      exact le_trans hab hbc
    · intro a b
      simpa using le_total (I.rank s a) (I.rank s b)
  simpa using hsorted

/-- The elements with the one at index `i` last and the others sorted. -/
theorem removal_perm (s : σ) {l : List α} {i : Nat} (hi : i < l.length) :
    l.Perm (sorted I s (l.eraseIdx i) ++ [l[i]]) :=
  (List.getElem_cons_eraseIdx_perm hi).symm.trans
    (((sorted_perm I s (l.eraseIdx i)).symm.cons l[i]).trans
      (List.perm_append_singleton l[i] _).symm)

open Classical in
/-- A package that sorts. -/
noncomputable def sorting : Package I where
  fixSwaps _ s := (exists_script (sorted_perm I s (I.elems s)).symm).choose
  pushSwaps s := (exists_script (sorted_perm I s (I.elems s)).symm).choose
  removeSwaps i s :=
    if hi : i < (I.elems s).length then (exists_script (removal_perm I s hi)).choose else []
  fix_inRange _ s := (exists_script (sorted_perm I s (I.elems s)).symm).choose_spec.1
  push_inRange s := (exists_script (sorted_perm I s (I.elems s)).symm).choose_spec.1
  remove_inRange i s := by
    by_cases hi : i < (I.elems s).length
    · rw [dif_pos hi]
      exact (exists_script (removal_perm I s hi)).choose_spec.1
    · rw [dif_neg hi]
      simp [inRange]
  fix_ordered := by
    intro i s before _ _ _
    obtain ⟨hrange, hall⟩ := (exists_script (sorted_perm I s (I.elems s)).symm).choose_spec
    rw [Interface.elems_swaps hrange, hall]
    exact ordered_sorted I s (I.elems s)
  push_ordered := by
    intro s _
    obtain ⟨hrange, hall⟩ := (exists_script (sorted_perm I s (I.elems s)).symm).choose_spec
    rw [Interface.elems_swaps hrange, hall]
    exact ordered_sorted I s (I.elems s)
  remove_last := by
    intro i s hi
    obtain ⟨hrange, hall⟩ := (exists_script (removal_perm I s hi)).choose_spec
    rw [dif_pos hi, Interface.elems_swaps hrange, hall, List.getLast?_concat,
      List.getElem?_eq_getElem hi]
  remove_ordered := by
    intro i s hi _
    obtain ⟨hrange, hall⟩ := (exists_script (removal_perm I s hi)).choose_spec
    rw [dif_pos hi, Interface.elems_swaps hrange, hall, List.dropLast_concat]
    exact ordered_sorted I s _

end Sorting

end Package

end Packages

end HeapContract
