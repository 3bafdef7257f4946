/-
Counting the parties of a system by where they are.

Each place has a weight, and a tally adds up the weights of the places of all
parties.  With weights zero and one it counts those at some of the places.  When one
party moves, every tally changes by the weights of the places it leaves and enters.
The parties may also come in a list that grows, or be what a finite map holds.
-/
import Mathlib.Algebra.Order.BigOperators.Group.Finset
import Mathlib.Algebra.Order.Ring.Nat
import HyperCache.Lib.Keyed

namespace Tally

section

variable {ι P : Type*} [Fintype ι]

def count (w : P → Nat) (f : ι → P) : Nat := ∑ i, w (f i)

theorem count_update [DecidableEq ι] (w : P → Nat) (f : ι → P) (i : ι) (p : P) :
    count w (Function.update f i p) + w (f i) = count w f + w p := by
  have hrest : ∑ j ∈ Finset.univ.erase i, w (Function.update f i p j) =
      ∑ j ∈ Finset.univ.erase i, w (f j) := by
    refine Finset.sum_congr rfl (fun j hj => ?_)
    rw [Function.update_of_ne (Finset.ne_of_mem_erase hj)]
  have hnew := Finset.add_sum_erase Finset.univ (fun j => w (Function.update f i p j))
    (Finset.mem_univ i)
  have hold := Finset.add_sum_erase Finset.univ (fun j => w (f j)) (Finset.mem_univ i)
  rw [hrest, Function.update_self] at hnew
  rw [count, count]
  omega

/-- A party moves from a known place. -/
theorem count_move [DecidableEq ι] (w : P → Nat) {f : ι → P} {i : ι} {old : P} (h : f i = old)
    (new : P) : count w (Function.update f i new) + w old = count w f + w new :=
  h ▸ count_update w f i new

theorem le_count (w : P → Nat) (f : ι → P) (i : ι) : w (f i) ≤ count w f :=
  Finset.single_le_sum (f := fun j => w (f j)) (fun _ _ => Nat.zero_le _) (Finset.mem_univ i)

theorem count_eq_zero {w : P → Nat} {f : ι → P} : count w f = 0 ↔ ∀ i, w (f i) = 0 := by
  rw [count, Finset.sum_eq_zero_iff]
  exact ⟨fun h i => h i (Finset.mem_univ i), fun h i _ => h i⟩

theorem count_le_count {w w' : P → Nat} (h : ∀ p, w p ≤ w' p) (f : ι → P) :
    count w f ≤ count w' f :=
  Finset.sum_le_sum (fun i _ => h (f i))

theorem count_le_card {w : P → Nat} (h : ∀ p, w p ≤ 1) (f : ι → P) :
    count w f ≤ Fintype.card ι := by
  rw [count, Fintype.card, Finset.card_eq_sum_ones]
  exact Finset.sum_le_sum (fun i _ => h (f i))

/-- One party moves to a lighter place, and no place gets heavier. -/
theorem count_lt_count [DecidableEq ι] {w w' : P → Nat} (hle : ∀ p, w' p ≤ w p) {f : ι → P} {i : ι}
    {new : P} (hlt : w' new < w' (f i)) : count w' (Function.update f i new) < count w f := by
  have hmove := count_update w' f i new
  have hrest := count_le_count hle f
  omega

/-- The parties at some of the places. -/
def members (p : P → Bool) (f : ι → P) : Finset ι := Finset.univ.filter fun i => p (f i) = true

theorem mem_members {p : P → Bool} {f : ι → P} {i : ι} : i ∈ members p f ↔ p (f i) = true := by
  simp [members]

theorem notMem_members {p : P → Bool} {f : ι → P} {i : ι} {old : P} (hold : f i = old)
    (h : p old = false) : i ∉ members p f := by
  rw [mem_members, hold, h]
  exact Bool.false_ne_true

variable [DecidableEq ι]

theorem members_stay {p : P → Bool} {f : ι → P} {i : ι} {old new : P} (hold : f i = old)
    (h : p new = p old) : members p (Function.update f i new) = members p f := by
  ext j
  rw [mem_members, mem_members]
  by_cases hj : j = i
  · rw [hj, Function.update_self, h, hold]
  · rw [Function.update_of_ne hj]

theorem members_enter {p : P → Bool} {f : ι → P} {i : ι} {new : P} (h : p new = true) :
    members p (Function.update f i new) = insert i (members p f) := by
  ext j
  rw [mem_members, Finset.mem_insert, mem_members]
  by_cases hj : j = i
  · rw [hj, Function.update_self, h]
    exact iff_of_true rfl (Or.inl rfl)
  · rw [Function.update_of_ne hj]
    exact ⟨Or.inr, fun h => h.resolve_left hj⟩

end

/-! ## Parties in a list -/

section

variable {P : Type} (w : P → Nat)

def total (l : List P) : Nat := (l.map w).sum

theorem total_cons (p : P) (l : List P) : total w (p :: l) = w p + total w l := by
  rw [total, List.map_cons, List.sum_cons, total]

theorem total_append (l l' : List P) : total w (l ++ l') = total w l + total w l' := by
  rw [total, List.map_append, List.sum_append, total, total]

theorem total_perm {l l' : List P} (h : l.Perm l') : total w l = total w l' :=
  (h.map w).sum_eq

theorem total_eq_zero {l : List P} (h : ∀ p ∈ l, w p = 0) : total w l = 0 := by
  apply List.sum_eq_zero
  intro n hn
  obtain ⟨p, hp, rfl⟩ := List.mem_map.mp hn
  exact h p hp

/-- A party moves from a known place. -/
theorem total_set {l : List P} {i : Nat} {old : P} (h : l[i]? = some old) (new : P) :
    total w (l.set i new) + w old = total w l + w new := by
  induction l generalizing i with
  | nil => cases h
  | cons p rest ih =>
      cases i with
      | zero =>
          cases h
          rw [List.set_cons_zero, total_cons, total_cons]
          omega
      | succ i =>
          have hrest := ih h
          rw [List.set_cons_succ, total_cons, total_cons]
          omega

variable {κ : Type} [DecidableEq κ] {m : AList fun _ : κ => P} {k : κ}

theorem total_erase {p : P} (h : m.lookup k = some p) :
    total w (Keyed.elems (m.erase k)) + w p = total w (Keyed.elems m) := by
  rw [total_perm w (Keyed.perm_elems_of_lookup h), total_cons]
  omega

theorem total_insert (p : P) :
    total w (Keyed.elems (m.insert k p)) + ((m.lookup k).map w).getD 0 =
      total w (Keyed.elems m) + w p := by
  rw [Keyed.elems_insert, total_cons]
  cases h : m.lookup k with
  | none =>
      rw [Keyed.elems_erase_of_notMem (AList.lookup_eq_none.mp h)]
      show w p + total w (Keyed.elems m) + 0 = _
      omega
  | some old =>
      have herase := total_erase w h
      show w p + total w (Keyed.elems (m.erase k)) + w old = _
      omega

end

end Tally
