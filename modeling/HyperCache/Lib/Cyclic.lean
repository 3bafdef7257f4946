/-
Going round a cycle of `n` places.

From any start the offsets below `n` reach every place, each of them once.
-/
import Mathlib.Data.Nat.ModEq

namespace Cyclic

variable {n : Nat}

theorem exists_offset (start : Nat) {i : Nat} (hi : i < n) : ∃ j, j < n ∧ (start + j) % n = i := by
  have hpos : 0 < n := Nat.zero_lt_of_lt hi
  have hstart : start % n < n := Nat.mod_lt _ hpos
  refine ⟨(i + (n - start % n)) % n, Nat.mod_lt _ hpos, ?_⟩
  have hsum : start + (i + (n - start % n)) = i + n * (start / n + 1) := by
    have hdecomp := Nat.div_add_mod start n
    rw [Nat.mul_add, Nat.mul_one]
    omega
  rw [Nat.add_mod_mod, hsum, Nat.add_mul_mod_self_left, Nat.mod_eq_of_lt hi]

theorem offset_inj {start j j' : Nat} (hj : j < n) (hj' : j' < n)
    (h : (start + j) % n = (start + j') % n) : j = j' :=
  Nat.ModEq.eq_of_lt_of_lt (Nat.ModEq.add_left_cancel' start h) hj hj'

end Cyclic
