/-
Indices taken from a 32-bit counter by masking with a power of two less one.
-/
import Mathlib.Data.Nat.Bitwise
import HyperCache.Lib.Cyclic

namespace Masks

theorem testBit_log2 {n m : Nat} (hle : 2 ^ n.log2 ≤ m) (hm : m ≤ n) :
    m.testBit n.log2 = true := by
  have hlt : n < 2 ^ (n.log2 + 1) := Nat.lt_log2_self
  have hdiv : m / 2 ^ n.log2 = 1 := by
    rw [Nat.div_eq_iff (Nat.two_pow_pos _)]
    omega
  rw [Nat.testBit_eq_decide_div_mod_eq, hdiv]
  rfl

/-- A number that shares no bit with its predecessor is a power of two. -/
theorem eq_two_pow_of_and_pred {n : Nat} (hn : n ≠ 0) (h : n &&& (n - 1) = 0) :
    n = 2 ^ n.log2 := by
  by_contra hne
  have hle : 2 ^ n.log2 ≤ n := Nat.log2_self_le hn
  -- Otherwise the top bit of the number is one of its predecessor too.
  have htop : (n &&& (n - 1)).testBit n.log2 = true := by
    rw [Nat.testBit_and, testBit_log2 hle (Nat.le_refl n),
      testBit_log2 (by omega) (Nat.sub_le n 1)]
    rfl
  rw [h, Nat.zero_testBit] at htop
  cases htop

variable {k : Nat} {mask : UInt32}

theorem toNat_and (hmask : mask.toNat = 2 ^ k - 1) (x : UInt32) :
    (x &&& mask).toNat = x.toNat % 2 ^ k := by
  rw [UInt32.toNat_and, hmask, Nat.and_two_pow_sub_one_eq_mod]

/-- The index at an offset from a counter, which may run over its end. -/
theorem toNat_offset (hk : k ≤ 32) (hmask : mask.toNat = 2 ^ k - 1) (start : UInt32) {i : Nat}
    (hi : i < 2 ^ k) :
    ((start + UInt32.ofNat i) &&& mask).toNat = (start.toNat + i) % 2 ^ k := by
  have hle : 2 ^ k ≤ 2 ^ 32 := Nat.pow_le_pow_right (by omega) hk
  have hdvd : 2 ^ k ∣ 2 ^ 32 := Nat.pow_dvd_pow 2 hk
  rw [toNat_and hmask, UInt32.toNat_add, UInt32.toNat_ofNat',
    Nat.mod_eq_of_lt (Nat.lt_of_lt_of_le hi hle), Nat.mod_mod_of_dvd _ hdvd]

/-- Counting up from anywhere, and over the end of the counter, every index comes up within as
many steps as there are indices. -/
theorem exists_offset (hk : k ≤ 32) (hmask : mask.toNat = 2 ^ k - 1) (start : UInt32)
    {j : UInt32} (hj : j.toNat < 2 ^ k) :
    ∃ i, i < 2 ^ k ∧ (start + UInt32.ofNat i) &&& mask = j := by
  obtain ⟨i, hi, hoffset⟩ := Cyclic.exists_offset start.toNat hj
  refine ⟨i, hi, ?_⟩
  rw [← UInt32.toNat_inj, toNat_offset hk hmask start hi, hoffset]

/-- No index comes up twice on the way. -/
theorem offset_inj (hk : k ≤ 32) (hmask : mask.toNat = 2 ^ k - 1) (start : UInt32) {i i' : Nat}
    (hi : i < 2 ^ k) (hi' : i' < 2 ^ k)
    (h : (start + UInt32.ofNat i) &&& mask = (start + UInt32.ofNat i') &&& mask) : i = i' := by
  have heq := congrArg UInt32.toNat h
  rw [toNat_offset hk hmask start hi, toNat_offset hk hmask start hi'] at heq
  exact Cyclic.offset_inj hi hi' heq

end Masks
