/-
Linear orders on the machine integers.

The core library compares machine integers and proves the order laws, but
does not bundle them.  The bundled orders make byte strings, ordered
lexicographically, and pairs of a counter with a byte string linear orders as
well.  A counter that is counted on may wrap to zero.
-/
import Mathlib.Data.List.Lex
import Mathlib.Data.Prod.Lex

instance UInt8.instLinearOrderMachine : LinearOrder UInt8 where
  le_refl := UInt8.le_refl
  le_trans _ _ _ := UInt8.le_trans
  le_antisymm _ _ := UInt8.le_antisymm
  le_total := UInt8.le_total
  toDecidableLE := inferInstance
  toDecidableEq := inferInstance
  toDecidableLT := inferInstance
  lt_iff_le_not_ge a b := by grind

instance UInt32.instLinearOrderMachine : LinearOrder UInt32 where
  le_refl := UInt32.le_refl
  le_trans _ _ _ := UInt32.le_trans
  le_antisymm _ _ := UInt32.le_antisymm
  le_total := UInt32.le_total
  toDecidableLE := inferInstance
  toDecidableEq := inferInstance
  toDecidableLT := inferInstance
  lt_iff_le_not_ge a b := by grind

instance UInt64.instLinearOrderMachine : LinearOrder UInt64 where
  le_refl := UInt64.le_refl
  le_trans _ _ _ := UInt64.le_trans
  le_antisymm _ _ := UInt64.le_antisymm
  le_total := UInt64.le_total
  toDecidableLE := inferInstance
  toDecidableEq := inferInstance
  toDecidableLT := inferInstance
  lt_iff_le_not_ge a b := by grind

theorem UInt64.lt_add_one_iff_machine {v c : UInt64} : v < c + 1 ↔ v ≤ c ∧ c + 1 ≠ 0 := by
  have hv := v.toNat_lt
  have hc := c.toNat_lt
  have hadd : (c + 1).toNat = (c.toNat + 1) % 2 ^ 64 := UInt64.toNat_add c 1
  have hzero : c + 1 = 0 ↔ (c.toNat + 1) % 2 ^ 64 = 0 := by
    rw [← UInt64.toNat_inj, hadd]
    rfl
  rw [UInt64.lt_iff_toNat_lt, UInt64.le_iff_toNat_le, hadd, ne_eq, hzero]
  omega
