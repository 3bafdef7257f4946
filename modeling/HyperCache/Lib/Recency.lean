/-
The order in which keys were last used.

The uses are a list, newest first, so that the age of a key is the position of its
last use.  A list of keys is sorted by the uses when each key was used later than
the next.  Moving a key to the front of such a list keeps up with a use of the key,
and the last key of the list is the oldest.
-/
import Mathlib.Data.List.Basic
import Mathlib.Data.Set.Basic

namespace Recency

variable {α : Type*} [DecidableEq α]

def age (uses : List α) (k : α) : Nat := uses.idxOf k

structure Oldest (uses : List α) (S : Set α) (v : α) : Prop where
  mem : v ∈ S
  le : ∀ k ∈ S, age uses k ≤ age uses v

def Sorted (uses l : List α) : Prop := l.Pairwise (fun a b => age uses a < age uses b)

/-- Move a key to the front, or put it there. -/
def touch (k : α) (l : List α) : List α := k :: l.erase k

variable {uses l : List α} {k v : α}

theorem mem_of_mem_touch {a : α} (h : a ∈ touch k l) : a = k ∨ a ∈ l :=
  (List.mem_cons.mp h).imp_right List.mem_of_mem_erase

theorem age_cons_self (uses : List α) (k : α) : age (k :: uses) k = 0 := List.idxOf_cons_self

theorem age_cons_ne (uses : List α) {k k' : α} (h : k' ≠ k) :
    age (k :: uses) k' = age uses k' + 1 :=
  List.idxOf_cons_ne uses h.symm

theorem Sorted.sublist {l' : List α} (h : Sorted uses l) (hsub : l'.Sublist l) : Sorted uses l' :=
  List.Pairwise.sublist hsub h

theorem Sorted.nodup (h : Sorted uses l) : l.Nodup := by
  refine List.Pairwise.imp (fun {a b} hlt => ?_) h
  rintro rfl
  exact Nat.lt_irrefl _ hlt

theorem touch_of_notMem (h : k ∉ l) : touch k l = k :: l := by
  rw [touch, List.erase_of_not_mem h]

/-- Keys used once each are sorted by their uses. -/
theorem sorted_self (h : uses.Nodup) : Sorted uses uses := by
  refine List.pairwise_iff_getElem.mpr (fun i j hi hj hij => ?_)
  rw [age, age, h.idxOf_getElem, h.idxOf_getElem]
  exact hij

theorem Sorted.touch (h : Sorted uses l) (k : α) : Sorted (k :: uses) (touch k l) := by
  have hrest := h.sublist (List.erase_sublist (a := k))
  have hne : ∀ a ∈ l.erase k, a ≠ k := fun a ha =>
    (h.nodup.mem_erase_iff.mp ha).1
  refine List.pairwise_cons.mpr ⟨fun a ha => ?_, ?_⟩
  · rw [age_cons_self, age_cons_ne uses (hne a ha)]
    omega
  · refine List.Pairwise.imp_of_mem (fun {a b} ha hb hab => ?_) hrest
    rw [age_cons_ne uses (hne a ha), age_cons_ne uses (hne b hb)]
    omega

theorem Sorted.oldest (h : Sorted uses l) (hv : l.getLast? = some v) :
    Oldest uses {k | k ∈ l} v := by
  refine ⟨List.mem_of_getLast? hv, fun k hk => ?_⟩
  obtain ⟨front, rfl⟩ := List.getLast?_eq_some_iff.mp hv
  rcases List.mem_append.mp hk with hfront | hlast
  · exact (List.pairwise_append.mp h).2.2 k hfront v List.mem_cons_self |>.le
  · rw [List.mem_singleton.mp hlast]

/-- Keys that were used have different ages. -/
theorem Oldest.unique {S : Set α} {v' : α} (h : Oldest uses S v) (h' : Oldest uses S v')
    (hS : ∀ k ∈ S, k ∈ uses) : v = v' := by
  have hage : age uses v = age uses v' := Nat.le_antisymm (h'.le v h.mem) (h.le v' h'.mem)
  exact (List.idxOf_inj (hS v h.mem)).mp hage

end Recency
