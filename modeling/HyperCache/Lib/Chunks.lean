/-
Cutting a list into chunks of a fixed size.

`chunk size i l` is the `i`-th chunk, and empty past the end of the list.  A
positive size cuts a list into `count size l.length` chunks, and their
concatenation is the list.
-/
import Mathlib.Data.List.Basic

namespace Chunks

variable {α β : Type}

def chunk (size i : Nat) (l : List α) : List α := (l.drop (i * size)).take size

/-- The number of chunks, with a shorter last chunk counted. -/
def count (size n : Nat) : Nat := (n + size - 1) / size

theorem map_chunk (f : α → β) (size i : Nat) (l : List α) :
    (chunk size i l).map f = chunk size i (l.map f) := by
  rw [chunk, chunk, List.map_take, List.map_drop]

theorem le_count_mul {size : Nat} (hs : 0 < size) (n : Nat) : n ≤ count size n * size := by
  have h := Nat.lt_div_mul_add hs (a := n + size - 1)
  rw [count]
  omega

theorem chunk_of_le {size i : Nat} {l : List α} (h : l.length ≤ i * size) :
    chunk size i l = [] := by
  rw [chunk, List.drop_eq_nil_of_le h, List.take_nil]

/-- A loop over chunks that skips those past the end visits the elements of the chunks. -/
theorem foldl_chunks {σ : Type} (f : σ → α → σ) (size : Nat) (l : List α) (indices : List Nat)
    (s : σ) :
    indices.foldl
        (fun s i => if i * size ≥ l.length then s else (chunk size i l).foldl f s) s =
      (indices.flatMap (fun i => chunk size i l)).foldl f s := by
  rw [List.foldl_flatMap]
  congr 1
  funext s i
  split
  · rw [chunk_of_le ‹_›]
    rfl
  · rfl

theorem count_le {size i n : Nat} (hs : 0 < size) (h : count size n ≤ i) : n ≤ i * size :=
  Nat.le_trans (le_count_mul hs n) (Nat.mul_le_mul_right size h)

theorem chunk_succ (size i : Nat) (l : List α) :
    chunk size (i + 1) l = chunk size i (l.drop size) := by
  rw [chunk, chunk, List.drop_drop, Nat.succ_mul, Nat.add_comm]

/-- The first `m` chunks of a list of at most `m` chunks make up the list. -/
theorem flatMap_chunk_of_le {size m : Nat} {l : List α} (h : l.length ≤ m * size) :
    (List.range m).flatMap (fun i => chunk size i l) = l := by
  induction m generalizing l with
  | zero =>
      rw [Nat.zero_mul, Nat.le_zero, List.length_eq_zero_iff] at h
      rw [h]
      rfl
  | succ m ih =>
      have hrest : (l.drop size).length ≤ m * size := by
        rw [List.length_drop]
        rw [Nat.succ_mul] at h
        omega
      rw [List.range_succ_eq_map, List.flatMap_cons, List.flatMap_map]
      simp only [Nat.succ_eq_add_one, chunk_succ]
      rw [ih hrest, chunk, Nat.zero_mul, List.drop_zero, List.take_append_drop]

theorem flatMap_chunk {size : Nat} (hs : 0 < size) (l : List α) :
    (List.range (count size l.length)).flatMap (fun i => chunk size i l) = l :=
  flatMap_chunk_of_le (le_count_mul hs l.length)

theorem mem_iff_chunk {size : Nat} (hs : 0 < size) {l : List α} {x : α} :
    x ∈ l ↔ ∃ i < count size l.length, x ∈ chunk size i l := by
  nth_rewrite 1 [← flatMap_chunk hs l]
  simp [List.mem_flatMap]

theorem eq_of_chunks {s t : Nat} (hs : 0 < s) (ht : 0 < t) {l m : List α}
    (hcount : count s l.length = count t m.length)
    (h : ∀ i < count s l.length, chunk s i l = chunk t i m) : l = m := by
  rw [← flatMap_chunk hs l, ← flatMap_chunk ht m, ← hcount]
  exact List.flatMap_congr (fun i hi => h i (List.mem_range.mp hi))

end Chunks
