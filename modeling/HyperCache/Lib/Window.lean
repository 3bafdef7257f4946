/-
A window of the latest elements in a ring of cells.

Until every cell has been written the next write goes behind the last one, and
afterwards it replaces the oldest element.
-/
import Mathlib.Data.List.DropRight

namespace Windows

variable {α : Type}

structure Window (α : Type) where
  cells : List α
  pos : Nat
  written : Nat
  pos_lt : pos < cells.length
  written_le : written ≤ cells.length
  filling : written < cells.length → pos = written

namespace Window

def empty (a : α) (cap : Nat) (hcap : 0 < cap) : Window α where
  cells := List.replicate cap a
  pos := 0
  written := 0
  pos_lt := by simpa using hcap
  written_le := Nat.zero_le _
  filling _ := rfl

def push (a : α) (w : Window α) : Window α where
  cells := w.cells.set w.pos a
  pos := (w.pos + 1) % w.cells.length
  written := if w.written < w.cells.length then w.written + 1 else w.written
  pos_lt := by
    rw [List.length_set]
    exact Nat.mod_lt _ (Nat.zero_lt_of_lt w.pos_lt)
  written_le := by
    have h := w.written_le
    rw [List.length_set]
    split <;> omega
  filling h := by
    have hpos := w.filling
    rw [List.length_set] at h
    split at h
    case isTrue hlt => rw [if_pos hlt, hpos hlt, Nat.mod_eq_of_lt h]
    case isFalse hge => exact absurd h hge

/-- The elements of the window, the oldest first. -/
def contents (w : Window α) : List α :=
  if w.written < w.cells.length then w.cells.take w.written
  else w.cells.drop w.pos ++ w.cells.take w.pos

@[simp]
theorem contents_empty (a : α) {cap : Nat} (hcap : 0 < cap) : (empty a cap hcap).contents = [] := by
  rw [contents, if_pos (by simpa [empty] using hcap)]
  rfl

theorem take_set_succ {l : List α} {n : Nat} (h : n < l.length) (a : α) :
    (l.set n a).take (n + 1) = l.take n ++ [a] := by
  rw [List.set_eq_take_append_cons_drop, if_pos h, List.take_append, List.length_take,
    Nat.min_eq_left (Nat.le_of_lt h), List.take_take, Nat.min_eq_right (Nat.le_succ n)]
  simp

/-- A write at the last cell starts the ring anew. -/
theorem set_last {l : List α} {n : Nat} (h : n + 1 = l.length) (a : α) :
    l.set n a = l.take n ++ [a] := by
  rw [← take_set_succ (by omega) a, List.take_of_length_le (by rw [List.length_set]; omega)]

theorem contents_push_filling (a : α) {w : Window α} (h : w.written < w.cells.length) :
    (w.push a).contents = w.contents ++ [a] := by
  have hpos : w.pos = w.written := w.filling h
  rw [contents, contents, if_pos h]
  simp only [push, List.length_set, if_pos h, hpos]
  by_cases hlast : w.written + 1 < w.cells.length
  · rw [if_pos hlast, take_set_succ h]
  · have heq : w.written + 1 = w.cells.length := by omega
    rw [if_neg hlast, heq, Nat.mod_self, List.drop_zero, List.take_zero, List.append_nil,
      set_last heq]

theorem contents_push_full (a : α) {w : Window α} (h : ¬ w.written < w.cells.length) :
    (w.push a).contents = w.contents.tail ++ [a] := by
  have hpos := w.pos_lt
  rw [contents, contents, if_neg h]
  simp only [push, List.length_set, if_neg h]
  rw [List.drop_eq_getElem_cons hpos, List.cons_append, List.tail_cons]
  by_cases hlast : w.pos + 1 < w.cells.length
  · rw [Nat.mod_eq_of_lt hlast, List.drop_set_of_lt (Nat.lt_succ_self _),
      take_set_succ hpos, List.append_assoc]
  · have heq : w.pos + 1 = w.cells.length := by omega
    rw [heq, Nat.mod_self, List.drop_zero, List.take_zero, List.append_nil, List.drop_length,
      List.nil_append, set_last heq]

theorem length_contents (w : Window α) : w.contents.length = w.written := by
  have hle := w.written_le
  have hpos := w.pos_lt
  rw [contents]
  by_cases h : w.written < w.cells.length
  · rw [if_pos h, List.length_take]
    omega
  · rw [if_neg h, List.length_append, List.length_drop, List.length_take]
    omega

/-- What has left the window does not come back. -/
theorem rtake_append_singleton (l : List α) (a : α) (n : Nat) :
    (l.rtake n ++ [a]).rtake n = (l ++ [a]).rtake n := by
  cases n with
  | zero => rw [List.rtake_zero, List.rtake_zero]
  | succ n =>
      have hshort : (l.rtake (n + 1)).rtake n = l.rtake n := by
        rw [List.rtake_eq_reverse_take_reverse, List.rtake_eq_reverse_take_reverse,
          List.reverse_reverse, List.take_take, Nat.min_eq_left (Nat.le_succ n),
          List.rtake_eq_reverse_take_reverse]
      rw [List.rtake_concat_succ, List.rtake_concat_succ, hshort]

/-- A write adds an element to the window, and the window keeps the latest. -/
theorem contents_push (a : α) (w : Window α) :
    (w.push a).contents = (w.contents ++ [a]).rtake w.cells.length := by
  have hlen := w.length_contents
  have hle := w.written_le
  obtain ⟨n, hn⟩ := Nat.exists_eq_add_one_of_ne_zero (Nat.ne_zero_of_lt w.pos_lt)
  rw [hn, List.rtake_concat_succ, List.rtake]
  by_cases h : w.written < w.cells.length
  · have hall : w.contents.length - n = 0 := by omega
    rw [contents_push_filling a h, hall, List.drop_zero]
  · have hone : w.contents.length - n = 1 := by omega
    rw [contents_push_full a h, hone, List.drop_one]

theorem mem_contents_push {a b : α} {w : Window α} (h : b ∈ (w.push a).contents) :
    b ∈ w.contents ∨ b = a := by
  rw [contents_push, List.rtake] at h
  have hmem := List.mem_of_mem_drop h
  rw [List.mem_append, List.mem_singleton] at hmem
  exact hmem

end Window

end Windows
