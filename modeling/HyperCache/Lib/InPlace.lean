/-
Filtering a buffer in place.

The loop reads the buffer from left to right and writes the elements it keeps to the
front of the same buffer.  It never reads a cell it has already overwritten, so it
keeps what a filter of the original contents keeps, and it visits the elements in
their order.  `visit` says what happens to the element read at an index and whether the
element leaves the buffer.
-/
import Mathlib.Tactic.ByContra
import Mathlib.Tactic.TypeStar

namespace InPlace

variable {α σ : Type*} (visit : Nat → α → σ → σ × Bool)

structure Pass (α σ : Type*) where
  buffer : List α
  kept : Nat
  state : σ

/-- The turn that reads the cell at `i`. -/
def turn (p : Pass α σ) (i : Nat) : Pass α σ :=
  match p.buffer[i]? with
  | none => p
  | some a =>
      match visit i a p.state with
      | (s, true) => { p with state := s }
      | (s, false) => { buffer := p.buffer.set p.kept a, kept := p.kept + 1, state := s }

def filterInPlace (l : List α) (s : σ) : List α × σ :=
  let p := (List.range l.length).foldl (turn visit) ⟨l, 0, s⟩
  (p.buffer.take p.kept, p.state)

/-- The same loop over a list that nothing overwrites. -/
def sift (i : Nat) : List α → σ → List α × σ
  | [], s => ([], s)
  | a :: rest, s =>
      match visit i a s with
      | (s, true) => sift (i + 1) rest s
      | (s, false) =>
          let (out, s) := sift (i + 1) rest s
          (a :: out, s)

theorem turn_eq {p : Pass α σ} {i : Nat} {a : α} {rest : List α} (h : p.buffer.drop i = a :: rest) :
    turn visit p i =
      if (visit i a p.state).2 then { p with state := (visit i a p.state).1 }
      else ⟨p.buffer.set p.kept a, p.kept + 1, (visit i a p.state).1⟩ := by
  have hread : p.buffer[i]? = some a := by
    rw [← List.head?_drop, h]
    rfl
  rw [turn, hread]
  rcases hv : visit i a p.state with ⟨s, left⟩
  cases left <;> simp [hv]

theorem take_succ_set {l : List α} {k : Nat} (hk : k < l.length) (a : α) :
    (l.set k a).take (k + 1) = l.take k ++ [a] := by
  rw [List.take_add_one, List.take_set_of_le (Nat.le_refl k),
    List.getElem?_set_self hk]
  rfl

/-- The cells from the reading position on are the original ones, because the writing
position never passes it. -/
theorem foldl_turn (rest : List α) (i : Nat) (p : Pass α σ) (hkept : p.kept ≤ i)
    (hrest : p.buffer.drop i = rest) :
    let q := (List.range' i rest.length).foldl (turn visit) p
    q.buffer.take q.kept = p.buffer.take p.kept ++ (sift visit i rest p.state).1 ∧
      q.state = (sift visit i rest p.state).2 := by
  induction rest generalizing i p with
  | nil => simp [sift]
  | cons a rest ih =>
      have hlen : i < p.buffer.length := by
        by_contra hout
        rw [List.drop_eq_nil_of_le (by omega)] at hrest
        cases hrest
      have hnext : p.buffer.drop (i + 1) = rest := by
        rw [← List.tail_drop, hrest]
        rfl
      rw [List.length_cons, List.range'_succ, List.foldl_cons, turn_eq visit hrest, sift]
      rcases visit i a p.state with ⟨s, left⟩
      cases left with
      | true => exact ih (i + 1) { p with state := s } (by show p.kept ≤ i + 1; omega) hnext
      | false =>
          have hdrop : (p.buffer.set p.kept a).drop (i + 1) = rest := by
            rw [List.drop_set_of_lt (by omega), hnext]
          obtain ⟨hout, hstate⟩ := ih (i + 1) ⟨p.buffer.set p.kept a, p.kept + 1, s⟩
            (by show p.kept + 1 ≤ i + 1; omega) hdrop
          rw [take_succ_set (by omega)] at hout
          refine ⟨?_, hstate⟩
          show _ = _ ++ (a :: (sift visit (i + 1) rest s).1)
          rw [List.append_cons]
          exact hout

theorem filterInPlace_eq (l : List α) (s : σ) :
    filterInPlace visit l s = sift visit 0 l s := by
  have h := foldl_turn visit l 0 ⟨l, 0, s⟩ (Nat.le_refl 0) (List.drop_zero)
  rw [← List.range_eq_range'] at h
  exact Prod.ext h.1 h.2

end InPlace
