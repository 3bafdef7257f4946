/-
Collecting distinct elements up to a cap.

The elements of a list go into a set one by one until the set has reached the cap.  What
is left of the list then is cut off, whether or not the set has it already.
-/
import Mathlib.Data.Finset.Card
import Mathlib.Data.Finset.Dedup
import Mathlib.Data.Finset.Lattice.Lemmas

namespace Capped

variable {α : Type} [DecidableEq α]

/-- The set collected from a list, and whether the list was cut. -/
def collect (cap : Nat) : List α → Finset α → Finset α × Bool
  | [], seen => (seen, false)
  | a :: rest, seen => if seen.card ≥ cap then (seen, true) else collect cap rest (insert a seen)

theorem union_cons (seen : Finset α) (a : α) (l : List α) :
    seen ∪ (a :: l).toFinset = insert a seen ∪ l.toFinset := by
  rw [List.toFinset_cons, Finset.union_insert, Finset.insert_union]

/-- The list is cut at its first element past the cap, or collected to its end. -/
theorem collect_cases {cap : Nat} {l : List α} {seen : Finset α} (h : seen.card ≤ cap) :
    (∃ before a after, l = before ++ a :: after ∧ (seen ∪ before.toFinset).card = cap ∧
        collect cap l seen = (seen ∪ before.toFinset, true)) ∨
      collect cap l seen = (seen ∪ l.toFinset, false) ∧
        ∀ before a after, l = before ++ a :: after → (seen ∪ before.toFinset).card < cap := by
  induction l generalizing seen with
  | nil =>
      refine Or.inr ⟨?_, fun before a after hl => ?_⟩
      · rw [collect, List.toFinset_nil, Finset.union_empty]
      · cases List.append_eq_nil_iff.mp hl.symm |>.2
  | cons b rest ih =>
      rw [collect]
      by_cases hfull : seen.card ≥ cap
      · refine Or.inl ⟨[], b, rest, rfl, ?_, ?_⟩
        · rw [List.toFinset_nil, Finset.union_empty]
          omega
        · rw [if_pos hfull, List.toFinset_nil, Finset.union_empty]
      · have hnext : (insert b seen).card ≤ cap := by
          have hle := Finset.card_insert_le b seen
          omega
        rw [if_neg hfull]
        rcases ih hnext with ⟨before, a, after, rfl, hcard, hcut⟩ | ⟨hall, hbelow⟩
        · refine Or.inl ⟨b :: before, a, after, rfl, ?_, ?_⟩
          · rw [union_cons]
            exact hcard
          · rw [union_cons]
            exact hcut
        · refine Or.inr ⟨?_, fun before a after hl => ?_⟩
          · rw [union_cons]
            exact hall
          · cases before with
            | nil =>
                rw [List.toFinset_nil, Finset.union_empty]
                omega
            | cons b' before =>
                obtain ⟨rfl, hrest⟩ := List.cons.inj hl
                rw [union_cons]
                exact hbelow before a after hrest

/-- A list may be collected in pieces. -/
theorem collect_append (cap : Nat) (xs ys : List α) (seen : Finset α) :
    collect cap (xs ++ ys) seen =
      ((collect cap ys (collect cap xs seen).1).1,
        (collect cap xs seen).2 || (collect cap ys (collect cap xs seen).1).2) := by
  induction xs generalizing seen with
  | nil => rfl
  | cons a rest ih =>
      rw [List.cons_append, collect, collect]
      by_cases hfull : seen.card ≥ cap
      · rw [if_pos hfull, if_pos hfull]
        -- The set is full, so the second piece cannot change it.
        cases ys with
        | nil => rfl
        | cons b ys =>
            rw [collect, if_pos hfull]
            rfl
      · rw [if_neg hfull, if_neg hfull]
        exact ih (insert a seen)

/-- The last element of the list stands in it before. -/
def LastRepeats (l : List α) : Prop := ∃ init a, l = init ++ [a] ∧ a ∈ init

/-- A list that is cut has more elements than the cap, or has exactly as many and its last one
repeats. -/
theorem card_of_cut {cap : Nat} {before : List α} (hcard : before.toFinset.card = cap) (a : α)
    (after : List α) :
    before.toFinset ⊆ (before ++ a :: after).toFinset ∧
      (cap < (before ++ a :: after).toFinset.card ∨
        (before ++ a :: after).toFinset.card = cap ∧ LastRepeats (before ++ a :: after)) := by
  have hsub : before.toFinset ⊆ (before ++ a :: after).toFinset := by
    rw [List.toFinset_append]
    exact Finset.subset_union_left
  refine ⟨hsub, ?_⟩
  have hle := Finset.card_le_card hsub
  rcases Nat.lt_or_ge cap (before ++ a :: after).toFinset.card with hlt | hge
  · exact Or.inl hlt
  · -- All elements occur before the cut, and the last one comes after it.
    have heq := Finset.eq_of_subset_of_card_le hsub (by omega)
    obtain ⟨mid, b, hmid⟩ : ∃ mid b, a :: after = mid ++ [b] :=
      ⟨_, _, (List.dropLast_append_getLast (List.cons_ne_nil a after)).symm⟩
    have hb : b ∈ before := by
      rw [← List.mem_toFinset, heq, List.mem_toFinset, hmid]
      simp
    refine Or.inr ⟨by omega, before ++ mid, b, ?_, List.mem_append_left mid hb⟩
    rw [hmid, List.append_assoc]

/-- A list that is below the cap at each of its elements has at most as many elements, and fewer
if its last one repeats. -/
theorem card_of_below {cap : Nat} {l : List α}
    (hbelow : ∀ init a, l = init ++ [a] → init.toFinset.card < cap) :
    l.toFinset.card ≤ cap ∧ (l.toFinset.card = cap → ¬LastRepeats l) := by
  refine ⟨?_, ?_⟩
  · rcases List.eq_nil_or_concat l with hnil | ⟨init, a, hl⟩
    · rw [hnil]
      exact Nat.zero_le cap
    · rw [List.concat_eq_append] at hl
      have hlt := hbelow init a hl
      have hle := Finset.card_insert_le a init.toFinset
      have hinsert : l.toFinset = insert a init.toFinset := by
        rw [hl]
        ext b
        simp
      rw [hinsert]
      omega
  · rintro hcap ⟨init, a, hl, ha⟩
    have hlt := hbelow init a hl
    have hsame : l.toFinset = init.toFinset := by
      rw [hl, List.toFinset_append]
      apply Finset.union_eq_left.mpr
      intro b hb
      cases List.mem_singleton.mp (List.mem_toFinset.mp hb)
      exact List.mem_toFinset.mpr ha
    rw [hsame] at hcap
    omega

/-- A list that is cut yields as many elements as the cap, and there are more of them or the
last one repeats.  A list that is not cut yields all its elements. -/
theorem collect_outcome (cap : Nat) (l : List α) :
    ((collect cap l ∅).2 = true ∧ (collect cap l ∅).1 ⊆ l.toFinset ∧
        (collect cap l ∅).1.card = cap ∧
        (cap < l.toFinset.card ∨ l.toFinset.card = cap ∧ LastRepeats l)) ∨
      (collect cap l ∅).2 = false ∧ (collect cap l ∅).1 = l.toFinset ∧
        l.toFinset.card ≤ cap ∧ (l.toFinset.card = cap → ¬LastRepeats l) := by
  have hempty : (∅ : Finset α).card ≤ cap := Nat.zero_le cap
  rcases collect_cases (l := l) hempty with ⟨before, a, after, rfl, hcard, hcut⟩ | ⟨hall, hbelow⟩
  · rw [Finset.empty_union] at hcard hcut
    obtain ⟨hsub, hmore⟩ := card_of_cut hcard a after
    rw [hcut]
    exact Or.inl ⟨rfl, hsub, hcard, hmore⟩
  · rw [Finset.empty_union] at hall
    rw [hall]
    refine Or.inr ⟨rfl, rfl, card_of_below (fun init a hl => ?_)⟩
    have hlt := hbelow init a [] hl
    rw [Finset.empty_union] at hlt
    exact hlt

end Capped
