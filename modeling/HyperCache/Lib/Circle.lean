/-
Walking clockwise round a circle of labelled points.

The circle is that of the 64-bit numbers, and `ahead t h` is how far `h` lies
clockwise of `t`.  Points in numerical order, read from the first point at or past
`t` and wrapping at the end, are in the order in which a walk from `t` meets them.

A walk that meets several points of one label counts the label once, where it meets
it first.  `firsts` lists the labels in that order.  If the walk meets the points by
their distance, it meets the labels by the distance of their nearest points.
-/
import Mathlib.Data.List.Rotate
import HyperCache.Lib.MachineOrder

namespace Circle

def ahead (t h : UInt64) : Nat := (h - t).toNat

theorem ahead_eq (t h : UInt64) :
    ahead t h = if t ≤ h then h.toNat - t.toNat else h.toNat + 0x10000000000000000 - t.toNat := by
  have hh := h.toNat_lt
  have ht := t.toNat_lt
  rw [ahead, UInt64.toNat_sub]
  simp only [UInt64.le_iff_toNat_le]
  split <;> omega

theorem ahead_inj {t h h' : UInt64} (heq : ahead t h = ahead t h') : h = h' := by
  have hh := h.toNat_lt
  have hh' := h'.toNat_lt
  have ht := t.toNat_lt
  apply UInt64.toNat_inj.mp
  rw [ahead_eq, ahead_eq] at heq
  simp only [UInt64.le_iff_toNat_le] at heq
  split at heq <;> split at heq <;> omega

section

variable {α : Type} {hash : α → UInt64}

/-- Where a walk from `t` starts in a list of points. -/
def start (hash : α → UInt64) (t : UInt64) (l : List α) : Nat :=
  if l.findIdx (fun a => decide (hash a ≥ t)) = l.length then 0
  else l.findIdx (fun a => decide (hash a ≥ t))

/-- On either side of `t` a greater point lies farther. -/
theorem ahead_le_ahead {t h h' : UInt64} (hle : h ≤ h') (hside : t ≤ h ↔ t ≤ h') :
    ahead t h ≤ ahead t h' := by
  rw [UInt64.le_iff_toNat_le] at hle
  rw [ahead_eq, ahead_eq]
  by_cases hpast : t ≤ h'
  · rw [if_pos (hside.mpr hpast), if_pos hpast]
    omega
  · rw [if_neg (mt hside.mp hpast), if_neg hpast]
    omega

theorem of_mem_take_findIdx {p : α → Bool} {l : List α} {a : α}
    (h : a ∈ l.take (l.findIdx p)) : p a = false := by
  obtain ⟨i, hi, rfl⟩ := List.mem_iff_getElem.mp h
  have hlt : i < l.findIdx p := by
    rw [List.length_take] at hi
    omega
  rw [List.getElem_take]
  exact List.not_of_lt_findIdx hlt

/-- In numerical order all points from the first one at or past `t` are so. -/
theorem of_mem_drop_findIdx {t : UInt64} {l : List α}
    (h : l.Pairwise (fun a b => hash a ≤ hash b)) {a : α}
    (ha : a ∈ l.drop (l.findIdx (fun a => decide (hash a ≥ t)))) : t ≤ hash a := by
  obtain ⟨i, hi, rfl⟩ := List.mem_iff_getElem.mp ha
  rw [List.length_drop] at hi
  rw [List.getElem_drop]
  have hlt : l.findIdx (fun a => decide (hash a ≥ t)) < l.length := by omega
  have hfound : decide (hash (l[l.findIdx (fun a => decide (hash a ≥ t))]) ≥ t) = true :=
    List.findIdx_getElem (p := fun a => decide (hash a ≥ t)) (w := hlt)
  have hfirst := of_decide_eq_true hfound
  rcases Nat.eq_zero_or_pos i with hzero | hpos
  · subst hzero
    exact hfirst
  · exact le_trans hfirst (List.pairwise_iff_getElem.mp h _ _ hlt (by omega) (by omega))

/-- Points in numerical order are read in the order of their distance from `t`. -/
theorem pairwise_rotate_start (t : UInt64) {l : List α}
    (h : l.Pairwise (fun a b => hash a ≤ hash b)) :
    (l.rotate (start hash t l)).Pairwise (fun a b => ahead t (hash a) ≤ ahead t (hash b)) := by
  unfold start
  split
  case isTrue hnone =>
    -- Every point lies before `t`, and the walk wraps at once.
    rw [List.rotate_zero]
    refine h.imp_of_mem (fun {a b} ha hb hab => ahead_le_ahead hab ?_)
    have hbefore := List.findIdx_eq_length.mp hnone
    exact iff_of_false (of_decide_eq_false (hbefore a ha)) (of_decide_eq_false (hbefore b hb))
  case isFalse =>
    have hpast : ∀ a ∈ l.drop (l.findIdx (fun a => decide (hash a ≥ t))), t ≤ hash a :=
      fun a ha => of_mem_drop_findIdx h ha
    have hbefore : ∀ a ∈ l.take (l.findIdx (fun a => decide (hash a ≥ t))), ¬t ≤ hash a := by
      intro a ha
      have hnot := of_mem_take_findIdx (p := fun a => decide (hash a ≥ t)) ha
      exact of_decide_eq_false hnot
    rw [List.rotate_eq_drop_append_take List.findIdx_le_length]
    rw [← List.take_append_drop (l.findIdx (fun a => decide (hash a ≥ t))) l,
      List.pairwise_append] at h
    refine List.pairwise_append.mpr ⟨?_, ?_, fun a ha b hb => ?_⟩
    · exact h.2.1.imp_of_mem (fun {a b} ha hb hab =>
        ahead_le_ahead hab (iff_of_true (hpast a ha) (hpast b hb)))
    · exact h.1.imp_of_mem (fun {a b} ha hb hab =>
        ahead_le_ahead hab (iff_of_false (hbefore a ha) (hbefore b hb)))
    · have hah := (hash a).toNat_lt
      have ht := t.toNat_lt
      rw [ahead_eq, ahead_eq, if_pos (hpast a ha), if_neg (hbefore b hb)]
      omega

end

section

variable {α κ : Type} [DecidableEq κ] (label : α → κ)

/-- The labels of a list in the order of their first points, less those already seen. -/
def firsts (seen : List κ) : List α → List κ
  | [] => []
  | a :: rest =>
      if label a ∈ seen then firsts seen rest
      else label a :: firsts (seen ++ [label a]) rest

theorem mem_firsts {seen : List κ} {l : List α} {k : κ} :
    k ∈ firsts label seen l ↔ k ∈ l.map label ∧ k ∉ seen := by
  induction l generalizing seen with
  | nil => simp [firsts]
  | cons a rest ih =>
      rw [firsts, List.map_cons, List.mem_cons]
      split
      case isTrue hseen =>
        rw [ih]
        constructor
        · exact fun h => ⟨Or.inr h.1, h.2⟩
        · rintro ⟨hk | hk, hnot⟩
          · exact absurd (hk ▸ hseen) hnot
          · exact ⟨hk, hnot⟩
      case isFalse hnew =>
        rw [List.mem_cons, ih, List.mem_append, List.mem_singleton]
        constructor
        · rintro (hk | ⟨hk, hnot⟩)
          · exact ⟨Or.inl hk, hk ▸ hnew⟩
          · exact ⟨Or.inr hk, fun h => hnot (Or.inl h)⟩
        · rintro ⟨hk, hnot⟩
          by_cases heq : k = label a
          · exact Or.inl heq
          · exact Or.inr ⟨hk.resolve_left heq, fun h => h.elim hnot heq⟩

theorem nodup_firsts (seen : List κ) (l : List α) : (firsts label seen l).Nodup := by
  induction l generalizing seen with
  | nil => exact List.nodup_nil
  | cons a rest ih =>
      rw [firsts]
      split
      · exact ih seen
      · refine List.nodup_cons.mpr ⟨fun hmem => ?_, ih _⟩
        exact ((mem_firsts label).mp hmem).2 (List.mem_append_right _ (List.mem_singleton_self _))

/-- Points met by distance give labels met by the distance of their nearest points. -/
theorem pairwise_firsts {dist : α → Nat} {nearest : κ → Nat} {seen : List κ} {l : List α}
    (h : l.Pairwise (fun a b => dist a ≤ dist b)) (hle : ∀ a ∈ l, nearest (label a) ≤ dist a)
    (hmet : ∀ k ∈ l.map label, k ∉ seen → ∃ a ∈ l, label a = k ∧ dist a = nearest k) :
    (firsts label seen l).Pairwise (fun k k' => nearest k ≤ nearest k') := by
  induction l generalizing seen with
  | nil => exact List.Pairwise.nil
  | cons a rest ih =>
      obtain ⟨hfirst, hrest⟩ := List.pairwise_cons.mp h
      have hle' : ∀ b ∈ rest, nearest (label b) ≤ dist b :=
        fun b hb => hle b (List.mem_cons_of_mem a hb)
      -- The nearest point of any other label is still to come.
      have hlater : ∀ k ∈ rest.map label, k ∉ seen → k ≠ label a →
          ∃ b ∈ rest, label b = k ∧ dist b = nearest k := by
        intro k hk hnot hne
        obtain ⟨b, hb, hlabel, hdist⟩ := hmet k (List.mem_cons_of_mem _ hk) hnot
        rcases List.mem_cons.mp hb with rfl | hb
        · exact absurd hlabel.symm hne
        · exact ⟨b, hb, hlabel, hdist⟩
      rw [firsts]
      split
      case isTrue hseen =>
        refine ih hrest hle' (fun k hk hnot => hlater k hk hnot ?_)
        exact fun heq => hnot (heq ▸ hseen)
      case isFalse hnew =>
        refine List.pairwise_cons.mpr ⟨fun k hk => ?_, ih hrest hle' (fun k hk hnot => ?_)⟩
        · obtain ⟨hk, hnot⟩ := (mem_firsts label).mp hk
          rw [List.mem_append, List.mem_singleton, not_or] at hnot
          obtain ⟨b, hb, hlabel, hdist⟩ := hlater k hk hnot.1 hnot.2
          calc nearest (label a) ≤ dist a := hle a List.mem_cons_self
            _ ≤ dist b := hfirst b hb
            _ = nearest k := hdist
        · rw [List.mem_append, List.mem_singleton, not_or] at hnot
          exact hlater k hk hnot.1 hnot.2

end

/-! ### A label that leaves -/

section

variable {κ : Type} [BEq κ] [LawfulBEq κ] {k : κ}

theorem take_erase_of_notMem {n : Nat} {l : List κ} (h : k ∉ l.take n) :
    (l.erase k).take n = l.take n := by
  induction l generalizing n with
  | nil => rfl
  | cons a rest ih =>
      cases n with
      | zero => rfl
      | succ n =>
          rw [List.take_succ_cons, List.mem_cons, not_or] at h
          rw [List.erase_cons_tail (by simpa using Ne.symm h.1), List.take_succ_cons, ih h.2,
            List.take_succ_cons]

/-- The labels after the one that leaves move up, and the next one comes in. -/
theorem take_erase_of_mem {n : Nat} {l : List κ} (h : k ∈ l.take n) :
    (l.erase k).take n = (l.take n).erase k ++ (l.drop n).take 1 := by
  induction l generalizing n with
  | nil => simp at h
  | cons a rest ih =>
      cases n with
      | zero => simp at h
      | succ n =>
          by_cases heq : a = k
          · subst heq
            rw [List.erase_cons_head, List.take_succ_cons, List.erase_cons_head, List.take_add,
              List.drop_succ_cons]
          · rw [List.take_succ_cons, List.mem_cons] at h
            rw [List.erase_cons_tail (by simpa using heq), List.take_succ_cons,
              ih (h.resolve_left (Ne.symm heq)), List.take_succ_cons,
              List.erase_cons_tail (by simpa using heq), List.drop_succ_cons, List.cons_append]

end

end Circle
