/-
Keeping the greatest of a stream of copies.

A replicated register that resolves conflicts by a rank keeps the copy it has
until a copy of strictly greater rank arrives.  `keepGreater` is that step.
Folding it over any list of copies yields one of them, and none of greater rank
was seen.  The rank of the result does not depend on the order of the copies.  The
result itself does when two copies share the greatest rank, since the first of them
stays.
-/
import Mathlib.Order.Lattice
import Mathlib.Order.Defs.LinearOrder

namespace LastWriter

variable {α ρ : Type} [LinearOrder ρ] (r : α → ρ)

/-- Keep the held copy unless the arriving one has strictly greater rank. -/
def keepGreater : Option α → α → Option α
  | none, b => some b
  | some a, b => if r a < r b then some b else some a

theorem keepGreater_isSome (o : Option α) (b : α) : ∃ m, keepGreater r o b = some m := by
  cases o with
  | none => exact ⟨b, rfl⟩
  | some a =>
      by_cases h : r a < r b
      · exact ⟨b, if_pos h⟩
      · exact ⟨a, if_neg h⟩

theorem keepGreater_spec {o : Option α} {b m : α} (h : keepGreater r o b = some m) :
    (o = some m ∨ b = m) ∧ (∀ a, o = some a → r a ≤ r m) ∧ r b ≤ r m := by
  cases o with
  | none =>
      have hb : b = m := Option.some.inj h
      subst hb
      exact ⟨Or.inr rfl, fun a ha => absurd ha (by simp), le_rfl⟩
  | some a =>
      by_cases hab : r a < r b
      · rw [keepGreater, if_pos hab, Option.some.injEq] at h
        subst h
        refine ⟨Or.inr rfl, ?_, le_rfl⟩
        intro a' ha'
        cases ha'
        exact hab.le
      · rw [keepGreater, if_neg hab, Option.some.injEq] at h
        subst h
        refine ⟨Or.inl rfl, ?_, not_lt.mp hab⟩
        intro a' ha'
        cases ha'
        exact le_rfl

theorem foldl_keepGreater_isSome (l : List α) (a : α) :
    ∃ m, l.foldl (keepGreater r) (some a) = some m := by
  induction l generalizing a with
  | nil => exact ⟨a, rfl⟩
  | cons b rest ih =>
      obtain ⟨m, hm⟩ := keepGreater_isSome r (some a) b
      rw [List.foldl_cons, hm]
      exact ih m

/-- The fold yields one of the copies it saw, of the greatest rank. -/
theorem foldl_keepGreater_spec {l : List α} {o : Option α} {m : α}
    (h : l.foldl (keepGreater r) o = some m) :
    (o = some m ∨ m ∈ l) ∧ (∀ a, o = some a → r a ≤ r m) ∧ ∀ b ∈ l, r b ≤ r m := by
  induction l generalizing o with
  | nil =>
      refine ⟨Or.inl h, ?_, by simp⟩
      intro a ha
      have : some a = some m := ha.symm.trans h
      cases this
      exact le_rfl
  | cons b rest ih =>
      rw [List.foldl_cons] at h
      obtain ⟨c, hc⟩ := keepGreater_isSome r o b
      rw [hc] at h
      obtain ⟨hmem, hle, hrest⟩ := ih h
      obtain ⟨hmem₁, hle₁, hb⟩ := keepGreater_spec r hc
      have hcm : r c ≤ r m := hle c rfl
      refine ⟨?_, fun a ha => (hle₁ a ha).trans hcm, ?_⟩
      · rcases hmem with hcm' | hmem
        · cases hcm'
          rcases hmem₁ with ho | hb'
          · exact Or.inl ho
          · exact Or.inr (hb' ▸ List.mem_cons_self)
        · exact Or.inr (List.mem_cons_of_mem b hmem)
      · intro b' hb'
        rcases List.mem_cons.mp hb' with rfl | hb'
        · exact hb.trans hcm
        · exact hrest b' hb'

theorem foldl_keepGreater_of_le {l : List α} {a : α} (h : ∀ b ∈ l, r b ≤ r a) :
    l.foldl (keepGreater r) (some a) = some a := by
  induction l with
  | nil => rfl
  | cons b rest ih =>
      obtain ⟨hb, hrest⟩ := List.forall_mem_cons.mp h
      rw [List.foldl_cons, keepGreater, if_neg (not_lt.mpr hb)]
      exact ih hrest

theorem foldl_keepGreater_cons_of_lt {l : List α} {o : Option α} {a : α}
    (ho : ∀ b, o = some b → r b < r a) (h : ∀ b ∈ l, r b ≤ r a) :
    (a :: l).foldl (keepGreater r) o = some a := by
  have hfirst : keepGreater r o a = some a := by
    cases o with
    | none => rfl
    | some b => exact if_pos (ho b rfl)
  rw [List.foldl_cons, hfirst]
  exact foldl_keepGreater_of_le r h

theorem map_foldl_keepGreater {β : Type} (f : α → β) (r' : β → ρ) (hr : ∀ a, r' (f a) = r a)
    (l : List α) (o : Option α) :
    (l.foldl (keepGreater r) o).map f = (l.map f).foldl (keepGreater r') (o.map f) := by
  induction l generalizing o with
  | nil => rfl
  | cons b rest ih =>
      rw [List.foldl_cons, List.map_cons, List.foldl_cons, ih]
      congr 1
      cases o with
      | none => rfl
      | some a =>
          show (if r a < r b then some b else some a).map f =
            if r' (f a) < r' (f b) then some (f b) else some (f a)
          rw [hr, hr]
          split <;> rfl

theorem foldl_keepGreater_eq_none {l : List α} {o : Option α}
    (h : l.foldl (keepGreater r) o = none) : o = none ∧ l = [] := by
  cases o with
  | some a =>
      obtain ⟨m, hm⟩ := foldl_keepGreater_isSome r l a
      exact absurd (hm.symm.trans h) (by simp)
  | none =>
      cases l with
      | nil => exact ⟨rfl, rfl⟩
      | cons b rest =>
          obtain ⟨m, hm⟩ := foldl_keepGreater_isSome r rest b
          exact absurd (hm.symm.trans h) (by simp)

/-- The rank the fold ends with does not depend on the order. -/
theorem foldl_keepGreater_rank_perm {l l' : List α} (h : l.Perm l') (o : Option α) :
    (l.foldl (keepGreater r) o).map r = (l'.foldl (keepGreater r) o).map r := by
  cases hl : l.foldl (keepGreater r) o with
  | none =>
      obtain ⟨rfl, rfl⟩ := foldl_keepGreater_eq_none r hl
      rw [List.nil_perm.mp h]
      rfl
  | some m =>
      cases hl' : l'.foldl (keepGreater r) o with
      | none =>
          obtain ⟨rfl, rfl⟩ := foldl_keepGreater_eq_none r hl'
          rw [List.perm_nil.mp h] at hl
          exact absurd hl (by simp)
      | some m' =>
          obtain ⟨hmem, hinit, hmax⟩ := foldl_keepGreater_spec r hl
          obtain ⟨hmem', hinit', hmax'⟩ := foldl_keepGreater_spec r hl'
          have hle : r m ≤ r m' := by
            rcases hmem with ho | hm
            · exact hinit' m ho
            · exact hmax' m (h.mem_iff.mp hm)
          have hge : r m' ≤ r m := by
            rcases hmem' with ho | hm
            · exact hinit m' ho
            · exact hmax m' (h.mem_iff.mpr hm)
          exact congrArg some (le_antisymm hle hge)

/-- When the copies of greatest rank above the initial one agree, the fold does not depend
on the order. -/
theorem foldl_keepGreater_perm {l l' : List α} (h : l.Perm l') (o : Option α)
    (hagree : ∀ a ∈ l, ∀ b ∈ l, r a = r b → (∀ c ∈ l, r c ≤ r a) →
      (∀ c, o = some c → r c < r a) → a = b) :
    l.foldl (keepGreater r) o = l'.foldl (keepGreater r) o := by
  have hrank := foldl_keepGreater_rank_perm r h o
  -- The initial copy wins in both orders or in neither.
  by_cases htop : ∃ a, o = some a ∧ ∀ b ∈ l, r b ≤ r a
  · obtain ⟨a, rfl, hle⟩ := htop
    rw [foldl_keepGreater_of_le r hle,
      foldl_keepGreater_of_le r (fun b hb => hle b (h.mem_iff.mpr hb))]
  · cases hl : l.foldl (keepGreater r) o with
    | none =>
        rw [hl] at hrank
        exact (Option.map_eq_none_iff.mp hrank.symm).symm
    | some m =>
        rw [hl] at hrank
        obtain ⟨m', hl', hm'⟩ := Option.map_eq_some_iff.mp hrank.symm
        obtain ⟨hmem, hinit, hmax⟩ := foldl_keepGreater_spec r hl
        obtain ⟨hmem', -, -⟩ := foldl_keepGreater_spec r hl'
        have hbelow : ∀ c, o = some c → r c < r m := by
          intro c hc
          refine lt_of_le_of_ne (hinit c hc) (fun heq => htop ⟨c, hc, ?_⟩)
          rw [heq]
          exact hmax
        have hm : m ∈ l := hmem.resolve_left (fun ho => (hbelow m ho).ne rfl)
        have hm₂ : m' ∈ l :=
          h.mem_iff.mpr (hmem'.resolve_left (fun ho => (hbelow m' ho).ne hm'))
        rw [hl', hagree m hm m' hm₂ hm'.symm hmax hbelow]

/-! ## One register for each key -/

section

variable {κ : Type} (key : α → κ)

/-- The registers hold a greatest one of the copies seen for each key. -/
structure Summary (get : κ → Option α) (copies : List α) : Prop where
  newest : ∀ k a, get k = some a → a ∈ copies ∧ key a = k ∧
    ∀ b ∈ copies, key b = k → r b ≤ r a
  covers : ∀ b ∈ copies, ∃ a, get (key b) = some a

theorem Summary.empty : Summary r key (fun _ => none) [] where
  newest := nofun
  covers := fun _ h => absurd h List.not_mem_nil

/-- Another copy arrives. -/
theorem Summary.arrive [DecidableEq κ] {get get' : κ → Option α} {copies : List α} {b : α}
    (h : Summary r key get copies)
    (hget : ∀ k, get' k = if k = key b then keepGreater r (get k) b else get k) :
    Summary r key get' (b :: copies) where
  newest := by
    intro k a ha
    rw [hget] at ha
    by_cases hk : k = key b
    · subst hk
      rw [if_pos rfl] at ha
      obtain ⟨hfrom, hheld, hb⟩ := keepGreater_spec r ha
      rcases hfrom with hfrom | rfl
      · obtain ⟨hmem, hkey, hmax⟩ := h.newest _ _ hfrom
        refine ⟨List.mem_cons_of_mem b hmem, hkey, fun c hc hck => ?_⟩
        rcases List.mem_cons.mp hc with rfl | hc
        · exact hb
        · exact hmax c hc hck
      · refine ⟨List.mem_cons_self, rfl, fun c hc hck => ?_⟩
        rcases List.mem_cons.mp hc with rfl | hc
        · exact le_rfl
        · obtain ⟨a, ha⟩ := h.covers c hc
          rw [hck] at ha
          exact ((h.newest _ a ha).2.2 c hc hck).trans (hheld a ha)
    · rw [if_neg hk] at ha
      obtain ⟨hmem, hkey, hmax⟩ := h.newest k a ha
      refine ⟨List.mem_cons_of_mem b hmem, hkey, fun c hc hck => ?_⟩
      rcases List.mem_cons.mp hc with rfl | hc
      · exact absurd hck.symm hk
      · exact hmax c hc hck
  covers := by
    intro c hc
    rw [hget]
    by_cases hk : key c = key b
    · rw [if_pos hk]
      exact keepGreater_isSome r _ b
    · rw [if_neg hk]
      rcases List.mem_cons.mp hc with rfl | hc
      · exact absurd rfl hk
      · exact h.covers c hc

end

end LastWriter
