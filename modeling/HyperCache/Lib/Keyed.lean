/-
Finite maps: how many keys they have, what they hold, and maps that store every
record under the record's own key.
-/
import Mathlib.Data.List.AList

namespace Keyed

section

variable {ι : Type} [DecidableEq ι] {β : ι → Type}

theorem length_keys_insert (m : AList β) (k : ι) (b : β k) :
    (m.insert k b).keys.length = if k ∈ m then m.keys.length else m.keys.length + 1 := by
  rw [AList.keys_insert, List.length_cons]
  split
  case isTrue hk =>
    have hpos : 0 < m.keys.length := List.length_pos_of_mem hk
    rw [List.length_erase_of_mem hk]
    omega
  case isFalse hk => rw [List.erase_of_not_mem hk]

theorem length_keys_erase (m : AList β) (k : ι) :
    (m.erase k).keys.length = if k ∈ m then m.keys.length - 1 else m.keys.length := by
  rw [AList.keys_erase]
  split
  case isTrue hk => exact List.length_erase_of_mem hk
  case isFalse hk => rw [List.erase_of_not_mem hk]

end

variable {α κ : Type} [DecidableEq κ] {key : α → κ}

/-- What a map holds, in the order of its entries. -/
def elems (m : AList fun _ : κ => α) : List α := m.entries.map (·.2)

theorem mem_elems {m : AList fun _ : κ => α} {a : α} : a ∈ elems m ↔ ∃ k, m.lookup k = some a := by
  constructor
  · intro ha
    obtain ⟨⟨k, b⟩, he, rfl⟩ := List.mem_map.mp ha
    exact ⟨k, AList.mem_lookup_iff.mpr he⟩
  · rintro ⟨k, hk⟩
    exact List.mem_map.mpr ⟨⟨k, a⟩, AList.mem_lookup_iff.mp hk, rfl⟩

theorem elems_insert (m : AList fun _ : κ => α) (k : κ) (a : α) :
    elems (m.insert k a) = a :: elems (m.erase k) := by
  rw [elems, AList.entries_insert]
  rfl

theorem perm_entries_of_lookup {m : AList fun _ : κ => α} {k : κ} {a : α}
    (h : m.lookup k = some a) : m.entries.Perm (⟨k, a⟩ :: (m.erase k).entries) := by
  have hk : k ∈ m.entries.keys := AList.mem_keys.mp (AList.lookup_isSome.mp (by rw [h]; rfl))
  obtain ⟨b, l₁, l₂, -, hsplit, hrest⟩ := List.exists_of_kerase hk
  have hb : b = a := by
    have hmem : (⟨k, b⟩ : Sigma fun _ : κ => α) ∈ m.entries := by simp [hsplit]
    rw [AList.mem_lookup_iff.mpr hmem, Option.some.injEq] at h
    exact h
  rw [show (m.erase k).entries = l₁ ++ l₂ from hrest, hsplit, hb]
  exact List.perm_middle

theorem perm_elems_of_lookup {m : AList fun _ : κ => α} {k : κ} {a : α}
    (h : m.lookup k = some a) : (elems m).Perm (a :: elems (m.erase k)) :=
  (perm_entries_of_lookup h).map _

theorem erase_of_notMem {m : AList fun _ : κ => α} {k : κ} (h : k ∉ m) : m.erase k = m :=
  AList.ext (List.kerase_of_notMem_keys h)

theorem elems_erase_of_notMem {m : AList fun _ : κ => α} {k : κ} (h : k ∉ m) :
    elems (m.erase k) = elems m := by
  rw [erase_of_notMem h]

/-! ## Loops over the entries of a map -/

/-- An order in which a loop visits what a map holds. -/
structure VisitOrder (α : Type) where
  arrange : List α → List α
  perm : ∀ l, (arrange l).Perm l

def VisitOrder.asStored (α : Type) : VisitOrder α := ⟨id, List.Perm.refl⟩

section

variable {σ β : Type} {visit : σ → (Sigma fun _ : κ => α) → σ}

/-- Each visit changes what is seen at the visited key only, and each key is visited
once. -/
theorem foldl_visit_apply {o : σ → κ → β} {g : κ → α → β → β}
    (hvisit : ∀ s e k, o (visit s e) k = if k = e.1 then g k e.2 (o s k) else o s k)
    {l : List (Sigma fun _ : κ => α)} (hl : l.NodupKeys) (s : σ) (k : κ) :
    o (l.foldl visit s) k =
      match l.dlookup k with
      | none => o s k
      | some a => g k a (o s k) := by
  induction l generalizing s with
  | nil => rfl
  | cons e rest ih =>
      obtain ⟨hnot, hrest⟩ := List.nodupKeys_cons.mp hl
      rw [List.foldl_cons, ih hrest, hvisit]
      by_cases hk : k = e.1
      · subst hk
        rw [if_pos rfl, List.dlookup_cons_eq, List.dlookup_eq_none.mpr hnot]
      · rw [if_neg hk, List.dlookup_cons_ne _ _ hk]

/-- An invariant that a visit keeps whenever the visited entry is still the map's holds
after the loop, when no visit changes what the map holds under other keys. -/
theorem foldl_visit_inv {m : σ → AList fun _ : κ => α} {I : σ → Prop}
    (hother : ∀ s e k, k ≠ e.1 → (m (visit s e)).lookup k = (m s).lookup k)
    (hstep : ∀ s e, (m s).lookup e.1 = some e.2 → I s → I (visit s e))
    {l : List (Sigma fun _ : κ => α)} (hl : l.NodupKeys) {s : σ}
    (hs : ∀ e ∈ l, (m s).lookup e.1 = some e.2) (h : I s) : I (l.foldl visit s) := by
  induction l generalizing s with
  | nil => exact h
  | cons e rest ih =>
      obtain ⟨hnot, hrest⟩ := List.nodupKeys_cons.mp hl
      obtain ⟨he, hlater⟩ := List.forall_mem_cons.mp hs
      refine ih hrest (fun e' he' => ?_) (hstep s e he h)
      have hne : e'.1 ≠ e.1 := fun heq => hnot (heq ▸ List.mem_keys_of_mem he')
      rw [hother s e e'.1 hne]
      exact hlater e' he'

end

theorem elems_erase_sublist (m : AList fun _ : κ => α) (k : κ) :
    (elems (m.erase k)).Sublist (elems m) :=
  (List.kerase_sublist k m.entries).map _

theorem filter_key_eq_singleton {l : List α} (h : (l.map key).Nodup) {a : α} (ha : a ∈ l) :
    l.filter (fun b => key b = key a) = [a] := by
  refine List.perm_singleton.mp
    ((List.perm_ext_iff_of_nodup (h.of_map.filter _) (List.nodup_singleton a)).mpr (fun b => ?_))
  rw [List.mem_filter, decide_eq_true_eq, List.mem_singleton]
  constructor
  · rintro ⟨hb, hkey⟩
    exact List.inj_on_of_nodup_map h hb ha hkey
  · rintro rfl
    exact ⟨ha, rfl⟩

structure Store (key : α → κ) where
  entries : AList (fun _ : κ => α)
  keyed : ∀ k a, entries.lookup k = some a → key a = k

namespace Store

def empty : Store key where
  entries := ∅
  keyed := by simp

def get (s : Store key) (k : κ) : Option α := s.entries.lookup k

def put (a : α) (s : Store key) : Store key where
  entries := s.entries.insert (key a) a
  keyed := by
    intro k b h
    by_cases hk : k = key a
    · subst hk
      rw [AList.lookup_insert, Option.some.injEq] at h
      rw [h]
    · rw [AList.lookup_insert_ne hk] at h
      exact s.keyed k b h

def erase (k : κ) (s : Store key) : Store key where
  entries := s.entries.erase k
  keyed := by
    intro k' a h
    by_cases hk : k' = k
    · subst hk
      rw [AList.lookup_erase] at h
      exact absurd h (by simp)
    · rw [AList.lookup_erase_ne hk] at h
      exact s.keyed k' a h

/-- The stored records, in the map's iteration order. -/
def values (s : Store key) : List α := s.entries.entries.map (·.2)

@[simp] theorem get_empty (k : κ) : (empty : Store key).get k = none := AList.lookup_empty k

theorem get_put (a : α) (s : Store key) (k : κ) :
    (s.put a).get k = if k = key a then some a else s.get k := by
  by_cases h : k = key a
  · subst h
    rw [if_pos rfl]
    exact AList.lookup_insert _
  · rw [if_neg h]
    exact AList.lookup_insert_ne h

theorem get_erase (s : Store key) (k k' : κ) :
    (s.erase k).get k' = if k' = k then none else s.get k' := by
  by_cases h : k' = k
  · subst h
    rw [if_pos rfl]
    exact AList.lookup_erase _ _
  · rw [if_neg h]
    exact AList.lookup_erase_ne h

theorem key_of_get {s : Store key} {k : κ} {a : α} (h : s.get k = some a) : key a = k :=
  s.keyed k a h

theorem mem_values {s : Store key} {a : α} : a ∈ s.values ↔ s.get (key a) = some a := by
  constructor
  · intro h
    obtain ⟨⟨k, b⟩, hmem, rfl⟩ := List.mem_map.mp h
    have hget : s.get k = some b := AList.mem_lookup_iff.mpr hmem
    rw [key_of_get hget]
    exact hget
  · intro h
    exact List.mem_map.mpr ⟨⟨key a, a⟩, AList.mem_lookup_iff.mp h, rfl⟩

theorem nodup_map_key_values (s : Store key) : (s.values.map key).Nodup := by
  have hkeys : s.values.map key = s.entries.keys := by
    rw [values, AList.keys, List.keys, List.map_map]
    apply List.map_congr_left
    intro e he
    exact key_of_get (s := s) (AList.mem_lookup_iff.mpr he)
  rw [hkeys]
  exact s.entries.keys_nodup

theorem key_getD (s : Store key) (a : α) : key ((s.get (key a)).getD a) = key a := by
  cases h : s.get (key a) with
  | none => rfl
  | some b => exact key_of_get h

theorem filter_values (s : Store key) (k : κ) :
    s.values.filter (fun a => key a = k) = (s.get k).toList := by
  cases h : s.get k with
  | none =>
      refine List.filter_eq_nil_iff.mpr (fun a ha hkey => ?_)
      rw [mem_values, of_decide_eq_true hkey, h] at ha
      cases ha
  | some a =>
      have hk : key a = k := key_of_get h
      subst hk
      exact filter_key_eq_singleton s.nodup_map_key_values (mem_values.mpr h)

end Store

end Keyed
