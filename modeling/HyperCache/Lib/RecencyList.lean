/-
The reference recency list: distinct keys with their values, most recent first.

An access moves its key to the front. A new key goes to the front too, and what
then lies beyond the capacity is cut from the back.
-/
import Mathlib.Data.List.Sigma

namespace RecencyList

variable {κ β : Type} [DecidableEq κ]

/-- The value stored is `f` of the value before, if the key is there. -/
def set (capacity : Nat) (k : κ) (f : Option β → β) (l : List (Σ _ : κ, β)) : List (Σ _ : κ, β) :=
  (⟨k, f (l.dlookup k)⟩ :: l.kerase k).take capacity

def get (k : κ) (f : β → β) (l : List (Σ _ : κ, β)) : List (Σ _ : κ, β) × Option β :=
  match l.dlookup k with
  | some b => (⟨k, f b⟩ :: l.kerase k, some b)
  | none => (l, none)

def delete (k : κ) (l : List (Σ _ : κ, β)) : List (Σ _ : κ, β) := l.kerase k

def evict (l : List (Σ _ : κ, β)) : List (Σ _ : κ, β) × Option κ :=
  (l.dropLast, l.getLast?.map Sigma.fst)

variable {capacity : Nat} {k : κ} {l : List (Σ _ : κ, β)}

theorem length_kerase_of_mem (hk : k ∈ l.keys) : (l.kerase k).length + 1 = l.length := by
  have hkeys : (l.kerase k).keys.length + 1 = l.keys.length := by
    rw [List.keys_kerase, List.length_erase_of_mem hk]
    have := List.length_pos_of_mem hk
    omega
  simpa [List.keys] using hkeys

theorem set_of_mem (f : Option β → β) {b : β} (hk : l.dlookup k = some b)
    (hl : l.length ≤ capacity) : set capacity k f l = ⟨k, f (some b)⟩ :: l.kerase k := by
  have hmem : k ∈ l.keys := List.dlookup_isSome.mp (by rw [hk, Option.isSome_some])
  have hlen := length_kerase_of_mem hmem
  rw [set, hk, List.take_of_length_le]
  rw [List.length_cons]
  omega

theorem set_of_room (f : Option β → β) (hk : k ∉ l.keys) (hl : l.length < capacity) :
    set capacity k f l = ⟨k, f none⟩ :: l := by
  rw [set, List.dlookup_eq_none.mpr hk, List.kerase_of_notMem_keys hk, List.take_of_length_le]
  rw [List.length_cons]
  omega

theorem set_of_full (f : Option β → β) (hk : k ∉ l.keys) (hl : l.length = capacity)
    (hpos : 0 < capacity) : set capacity k f l = ⟨k, f none⟩ :: l.dropLast := by
  rw [set, List.dlookup_eq_none.mpr hk, List.kerase_of_notMem_keys hk]
  obtain ⟨n, rfl⟩ := Nat.exists_eq_add_of_lt hpos
  have hn : l.length - 1 = n := by omega
  rw [List.dropLast_eq_take, hn, Nat.zero_add, List.take_succ_cons]

theorem get_of_mem (f : β → β) {b : β} (hk : l.dlookup k = some b) :
    get k f l = (⟨k, f b⟩ :: l.kerase k, some b) := by
  rw [get, hk]

theorem get_of_notMem (f : β → β) (hk : l.dlookup k = none) : get k f l = (l, none) := by
  rw [get, hk]

/-! The keys that go. -/

theorem kerase_last (h : l.NodupKeys) {e : Σ _ : κ, β} (he : l.getLast? = some e) :
    l.kerase e.1 = l.dropLast := by
  obtain ⟨r, rfl⟩ := List.getLast?_eq_some_iff.mp he
  rw [List.NodupKeys, List.keys_append, List.nodup_append'] at h
  have hnot : e.1 ∉ r.keys := fun hr => h.2.2 hr (List.mem_singleton.mpr rfl)
  rw [List.kerase_append_right hnot, List.kerase_cons_eq rfl, List.append_nil,
    List.dropLast_concat]

omit [DecidableEq κ] in
theorem mem_keys_dropLast (h : l.NodupKeys) {e : Σ _ : κ, β} (he : l.getLast? = some e) {k : κ} :
    k ∈ l.dropLast.keys ↔ k ∈ l.keys ∧ k ≠ e.1 := by
  obtain ⟨r, rfl⟩ := List.getLast?_eq_some_iff.mp he
  rw [List.NodupKeys, List.keys_append, List.nodup_append'] at h
  have hnot : e.1 ∉ r.keys := fun hr => h.2.2 hr (List.mem_singleton.mpr rfl)
  rw [List.dropLast_concat, List.keys_append, List.mem_append]
  constructor
  · intro hk
    exact ⟨Or.inl hk, fun heq => hnot (heq ▸ hk)⟩
  · rintro ⟨hk | hk, hne⟩
    · exact hk
    · exact absurd (List.mem_singleton.mp hk) hne

/-- A write takes a key out only if it brings a new one to a full list. -/
theorem gone_of_set (h : l.NodupKeys) (hl : l.length ≤ capacity) (f : Option β → β) {k k' : κ}
    (hk' : k' ∈ l.keys) :
    k' ∉ (set capacity k f l).keys ↔
      (k ∉ l.keys ∧ l.length = capacity) ∧ ∃ e, l.getLast? = some e ∧ e.1 = k' := by
  have hpos : 0 < l.length := by
    have := List.length_pos_of_mem hk'
    rwa [List.keys, List.length_map] at this
  cases hk : l.dlookup k with
  | some b =>
      have hmem : k ∈ l.keys := List.dlookup_isSome.mp (by rw [hk, Option.isSome_some])
      rw [set_of_mem f hk hl, List.keys_cons, List.keys_kerase, List.mem_cons, not_or]
      constructor
      · rintro ⟨hne, hnot⟩
        exact absurd ((List.mem_erase_of_ne hne).mpr hk') hnot
      · rintro ⟨⟨hnew, -⟩, -⟩
        exact absurd hmem hnew
  | none =>
      have hnew := List.dlookup_eq_none.mp hk
      have hne : k' ≠ k := fun heq => hnew (heq ▸ hk')
      by_cases hfull : l.length = capacity
      · obtain ⟨e, he⟩ := Option.ne_none_iff_exists'.mp
          (mt List.getLast?_eq_none_iff.mp (List.ne_nil_of_length_pos hpos))
        rw [set_of_full f hnew hfull (hfull ▸ hpos), List.keys_cons, List.mem_cons,
          mem_keys_dropLast h he]
        simp [hne, hnew, hfull, he, hk', eq_comm]
      · rw [set_of_room f hnew (Nat.lt_of_le_of_ne hl hfull), List.keys_cons, List.mem_cons]
        simp [hk', hfull]

theorem mem_keys_get (k : κ) (f : β → β) {k' : κ} :
    k' ∈ (get k f l).1.keys ↔ k' ∈ l.keys := by
  cases hk : l.dlookup k with
  | none => rw [get_of_notMem f hk]
  | some b =>
      have hmem : k ∈ l.keys := List.dlookup_isSome.mp (by rw [hk, Option.isSome_some])
      rw [get_of_mem f hk, List.keys_cons, List.keys_kerase, List.mem_cons]
      by_cases hne : k' = k
      · simp [hne, hmem]
      · simp [hne, List.mem_erase_of_ne hne]

section Values

/-! Two lists that differ in what they keep beside the keys. -/

variable {γ : Type} (g : β → γ)

def mapValues (l : List (Σ _ : κ, β)) : List (Σ _ : κ, γ) := l.map (Sigma.map id fun _ => g)

omit [DecidableEq κ] in
theorem keys_mapValues (l : List (Σ _ : κ, β)) : (mapValues g l).keys = l.keys := by
  rw [mapValues, List.keys, List.map_map]
  rfl

theorem dlookup_mapValues (k : κ) (l : List (Σ _ : κ, β)) :
    (mapValues g l).dlookup k = (l.dlookup k).map g := List.dlookup_map₂ k

theorem kerase_mapValues (k : κ) (l : List (Σ _ : κ, β)) :
    (mapValues g l).kerase k = mapValues g (l.kerase k) := by
  rw [mapValues, List.kerase, List.eraseP_map]
  rfl

theorem mapValues_set (capacity : Nat) (k : κ) {f : Option β → β} {f' : Option γ → γ}
    (hf : ∀ o, g (f o) = f' (o.map g)) (l : List (Σ _ : κ, β)) :
    mapValues g (set capacity k f l) = set capacity k f' (mapValues g l) := by
  rw [set, set, dlookup_mapValues, kerase_mapValues, ← hf, mapValues, List.map_take]
  rfl

theorem mapValues_get (k : κ) {f : β → β} {f' : γ → γ} (hf : ∀ b, g (f b) = f' (g b))
    (l : List (Σ _ : κ, β)) :
    get k f' (mapValues g l) = (mapValues g (get k f l).1, (get k f l).2.map g) := by
  cases hk : l.dlookup k with
  | none =>
      rw [get_of_notMem f hk, get_of_notMem f' (by rw [dlookup_mapValues, hk]; rfl)]
      rfl
  | some b =>
      rw [get_of_mem f hk, get_of_mem f' (by rw [dlookup_mapValues, hk]; rfl), kerase_mapValues,
        ← hf]
      rfl

omit [DecidableEq κ] in
theorem mapValues_evict (l : List (Σ _ : κ, β)) :
    evict (mapValues g l) = (mapValues g (evict l).1, (evict l).2) := by
  rw [evict, evict, mapValues, mapValues, List.map_dropLast, List.getLast?_map, Option.map_map]
  rfl

end Values

end RecencyList
