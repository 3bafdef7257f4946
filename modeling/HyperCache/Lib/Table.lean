/-
Tables of bounded size that make room for a new key by giving up a victim.

A table holds its entries newest first.  The policies built on it differ in the
victim they choose and in what they keep beside the keys, so the choice of the
victim is a parameter, and so is what becomes of an entry that is used again.
-/
import Mathlib.Data.List.MinMax
import HyperCache.Lib.Keyed

namespace Tables

variable {α β : Type} [DecidableEq α]

/-- A key out of every table that has one. -/
structure Victim (α β : Type) where
  pick : AList (fun _ : α => β) → Option α
  mem_of_pick : ∀ {m k}, pick m = some k → k ∈ m
  empty_of_pick : ∀ {m}, pick m = none → ∀ k, k ∉ m

namespace Victim

/-- The oldest entry. -/
def last : Victim α β where
  pick m := m.keys.getLast?
  mem_of_pick := fun h => List.mem_of_getLast? h
  empty_of_pick := by
    intro m h k hk
    rw [List.getLast?_eq_none_iff] at h
    rw [AList.mem_keys, h] at hk
    cases hk

/-- The first entry of least rank. -/
def least {γ : Type} [LinearOrder γ] (rank : β → γ) : Victim α β where
  pick m := (m.entries.argmin (fun e => rank e.2)).map Sigma.fst
  mem_of_pick := by
    intro m k h
    obtain ⟨e, he, rfl⟩ := Option.map_eq_some_iff.mp h
    exact List.mem_map_of_mem (List.argmin_mem he)
  empty_of_pick := by
    intro m h k hk
    rw [Option.map_eq_none_iff, List.argmin_eq_none] at h
    rw [AList.mem_keys, AList.keys, h] at hk
    cases hk

theorem pick_least {γ : Type} [LinearOrder γ] {rank : β → γ} {m : AList (fun _ : α => β)} {k : α}
    {b : β} (hk : m.lookup k = some b)
    (h : ∀ k' b', m.lookup k' = some b' → k' ≠ k → rank b < rank b') :
    (least rank).pick m = some k := by
  have hmem : (⟨k, b⟩ : Σ _ : α, β) ∈ m.entries := AList.mem_lookup_iff.mp hk
  show (m.entries.argmin fun e => rank e.2).map Sigma.fst = some k
  cases hmin : m.entries.argmin fun e => rank e.2 with
  | none =>
      rw [List.argmin_eq_none] at hmin
      rw [hmin] at hmem
      cases hmem
  | some e =>
      have hle : rank e.2 ≤ rank b :=
        List.le_of_mem_argmin (f := fun e : Σ _ : α, β => rank e.2) hmem hmin
      have he : m.lookup e.1 = some e.2 := AList.mem_lookup_iff.mpr (List.argmin_mem hmin)
      by_contra hne
      exact absurd (h e.1 e.2 he fun heq => hne (congrArg some heq)) (not_lt_of_ge hle)

end Victim

structure Table (α β : Type) where
  capacity : Nat
  entries : AList (fun _ : α => β)
  bounded : entries.keys.length ≤ capacity

namespace Table

def new (capacity : Nat) : Table α β where
  capacity := capacity
  entries := ∅
  bounded := Nat.zero_le _

def keys (t : Table α β) : List α := t.entries.keys

def erase (k : α) (t : Table α β) : Table α β where
  capacity := t.capacity
  entries := t.entries.erase k
  bounded := by
    have hle := t.bounded
    rw [Keyed.length_keys_erase]
    split <;> omega

/-- Use the entry of a key that is present: it becomes the newest. -/
def renew (f : β → β) (k : α) (t : Table α β) : Table α β where
  capacity := t.capacity
  entries :=
    match t.entries.lookup k with
    | none => t.entries
    | some b => t.entries.insert k (f b)
  bounded := by
    split
    · exact t.bounded
    · rename_i b hb
      have hk : k ∈ t.entries := AList.lookup_isSome.mp (by rw [hb]; rfl)
      rw [Keyed.length_keys_insert, if_pos hk]
      exact t.bounded

/-- The entries after the victim has gone, if the table is full. -/
def makeRoom (v : Victim α β) (t : Table α β) : AList (fun _ : α => β) :=
  if t.entries.keys.length = t.capacity then
    match v.pick t.entries with
    | none => t.entries
    | some k => t.entries.erase k
  else t.entries

theorem mem_of_mem_makeRoom {v : Victim α β} {t : Table α β} {k : α} (h : k ∈ t.makeRoom v) :
    k ∈ t.entries := by
  unfold makeRoom at h
  split at h
  · split at h
    · exact h
    · exact (AList.mem_erase.mp h).2
  · exact h

/-- A full table of positive capacity has a victim. -/
theorem makeRoom_of_full (v : Victim α β) {t : Table α β} (h : t.capacity ≠ 0)
    (hfull : t.entries.keys.length = t.capacity) :
    ∃ k ∈ t.entries, v.pick t.entries = some k ∧ t.makeRoom v = t.entries.erase k := by
  unfold makeRoom
  rw [if_pos hfull]
  cases hpick : v.pick t.entries with
  | none =>
      have hnil : t.entries.keys = [] :=
        List.eq_nil_iff_forall_not_mem.mpr (v.empty_of_pick hpick)
      rw [hnil] at hfull
      exact absurd hfull.symm h
  | some k => exact ⟨k, v.mem_of_pick hpick, rfl, rfl⟩

theorem length_makeRoom_lt (v : Victim α β) {t : Table α β} (h : t.capacity ≠ 0) :
    (t.makeRoom v).keys.length < t.capacity := by
  by_cases hfull : t.entries.keys.length = t.capacity
  · obtain ⟨k, hk, -, hroom⟩ := makeRoom_of_full v h hfull
    rw [hroom, Keyed.length_keys_erase, if_pos hk]
    omega
  · have hle := t.bounded
    rw [makeRoom, if_neg hfull]
    omega

def set (v : Victim α β) (f : β → β) (new : β) (k : α) (t : Table α β) : Table α β :=
  if h : t.capacity = 0 then t
  else if k ∈ t.entries then t.renew f k
  else
    { capacity := t.capacity
      entries := (t.makeRoom v).insert k new
      bounded := by
        have hroom := length_makeRoom_lt v h
        rw [Keyed.length_keys_insert]
        split <;> omega }

def get (f : β → β) (k : α) (t : Table α β) : Table α β × Option β :=
  (t.renew f k, t.entries.lookup k)

def evict (v : Victim α β) (t : Table α β) : Table α β × Option α :=
  if t.capacity = 0 then (t, none)
  else
    match v.pick t.entries with
    | none => (t, none)
    | some k => (t.erase k, some k)

@[simp] theorem mem_keys_erase {t : Table α β} {k k' : α} :
    k' ∈ (t.erase k).keys ↔ k' ≠ k ∧ k' ∈ t.keys :=
  AList.mem_erase

@[simp] theorem mem_keys_renew {f : β → β} {t : Table α β} {k k' : α} :
    k' ∈ (t.renew f k).keys ↔ k' ∈ t.keys := by
  show k' ∈ (match t.entries.lookup k with
    | none => t.entries
    | some b => t.entries.insert k (f b)) ↔ k' ∈ t.entries
  cases hb : t.entries.lookup k with
  | none => exact Iff.rfl
  | some b =>
      have hk : k ∈ t.entries := AList.lookup_isSome.mp (by rw [hb]; rfl)
      rw [AList.mem_insert]
      exact ⟨fun h => h.elim (fun heq => heq ▸ hk) id, Or.inr⟩

@[simp] theorem capacity_set (v : Victim α β) (f : β → β) (new : β) (k : α) (t : Table α β) :
    (t.set v f new k).capacity = t.capacity := by
  unfold set
  split
  · rfl
  · split <;> rfl

/-- A table of positive capacity takes every key. -/
theorem mem_keys_set_self (v : Victim α β) (f : β → β) (new : β) (k : α) {t : Table α β}
    (h : t.capacity ≠ 0) : k ∈ (t.set v f new k).keys := by
  unfold set
  rw [dif_neg h]
  split
  case isTrue hk => exact mem_keys_renew.mpr hk
  case isFalse => exact (AList.mem_insert _).mpr (Or.inl rfl)

theorem mem_keys_of_mem_set {v : Victim α β} {f : β → β} {new : β} {k k' : α} {t : Table α β}
    (h : k' ∈ (t.set v f new k).keys) : k' = k ∨ k' ∈ t.keys := by
  unfold set at h
  split at h
  · exact Or.inr h
  · split at h
    · exact Or.inr (mem_keys_renew.mp h)
    · exact ((AList.mem_insert _).mp h).imp_right mem_of_mem_makeRoom

/-- A key that comes in pushes no other key out exactly when it is there already or the table is
not full. -/
theorem keys_set_iff (v : Victim α β) (f : β → β) (new : β) (k : α) (t : Table α β) :
    (∀ k', k' ∈ (t.set v f new k).keys ↔ k' = k ∨ k' ∈ t.keys) ↔
      k ∈ t.keys ∨ t.keys.length < t.capacity := by
  unfold set
  split
  case isTrue hcap =>
    constructor
    · exact fun h => Or.inl ((h k).mpr (Or.inl rfl))
    · rintro (hk | hroom) k'
      · exact ⟨Or.inr, fun h => h.elim (fun heq => heq ▸ hk) id⟩
      · omega
  case isFalse hcap =>
    split
    case isTrue hk =>
      refine ⟨fun _ => Or.inl hk, fun _ k' => ?_⟩
      rw [mem_keys_renew]
      exact ⟨Or.inr, fun h => h.elim (fun heq => heq ▸ hk) id⟩
    case isFalse hk =>
      have hmem : ∀ k', k' ∈ ((t.makeRoom v).insert k new).keys ↔ k' = k ∨ k' ∈ t.makeRoom v :=
        fun k' => AList.mem_insert _
      have hlen : t.keys.length ≤ t.capacity := t.bounded
      constructor
      · intro h
        right
        by_contra hfull
        -- A full table gives up a key other than the new one.
        obtain ⟨gone, hgone, -, hroom⟩ :=
          makeRoom_of_full v hcap (Nat.le_antisymm hlen (Nat.not_lt.mp hfull))
        have hback := (hmem gone).mp ((h gone).mpr (Or.inr hgone))
        rw [hroom, AList.mem_erase] at hback
        rcases hback with rfl | hback
        · exact hk hgone
        · exact hback.1 rfl
      · rintro (hold | hroom) k'
        · exact absurd hold hk
        · have hsame : t.makeRoom v = t.entries := if_neg (Nat.ne_of_lt hroom)
          refine (hmem k').trans ?_
          rw [hsame]
          exact Iff.rfl

theorem lookup_set_self (v : Victim α β) (f : β → β) (new : β) (k : α) {t : Table α β}
    (h : t.capacity ≠ 0) :
    (t.set v f new k).entries.lookup k = some ((t.entries.lookup k).elim new f) := by
  unfold set
  rw [dif_neg h]
  split
  case isTrue hk =>
    obtain ⟨b, hb⟩ := Option.isSome_iff_exists.mp (AList.lookup_isSome.mpr hk)
    show (match t.entries.lookup k with
      | none => t.entries
      | some b => t.entries.insert k (f b)).lookup k = _
    rw [hb]
    exact AList.lookup_insert _
  case isFalse hk =>
    rw [AList.lookup_eq_none.mpr hk]
    exact AList.lookup_insert _

@[simp] theorem capacity_evict (v : Victim α β) (t : Table α β) :
    (t.evict v).1.capacity = t.capacity := by
  unfold evict
  split
  · rfl
  · split <;> rfl

/-- An eviction finds nothing only in an empty table, and otherwise takes a key out. -/
theorem evict_cases (v : Victim α β) (t : Table α β) :
    (t.evict v = (t, none) ∧ t.keys = []) ∨
      ∃ k ∈ t.keys, t.evict v = (t.erase k, some k) := by
  unfold evict
  split
  case isTrue hcap =>
    have hle := t.bounded
    rw [hcap, Nat.le_zero, List.length_eq_zero_iff] at hle
    exact Or.inl ⟨rfl, hle⟩
  case isFalse =>
    split
    · rename_i hpick
      exact Or.inl ⟨rfl, List.eq_nil_iff_forall_not_mem.mpr (v.empty_of_pick hpick)⟩
    · rename_i k hpick
      exact Or.inr ⟨k, v.mem_of_pick hpick, rfl⟩

theorem entries_renew (f : β → β) {t : Table α β} {k : α} {b : β}
    (hk : t.entries.lookup k = some b) : (t.renew f k).entries = t.entries.insert k (f b) := by
  show (match t.entries.lookup k with
    | none => t.entries
    | some b => t.entries.insert k (f b)) = _
  rw [hk]

theorem entries_renew_of_none (f : β → β) {t : Table α β} {k : α}
    (hk : t.entries.lookup k = none) : (t.renew f k).entries = t.entries := by
  simp only [renew, hk]

theorem set_of_mem (v : Victim α β) (f : β → β) (new : β) {t : Table α β} {k : α}
    (h : t.capacity ≠ 0) (hk : k ∈ t.entries) : t.set v f new k = t.renew f k := by
  rw [set, dif_neg h, if_pos hk]

theorem entries_set_of_room (v : Victim α β) (f : β → β) (new : β) {t : Table α β} {k : α}
    (h : t.capacity ≠ 0) (hk : k ∉ t.entries) (hroom : t.entries.keys.length ≠ t.capacity) :
    (t.set v f new k).entries = t.entries.insert k new := by
  rw [set, dif_neg h, if_neg hk]
  show (t.makeRoom v).insert k new = _
  rw [makeRoom, if_neg hroom]

theorem entries_set_of_full (v : Victim α β) (f : β → β) (new : β) {t : Table α β} {k gone : α}
    (h : t.capacity ≠ 0) (hk : k ∉ t.entries) (hfull : t.entries.keys.length = t.capacity)
    (hgone : v.pick t.entries = some gone) :
    (t.set v f new k).entries = (t.entries.erase gone).insert k new := by
  rw [set, dif_neg h, if_neg hk]
  show (t.makeRoom v).insert k new = _
  rw [makeRoom, if_pos hfull, hgone]

theorem evict_of_pick {v : Victim α β} {t : Table α β} {k : α} (h : t.capacity ≠ 0)
    (hk : v.pick t.entries = some k) : t.evict v = (t.erase k, some k) := by
  rw [evict, if_neg h, hk]

theorem evict_of_nil {v : Victim α β} {t : Table α β} (h : t.keys = []) :
    t.evict v = (t, none) := by
  rcases t.evict_cases v with ⟨heq, -⟩ | ⟨k, hk, -⟩
  · exact heq
  · rw [h] at hk
    cases hk

end Table

end Tables
