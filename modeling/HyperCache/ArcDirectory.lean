/-
The directory of ARC: four lists of keys and a target.

`Directory` says what the linked lists and indexes of `ARC` hold. Every call of the
code is one on the directory, none of them fails, and in all states the four lists
have distinct keys.
-/
import HyperCache.Arc
import HyperCache.Lib.Occurrences

namespace HyperCache

open LinkedList Occurrences Pointwise

variable {V : Type}

@[ext] structure Directory (V : Type) where
  p : Int
  t1 : List (Σ _ : Key, Option V)
  t2 : List (Σ _ : Key, Option V)
  b1 : List (Σ _ : Key, Unit)
  b2 : List (Σ _ : Key, Unit)

namespace Directory

/-! ## Calls on the directory -/

def resident (d : Directory V) : Nat := d.t1.length + d.t2.length

def total (d : Directory V) : Nat := d.t1.length + d.t2.length + d.b1.length + d.b2.length

def lookup (key : Key) (d : Directory V) : Option (Option V) :=
  (d.t1.dlookup key).or (d.t2.dlookup key)

def promote (key : Key) (value : Option V) (d : Directory V) : Directory V :=
  { d with t1 := d.t1.kerase key, t2 := ⟨key, value⟩ :: d.t2.kerase key }

def get (key : Key) (d : Directory V) : Directory V × Option (Option V) :=
  match d.lookup key with
  | some value => (d.promote key value, some value)
  | none => (d, none)

def evictFromT1 (d : Directory V) : Directory V × Key :=
  match d.t1.getLast? with
  | none => (d, [])
  | some e => ({ d with t1 := d.t1.dropLast, b1 := ⟨e.1, ()⟩ :: d.b1 }, e.1)

def evictFromT2 (d : Directory V) : Directory V × Key :=
  match d.t2.getLast? with
  | none => (d, [])
  | some e => ({ d with t2 := d.t2.dropLast, b2 := ⟨e.1, ()⟩ :: d.b2 }, e.1)

def FromT1 (x : Key) (d : Directory V) : Prop :=
  0 < d.t1.length ∧ ((x ≠ [] ∧ x ∈ d.b2.keys ∧ d.t1.length = d.p) ∨ d.t1.length > d.p)

instance (x : Key) (d : Directory V) : Decidable (d.FromT1 x) :=
  have : Decidable (x ∈ d.b2.keys) := decidable_of_iff _ List.dlookup_isSome
  inferInstanceAs (Decidable (_ ∧ _))

def replace (x : Key) (d : Directory V) : Directory V × Key :=
  if d.FromT1 x then d.evictFromT1 else d.evictFromT2

def evict (capacity : Nat) (d : Directory V) : Directory V × Option Key :=
  if capacity = 0 ∨ d.resident = 0 then (d, none)
  else ((d.replace []).1, if (d.replace []).2 = [] then none else some (d.replace []).2)

/-- The target after a hit in B1. -/
def raised (capacity : Nat) (d : Directory V) : Int :=
  min (d.p + max ((d.b2.length : Int).tdiv (max 1 d.b1.length)) 1) capacity

/-- The target after a hit in B2. -/
def lowered (d : Directory V) : Int :=
  max (d.p - max ((d.b1.length : Int).tdiv (max 1 d.b2.length)) 1) 0

/-- The key leaves the ghosts and becomes resident. -/
def revive (key : Key) (value : Option V) (d : Directory V) : Directory V :=
  { d with b1 := d.b1.kerase key, b2 := d.b2.kerase key, t2 := ⟨key, value⟩ :: d.t2 }

/-- A hit in a ghost list, with the target it sets. -/
def hit (target : Int) (key : Key) (value : Option V) (d : Directory V) : Directory V :=
  ({ d with p := target }.replace key).1.revive key value

def hitB1 (capacity : Nat) (key : Key) (value : Option V) (d : Directory V) : Directory V :=
  d.hit (d.raised capacity) key value

def hitB2 (key : Key) (value : Option V) (d : Directory V) : Directory V :=
  d.hit d.lowered key value

def trimForHistoryLimit (capacity : Nat) (d : Directory V) : Directory V :=
  if d.t1.length < capacity then { d with b1 := d.b1.dropLast } else d.evictFromT1.1

def trimForTotalLimit (capacity : Nat) (d : Directory V) : Directory V :=
  ((if d.total ≥ 2 * capacity then { d with b2 := d.b2.dropLast } else d).replace []).1

def ensureCapacityForNew (capacity : Nat) (d : Directory V) : Directory V :=
  if d.t1.length + d.b1.length ≥ capacity then d.trimForHistoryLimit capacity
  else d.trimForTotalLimit capacity

def insertNew (capacity : Nat) (key : Key) (value : Option V) (d : Directory V) : Directory V :=
  let d := if d.resident ≥ capacity then d.ensureCapacityForNew capacity else d
  { d with t1 := ⟨key, value⟩ :: d.t1 }

def set (capacity : Nat) (key : Key) (value : Option V) (d : Directory V) : Directory V :=
  if capacity = 0 then d
  else
    match d.lookup key with
    | some _ => d.promote key value
    | none =>
        match d.b1.dlookup key, d.b2.dlookup key with
        | some _, _ => d.hitB1 capacity key value
        | none, some _ => d.hitB2 key value
        | none, none => d.insertNew capacity key value

def delete (key : Key) (d : Directory V) : Directory V :=
  { d with
    t1 := d.t1.kerase key
    t2 := d.t2.kerase key
    b1 := d.b1.kerase key
    b2 := d.b2.kerase key }

def exec (capacity : Nat) (d : Directory V) : AlgOp V → Option (Directory V × Reply V)
  | .set key value => some (d.set capacity key value, .done)
  | .get key => some ((d.get key).1, .found (d.get key).2)
  | .delete key => some (d.delete key, .done)
  | .evict => some ((d.evict capacity).1, .victim (d.evict capacity).2)

/-! ## Distinct keys -/

/-- How often a key is in the four lists. -/
def occurs (k : Key) (d : Directory V) : Nat :=
  Occurrences.occurs k d.t1 + Occurrences.occurs k d.t2 + Occurrences.occurs k d.b1 +
    Occurrences.occurs k d.b2

structure Wf (capacity : Nat) (d : Directory V) : Prop where
  distinct : ∀ k, d.occurs k ≤ 1
  p_nonneg : 0 ≤ d.p
  p_le : d.p ≤ capacity

/-- The recent and the frequent side exchanged. -/
def mirrored (d : Directory V) : Directory V := ⟨d.p, d.t2, d.t1, d.b2, d.b1⟩

theorem evictFromT2_eq (d : Directory V) :
    d.evictFromT2 = (d.mirrored.evictFromT1.1.mirrored, d.mirrored.evictFromT1.2) := by
  rw [evictFromT2, evictFromT1, show d.mirrored.t1 = d.t2 from rfl]
  cases d.t2.getLast? with
  | none => rfl
  | some e => rfl

theorem occurs_mirrored (k : Key) (d : Directory V) : d.mirrored.occurs k = d.occurs k := by
  simp only [occurs, mirrored]
  omega

theorem resident_mirrored (d : Directory V) : d.mirrored.resident = d.resident :=
  Nat.add_comm _ _

/-- A victim's key moves from one list to another. -/
theorem occurs_evictFromT1 (k : Key) (d : Directory V) : d.evictFromT1.1.occurs k = d.occurs k := by
  rw [evictFromT1]
  split
  · rfl
  · rename_i e he
    rw [occurs, occurs, occurs_dropLast k he, occurs_cons]
    dsimp only
    omega

theorem occurs_evictFromT2 (k : Key) (d : Directory V) : d.evictFromT2.1.occurs k = d.occurs k := by
  rw [evictFromT2_eq, occurs_mirrored, occurs_evictFromT1, occurs_mirrored]

theorem occurs_replace (x k : Key) (d : Directory V) :
    (d.replace x).1.occurs k = d.occurs k := by
  rw [replace]
  split
  · exact occurs_evictFromT1 k d
  · exact occurs_evictFromT2 k d

theorem p_replace (x : Key) (d : Directory V) : (d.replace x).1.p = d.p := by
  rw [replace, evictFromT1, evictFromT2]
  split <;> split <;> rfl

variable {capacity : Nat} {d : Directory V}

/-- A resident key is no ghost. -/
theorem Wf.notMem_ghosts (h : d.Wf capacity) {key : Key}
    (hkey : key ∈ d.t1.keys ∨ key ∈ d.t2.keys) : key ∉ d.b1.keys ∧ key ∉ d.b2.keys := by
  have hone := h.distinct key
  rw [← occurs_pos, ← occurs_pos] at hkey
  rw [occurs] at hone
  rw [← occurs_eq_zero, ← occurs_eq_zero]
  omega

theorem Wf.only_t1 (h : d.Wf capacity) {key : Key} (hkey : key ∈ d.t1.keys) :
    key ∉ d.t2.keys ∧ key ∉ d.b1.keys ∧ key ∉ d.b2.keys := by
  have hone := h.distinct key
  rw [← occurs_pos] at hkey
  rw [occurs] at hone
  rw [← occurs_eq_zero, ← occurs_eq_zero, ← occurs_eq_zero]
  omega

theorem Wf.notMem_of_b1 (h : d.Wf capacity) {key : Key} (hkey : key ∈ d.b1.keys) :
    key ∉ d.t2.keys ∧ key ∉ d.b2.keys := by
  have hone := h.distinct key
  rw [← occurs_pos] at hkey
  rw [occurs] at hone
  rw [← occurs_eq_zero, ← occurs_eq_zero]
  omega

theorem Wf.notMem_of_b2 (h : d.Wf capacity) {key : Key} (hkey : key ∈ d.b2.keys) :
    key ∉ d.t2.keys ∧ key ∉ d.b1.keys := by
  have hone := h.distinct key
  rw [← occurs_pos] at hkey
  rw [occurs] at hone
  rw [← occurs_eq_zero, ← occurs_eq_zero]
  omega

theorem Wf.of_occurs_le {d' : Directory V} (h : d.Wf capacity)
    (hle : ∀ k, d'.occurs k ≤ d.occurs k) (hp : d'.p = d.p) : d'.Wf capacity :=
  ⟨fun k => (hle k).trans (h.distinct k), hp ▸ h.p_nonneg, hp ▸ h.p_le⟩

theorem Wf.mirrored (h : d.Wf capacity) : d.mirrored.Wf capacity :=
  h.of_occurs_le (fun k => (occurs_mirrored k d).le) rfl

theorem Wf.replace (h : d.Wf capacity) (x : Key) : (d.replace x).1.Wf capacity :=
  h.of_occurs_le (fun k => (occurs_replace x k d).le) (p_replace x d)

theorem Wf.forgetB2 (h : d.Wf capacity) :
    ({ d with b2 := d.b2.dropLast } : Directory V).Wf capacity := by
  refine h.of_occurs_le ?_ rfl
  intro k
  have hle := occurs_dropLast_le k d.b2
  simp only [occurs]
  omega

theorem Wf.delete (h : d.Wf capacity) (key : Key) : (d.delete key).Wf capacity := by
  refine h.of_occurs_le ?_ rfl
  intro k
  simp only [occurs, Directory.delete, occurs_kerase]
  omega

theorem lookup_eq_none {key : Key} :
    d.lookup key = none ↔ Occurrences.occurs key d.t1 + Occurrences.occurs key d.t2 = 0 := by
  rw [lookup, Option.or_eq_none_iff, List.dlookup_eq_none, List.dlookup_eq_none,
    ← occurs_eq_zero, ← occurs_eq_zero]
  omega

theorem Wf.promote (h : d.Wf capacity) {key : Key} (hkey : d.lookup key ≠ none)
    (value : Option V) : (d.promote key value).Wf capacity := by
  refine h.of_occurs_le ?_ rfl
  intro k
  have hpos := mt lookup_eq_none.mpr hkey
  have hone := h.distinct key
  simp only [occurs, Directory.promote, occurs_kerase, occurs_cons] at hone ⊢
  by_cases hk : key = k
  · subst hk
    simp only [if_true]
    omega
  · simp only [hk, if_false]
    omega

theorem Wf.raise (h : d.Wf capacity) :
    ({ d with p := d.raised capacity } : Directory V).Wf capacity := by
  refine ⟨h.distinct, ?_, min_le_right _ _⟩
  have := h.p_nonneg
  show 0 ≤ d.raised capacity
  rw [raised]
  omega

theorem Wf.lower (h : d.Wf capacity) : ({ d with p := d.lowered } : Directory V).Wf capacity := by
  refine ⟨h.distinct, le_max_right _ _, ?_⟩
  have := h.p_le
  show d.lowered ≤ capacity
  rw [lowered]
  omega

/-- Ghosts stay while room is made for one of them. -/
theorem mem_ghosts_replace (x : Key) {key : Key} (hkey : key ∈ d.b1.keys ∨ key ∈ d.b2.keys) :
    key ∈ (d.replace x).1.b1.keys ∨ key ∈ (d.replace x).1.b2.keys := by
  have hmono : Occurrences.occurs key d.b1 + Occurrences.occurs key d.b2 ≤
      Occurrences.occurs key (d.replace x).1.b1 + Occurrences.occurs key (d.replace x).1.b2 := by
    rw [Directory.replace, evictFromT1, evictFromT2]
    split <;> split <;> simp only [occurs_cons] <;> omega
  rw [← occurs_pos, ← occurs_pos] at hkey ⊢
  omega

theorem Wf.revive (h : d.Wf capacity) {key : Key} (hkey : key ∈ d.b1.keys ∨ key ∈ d.b2.keys)
    (value : Option V) : (d.revive key value).Wf capacity := by
  refine h.of_occurs_le ?_ rfl
  intro k
  have hone := h.distinct key
  rw [← occurs_pos, ← occurs_pos] at hkey
  simp only [occurs, Directory.revive, occurs_kerase, occurs_cons] at hone ⊢
  by_cases hk : key = k
  · subst hk
    simp only [if_true]
    omega
  · simp only [hk, if_false]
    omega

theorem Wf.hit {target : Int} {key : Key}
    (h : ({ d with p := target } : Directory V).Wf capacity)
    (hkey : key ∈ d.b1.keys ∨ key ∈ d.b2.keys) (value : Option V) :
    (d.hit target key value).Wf capacity :=
  (h.replace key).revive (mem_ghosts_replace key hkey) value

/-- Making room for a new key only drops ghosts and moves victims. -/
theorem ensureCapacityForNew_le (capacity : Nat) (k : Key) (d : Directory V) :
    (d.ensureCapacityForNew capacity).occurs k ≤ d.occurs k ∧
      (d.ensureCapacityForNew capacity).p = d.p := by
  have hb1 := occurs_dropLast_le k d.b1
  have hb2 := occurs_dropLast_le k d.b2
  rw [ensureCapacityForNew]
  split
  · rw [trimForHistoryLimit]
    split
    · refine ⟨?_, rfl⟩
      simp only [occurs]
      omega
    · exact ⟨(occurs_evictFromT1 k d).le, by rw [evictFromT1]; split <;> rfl⟩
  · rw [trimForTotalLimit, occurs_replace, p_replace]
    split
    · refine ⟨?_, rfl⟩
      simp only [occurs]
      omega
    · exact ⟨le_rfl, rfl⟩

theorem Wf.insertNew (h : d.Wf capacity) {key : Key} (hkey : d.occurs key = 0) (value : Option V) :
    (d.insertNew capacity key value).Wf capacity := by
  obtain ⟨d', hd', hle, hp⟩ : ∃ d' : Directory V,
      d.insertNew capacity key value = { d' with t1 := ⟨key, value⟩ :: d'.t1 } ∧
        (∀ k, d'.occurs k ≤ d.occurs k) ∧ d'.p = d.p := by
    refine ⟨_, rfl, ?_⟩
    split
    · exact ⟨fun k => (ensureCapacityForNew_le capacity k d).1,
        (ensureCapacityForNew_le capacity key d).2⟩
    · exact ⟨fun k => le_rfl, rfl⟩
  rw [hd']
  refine ⟨?_, hp ▸ h.p_nonneg, hp ▸ h.p_le⟩
  intro k
  have hone := h.distinct k
  have hk := hle k
  simp only [occurs, occurs_cons] at hone hk hkey ⊢
  by_cases heq : key = k
  · subst heq
    simp only [if_true]
    omega
  · simp only [heq, if_false]
    omega

theorem Wf.set (h : d.Wf capacity) (key : Key) (value : Option V) :
    (d.set capacity key value).Wf capacity := by
  rw [Directory.set]
  split
  · exact h
  · cases hkey : d.lookup key with
    | some v => exact h.promote (by rw [hkey]; exact Option.some_ne_none v) value
    | none =>
        cases hb1 : d.b1.dlookup key with
        | some u => exact h.raise.hit (.inl (List.dlookup_isSome.mp (by rw [hb1]; rfl))) value
        | none =>
            cases hb2 : d.b2.dlookup key with
            | some u => exact h.lower.hit (.inr (List.dlookup_isSome.mp (by rw [hb2]; rfl))) value
            | none =>
                refine h.insertNew ?_ value
                have hres := lookup_eq_none.mp hkey
                have h1 := occurs_eq_zero.mpr (List.dlookup_eq_none.mp hb1)
                have h2 := occurs_eq_zero.mpr (List.dlookup_eq_none.mp hb2)
                rw [occurs]
                omega

theorem Wf.get (h : d.Wf capacity) (key : Key) : (d.get key).1.Wf capacity := by
  rw [Directory.get]
  cases hkey : d.lookup key with
  | some v => exact h.promote (by rw [hkey]; exact Option.some_ne_none v) v
  | none => exact h

theorem Wf.evict (h : d.Wf capacity) : (d.evict capacity).1.Wf capacity := by
  rw [Directory.evict]
  split
  · exact h
  · exact h.replace []

end Directory

end HyperCache
