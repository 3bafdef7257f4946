/-
The bounds of ARC, and what its eviction finds.

A replacement takes from T2 when T1 is within its target, and finds nothing there if
T2 is empty. So the number of residents, the size of the directory and the success of
`Evict` each depend on the sizes of the lists at the call, and the conditions are
given here.
-/
import HyperCache.ArcRefinement

namespace HyperCache

open LinkedList Occurrences

variable {V : Type}

namespace Directory

/-! ## Sizes -/

/-- A replacement finds a victim. -/
def Frees (x : Key) (d : Directory V) : Prop := d.FromT1 x ∨ 0 < d.t2.length

theorem replace_of_not_frees {x : Key} {d : Directory V} (h : ¬ d.Frees x) :
    d.replace x = (d, []) := by
  obtain ⟨hside, hempty⟩ := not_or.mp h
  have hnil : d.t2 = [] := List.eq_nil_of_length_eq_zero (Nat.le_zero.mp (Nat.not_lt.mp hempty))
  rw [replace, if_neg hside, evictFromT2, hnil]
  rfl

theorem evictFromT1_of_pos {d : Directory V} (h : 0 < d.t1.length) :
    ∃ e, d.t1.getLast? = some e ∧
      d.evictFromT1 = ({ d with t1 := d.t1.dropLast, b1 := ⟨e.1, ()⟩ :: d.b1 }, e.1) := by
  obtain ⟨e, he⟩ := Option.ne_none_iff_exists'.mp
    (mt List.getLast?_eq_none_iff.mp (List.ne_nil_of_length_pos h))
  exact ⟨e, he, by rw [evictFromT1, he]⟩

theorem resident_evictFromT1 {d : Directory V} (h : 0 < d.t1.length) :
    d.evictFromT1.1.resident + 1 = d.resident := by
  obtain ⟨e, -, heq⟩ := evictFromT1_of_pos h
  rw [heq]
  simp only [resident, List.length_dropLast]
  omega

theorem resident_evictFromT2 {d : Directory V} (h : 0 < d.t2.length) :
    d.evictFromT2.1.resident + 1 = d.resident := by
  rw [evictFromT2_eq, resident_mirrored, resident_evictFromT1 (d := d.mirrored) h,
    resident_mirrored]

theorem resident_replace_of_frees {x : Key} {d : Directory V} (h : d.Frees x) :
    (d.replace x).1.resident + 1 = d.resident := by
  rw [replace]
  by_cases hside : d.FromT1 x
  · rw [if_pos hside]
    exact resident_evictFromT1 hside.1
  · rw [if_neg hside]
    exact resident_evictFromT2 (h.resolve_left hside)

theorem total_evictFromT1 (d : Directory V) : d.evictFromT1.1.total = d.total := by
  cases Nat.eq_zero_or_pos d.t1.length with
  | inl hzero =>
      rw [evictFromT1, List.eq_nil_of_length_eq_zero hzero]
      rfl
  | inr hpos =>
      obtain ⟨e, -, heq⟩ := evictFromT1_of_pos hpos
      rw [heq]
      simp only [total, List.length_dropLast, List.length_cons]
      omega

theorem total_mirrored (d : Directory V) : d.mirrored.total = d.total := by
  simp only [total, mirrored]
  omega

theorem total_evictFromT2 (d : Directory V) : d.evictFromT2.1.total = d.total := by
  rw [evictFromT2_eq, total_mirrored, total_evictFromT1, total_mirrored]

theorem total_replace (x : Key) (d : Directory V) : (d.replace x).1.total = d.total := by
  rw [replace]
  split
  · exact total_evictFromT1 d
  · exact total_evictFromT2 d

variable {capacity : Nat} {d : Directory V} {key : Key}

/-- A read or a write of a resident key moves it. -/
theorem sizes_promote (hd : d.Wf capacity) (hkey : d.lookup key ≠ none) (value : Option V) :
    (d.promote key value).resident = d.resident ∧ (d.promote key value).total = d.total := by
  have hpos := mt lookup_eq_none.mpr hkey
  have hlen : (d.t1.kerase key).length + ((d.t2.kerase key).length + 1) =
      d.t1.length + d.t2.length := by
    by_cases h1 : key ∈ d.t1.keys
    · have hlen := RecencyList.length_kerase_of_mem h1
      rw [List.kerase_of_notMem_keys (hd.only_t1 h1).1]
      omega
    · have h2 : key ∈ d.t2.keys := by
        rw [← occurs_pos]
        rw [← occurs_eq_zero] at h1
        omega
      have hlen := RecencyList.length_kerase_of_mem h2
      rw [List.kerase_of_notMem_keys h1]
      omega
  simp only [resident, total, promote, List.length_cons]
  omega

/-- A ghost that becomes resident. -/
theorem sizes_revive (hd : d.Wf capacity) (hkey : key ∈ d.b1.keys ∨ key ∈ d.b2.keys)
    (value : Option V) :
    (d.revive key value).resident = d.resident + 1 ∧ (d.revive key value).total = d.total := by
  have hlen : (d.b1.kerase key).length + (d.b2.kerase key).length + 1 =
      d.b1.length + d.b2.length := by
    rcases hkey with h1 | h2
    · have hlen := RecencyList.length_kerase_of_mem h1
      rw [List.kerase_of_notMem_keys (hd.notMem_of_b1 h1).2]
      omega
    · have hlen := RecencyList.length_kerase_of_mem h2
      rw [List.kerase_of_notMem_keys (hd.notMem_of_b2 h2).2]
      omega
  simp only [resident, total, revive, List.length_cons]
  omega

theorem sizes_delete_le (key : Key) (d : Directory V) :
    (d.delete key).resident ≤ d.resident ∧ (d.delete key).total ≤ d.total := by
  have h1 := (List.kerase_sublist key d.t1).length_le
  have h2 := (List.kerase_sublist key d.t2).length_le
  have h3 := (List.kerase_sublist key d.b1).length_le
  have h4 := (List.kerase_sublist key d.b2).length_le
  simp only [resident, total, delete]
  omega

theorem sizes_evict_le (capacity : Nat) (d : Directory V) :
    (d.evict capacity).1.resident ≤ d.resident ∧ (d.evict capacity).1.total = d.total := by
  rw [evict]
  split
  · exact ⟨le_rfl, rfl⟩
  · refine ⟨?_, total_replace [] d⟩
    by_cases h : d.Frees []
    · have := resident_replace_of_frees h
      dsimp only
      omega
    · rw [replace_of_not_frees h]

theorem sizes_get (hd : d.Wf capacity) (key : Key) :
    (d.get key).1.resident = d.resident ∧ (d.get key).1.total = d.total := by
  rw [get]
  cases hkey : d.lookup key with
  | none => exact ⟨rfl, rfl⟩
  | some value => exact sizes_promote hd (by rw [hkey]; exact Option.some_ne_none value) value

/-- Only a write can make the directory grow. -/
theorem sizes_exec_le {op : AlgOp V} {d' : Directory V} {r : Reply V} (hd : d.Wf capacity)
    (hop : ∀ key value, op ≠ .set key value) (hexec : d.exec capacity op = some (d', r)) :
    d'.resident ≤ d.resident ∧ d'.total ≤ d.total := by
  cases op with
  | set key value => exact absurd rfl (hop key value)
  | get key =>
      obtain ⟨rfl, -⟩ := Prod.mk.inj (Option.some.inj hexec)
      exact (sizes_get hd key).imp Eq.le Eq.le
  | delete key =>
      obtain ⟨rfl, -⟩ := Prod.mk.inj (Option.some.inj hexec)
      exact sizes_delete_le key d
  | evict =>
      obtain ⟨rfl, -⟩ := Prod.mk.inj (Option.some.inj hexec)
      exact (sizes_evict_le capacity d).imp id Eq.le

/-- The ways a write can go. -/
theorem set_cases (hpos : 0 < capacity) (key : Key) (value : Option V) (d : Directory V) :
    (d.lookup key ≠ none ∧ d.set capacity key value = d.promote key value) ∨
      (d.lookup key = none ∧ key ∈ d.b1.keys ∧
        d.set capacity key value = d.hitB1 capacity key value) ∨
      (d.lookup key = none ∧ key ∉ d.b1.keys ∧ key ∈ d.b2.keys ∧
        d.set capacity key value = d.hitB2 key value) ∨
      (d.lookup key = none ∧ key ∉ d.b1.keys ∧ key ∉ d.b2.keys ∧
        d.set capacity key value = d.insertNew capacity key value) := by
  rw [set, if_neg (Nat.pos_iff_ne_zero.mp hpos)]
  cases hkey : d.lookup key with
  | some v => exact .inl ⟨Option.some_ne_none v, rfl⟩
  | none =>
      refine .inr ?_
      cases hb1 : d.b1.dlookup key with
      | some u => exact .inl ⟨rfl, List.dlookup_isSome.mp (by rw [hb1]; rfl), rfl⟩
      | none =>
          have hb1' := List.dlookup_eq_none.mp hb1
          refine .inr ?_
          cases hb2 : d.b2.dlookup key with
          | some u => exact .inl ⟨rfl, hb1', List.dlookup_isSome.mp (by rw [hb2]; rfl), rfl⟩
          | none => exact .inr ⟨rfl, hb1', List.dlookup_eq_none.mp hb2, rfl⟩

/-! ## Residents -/

/-- A write of `key` keeps the residents within the capacity. -/
def MakesRoom (capacity : Nat) (key : Key) (d : Directory V) : Prop :=
  d.resident < capacity ∨ d.lookup key ≠ none ∨
    (key ∈ d.b1.keys ∧ Frees key { d with p := d.raised capacity }) ∨
    (key ∈ d.b2.keys ∧ Frees key { d with p := d.lowered }) ∨
    (key ∉ d.b1.keys ∧ key ∉ d.b2.keys ∧
      (d.t1.length = capacity ∨ d.t1.length + d.b1.length < capacity))

theorem sizes_hit {target : Int} (hd : ({ d with p := target } : Directory V).Wf capacity)
    (hkey : key ∈ d.b1.keys ∨ key ∈ d.b2.keys) (value : Option V) :
    (d.hit target key value).resident = ({ d with p := target }.replace key).1.resident + 1 ∧
      (d.hit target key value).total = d.total := by
  obtain ⟨hresident, htotal⟩ :=
    sizes_revive (hd.replace key) (mem_ghosts_replace key hkey) value
  exact ⟨hresident, htotal.trans (total_replace key _)⟩

theorem resident_hit_le_iff {target : Int}
    (hd : ({ d with p := target } : Directory V).Wf capacity)
    (hkey : key ∈ d.b1.keys ∨ key ∈ d.b2.keys) (hle : d.resident ≤ capacity) (value : Option V) :
    (d.hit target key value).resident ≤ capacity ↔
      d.resident < capacity ∨ Frees key { d with p := target } := by
  have hsame : ({ d with p := target } : Directory V).resident = d.resident := rfl
  rw [(sizes_hit hd hkey value).1]
  by_cases h : Frees key { d with p := target }
  · have := resident_replace_of_frees h
    simp only [h, or_true, iff_true]
    omega
  · rw [replace_of_not_frees h, hsame]
    simp only [h, or_false]
    omega

theorem resident_cons (e : Σ _ : Key, Option V) (d : Directory V) :
    ({ d with t1 := e :: d.t1 } : Directory V).resident = d.resident + 1 := by
  simp only [resident, List.length_cons]
  omega

/-- With a full cache a new key displaces one if T1 alone is full, or if T1 and B1 together
are below the capacity. -/
theorem resident_insertNew_le_iff (hpos : 0 < capacity) (hle : d.resident ≤ capacity)
    (value : Option V) :
    (d.insertNew capacity key value).resident ≤ capacity ↔
      d.resident < capacity ∨ d.t1.length = capacity ∨
        d.t1.length + d.b1.length < capacity := by
  rw [insertNew, resident_cons]
  by_cases hfull : d.resident ≥ capacity
  · rw [if_pos hfull, ensureCapacityForNew]
    have hsum : d.t1.length + d.t2.length = d.resident := rfl
    by_cases hhistory : d.t1.length + d.b1.length ≥ capacity
    · rw [if_pos hhistory, trimForHistoryLimit]
      by_cases hroom : d.t1.length < capacity
      · rw [if_pos hroom]
        show d.resident + 1 ≤ capacity ↔ _
        omega
      · rw [if_neg hroom]
        have := resident_evictFromT1 (d := d) (by omega)
        omega
    · rw [if_neg hhistory, trimForTotalLimit]
      have hfrees : ∀ d' : Directory V, d'.t1 = d.t1 → d'.t2 = d.t2 →
          (d'.replace []).1.resident + 1 = d.resident := by
        intro d' h1 h2
        have ht2 : 0 < d'.t2.length := by
          rw [h2]
          omega
        rw [resident_replace_of_frees (.inr ht2), resident, h1, h2]
        rfl
      have hresident : ((if d.total ≥ 2 * capacity then { d with b2 := d.b2.dropLast }
          else d).replace []).1.resident + 1 = d.resident := by
        split
        · exact hfrees _ rfl rfl
        · exact hfrees _ rfl rfl
      omega
  · rw [if_neg hfull]
    omega

theorem resident_set_le_iff (hd : d.Wf capacity) (hpos : 0 < capacity)
    (hle : d.resident ≤ capacity) (key : Key) (value : Option V) :
    (d.set capacity key value).resident ≤ capacity ↔ d.MakesRoom capacity key := by
  rw [MakesRoom]
  rcases set_cases hpos key value d with ⟨hkey, hset⟩ | ⟨hkey, hb1, hset⟩ |
    ⟨hkey, hb1, hb2, hset⟩ | ⟨hkey, hb1, hb2, hset⟩
  · rw [hset, (sizes_promote hd hkey value).1]
    simp only [hle, hkey, ne_eq, not_false_eq_true, true_or, or_true]
  · rw [hset, hitB1, resident_hit_le_iff hd.raise (.inl hb1) hle value]
    simp only [hkey, hb1, (hd.notMem_of_b1 hb1).2, ne_eq, not_true, true_and, false_and, or_false,
      false_or]
  · rw [hset, hitB2, resident_hit_le_iff hd.lower (.inr hb2) hle value]
    simp only [hkey, hb1, hb2, ne_eq, not_true, true_and, false_and, and_false, or_false, false_or]
  · rw [hset, resident_insertNew_le_iff hpos hle value]
    simp only [hkey, hb1, hb2, ne_eq, not_true, not_false_eq_true, true_and, false_and, false_or]

/-! ## The size of the directory -/

/-- A write of `key` keeps the directory within twice the capacity. -/
def KeepsHistory (capacity : Nat) (key : Key) (d : Directory V) : Prop :=
  d.total < 2 * capacity ∨ d.occurs key ≠ 0 ∨
    (d.resident ≥ capacity ∧
      ((d.t1.length + d.b1.length ≥ capacity ∧ d.t1.length < capacity) ∨
        (d.t1.length + d.b1.length < capacity ∧ 0 < d.b2.length)))

theorem total_cons (e : Σ _ : Key, Option V) (d : Directory V) :
    ({ d with t1 := e :: d.t1 } : Directory V).total = d.total + 1 := by
  simp only [total, List.length_cons]
  omega

/-- At the bound, a new key fits if a ghost is forgotten for it. -/
theorem total_insertNew_le_iff (hle : d.total ≤ 2 * capacity) (value : Option V) :
    (d.insertNew capacity key value).total ≤ 2 * capacity ↔
      d.total < 2 * capacity ∨ (d.resident ≥ capacity ∧
        ((d.t1.length + d.b1.length ≥ capacity ∧ d.t1.length < capacity) ∨
          (d.t1.length + d.b1.length < capacity ∧ 0 < d.b2.length))) := by
  rw [insertNew, total_cons]
  have hsum : d.total = d.t1.length + d.t2.length + d.b1.length + d.b2.length := rfl
  by_cases hfull : d.resident ≥ capacity
  · rw [if_pos hfull, ensureCapacityForNew]
    by_cases hhistory : d.t1.length + d.b1.length ≥ capacity
    · rw [if_pos hhistory, trimForHistoryLimit]
      by_cases hroom : d.t1.length < capacity
      · rw [if_pos hroom]
        have htrim : ({ d with b1 := d.b1.dropLast } : Directory V).total + 1 = d.total := by
          simp only [total, List.length_dropLast]
          omega
        omega
      · rw [if_neg hroom, total_evictFromT1]
        omega
    · rw [if_neg hhistory, trimForTotalLimit, total_replace]
      by_cases hlimit : d.total ≥ 2 * capacity
      · rw [if_pos hlimit]
        simp only [total, List.length_dropLast] at hlimit hle ⊢
        omega
      · rw [if_neg hlimit]
        omega
  · rw [if_neg hfull]
    omega

theorem total_set_le_iff (hd : d.Wf capacity) (hpos : 0 < capacity)
    (hle : d.total ≤ 2 * capacity) (key : Key) (value : Option V) :
    (d.set capacity key value).total ≤ 2 * capacity ↔ d.KeepsHistory capacity key := by
  rw [KeepsHistory]
  rcases set_cases hpos key value d with ⟨hkey, hset⟩ | ⟨hkey, hb1, hset⟩ |
    ⟨hkey, hb1, hb2, hset⟩ | ⟨hkey, hb1, hb2, hset⟩
  · have hocc := mt lookup_eq_none.mpr hkey
    rw [hset, (sizes_promote hd hkey value).2, occurs]
    omega
  · have hocc := occurs_pos.mpr hb1
    rw [hset, hitB1, (sizes_hit hd.raise (.inl hb1) value).2, occurs]
    omega
  · have hocc := occurs_pos.mpr hb2
    rw [hset, hitB2, (sizes_hit hd.lower (.inr hb2) value).2, occurs]
    omega
  · have hres := lookup_eq_none.mp hkey
    rw [← occurs_eq_zero] at hb1 hb2
    rw [hset, total_insertNew_le_iff hle value, occurs]
    omega

/-! ## Evictions -/

theorem frees_nil_iff (hd : d.Wf capacity) :
    d.Frees [] ↔ d.p < d.t1.length ∨ 0 < d.t2.length := by
  have hp := hd.p_nonneg
  simp only [Frees, FromT1, ne_eq, not_true, false_and, false_or]
  omega

/-- The victim was resident and is a ghost now. -/
theorem victim_evictFromT1 (h : 0 < d.t1.length) :
    d.lookup d.evictFromT1.2 ≠ none ∧
      (d.evictFromT1.2 ∈ d.evictFromT1.1.b1.keys ∨ d.evictFromT1.2 ∈ d.evictFromT1.1.b2.keys) := by
  obtain ⟨e, he, heq⟩ := evictFromT1_of_pos h
  have hpos := occurs_pos.mpr (List.mem_keys_of_mem (List.mem_of_getLast? he))
  rw [heq, ne_eq, lookup_eq_none]
  refine ⟨?_, .inl List.mem_cons_self⟩
  dsimp only
  omega

theorem victim_evictFromT2 (h : 0 < d.t2.length) :
    d.lookup d.evictFromT2.2 ≠ none ∧
      (d.evictFromT2.2 ∈ d.evictFromT2.1.b1.keys ∨ d.evictFromT2.2 ∈ d.evictFromT2.1.b2.keys) := by
  obtain ⟨hbefore, hafter⟩ := victim_evictFromT1 (d := d.mirrored) h
  rw [ne_eq, lookup_eq_none, Nat.add_comm] at hbefore
  rw [evictFromT2_eq]
  exact ⟨mt lookup_eq_none.mp hbefore, hafter.symm⟩

theorem replace_of_frees (hd : d.Wf capacity) {x : Key} (h : d.Frees x) :
    d.lookup (d.replace x).2 ≠ none ∧ (d.replace x).1.lookup (d.replace x).2 = none := by
  have hghost : d.lookup (d.replace x).2 ≠ none ∧
      ((d.replace x).2 ∈ (d.replace x).1.b1.keys ∨ (d.replace x).2 ∈ (d.replace x).1.b2.keys) := by
    rw [replace]
    by_cases hside : d.FromT1 x
    · rw [if_pos hside]
      exact victim_evictFromT1 hside.1
    · rw [if_neg hside]
      exact victim_evictFromT2 (h.resolve_left hside)
  refine ⟨hghost.1, ?_⟩
  have hone := (hd.replace x).distinct (d.replace x).2
  have hpos := hghost.2
  rw [← occurs_pos, ← occurs_pos] at hpos
  rw [occurs] at hone
  rw [lookup_eq_none]
  omega

/-- Without the empty key, `Evict` takes a resident out exactly when the replacement finds
one. -/
theorem evict_resident_iff (hd : d.Wf capacity) (hempty : d.occurs [] = 0)
    (hcap : 0 < capacity) (hres : 0 < d.resident) :
    (∃ key, (d.evict capacity).2 = some key ∧ d.lookup key ≠ none ∧
        (d.evict capacity).1.lookup key = none) ↔ d.p < d.t1.length ∨ 0 < d.t2.length := by
  have hnone : ¬ (capacity = 0 ∨ d.resident = 0) := by omega
  rw [← frees_nil_iff hd, evict, if_neg hnone]
  by_cases h : d.Frees []
  · obtain ⟨hbefore, hafter⟩ := replace_of_frees hd h
    have hkey : (d.replace []).2 ≠ [] := by
      intro heq
      rw [heq, ne_eq, lookup_eq_none] at hbefore
      rw [occurs] at hempty
      omega
    simp only [h, if_neg hkey, iff_true]
    exact ⟨_, rfl, hbefore, hafter⟩
  · rw [replace_of_not_frees h]
    simp [h]

theorem occurs_promote_of_ne {k : Key} (hne : key ≠ k) (value : Option V) (d : Directory V) :
    (d.promote key value).occurs k = d.occurs k := by
  simp only [occurs, promote, occurs_kerase, occurs_cons, hne, if_false]
  omega

theorem occurs_hit_of_ne {k : Key} (hne : key ≠ k) (target : Int) (value : Option V)
    (d : Directory V) : (d.hit target key value).occurs k = d.occurs k := by
  have hreplace := occurs_replace key k { d with p := target }
  simp only [hit, revive, occurs, occurs_kerase, occurs_cons, hne, if_false] at hreplace ⊢
  omega

theorem occurs_insertNew_le_of_ne {k : Key} (hne : key ≠ k) (value : Option V) (d : Directory V) :
    (d.insertNew capacity key value).occurs k ≤ d.occurs k := by
  have hensure := (ensureCapacityForNew_le capacity k d).1
  rw [insertNew]
  split
  · simp only [occurs, occurs_cons, hne, if_false] at hensure ⊢
    omega
  · simp only [occurs, occurs_cons, hne, if_false]
    omega

end Directory

/-- The key a call is about. -/
def AlgOp.key? : AlgOp V → Option Key
  | .set key _ => some key
  | .get key => some key
  | .delete key => some key
  | .evict => none

/-- Only a call for a key brings it in. -/
theorem Directory.occurs_exec_le {capacity : Nat} {d d' : Directory V} {op : AlgOp V}
    {r : Reply V} {k : Key} (hop : op.key? ≠ some k) (h : d.exec capacity op = some (d', r)) :
    d'.occurs k ≤ d.occurs k := by
  cases op with
  | set key value =>
      obtain ⟨rfl, -⟩ := Prod.mk.inj (Option.some.inj h)
      have hne : key ≠ k := fun heq => hop (congrArg some heq)
      cases Nat.eq_zero_or_pos capacity with
      | inl hzero => rw [Directory.set, if_pos hzero]
      | inr hpos =>
          rcases set_cases hpos key value d with ⟨-, hset⟩ | ⟨-, -, hset⟩ | ⟨-, -, -, hset⟩ |
            ⟨-, -, -, hset⟩
          · rw [hset, occurs_promote_of_ne hne]
          · rw [hset, hitB1, occurs_hit_of_ne hne]
          · rw [hset, hitB2, occurs_hit_of_ne hne]
          · rw [hset]
            exact occurs_insertNew_le_of_ne hne value d
  | get key =>
      obtain ⟨rfl, -⟩ := Prod.mk.inj (Option.some.inj h)
      have hne : key ≠ k := fun heq => hop (congrArg some heq)
      rw [Directory.get]
      split
      · rw [occurs_promote_of_ne hne]
      · exact le_rfl
  | delete key =>
      obtain ⟨rfl, -⟩ := Prod.mk.inj (Option.some.inj h)
      simp only [Directory.occurs, Directory.delete, occurs_kerase]
      omega
  | evict =>
      obtain ⟨rfl, -⟩ := Prod.mk.inj (Option.some.inj h)
      rw [Directory.evict]
      split
      · exact le_rfl
      · exact (occurs_replace [] k d).le

namespace ARC

/-! ## Bounds over runs -/

def Resident (key : Key) (a : ARC V) : Prop := key ∈ a.t1.idx ∨ key ∈ a.t2.idx

def Frees (x : Key) (a : ARC V) : Prop := a.FromT1 x ∨ a.t2.len > 0

/-- A replacement, or the eviction of `insertNew`, keeps the residents within the capacity. -/
def MakesRoom (key : Key) (a : ARC V) : Prop :=
  a.length < a.capacity ∨ a.Resident key ∨
    (key ∈ a.b1.idx ∧ Frees key { a with p := a.raised }) ∨
    (key ∈ a.b2.idx ∧ Frees key { a with p := a.lowered }) ∨
    (key ∉ a.b1.idx ∧ key ∉ a.b2.idx ∧
      (a.t1.len = a.capacity ∨ a.t1.len + a.b1.len < a.capacity))

def KeepsCapacity (a : ARC V) : AlgOp V → Prop
  | .set key _ => a.MakesRoom key
  | _ => True

def total (a : ARC V) : Int := a.t1.len + a.t2.len + a.b1.len + a.b2.len

/-- A new key fits into the directory, or a ghost is forgotten for it. -/
def KeepsHistory (a : ARC V) : AlgOp V → Prop
  | .set key _ =>
      a.total < 2 * a.capacity ∨
        (a.Resident key ∨ key ∈ a.b1.idx ∨ key ∈ a.b2.idx) ∨
        (a.length ≥ a.capacity ∧
          ((a.t1.len + a.b1.len ≥ a.capacity ∧ a.t1.len < a.capacity) ∨
            (a.t1.len + a.b1.len < a.capacity ∧ a.b2.len > 0)))
  | _ => True

/-- If a key is resident, `Evict` returns one that was and is not any more. -/
def EvictsResident (a : ARC V) : AlgOp V → Prop
  | .evict =>
      (∃ key, a.Resident key) →
        ∃ a' key, a.exec .evict = some (a', .victim (some key)) ∧ a.Resident key ∧
          ¬ a'.Resident key
  | _ => True

/-- T1 is above its target, or T2 has a key. -/
def CanEvict (a : ARC V) : AlgOp V → Prop
  | .evict => (∃ key, a.Resident key) → a.p < a.t1.len ∨ a.t2.len > 0
  | _ => True

variable {capacity : Nat} {a : ARC V} {d : Directory V} {key : Key}

theorem Represents.resident_iff (h : a.Represents capacity d) :
    a.Resident key ↔ d.lookup key ≠ none := by
  rw [Resident, ← h.residents.mem_keys, ← h.residents.symm.mem_keys, ← occurs_pos, ← occurs_pos,
    ne_eq, Directory.lookup_eq_none]
  omega

theorem Represents.frees_iff (h : a.Represents capacity d) (x : Key) :
    a.Frees x ↔ d.Frees x := by
  rw [Frees, Directory.Frees, fromT1_iff h, h.t2_len]
  simp only [gt_iff_lt, Int.natCast_pos]

theorem Represents.makesRoom_iff (h : a.Represents capacity d) :
    a.MakesRoom key ↔ d.MakesRoom capacity key := by
  rw [MakesRoom, Directory.MakesRoom, (h.setTarget h.raised_eq).frees_iff,
    (h.setTarget h.lowered_eq).frees_iff, h.resident_iff, h.ghosts.mem_keys,
    h.ghosts.symm.mem_keys, h.length_eq, h.t1_len, h.b1_len, h.capacity_eq]
  norm_cast

theorem Represents.keepsHistory_iff (h : a.Represents capacity d) (value : Option V) :
    a.KeepsHistory (.set key value) ↔ d.KeepsHistory capacity key := by
  have hoccurs : (a.Resident key ∨ key ∈ a.b1.idx ∨ key ∈ a.b2.idx) ↔ d.occurs key ≠ 0 := by
    rw [Resident, ← h.residents.mem_keys, ← h.residents.symm.mem_keys, ← h.ghosts.mem_keys,
      ← h.ghosts.symm.mem_keys]
    simp only [← occurs_pos, Directory.occurs]
    omega
  rw [KeepsHistory, Directory.KeepsHistory, hoccurs, total, h.length_eq, h.t1_len, h.t2_len,
    h.b1_len, h.b2_len, h.capacity_eq, Directory.total]
  norm_cast

theorem Represents.sum_eq (h : a.Represents capacity d) : a.t1.len + a.t2.len = d.resident := by
  rw [h.t1_len, h.t2_len, Directory.resident]
  rfl

theorem Represents.total_eq (h : a.Represents capacity d) : a.total = d.total := by
  rw [total, h.t1_len, h.t2_len, h.b1_len, h.b2_len, Directory.total]
  rfl

theorem capacity_step (hpos : 0 < capacity) (h : a.Reaches capacity d)
    (hle : a.t1.len + a.t2.len ≤ capacity) (op : AlgOp V) :
    ∃ a' r, a.exec op = some (a', r) ∧ (∃ d', a'.Reaches capacity d') ∧
      (a'.t1.len + a'.t2.len ≤ capacity ↔ a.KeepsCapacity op) := by
  obtain ⟨a', d', r, hexec, hdir, h'⟩ := exec_spec h op
  refine ⟨a', r, hexec, ⟨d', h'⟩, ?_⟩
  rw [h.1.sum_eq] at hle
  rw [h'.1.sum_eq]
  have hle : d.resident ≤ capacity := by omega
  cases op with
  | set key value =>
      obtain ⟨rfl, -⟩ := Prod.mk.inj (Option.some.inj hdir)
      rw [KeepsCapacity, h.1.makesRoom_iff, ← Directory.resident_set_le_iff h.2 hpos hle key value]
      omega
  | get _ | delete _ | evict =>
      have hsize := (Directory.sizes_exec_le h.2 (by simp) hdir).1
      simp only [KeepsCapacity, iff_true]
      omega

theorem history_step (hpos : 0 < capacity) (h : a.Reaches capacity d)
    (hle : a.total ≤ 2 * capacity) (op : AlgOp V) :
    ∃ a' r, a.exec op = some (a', r) ∧ (∃ d', a'.Reaches capacity d') ∧
      (a'.total ≤ 2 * capacity ↔ a.KeepsHistory op) := by
  obtain ⟨a', d', r, hexec, hdir, h'⟩ := exec_spec h op
  refine ⟨a', r, hexec, ⟨d', h'⟩, ?_⟩
  rw [h.1.total_eq] at hle
  rw [h'.1.total_eq]
  have hle : d.total ≤ 2 * capacity := by omega
  cases op with
  | set key value =>
      obtain ⟨rfl, -⟩ := Prod.mk.inj (Option.some.inj hdir)
      rw [h.1.keepsHistory_iff value, ← Directory.total_set_le_iff h.2 hpos hle key value]
      omega
  | get _ | delete _ | evict =>
      have hsize := (Directory.sizes_exec_le h.2 (by simp) hdir).2
      simp only [KeepsHistory, iff_true]
      omega

/-- States without the empty key, and without any at capacity zero. -/
def ReachesNonempty (capacity : Nat) (a : ARC V) : Prop :=
  ∃ d : Directory V, a.Reaches capacity d ∧ d.occurs [] = 0 ∧ (capacity = 0 → d.resident = 0)

theorem reachesNonempty_step (h : a.ReachesNonempty capacity) {op : AlgOp V}
    (hop : op.key? ≠ some []) :
    ∃ a' r, a.exec op = some (a', r) ∧ a'.ReachesNonempty capacity := by
  obtain ⟨d, h, hempty, hzero⟩ := h
  obtain ⟨a', d', r, hexec, hdir, h'⟩ := exec_spec h op
  have hle := Directory.occurs_exec_le hop hdir
  refine ⟨a', r, hexec, d', h', by omega, ?_⟩
  intro hcap
  have hnone := hzero hcap
  cases op with
  | set key value =>
      obtain ⟨rfl, -⟩ := Prod.mk.inj (Option.some.inj hdir)
      rw [Directory.set, if_pos hcap]
      exact hnone
  | get _ | delete _ | evict =>
      have hsize := (Directory.sizes_exec_le h.2 (by simp) hdir).1
      omega

theorem Represents.exists_resident_iff (h : a.Represents capacity d) :
    (∃ key, a.Resident key) ↔ 0 < d.resident := by
  constructor
  · rintro ⟨key, hkey⟩
    rw [Resident, ← h.residents.mem_keys, ← h.residents.symm.mem_keys] at hkey
    rw [Directory.resident]
    rcases hkey with hkey | hkey
    · obtain ⟨e, he, -⟩ := List.mem_map.mp hkey
      have := List.length_pos_of_mem he
      omega
    · obtain ⟨e, he, -⟩ := List.mem_map.mp hkey
      have := List.length_pos_of_mem he
      omega
  · intro hpos
    rw [Directory.resident] at hpos
    by_cases h1 : 0 < d.t1.length
    · obtain ⟨e, he⟩ := List.exists_mem_of_length_pos h1
      exact ⟨e.1, .inl (h.residents.mem_keys.mp (List.mem_keys_of_mem he))⟩
    · obtain ⟨e, he⟩ := List.exists_mem_of_length_pos (show 0 < d.t2.length by omega)
      exact ⟨e.1, .inr (h.residents.symm.mem_keys.mp (List.mem_keys_of_mem he))⟩

theorem evictsResident_iff (h : a.ReachesNonempty capacity) (op : AlgOp V) :
    a.EvictsResident op ↔ a.CanEvict op := by
  cases op with
  | set key value => exact Iff.rfl
  | get key => exact Iff.rfl
  | delete key => exact Iff.rfl
  | evict =>
      obtain ⟨d, ⟨h, hd⟩, hempty, hzero⟩ := h
      obtain ⟨a', hevict, h'⟩ := evict_spec h hd
      have hexec : a.exec .evict = some (a', .victim (d.evict capacity).2) := by
        simp [exec, hevict]
      rw [EvictsResident, CanEvict, h.exists_resident_iff, h.p_eq, h.t1_len, h.t2_len]
      refine imp_congr_right ?_
      intro hres
      have hcap : 0 < capacity := by
        rcases Nat.eq_zero_or_pos capacity with hcap | hcap
        · have := hzero hcap
          omega
        · exact hcap
      have hiff := Directory.evict_resident_iff hd hempty hcap hres
      simp only [gt_iff_lt, Int.natCast_pos]
      rw [← hiff]
      constructor
      · rintro ⟨a₁, key, hexec₁, hbefore, hafter⟩
        rw [hexec, Option.some.injEq, Prod.mk.injEq, Reply.victim.injEq] at hexec₁
        obtain ⟨rfl, hkey⟩ := hexec₁
        refine ⟨key, hkey, h.resident_iff.mp hbefore, ?_⟩
        exact Classical.not_not.mp (mt h'.resident_iff.mpr hafter)
      · rintro ⟨key, hkey, hbefore, hafter⟩
        refine ⟨a', key, by rw [hexec, hkey], h.resident_iff.mpr hbefore, ?_⟩
        rw [h'.resident_iff]
        exact fun hne => hne hafter

end ARC

/-- The residents of ARC stay within the capacity in a run exactly when each `Set` in it makes
room. -/
theorem arc_resident_le_iff {capacity : Int} {a : ARC V} (hpos : 0 < capacity)
    (hnew : newARCAlgorithm capacity = .ok a) (ops : List (AlgOp V)) :
    Machines.Along ARC.exec
        (fun a op => ∀ a' r, a.exec op = some (a', r) → a'.t1.len + a'.t2.len ≤ capacity) a ops ↔
      Machines.Along ARC.exec ARC.KeepsCapacity a ops := by
  have hreach := ARC.new_reaches hnew
  obtain ⟨c, rfl⟩ := Int.eq_ofNat_of_zero_le hpos.le
  refine Machines.along_bound_iff (J := fun a : ARC V => ∃ d, a.Reaches c d)
    (I := fun a : ARC V => a.t1.len + a.t2.len ≤ c) ?_ ⟨_, hreach⟩ ?_ ops
  · rintro a op ⟨d, h⟩ hle
    exact ARC.capacity_step (by omega) h hle op
  · rw [hreach.1.sum_eq]
    exact Int.natCast_nonneg c

/-- At the capacity, with a key in each of T1 and T2, a third key is set and one is evicted. -/
def turnoverOps : List (AlgOp Str) :=
  [.set [97] none, .set [98] none, .get [97], .set [99] none, .evict]

theorem arc_resident_le_turnover :
    ∃ a : ARC Str, newARCAlgorithm 2 = .ok a ∧
      Machines.Along ARC.exec
        (fun a op => ∀ a' r, a.exec op = some (a', r) → a'.t1.len + a'.t2.len ≤ 2) a
        turnoverOps := by
  refine ⟨_, rfl, (arc_resident_le_iff (by decide) rfl turnoverOps).mpr ?_⟩
  have hroom : ∀ a : ARC Str, [99] ∉ a.b1.idx ∧ [99] ∉ a.b2.idx ∧
      (a.t1.len = a.capacity ∨ a.t1.len + a.b1.len < a.capacity) → a.MakesRoom [99] :=
    fun a h => .inr (.inr (.inr (.inr h)))
  exact ⟨.inl (by decide), _, _, rfl, .inl (by decide), _, _, rfl, trivial, _, _, rfl,
    hroom _ (by decide), _, _, rfl, trivial, _, _, rfl, trivial⟩

/-- A hit in B1 raises the target to the size of T1, and T2 is empty. -/
def overfullOps : List (AlgOp Str) := [.set [97] none, .set [98] none, .set [97] none]

theorem arc_holds_two_at_capacity_one :
    ∃ a : ARC Str, newARCAlgorithm 1 = .ok a ∧
      ¬ Machines.Along ARC.exec
        (fun a op => ∀ a' r, a.exec op = some (a', r) → a'.t1.len + a'.t2.len ≤ 1) a
        overfullOps := by
  refine ⟨_, rfl, ?_⟩
  rintro ⟨-, a₁, _, h₁, -, a₂, _, h₂, hle, -⟩
  cases h₁
  cases h₂
  have hbound := hle _ _ rfl
  revert hbound
  decide

/-- The directory of ARC stays within twice the capacity in a run exactly when each `Set` of a
key it does not have fits into it or comes with a ghost forgotten. -/
theorem arc_total_le_iff {capacity : Int} {a : ARC V} (hpos : 0 < capacity)
    (hnew : newARCAlgorithm capacity = .ok a) (ops : List (AlgOp V)) :
    Machines.Along ARC.exec
        (fun a op => ∀ a' r, a.exec op = some (a', r) →
          a'.t1.len + a'.t2.len + a'.b1.len + a'.b2.len ≤ 2 * capacity) a ops ↔
      Machines.Along ARC.exec ARC.KeepsHistory a ops := by
  have hreach := ARC.new_reaches hnew
  obtain ⟨c, rfl⟩ := Int.eq_ofNat_of_zero_le hpos.le
  refine Machines.along_bound_iff (J := fun a : ARC V => ∃ d, a.Reaches c d)
    (I := fun a : ARC V => a.total ≤ 2 * c) ?_ ⟨_, hreach⟩ ?_ ops
  · rintro a op ⟨d, h⟩ hle
    exact ARC.history_step (by omega) h hle op
  · rw [hreach.1.total_eq]
    exact Int.mul_nonneg (by decide) (Int.natCast_nonneg c)

theorem arc_total_le_turnover :
    ∃ a : ARC Str, newARCAlgorithm 2 = .ok a ∧
      Machines.Along ARC.exec
        (fun a op => ∀ a' r, a.exec op = some (a', r) →
          a'.t1.len + a'.t2.len + a'.b1.len + a'.b2.len ≤ 2 * 2) a turnoverOps := by
  refine ⟨_, rfl, (arc_total_le_iff (by decide) rfl turnoverOps).mpr ?_⟩
  exact ⟨.inl (by decide), _, _, rfl, .inl (by decide), _, _, rfl, trivial, _, _, rfl,
    .inl (by decide), _, _, rfl, trivial, _, _, rfl, trivial⟩

/-- Evictions leave ghosts and room, so nothing is trimmed. -/
def evictingOps : List (AlgOp Str) :=
  [.set [97] none, .evict, .set [98] none, .evict, .set [99] none]

theorem arc_lists_three_at_capacity_one :
    ∃ a : ARC Str, newARCAlgorithm 1 = .ok a ∧
      ¬ Machines.Along ARC.exec
        (fun a op => ∀ a' r, a.exec op = some (a', r) →
          a'.t1.len + a'.t2.len + a'.b1.len + a'.b2.len ≤ 2 * 1) a evictingOps := by
  refine ⟨_, rfl, ?_⟩
  rintro ⟨-, a₁, _, h₁, -, a₂, _, h₂, -, a₃, _, h₃, -, a₄, _, h₄, hle, -⟩
  cases h₁
  cases h₂
  cases h₃
  cases h₄
  have hbound := hle _ _ rfl
  revert hbound
  decide

/-- In runs with nonempty keys, every `Evict` with a resident key takes one out exactly when
every such `Evict` finds T1 above its target or T2 not empty. -/
theorem arc_evicts_resident_iff {capacity : Int} {a : ARC V}
    (hnew : newARCAlgorithm capacity = .ok a) {ops : List (AlgOp V)}
    (hkeys : ∀ op ∈ ops, op.key? ≠ some []) :
    Machines.Along ARC.exec ARC.EvictsResident a ops ↔
      Machines.Along ARC.exec ARC.CanEvict a ops := by
  have hreach : a.ReachesNonempty capacity.toNat := by
    refine ⟨_, ARC.new_reaches hnew, ?_, fun _ => rfl⟩
    simp [Directory.occurs]
  refine Machines.along_congr (J := fun a : ARC V => a.ReachesNonempty capacity.toNat)
    (A := fun op : AlgOp V => op.key? ≠ some []) ?_ ?_ hreach hkeys
  · exact fun a op h hop => ARC.reachesNonempty_step h hop
  · exact fun a op h _ => ARC.evictsResident_iff h op

theorem arc_evicts_resident_turnover :
    ∃ a : ARC Str, newARCAlgorithm 2 = .ok a ∧
      Machines.Along ARC.exec ARC.EvictsResident a turnoverOps := by
  refine ⟨_, rfl, (@arc_evicts_resident_iff Str 2 _ rfl turnoverOps (by decide)).mpr ?_⟩
  exact ⟨trivial, _, _, rfl, trivial, _, _, rfl, trivial, _, _, rfl, trivial, _, _, rfl,
    fun _ => .inl (by decide), _, _, rfl, trivial⟩

/-- The key that raised the target is deleted, and T1 is within it. -/
def stuckOps : List (AlgOp Str) :=
  [.set [97] none, .set [98] none, .set [99] none, .set [97] none, .delete [97], .evict]

theorem arc_evict_misses_resident :
    ∃ a : ARC Str, newARCAlgorithm 2 = .ok a ∧
      ¬ Machines.Along ARC.exec ARC.EvictsResident a stuckOps := by
  refine ⟨_, rfl, ?_⟩
  rintro ⟨-, a₁, _, h₁, -, a₂, _, h₂, -, a₃, _, h₃, -, a₄, _, h₄, -, a₅, _, h₅, hevict, -⟩
  cases h₁
  cases h₂
  cases h₃
  cases h₄
  cases h₅
  obtain ⟨a', key, hexec, -⟩ := hevict ⟨[99], .inl (by decide)⟩
  cases hexec

end HyperCache
