/-
Clock over whole runs: its slots, its hand, and how long it can refuse to evict.

A round without a victim passes every slot once. The hand is back where it was and
every item has lost one of its count, so the item of the smallest count is the
victim of a later round, and of no later one than its count says.
-/
import HyperCache.Replacement

namespace HyperCache

variable {V : Type}

def newClockAlgorithm (capacity : Int) : Except Err (ClockAlgorithm V) :=
  if capacity < 0 then .error .invalidCapacity else .ok { capacity := capacity.toNat }

namespace ClockAlgorithm

instance : EvictionAlgorithm V (ClockAlgorithm V) where
  delete := delete
  evict := evict
  set := set
  get := get

variable {c : ClockAlgorithm V}

/-! ## A round without a victim -/

/-- The item after the hand has passed it. -/
def passed (item : ClockItem V) : ClockItem V :=
  { item with accessCount := item.accessCount - 1 }

theorem skip_items_hand (c : ClockAlgorithm V) :
    c.skip.items c.hand = (c.items c.hand).map passed := by
  unfold skip
  split
  case h_1 hnone =>
    show c.items c.hand = _
    rw [hnone]
    rfl
  case h_2 item hitem =>
    rw [hitem]
    exact (setSlot_items _ c c.hand).trans (if_pos rfl)

/-- The hand passes each of the next `n` slots once. -/
theorem items_iterate_skip_passed (h : c.hand < c.capacity) {n j : Nat} (hj : j < n)
    (hn : n ≤ c.capacity) :
    (skip^[n] c).items ((c.hand + j) % c.capacity) =
      (c.items ((c.hand + j) % c.capacity)).map passed := by
  induction n with
  | zero => omega
  | succ n ih =>
      have hhand := hand_iterate_skip h n
      rw [Function.iterate_succ_apply']
      by_cases hlast : j = n
      · subst hlast
        rw [← hhand, skip_items_hand, atHand_iterate_skip h (by omega), hhand]
      · have hne : (c.hand + j) % c.capacity ≠ (skip^[n] c).hand := by
          rw [hhand]
          intro heq
          have := Cyclic.offset_inj (by omega) (by omega) heq
          omega
        rw [skip_items_ne _ hne]
        exact ih (by omega) (by omega)

theorem evict_eq_none_iff (h : c.Wf) : c.evict.2 = none ↔ c.loose = ∅ := by
  rcases (evict_spec h).2 with ⟨hnone, hloose, -⟩ | ⟨k, hk, hsome, -⟩
  · simp only [hnone, hloose]
  · rw [hsome]
    constructor
    · intro hnone
      cases hnone
    · intro hloose
      rw [hloose] at hk
      cases hk

theorem evict_eq_round (h : c.evict.2 = none) : c.evict.1 = skip^[c.capacity] c := by
  rw [evict] at h ⊢
  split
  case isTrue hcap =>
    rw [hcap]
    rfl
  case isFalse hcap =>
    rw [if_neg hcap] at h
    rcases sweep_cases c.capacity c with ⟨j, -, item, -, hsweep⟩ | ⟨-, hsweep⟩
    · rw [hsweep] at h
      cases h
    · rw [hsweep]

theorem evict_none_hand (hwf : c.Wf) (hcap : c.capacity ≠ 0) (h : c.evict.2 = none) :
    c.evict.1.hand = c.hand := by
  have hhand := hwf.hand_lt hcap
  rw [evict_eq_round h, hand_iterate_skip hhand, Nat.add_mod_right, Nat.mod_eq_of_lt hhand]

theorem evict_none_items (hwf : c.Wf) (hcap : c.capacity ≠ 0) (h : c.evict.2 = none) (i : Nat) :
    c.evict.1.items i = (c.items i).map passed := by
  have hhand := hwf.hand_lt hcap
  rw [evict_eq_round h]
  by_cases hi : i < c.capacity
  · obtain ⟨j, hj, hoffset⟩ := Cyclic.exists_offset c.hand hi
    rw [← hoffset]
    exact items_iterate_skip_passed hhand hj (Nat.le_refl _)
  · have hfree : c.items i = none := by
      cases hitem : c.items i with
      | none => rfl
      | some item => exact absurd (hwf.slot hitem).1 hi
    rw [items_iterate_skip hhand, hfree]
    · rfl
    · intro j' _
      have := Nat.mod_lt (c.hand + j') (Nat.pos_of_ne_zero hcap)
      omega

theorem count_passed {item : ClockItem V} (h : item.accessCount ≠ 0) :
    (passed item).accessCount.toNat + 1 = item.accessCount.toNat := by
  have hpos : (1 : UInt32) ≤ item.accessCount := by
    rw [UInt32.le_iff_toNat_le]
    have := UInt32.toNat_inj.not.mpr h
    exact Nat.pos_of_ne_zero this
  have hle := UInt32.le_iff_toNat_le.mp hpos
  show (item.accessCount - 1).toNat + 1 = _
  rw [UInt32.toNat_sub_of_le _ _ hpos]
  exact Nat.sub_add_cancel hle

theorem count_ne_zero (h : c.loose = ∅) {i : Nat} {item : ClockItem V}
    (hitem : c.items i = some item) : item.accessCount ≠ 0 := by
  intro hzero
  have hk : item.key ∈ c.loose := ⟨i, item, hitem, rfl, hzero⟩
  rw [h] at hk
  cases hk

/-- The count of every item is one less, and the items are the same otherwise. -/
def Lowered (c c' : ClockAlgorithm V) : Prop :=
  ∀ i, (c.items i = none ∧ c'.items i = none) ∨
    ∃ item item', c.items i = some item ∧ c'.items i = some item' ∧ item'.key = item.key ∧
      item'.value = item.value ∧ item'.accessCount.toNat + 1 = item.accessCount.toNat

theorem lowered_evict (hwf : c.Wf) (hcap : c.capacity ≠ 0) (h : c.evict.2 = none) :
    c.Lowered c.evict.1 := by
  intro i
  have hitems := evict_none_items hwf hcap h i
  cases hitem : c.items i with
  | none =>
      rw [hitem] at hitems
      exact .inl ⟨rfl, hitems⟩
  | some item =>
      rw [hitem] at hitems
      have hpos := count_ne_zero ((evict_eq_none_iff hwf).mp h) hitem
      exact .inr ⟨item, passed item, rfl, hitems, rfl, rfl, count_passed hpos⟩

/-! ## Consecutive rounds -/

/-- The smallest count of an item in a slot. -/
def LeastCount (m : Nat) (c : ClockAlgorithm V) : Prop :=
  (∃ i item, c.items i = some item ∧ item.accessCount.toNat = m) ∧
    ∀ i item, c.items i = some item → m ≤ item.accessCount.toNat

theorem loose_eq_empty_iff {m : Nat} (h : c.LeastCount m) : c.loose = ∅ ↔ m ≠ 0 := by
  obtain ⟨⟨i, item, hitem, hcount⟩, hleast⟩ := h
  constructor
  · intro hloose hzero
    apply count_ne_zero hloose hitem
    rw [← UInt32.toNat_inj, hcount, hzero]
    rfl
  · intro hpos
    refine Set.eq_empty_of_forall_notMem ?_
    rintro k ⟨i', item', hitem', -, hzero⟩
    have hle := hleast i' item' hitem'
    rw [hzero] at hle
    exact hpos (Nat.le_zero.mp hle)

theorem LeastCount.lowered {m : Nat} {c' : ClockAlgorithm V} (h : c.LeastCount (m + 1))
    (hlow : c.Lowered c') : c'.LeastCount m := by
  obtain ⟨⟨i, item, hitem, hcount⟩, hleast⟩ := h
  constructor
  · rcases hlow i with ⟨hnone, -⟩ | ⟨old, new, hold, hnew, -, -, hone⟩
    · rw [hnone] at hitem
      cases hitem
    · rw [hold, Option.some.injEq] at hitem
      subst hitem
      exact ⟨i, new, hnew, by omega⟩
  · intro i' item' hitem'
    rcases hlow i' with ⟨-, hnone⟩ | ⟨old, new, hold, hnew, -, -, hone⟩
    · rw [hnone] at hitem'
      cases hitem'
    · rw [hnew, Option.some.injEq] at hitem'
      subst hitem'
      have := hleast i' old hold
      omega

/-- The state after `n` calls of `Evict`. -/
def evicted (n : Nat) (c : ClockAlgorithm V) : ClockAlgorithm V := (fun c => c.evict.1)^[n] c

/-- `m` calls of `Evict` find no victim and the next one does. -/
theorem yields_at {m : Nat} (hwf : c.Wf) (hcap : c.capacity ≠ 0) (h : c.LeastCount m) :
    (∀ j < m, (c.evicted j).evict.2 = none) ∧ ∃ k ∈ c.keys, (c.evicted m).evict.2 = some k := by
  induction m generalizing c with
  | zero =>
      refine ⟨fun j hj => absurd hj (Nat.not_lt_zero j), ?_⟩
      rcases (evict_spec hwf).2 with ⟨-, hloose, -⟩ | ⟨k, hk, hsome, -⟩
      · exact absurd rfl ((loose_eq_empty_iff h).mp hloose)
      · exact ⟨k, loose_subset hwf hk, hsome⟩
  | succ m ih =>
      have hloose := (loose_eq_empty_iff h).mpr (Nat.succ_ne_zero m)
      have hnone := (evict_eq_none_iff hwf).mpr hloose
      have hkeys : c.evict.1.keys = c.keys := by
        rcases (evict_spec hwf).2 with ⟨-, -, hkeys⟩ | ⟨k, -, hsome, -⟩
        · exact hkeys
        · rw [hnone] at hsome
          cases hsome
      obtain ⟨hearly, k, hk, hvictim⟩ := ih (evict_spec hwf).1
        (by rw [capacity_evict]; exact hcap) (h.lowered (lowered_evict hwf hcap hnone))
      refine ⟨?_, k, hkeys ▸ hk, hvictim⟩
      intro j hj
      cases j with
      | zero => exact hnone
      | succ j => exact hearly j (Nat.lt_of_succ_lt_succ hj)

/-! ## Runs -/

theorem wf_step (h : c.Wf) (op : AlgOp V) : (op.step c).Wf := by
  cases op with
  | set key value => exact (set_spec h key value).1
  | get key => exact (get_spec h key).1
  | delete key => exact (delete_spec h key).1
  | evict => exact (evict_spec h).1

theorem capacity_step (h : c.Wf) (op : AlgOp V) : (op.step c).capacity = c.capacity := by
  cases op with
  | set key value => exact capacity_set h key value
  | get key => exact c.capacity_get key
  | delete key => exact c.capacity_delete key
  | evict => exact c.capacity_evict

theorem wf_run (h : c.Wf) (ops : List (AlgOp V)) :
    (ops.foldl AlgOp.step c).Wf ∧ (ops.foldl AlgOp.step c).capacity = c.capacity := by
  induction ops generalizing c with
  | nil => exact ⟨h, rfl⟩
  | cons op rest ih =>
      obtain ⟨hwf, hcap⟩ := ih (wf_step h op)
      exact ⟨hwf, hcap.trans (capacity_step h op)⟩

/-- A key has a slot exactly when the slot holds an item of the key. -/
theorem Wf.lookup_iff (h : c.Wf) {k : Key} {i : Nat} :
    c.keys.lookup k = some i ↔ i < c.capacity ∧ ∃ item, c.items i = some item ∧ item.key = k := by
  constructor
  · intro hk
    obtain ⟨item, hitem, hkey⟩ := h.held hk
    exact ⟨(h.slot hitem).1, item, hitem, hkey⟩
  · rintro ⟨-, item, hitem, rfl⟩
    exact (h.slot hitem).2

end ClockAlgorithm

open ClockAlgorithm

/-- After every run of Clock the keys and the slots are in bijection and the hand is at a slot,
and an `Evict` that finds nothing turns the hand round once. So the smallest count says how many
calls of `Evict` find nothing before one finds a victim. -/
theorem clock_sweeps {capacity : Int} (hcap : 0 < capacity) {c₀ : ClockAlgorithm V}
    (hnew : newClockAlgorithm capacity = .ok c₀) (ops : List (AlgOp V)) {c : ClockAlgorithm V}
    (hrun : ops.foldl AlgOp.step c₀ = c) :
    (∀ k i, c.keys.lookup k = some i ↔
        i < capacity.toNat ∧ ∃ item, c.items i = some item ∧ item.key = k) ∧
      c.hand < capacity.toNat ∧
      (c.evict.2 = none → c.evict.1.hand = c.hand ∧ c.Lowered c.evict.1) ∧
      ∀ m, c.LeastCount m → (∀ j < m, (c.evicted j).evict.2 = none) ∧
        ∃ k ∈ c.keys, (c.evicted m).evict.2 = some k := by
  rw [newClockAlgorithm, if_neg (by omega)] at hnew
  obtain rfl := Except.ok.inj hnew
  obtain ⟨hwf, hsize⟩ := wf_run (wf_new capacity.toNat) ops
  rw [hrun] at hwf hsize
  have hsize : c.capacity = capacity.toNat := hsize
  have hpos : c.capacity ≠ 0 := by omega
  rw [← hsize]
  refine ⟨fun k i => hwf.lookup_iff, hwf.hand_lt hpos, ?_, fun m hm => yields_at hwf hpos hm⟩
  intro hnone
  exact ⟨evict_none_hand hwf hpos hnone, lowered_evict hwf hpos hnone⟩

/-- A key that was set and read: two rounds pass it and the next one takes it. -/
def readOnce : List (AlgOp Str) := [.set [97] none, .get [97], .delete [98]]

theorem clock_sweeps_readOnce :
    ∃ c₀ : ClockAlgorithm Str, newClockAlgorithm 3 = .ok c₀ ∧
      (∀ j < 2, ((readOnce.foldl AlgOp.step c₀).evicted j).evict.2 = none) ∧
      ∃ k ∈ (readOnce.foldl AlgOp.step c₀).keys,
        ((readOnce.foldl AlgOp.step c₀).evicted 2).evict.2 = some k := by
  refine ⟨_, rfl, (@clock_sweeps Str 3 (by omega) _ rfl readOnce _ rfl).2.2.2 2 ?_⟩
  constructor
  · exact ⟨0, ⟨[97], none, 2⟩, rfl, rfl⟩
  · intro i item hitem
    cases i with
    | zero =>
        obtain rfl := Option.some.inj hitem
        exact Nat.le_refl 2
    | succ i => cases hitem

end HyperCache
