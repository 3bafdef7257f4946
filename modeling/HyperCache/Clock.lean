/-
The slots of the Clock algorithm.

A sweep goes once round the slots from the hand.  It takes one off the access count
of every item it passes and stops at the first item whose count is zero.  An item
that has been passed is not met again, so a sweep finds a victim exactly when some
count was zero before it began.  `Set` sweeps only when every slot is taken, and
gives the new key up when the sweep finds nothing.
-/
import HyperCache.Lib.Cyclic
import HyperCache.Eviction

namespace HyperCache

namespace ClockAlgorithm

open Pointwise

variable {V : Type} {c c' : ClockAlgorithm V}

/-- Slots and keys point at each other, and the hand at a slot. -/
structure Wf (c : ClockAlgorithm V) : Prop where
  hand_lt : c.capacity ≠ 0 → c.hand < c.capacity
  slot : ∀ {i it}, c.items i = some it → i < c.capacity ∧ c.keys.lookup it.key = some i
  held : ∀ {k i}, c.keys.lookup k = some i → ∃ it, c.items i = some it ∧ it.key = k

/-- The same keys in the same slots. -/
structure Alike (c c' : ClockAlgorithm V) : Prop where
  capacity : c'.capacity = c.capacity
  keys : c'.keys = c.keys
  items : ∀ i, (c'.items i).map ClockItem.key = (c.items i).map ClockItem.key

/-- The keys that a sweep can take. -/
def loose (c : ClockAlgorithm V) : Set Key :=
  {k | ∃ i it, c.items i = some it ∧ it.key = k ∧ it.accessCount = 0}

theorem setSlot_items (item : Option (ClockItem V)) (c : ClockAlgorithm V) (i : Nat) :
    (c.setSlot item).items i = if i = c.hand then item else c.items i :=
  modify_apply c.items c.hand i (fun _ => item)

theorem wf_new (capacity : Nat) : Wf ({ capacity } : ClockAlgorithm V) where
  hand_lt := Nat.pos_of_ne_zero
  slot := by
    intro i it h
    cases h
  held := by
    intro k i h
    rw [AList.lookup_empty] at h
    cases h

theorem Wf.of_alike (h : c.Wf) (ha : c.Alike c') (hhand : c'.capacity ≠ 0 → c'.hand < c'.capacity) :
    c'.Wf where
  hand_lt := hhand
  slot := by
    intro i it hit
    have hkey := ha.items i
    rw [hit, Option.map_some, eq_comm, Option.map_eq_some_iff] at hkey
    obtain ⟨old, hold, hsame⟩ := hkey
    rw [ha.capacity, ha.keys, ← hsame]
    exact h.slot hold
  held := by
    intro k i hk
    rw [ha.keys] at hk
    obtain ⟨old, hold, hsame⟩ := h.held hk
    have hkey := ha.items i
    rw [hold, Option.map_some, Option.map_eq_some_iff] at hkey
    obtain ⟨it, hit, heq⟩ := hkey
    exact ⟨it, hit, heq.trans hsame⟩

theorem Wf.mem_keys (h : c.Wf) {i : Nat} {it : ClockItem V} (hit : c.items i = some it) :
    it.key ∈ c.keys :=
  AList.lookup_isSome.mp (by rw [(h.slot hit).2]; rfl)

theorem loose_subset (h : c.Wf) : c.loose ⊆ {k | k ∈ c.keys} := by
  rintro k ⟨i, it, hit, rfl, -⟩
  exact h.mem_keys hit

theorem advanceHand_lt (c : ClockAlgorithm V) (h : c.capacity ≠ 0) :
    c.advanceHand.hand < c.advanceHand.capacity :=
  Nat.mod_lt _ (Nat.pos_of_ne_zero h)

theorem alike_advanceHand (c : ClockAlgorithm V) : c.Alike c.advanceHand :=
  ⟨rfl, rfl, fun _ => rfl⟩

theorem Wf.advanceHand (h : c.Wf) : c.advanceHand.Wf :=
  h.of_alike (alike_advanceHand c) c.advanceHand_lt

/-! ## Passing an item -/

/-- The item at the hand, if the sweep stops there. -/
def victim (c : ClockAlgorithm V) : Option (ClockItem V) :=
  (c.items c.hand).filter (fun item => item.accessCount = 0)

/-- What a sweep does at a slot where it does not stop. -/
def skip (c : ClockAlgorithm V) : ClockAlgorithm V :=
  match c.items c.hand with
  | none => c.advanceHand
  | some item =>
      (c.setSlot (some { item with accessCount := item.accessCount - 1 })).advanceHand

/-- The item at the hand goes. -/
def evictHere (item : ClockItem V) (c : ClockAlgorithm V) : ClockAlgorithm V :=
  { c.setSlot none with keys := c.keys.erase item.key }

theorem evictHere_items (item : ClockItem V) (c : ClockAlgorithm V) (i : Nat) :
    (c.evictHere item).items i = if i = c.hand then none else c.items i :=
  setSlot_items none c i

theorem insertHere_items (key : Key) (value : Option V) (c : ClockAlgorithm V) (i : Nat) :
    (c.insertHere key value).items i =
      if i = c.hand then some ⟨key, value, 1⟩ else c.items i :=
  setSlot_items (some ⟨key, value, 1⟩) c i

theorem alike_skip (c : ClockAlgorithm V) : c.Alike c.skip := by
  unfold skip
  split
  · exact alike_advanceHand c
  case h_2 item hitem =>
    refine ⟨rfl, rfl, fun i => ?_⟩
    show ((c.setSlot _).items i).map ClockItem.key = _
    rw [setSlot_items]
    split
    case isTrue hi =>
      rw [hi, hitem]
      rfl
    case isFalse => rfl

theorem skip_hand (c : ClockAlgorithm V) : c.skip.hand = (c.hand + 1) % c.capacity := by
  unfold skip
  split <;> rfl

theorem skip_items_ne (c : ClockAlgorithm V) {i : Nat} (h : i ≠ c.hand) :
    c.skip.items i = c.items i := by
  unfold skip
  split
  · rfl
  · exact (setSlot_items _ c i).trans (if_neg h)

theorem Alike.trans {c'' : ClockAlgorithm V} (h : c.Alike c') (h' : c'.Alike c'') :
    c.Alike c'' :=
  ⟨h'.capacity.trans h.capacity, h'.keys.trans h.keys, fun i => (h'.items i).trans (h.items i)⟩

theorem alike_iterate_skip (c : ClockAlgorithm V) (j : Nat) : c.Alike (skip^[j] c) := by
  induction j with
  | zero => exact ⟨rfl, rfl, fun _ => rfl⟩
  | succ j ih =>
      rw [Function.iterate_succ_apply']
      exact ih.trans (alike_skip _)

theorem hand_iterate_skip (h : c.hand < c.capacity) (j : Nat) :
    (skip^[j] c).hand = (c.hand + j) % c.capacity := by
  induction j with
  | zero => exact (Nat.mod_eq_of_lt h).symm
  | succ j ih =>
      rw [Function.iterate_succ_apply', skip_hand, ih, (alike_iterate_skip c j).capacity,
        Nat.mod_add_mod, Nat.add_assoc]

theorem items_iterate_skip (h : c.hand < c.capacity) {j i : Nat}
    (hi : ∀ j' < j, (c.hand + j') % c.capacity ≠ i) : (skip^[j] c).items i = c.items i := by
  induction j with
  | zero => rfl
  | succ j ih =>
      have hne : i ≠ (skip^[j] c).hand := by
        rw [hand_iterate_skip h]
        exact Ne.symm (hi j (Nat.lt_succ_self j))
      rw [Function.iterate_succ_apply', skip_items_ne _ hne]
      exact ih (fun j' hj' => hi j' (Nat.lt_succ_of_lt hj'))

theorem wf_iterate_skip (h : c.Wf) (hcap : c.capacity ≠ 0) (j : Nat) : (skip^[j] c).Wf := by
  refine h.of_alike (alike_iterate_skip c j) (fun _ => ?_)
  rw [hand_iterate_skip (h.hand_lt hcap), (alike_iterate_skip c j).capacity]
  exact Nat.mod_lt _ (Nat.pos_of_ne_zero hcap)

/-- The sweep meets every slot as it was before the sweep. -/
theorem atHand_iterate_skip (h : c.hand < c.capacity) {j : Nat} (hj : j < c.capacity) :
    (skip^[j] c).items (skip^[j] c).hand = c.items ((c.hand + j) % c.capacity) := by
  rw [hand_iterate_skip h]
  refine items_iterate_skip h (fun j' hj' heq => ?_)
  exact absurd (Cyclic.offset_inj (Nat.lt_trans hj' hj) hj heq) (Nat.ne_of_lt hj')

theorem victim_eq_some_iff {item : ClockItem V} :
    c.victim = some item ↔ c.items c.hand = some item ∧ item.accessCount = 0 := by
  rw [victim, Option.filter_eq_some_iff, decide_eq_true_eq]

/-- A round without a victim has found no loose key, and a victim is one. -/
theorem loose_eq_empty (h : c.Wf) (hcap : c.capacity ≠ 0)
    (hnone : ∀ j < c.capacity, (skip^[j] c).victim = none) : c.loose = ∅ := by
  refine Set.eq_empty_of_forall_notMem ?_
  rintro k ⟨i, it, hit, -, hzero⟩
  obtain ⟨j, hj, hoffset⟩ := Cyclic.exists_offset c.hand (h.slot hit).1
  have hvictim : (skip^[j] c).victim = some it := by
    rw [victim_eq_some_iff, atHand_iterate_skip (h.hand_lt hcap) hj, hoffset]
    exact ⟨hit, hzero⟩
  rw [hnone j hj] at hvictim
  cases hvictim

theorem mem_loose_of_victim (h : c.Wf) (hcap : c.capacity ≠ 0) {j : Nat} (hj : j < c.capacity)
    {item : ClockItem V} (hvictim : (skip^[j] c).victim = some item) : item.key ∈ c.loose := by
  obtain ⟨hitem, hzero⟩ := victim_eq_some_iff.mp hvictim
  rw [atHand_iterate_skip (h.hand_lt hcap) hj] at hitem
  exact ⟨_, item, hitem, rfl, hzero⟩

/-! ## The three loops -/

theorem sweep_succ (n : Nat) (c : ClockAlgorithm V) :
    c.sweep (n + 1) =
      match c.victim with
      | none => c.skip.sweep n
      | some item => (c.evictHere item, some item.key) := by
  rw [sweep, victim, skip]
  cases c.items c.hand with
  | none => rfl
  | some item =>
      by_cases hzero : item.accessCount = 0
      · simp [hzero, Option.filter_some, evictHere]
      · have hpos : item.accessCount > 0 := UInt32.pos_iff_ne_zero.mpr hzero
        simp [hzero, hpos, Option.filter_some]

theorem sweep_cases (n : Nat) (c : ClockAlgorithm V) :
    (∃ j < n, ∃ item, (skip^[j] c).victim = some item ∧
        c.sweep n = ((skip^[j] c).evictHere item, some item.key)) ∨
      (∀ j < n, (skip^[j] c).victim = none) ∧ c.sweep n = (skip^[n] c, none) := by
  induction n generalizing c with
  | zero => exact Or.inr ⟨fun j hj => absurd hj (Nat.not_lt_zero j), rfl⟩
  | succ n ih =>
      rw [sweep_succ]
      cases hvictim : c.victim with
      | some item => exact Or.inl ⟨0, Nat.succ_pos n, item, hvictim, rfl⟩
      | none =>
          rcases ih c.skip with ⟨j, hj, item, hfound, hsweep⟩ | ⟨hnone, hsweep⟩
          · exact Or.inl ⟨j + 1, Nat.succ_lt_succ hj, item, hfound, hsweep⟩
          · refine Or.inr ⟨fun j hj => ?_, hsweep⟩
            cases j with
            | zero => exact hvictim
            | succ j => exact hnone j (Nat.lt_of_succ_lt_succ hj)

theorem evictAndInsert_succ (key : Key) (value : Option V) (n : Nat) (c : ClockAlgorithm V) :
    c.evictAndInsert key value (n + 1) =
      match c.victim with
      | none => c.skip.evictAndInsert key value n
      | some item => ((c.evictHere item).insertHere key value).advanceHand := by
  rw [evictAndInsert, victim, skip]
  cases c.items c.hand with
  | none => rfl
  | some item =>
      by_cases hzero : item.accessCount = 0
      · have hitems : ∀ slot,
            modify (modify c.items c.hand (fun _ => none)) c.hand (fun _ => slot) =
              modify c.items c.hand (fun _ => slot) := by
          intro slot
          funext i
          rw [modify_apply, modify_apply, modify_apply]
          split <;> rfl
        simp [hzero, Option.filter_some, evictHere, insertHere, setSlot, hitems]
      · have hpos : item.accessCount > 0 := UInt32.pos_iff_ne_zero.mpr hzero
        simp [hzero, hpos, Option.filter_some]

theorem evictAndInsert_cases (key : Key) (value : Option V) (n : Nat) (c : ClockAlgorithm V) :
    (∃ j < n, ∃ item, (skip^[j] c).victim = some item ∧ c.evictAndInsert key value n =
        (((skip^[j] c).evictHere item).insertHere key value).advanceHand) ∨
      (∀ j < n, (skip^[j] c).victim = none) ∧ c.evictAndInsert key value n = skip^[n] c := by
  induction n generalizing c with
  | zero => exact Or.inr ⟨fun j hj => absurd hj (Nat.not_lt_zero j), rfl⟩
  | succ n ih =>
      rw [evictAndInsert_succ]
      cases hvictim : c.victim with
      | some item => exact Or.inl ⟨0, Nat.succ_pos n, item, hvictim, rfl⟩
      | none =>
          rcases ih c.skip with ⟨j, hj, item, hfound, hresult⟩ | ⟨hnone, hresult⟩
          · exact Or.inl ⟨j + 1, Nat.succ_lt_succ hj, item, hfound, hresult⟩
          · refine Or.inr ⟨fun j hj => ?_, hresult⟩
            cases j with
            | zero => exact hvictim
            | succ j => exact hnone j (Nat.lt_of_succ_lt_succ hj)

theorem iterate_advanceHand (h : c.hand < c.capacity) (j : Nat) :
    advanceHand^[j] c = { c with hand := (c.hand + j) % c.capacity } := by
  induction j with
  | zero =>
      rw [Nat.add_zero, Nat.mod_eq_of_lt h]
      rfl
  | succ j ih =>
      rw [Function.iterate_succ_apply', ih, advanceHand, Nat.mod_add_mod, Nat.add_assoc]

theorem tryInsertInFreeSlot_cases (key : Key) (value : Option V) (n : Nat)
    (c : ClockAlgorithm V) :
    (∃ j < n, (advanceHand^[j] c).items (advanceHand^[j] c).hand = none ∧
        c.tryInsertInFreeSlot key value n = ((advanceHand^[j] c).insertHere key value, true)) ∨
      (∀ j < n, (advanceHand^[j] c).items (advanceHand^[j] c).hand ≠ none) ∧
        c.tryInsertInFreeSlot key value n = (advanceHand^[n] c, false) := by
  induction n generalizing c with
  | zero => exact Or.inr ⟨fun j hj => absurd hj (Nat.not_lt_zero j), rfl⟩
  | succ n ih =>
      rw [tryInsertInFreeSlot]
      cases hitem : c.items c.hand with
      | none => exact Or.inl ⟨0, Nat.succ_pos n, hitem, rfl⟩
      | some item =>
          rcases ih c.advanceHand with ⟨j, hj, hfree, hresult⟩ | ⟨hfull, hresult⟩
          · exact Or.inl ⟨j + 1, Nat.succ_lt_succ hj, hfree, hresult⟩
          · refine Or.inr ⟨fun j hj => ?_, hresult⟩
            cases j with
            | zero =>
                show c.items c.hand ≠ none
                rw [hitem]
                exact Option.some_ne_none item
            | succ j => exact hfull j (Nat.lt_of_succ_lt_succ hj)

/-! ## One slot -/

theorem wf_evictHere (h : c.Wf) {item : ClockItem V} (hitem : c.items c.hand = some item) :
    (c.evictHere item).Wf where
  hand_lt := h.hand_lt
  slot := by
    intro i it hit
    rw [evictHere_items] at hit
    split at hit
    · cases hit
    case isFalse hi =>
      obtain ⟨hlt, hlookup⟩ := h.slot hit
      have hne : it.key ≠ item.key := by
        intro heq
        rw [heq, (h.slot hitem).2] at hlookup
        exact hi (Option.some.inj hlookup).symm
      exact ⟨hlt, (AList.lookup_erase_ne hne).trans hlookup⟩
  held := by
    intro k i hk
    change (c.keys.erase item.key).lookup k = some i at hk
    have hne : k ≠ item.key := by
      rintro rfl
      rw [AList.lookup_erase] at hk
      cases hk
    rw [AList.lookup_erase_ne hne] at hk
    obtain ⟨it, hit, hkey⟩ := h.held hk
    have hi : i ≠ c.hand := by
      rintro rfl
      rw [hitem, Option.some.injEq] at hit
      exact hne (hkey.symm.trans (congrArg ClockItem.key hit.symm))
    exact ⟨it, by rw [evictHere_items, if_neg hi, hit], hkey⟩

theorem wf_insertHere (h : c.Wf) (hcap : c.capacity ≠ 0) (hfree : c.items c.hand = none)
    {key : Key} (hkey : key ∉ c.keys) (value : Option V) : (c.insertHere key value).Wf where
  hand_lt := h.hand_lt
  slot := by
    intro i it hit
    rw [insertHere_items] at hit
    split at hit
    case isTrue hi =>
      cases hit
      rw [hi]
      exact ⟨h.hand_lt hcap, AList.lookup_insert _⟩
    case isFalse =>
      have hne : it.key ≠ key := by
        rintro rfl
        exact hkey (h.mem_keys hit)
      exact ⟨(h.slot hit).1, (AList.lookup_insert_ne hne).trans (h.slot hit).2⟩
  held := by
    intro k i hk
    change (c.keys.insert key c.hand).lookup k = some i at hk
    by_cases hk' : k = key
    · subst hk'
      rw [AList.lookup_insert, Option.some.injEq] at hk
      subst hk
      exact ⟨⟨k, value, 1⟩, by rw [insertHere_items, if_pos rfl], rfl⟩
    · rw [AList.lookup_insert_ne hk'] at hk
      obtain ⟨it, hit, hit'⟩ := h.held hk
      have hi : i ≠ c.hand := by
        rintro rfl
        rw [hfree] at hit
        cases hit
      exact ⟨it, by rw [insertHere_items, if_neg hi, hit], hit'⟩

theorem insertHere_get (key : Key) (value : Option V) (c : ClockAlgorithm V) :
    ((c.insertHere key value).advanceHand.get key).2 = some value := by
  have hlookup : (c.insertHere key value).advanceHand.keys.lookup key = some c.hand :=
    AList.lookup_insert _
  have hitem : (c.insertHere key value).advanceHand.items c.hand = some ⟨key, value, 1⟩ :=
    (insertHere_items key value c c.hand).trans (if_pos rfl)
  rw [get, hlookup]
  show ((c.insertHere key value).advanceHand.items c.hand).map ClockItem.value = _
  rw [hitem]
  rfl

/-! ## The operations -/

theorem evict_spec (h : c.Wf) :
    c.evict.1.Wf ∧
      ((c.evict.2 = none ∧ c.loose = ∅ ∧ c.evict.1.keys = c.keys) ∨
        ∃ k ∈ c.loose, c.evict.2 = some k ∧ c.evict.1.keys = c.keys.erase k) := by
  rw [evict]
  split
  case isTrue hcap =>
    refine ⟨h, Or.inl ⟨rfl, Set.eq_empty_of_forall_notMem ?_, rfl⟩⟩
    rintro k ⟨i, it, hit, -⟩
    have hlt := (h.slot hit).1
    omega
  case isFalse hcap =>
    rcases sweep_cases c.capacity c with ⟨j, hj, item, hvictim, hsweep⟩ | ⟨hnone, hsweep⟩
    · rw [hsweep]
      refine ⟨wf_evictHere (wf_iterate_skip h hcap j) (victim_eq_some_iff.mp hvictim).1, Or.inr
        ⟨item.key, mem_loose_of_victim h hcap hj hvictim, rfl, ?_⟩⟩
      show (skip^[j] c).keys.erase item.key = _
      rw [(alike_iterate_skip c j).keys]
    · rw [hsweep]
      exact ⟨wf_iterate_skip h hcap _, Or.inl ⟨rfl, loose_eq_empty h hcap hnone,
        (alike_iterate_skip c _).keys⟩⟩

theorem loose_skip (h : c.victim = none) : c.loose ⊆ c.skip.loose := by
  rintro k ⟨i, it, hit, hkey, hzero⟩
  refine ⟨i, it, ?_, hkey, hzero⟩
  rw [skip_items_ne]
  · exact hit
  · rintro rfl
    rw [victim_eq_some_iff.mpr ⟨hit, hzero⟩] at h
    cases h

/-- A sweep takes one loose key and leaves the others loose: it counts down only what is not. -/
theorem loose_sweep {k : Key} (n : Nat) (c : ClockAlgorithm V) (h : (c.sweep n).2 = some k) :
    c.loose \ {k} ⊆ (c.sweep n).1.loose := by
  induction n generalizing c with
  | zero => cases h
  | succ n ih =>
      rw [sweep_succ] at h ⊢
      cases hvictim : c.victim with
      | none =>
          rw [hvictim] at h
          exact (Set.sdiff_subset_sdiff_left (loose_skip hvictim)).trans (ih c.skip h)
      | some item =>
          rw [hvictim, Option.some.injEq] at h
          rintro k' ⟨⟨i, it, hit, hkey, hzero⟩, hne⟩
          refine ⟨i, it, ?_, hkey, hzero⟩
          rw [evictHere_items, if_neg]
          · exact hit
          · rintro rfl
            rw [(victim_eq_some_iff.mp hvictim).1, Option.some.injEq] at hit
            exact hne (hkey.symm.trans (hit ▸ h))

/-- The victim is out of the table, so deleting it once more does nothing. -/
theorem loose_evict_delete (h : c.Wf) {k : Key} (hsome : c.evict.2 = some k) :
    c.loose \ {k} ⊆ (c.evict.1.delete k).loose := by
  have hkeys : c.evict.1.keys.lookup k = none := by
    rcases (evict_spec h).2 with ⟨hnone, -⟩ | ⟨k', -, hsome', hkeys⟩
    · rw [hnone] at hsome
      cases hsome
    · rw [hsome', Option.some.injEq] at hsome
      rw [hkeys, hsome]
      exact AList.lookup_erase k c.keys
  have hdelete : c.evict.1.delete k = c.evict.1 := by
    rw [delete, hkeys]
  rw [hdelete]
  rw [evict] at hsome ⊢
  split at hsome
  case isTrue => cases hsome
  case isFalse hcap =>
    rw [if_neg hcap]
    exact loose_sweep c.capacity c hsome

/-- The item in one slot is used. -/
def useSlot (f : ClockItem V → ClockItem V) (idx : Nat) (c : ClockAlgorithm V) :
    ClockAlgorithm V :=
  { c with items := modify c.items idx (Option.map f) }

theorem alike_useSlot (f : ClockItem V → ClockItem V) (hf : ∀ it, (f it).key = it.key) (idx : Nat)
    (c : ClockAlgorithm V) : c.Alike (c.useSlot f idx) := by
  refine ⟨rfl, rfl, fun i => ?_⟩
  show (modify c.items idx (Option.map f) i).map ClockItem.key = _
  rw [modify_apply]
  split
  · cases c.items i with
    | none => rfl
    | some it => exact congrArg some (hf it)
  · rfl

theorem get_spec (h : c.Wf) (key : Key) : (c.get key).1.Wf ∧ (c.get key).1.keys = c.keys := by
  rw [get]
  split
  · exact ⟨h, rfl⟩
  case h_2 idx hidx =>
    have hused := alike_useSlot
      (fun item : ClockItem V => { item with accessCount := item.accessCount + 1 })
      (fun _ => rfl) idx c
    exact ⟨h.of_alike hused h.hand_lt, rfl⟩

theorem delete_spec (h : c.Wf) (key : Key) :
    (c.delete key).Wf ∧ ∀ k, k ∈ (c.delete key).keys ↔ k ≠ key ∧ k ∈ c.keys := by
  rw [delete]
  split
  case h_1 hnone =>
    have hkey : key ∉ c.keys := AList.lookup_eq_none.mp hnone
    exact ⟨h, fun k => ⟨fun hk => ⟨fun heq => hkey (heq ▸ hk), hk⟩, And.right⟩⟩
  case h_2 idx hidx =>
    obtain ⟨it, hit, rfl⟩ := h.held hidx
    -- Deleting is evicting where the hand points at the slot.
    have hmoved : ({ c with hand := idx } : ClockAlgorithm V).Wf :=
      h.of_alike ⟨rfl, rfl, fun _ => rfl⟩ (fun _ => (h.slot hit).1)
    have hgone := wf_evictHere hmoved hit
    exact ⟨hgone.of_alike ⟨rfl, rfl, fun _ => rfl⟩ h.hand_lt, fun k => AList.mem_erase⟩

/-- What `Set` does: it uses the item of the key, takes a free slot, takes the slot of a loose
key, or gives up. -/
theorem set_cases (h : c.Wf) (hcap : c.capacity ≠ 0) (key : Key) (value : Option V) :
    (key ∈ c.keys ∧ ∃ idx, c.keys.lookup key = some idx ∧ c.set key value =
        c.useSlot (fun item => { item with value, accessCount := item.accessCount + 1 }) idx) ∨
      key ∉ c.keys ∧
        ((∃ i < c.capacity, c.items i = none ∧
            c.set key value = ({ c with hand := i }.insertHere key value).advanceHand) ∨
          (∀ i < c.capacity, c.items i ≠ none) ∧
            ((∃ c' item, c.Alike c' ∧ c'.Wf ∧ c'.items c'.hand = some item ∧ item.key ∈ c.loose ∧
                c.set key value = ((c'.evictHere item).insertHere key value).advanceHand) ∨
              c.loose = ∅ ∧ c.Alike (c.set key value) ∧ (c.set key value).Wf)) := by
  have hhand := h.hand_lt hcap
  rw [set, if_neg hcap]
  cases hlookup : c.keys.lookup key with
  | some idx =>
      exact Or.inl ⟨AList.lookup_isSome.mp (by rw [hlookup]; rfl), idx, rfl, rfl⟩
  | none =>
      refine Or.inr ⟨AList.lookup_eq_none.mp hlookup, ?_⟩
      dsimp only
      rcases tryInsertInFreeSlot_cases key value c.capacity c with
        ⟨j, hj, hfree, htry⟩ | ⟨hfull, htry⟩
      · rw [htry]
        rw [iterate_advanceHand hhand] at hfree ⊢
        exact Or.inl ⟨_, Nat.mod_lt _ (Nat.pos_of_ne_zero hcap), hfree, rfl⟩
      · have hround : advanceHand^[c.capacity] c = c := by
          rw [iterate_advanceHand hhand, Nat.add_mod_right, Nat.mod_eq_of_lt hhand]
        rw [htry, hround]
        dsimp only
        refine Or.inr ⟨fun i hi => ?_, ?_⟩
        · obtain ⟨j, hj, hoffset⟩ := Cyclic.exists_offset c.hand hi
          have hslot := hfull j hj
          rw [iterate_advanceHand hhand] at hslot
          rw [← hoffset]
          exact hslot
        · rcases evictAndInsert_cases key value c.capacity c with
            ⟨j, hj, item, hvictim, hresult⟩ | ⟨hnone, hresult⟩
          · exact Or.inl ⟨skip^[j] c, item, alike_iterate_skip c j, wf_iterate_skip h hcap j,
              (victim_eq_some_iff.mp hvictim).1, mem_loose_of_victim h hcap hj hvictim, hresult⟩
          · rw [hresult]
            exact Or.inr ⟨loose_eq_empty h hcap hnone, alike_iterate_skip c _,
              wf_iterate_skip h hcap _⟩

/-- Some slot is free. -/
def HasRoom (c : ClockAlgorithm V) : Prop := ∃ i < c.capacity, c.items i = none

theorem keys_eq_empty (h : c.Wf) (hcap : c.capacity = 0) (k : Key) : k ∉ c.keys := by
  intro hk
  obtain ⟨i, hi⟩ := Option.isSome_iff_exists.mp (AList.lookup_isSome.mpr hk)
  obtain ⟨it, hit, -⟩ := h.held hi
  have hlt := (h.slot hit).1
  omega

/-- A new key is tracked beside the others exactly when some slot is free. -/
theorem set_spec (h : c.Wf) (key : Key) (value : Option V) :
    (c.set key value).Wf ∧ (∀ k, k ∈ (c.set key value).keys → k = key ∨ k ∈ c.keys) ∧
      ((∀ k, k ∈ (c.set key value).keys ↔ k = key ∨ k ∈ c.keys) ↔ key ∈ c.keys ∨ c.HasRoom) := by
  by_cases hcap : c.capacity = 0
  · rw [set, if_pos hcap]
    refine ⟨h, fun k hk => Or.inr hk, fun hall => Or.inl ((hall key).mpr (Or.inl rfl)), ?_⟩
    rintro (hk | ⟨i, hi, -⟩)
    · exact absurd hk (keys_eq_empty h hcap key)
    · omega
  · rcases set_cases h hcap key value with
      ⟨hk, idx, -, hset⟩ | ⟨hk, ⟨i, hi, hfree, hset⟩ | ⟨hfull, hrest⟩⟩
    · have hused := alike_useSlot (fun item : ClockItem V =>
        { item with value, accessCount := item.accessCount + 1 }) (fun _ => rfl) idx c
      rw [hset]
      refine ⟨h.of_alike hused h.hand_lt, fun k hk' => Or.inr hk', fun _ => Or.inl hk,
        fun _ k => ?_⟩
      exact ⟨Or.inr, fun hor => hor.elim (fun heq => heq ▸ hk) id⟩
    · have hmoved : ({ c with hand := i } : ClockAlgorithm V).Wf :=
        h.of_alike ⟨rfl, rfl, fun _ => rfl⟩ (fun _ => hi)
      rw [hset]
      exact ⟨(wf_insertHere hmoved hcap hfree hk value).advanceHand,
        fun k hk' => (AList.mem_insert _).mp hk', fun _ => Or.inr ⟨i, hi, hfree⟩,
        fun _ k => AList.mem_insert _⟩
    · have hnone : ¬(key ∈ c.keys ∨ c.HasRoom) := by
        rintro (hk' | ⟨i, hi, hfree⟩)
        · exact hk hk'
        · exact hfull i hi hfree
      rcases hrest with ⟨c', item, halike, hwf, hitem, hloose, hset⟩ | ⟨-, halike, hwf⟩
      · have hgone : (c'.evictHere item).items (c'.evictHere item).hand = none :=
          (evictHere_items item c' _).trans (if_pos rfl)
        have hkey : key ∉ (c'.evictHere item).keys := by
          intro hk'
          exact hk (halike.keys ▸ (AList.mem_erase.mp hk').2)
        have hmem : ∀ k, k ∈ (c.set key value).keys ↔ k = key ∨ k ≠ item.key ∧ k ∈ c.keys := by
          intro k
          rw [hset, ← halike.keys]
          exact (AList.mem_insert _).trans (or_congr Iff.rfl AList.mem_erase)
        refine ⟨?_, fun k hk' => ((hmem k).mp hk').imp_right And.right, fun hall => ?_,
          fun hor => absurd hor hnone⟩
        · rw [hset]
          exact (wf_insertHere (wf_evictHere hwf hitem) (halike.capacity.symm ▸ hcap) hgone hkey
            value).advanceHand
        · have hitem' : item.key ∈ c.keys := loose_subset h hloose
          rcases (hmem item.key).mp ((hall item.key).mpr (Or.inr hitem')) with heq | hne
          · exact absurd (heq ▸ hitem') hk
          · exact absurd rfl hne.1
      · refine ⟨hwf, fun k hk' => Or.inr (halike.keys ▸ hk'), fun hall => ?_,
          fun hor => absurd hor hnone⟩
        have hself := (hall key).mpr (Or.inl rfl)
        rw [halike.keys] at hself
        exact absurd hself hk

/-- `Set` followed by `Get` returns the value unless every slot is taken by an item that was used
since the hand last passed it. -/
theorem get_set_iff (h : c.Wf) (hcap : c.capacity ≠ 0) (key : Key) (value : Option V) :
    ((c.set key value).get key).2 = some value ↔
      key ∈ c.keys ∨ c.HasRoom ∨ c.loose.Nonempty := by
  rcases set_cases h hcap key value with
    ⟨hk, idx, hidx, hset⟩ | ⟨hk, ⟨i, hi, hfree, hset⟩ | ⟨hfull, hrest⟩⟩
  · obtain ⟨it, hit, -⟩ := h.held hidx
    refine ⟨fun _ => Or.inl hk, fun _ => ?_⟩
    have hused : (c.set key value).keys.lookup key = some idx := by
      rw [hset]
      exact hidx
    rw [get, hused, hset]
    show (modify c.items idx (Option.map _) idx).map ClockItem.value = _
    rw [modify_self, hit]
    rfl
  · rw [hset]
    exact ⟨fun _ => Or.inr (Or.inl ⟨i, hi, hfree⟩), fun _ => insertHere_get key value _⟩
  · rcases hrest with ⟨c', item, -, -, -, hloose, hset⟩ | ⟨hloose, halike, -⟩
    · rw [hset]
      exact ⟨fun _ => Or.inr (Or.inr ⟨_, hloose⟩), fun _ => insertHere_get key value _⟩
    · constructor
      · intro hget
        rw [get, halike.keys, AList.lookup_eq_none.mpr hk] at hget
        cases hget
      · rintro (hk' | ⟨i, hi, hfree⟩ | hne)
        · exact absurd hk' hk
        · exact absurd hfree (hfull i hi)
        · rw [hloose] at hne
          exact absurd hne Set.not_nonempty_empty

theorem capacity_set (h : c.Wf) (key : Key) (value : Option V) :
    (c.set key value).capacity = c.capacity := by
  by_cases hcap : c.capacity = 0
  · rw [set, if_pos hcap]
  · rcases set_cases h hcap key value with
      ⟨-, idx, -, hset⟩ | ⟨-, ⟨i, -, -, hset⟩ | ⟨-, hrest⟩⟩
    · rw [hset]
      rfl
    · rw [hset]
      rfl
    · rcases hrest with ⟨c', item, halike, -, -, -, hset⟩ | ⟨-, halike, -⟩
      · rw [hset]
        exact halike.capacity
      · exact halike.capacity

theorem capacity_get (key : Key) (c : ClockAlgorithm V) :
    (c.get key).1.capacity = c.capacity := by
  unfold get
  split <;> rfl

theorem capacity_delete (key : Key) (c : ClockAlgorithm V) :
    (c.delete key).capacity = c.capacity := by
  unfold delete
  split <;> rfl

theorem capacity_evict (c : ClockAlgorithm V) : c.evict.1.capacity = c.capacity := by
  rw [evict]
  split
  · rfl
  · rcases sweep_cases c.capacity c with ⟨j, -, item, -, hsweep⟩ | ⟨-, hsweep⟩
    · rw [hsweep]
      exact (alike_iterate_skip c j).capacity
    · rw [hsweep]
      exact (alike_iterate_skip c _).capacity

end ClockAlgorithm

end HyperCache
