/-
The keys an eviction algorithm tracks.

A cache relies on its algorithm to take every key it is told of and to name a
victim as long as it tracks any.  `Serves` are the states from which an algorithm
does so.  LRU, LFU and CAWOLFU serve whenever their capacity is positive.  Clock
may pass over all its keys.  A sharded algorithm serves when its shards do, each
tracking only keys that hash to it, and the number of shards fits 32 bits.
-/
import HyperCache.Eviction

namespace HyperCache

open Tables

variable {V A : Type}

class Tracking (V : outParam Type) (A : Type) [EvictionAlgorithm V A] where
  keys : A → Set Key
  Serves : A → Prop
  set_spec : ∀ {a : A} (k : Key) (v : Option V), Serves a →
    Serves (EvictionAlgorithm.set k v a) ∧ k ∈ keys (EvictionAlgorithm.set k v a) ∧
      keys (EvictionAlgorithm.set k v a) ⊆ insert k (keys a)
  delete_spec : ∀ {a : A} (k : Key), Serves a →
    Serves (IAlgorithm.delete k a) ∧ keys (IAlgorithm.delete k a) = keys a \ {k}
  evict_spec : ∀ {a : A}, Serves a → Serves (EvictionAlgorithm.evict a).1 ∧
    (((EvictionAlgorithm.evict a).2 = none ∧ keys a = ∅ ∧
        keys (EvictionAlgorithm.evict a).1 = ∅) ∨
      ∃ k ∈ keys a, (EvictionAlgorithm.evict a).2 = some k ∧
        keys (EvictionAlgorithm.evict a).1 = keys a \ {k})

/-! ## One instance -/

namespace Algorithm

def tracked : Algorithm V → Set Key
  | .lru a => {k | k ∈ a.table.keys}
  | .clock a => {k | k ∈ a.keys}
  | .lfu a => {k | k ∈ a.table.keys}
  | .cawolfu a => {k | k ∈ a.table.keys}

/-- An algorithm other than Clock, of positive capacity. -/
def Serving : Algorithm V → Prop
  | .lru a => a.table.capacity ≠ 0
  | .clock _ => False
  | .lfu a => a.table.capacity ≠ 0
  | .cawolfu a => a.table.capacity ≠ 0

section

variable {β : Type} {t : Table Key β}

theorem keys_set_spec (v : Victim Key β) (f : β → β) (new : β) (k : Key)
    (h : t.capacity ≠ 0) :
    (t.set v f new k).capacity ≠ 0 ∧ k ∈ (t.set v f new k).keys ∧
      {k' | k' ∈ (t.set v f new k).keys} ⊆ insert k {k' | k' ∈ t.keys} :=
  ⟨by rwa [Table.capacity_set], Table.mem_keys_set_self v f new k h,
    fun _ => Table.mem_keys_of_mem_set⟩

theorem keys_erase_spec (k : Key) :
    {k' | k' ∈ (t.erase k).keys} = {k' | k' ∈ t.keys} \ {k} := by
  ext k'
  rw [Set.mem_sdiff, Set.mem_ofPred_eq, Table.mem_keys_erase, and_comm]
  exact Iff.rfl

theorem keys_evict_spec (v : Victim Key β) (h : t.capacity ≠ 0) :
    (t.evict v).1.capacity ≠ 0 ∧
      (((t.evict v).2 = none ∧ {k | k ∈ t.keys} = ∅ ∧ {k | k ∈ (t.evict v).1.keys} = ∅) ∨
        ∃ k ∈ t.keys, (t.evict v).2 = some k ∧
          {k' | k' ∈ (t.evict v).1.keys} = {k' | k' ∈ t.keys} \ {k}) := by
  rcases t.evict_cases v with ⟨hnone, hnil⟩ | ⟨k, hk, hsome⟩
  · have hempty : {k | k ∈ t.keys} = ∅ := by simp [hnil]
    rw [hnone]
    exact ⟨h, Or.inl ⟨rfl, hempty, hempty⟩⟩
  · rw [hsome]
    exact ⟨h, Or.inr ⟨k, hk, rfl, keys_erase_spec k⟩⟩

end

instance : Tracking V (Algorithm V) where
  keys := tracked
  Serves := Serving
  set_spec := by
    intro a k value h
    cases a with
    | lru a => exact keys_set_spec .last _ _ k h
    | clock a => cases h
    | lfu a =>
        show Serving (.lfu (a.set k value)) ∧ k ∈ tracked (.lfu (a.set k value)) ∧
          tracked (.lfu (a.set k value)) ⊆ _
        rw [LFUAlgorithm.set, if_neg h]
        exact keys_set_spec (.least LFUNode.rank) _ _ k h
    | cawolfu a => exact keys_set_spec .last _ _ k h
  delete_spec := by
    intro a k h
    cases a with
    | lru a => exact ⟨h, keys_erase_spec k⟩
    | clock a => cases h
    | lfu a => exact ⟨h, keys_erase_spec k⟩
    | cawolfu a => exact ⟨h, keys_erase_spec k⟩
  evict_spec := by
    intro a h
    cases a with
    | lru a => exact keys_evict_spec .last h
    | clock a => cases h
    | lfu a =>
        show Serving (.lfu a.evict.1) ∧ ((a.evict.2 = none ∧ _ ∧ tracked (.lfu a.evict.1) = ∅) ∨
          ∃ k ∈ _, a.evict.2 = some k ∧ tracked (.lfu a.evict.1) = _)
        rw [LFUAlgorithm.evict, if_neg h]
        exact keys_evict_spec (.least LFUNode.rank) h
    | cawolfu a => exact keys_evict_spec .last h

/-- The names of the algorithms that serve. -/
def servingNames : List String := ["lru", "lfu", "cawolfu"]

theorem serves_new {name : String} (hname : servingNames.contains name = true) {capacity : Int}
    (hcap : capacity ≠ 0) {a : Algorithm V} (h : newEvictionAlgorithm name capacity = .ok a) :
    Tracking.Serves a ∧ Tracking.keys a = ∅ := by
  unfold newEvictionAlgorithm at h
  split at h
  · cases h
  split at h
  · cases h
  case isFalse hneg =>
    have hpos : capacity.toNat ≠ 0 := by omega
    have hlist : name = "lru" ∨ name = "lfu" ∨ name = "cawolfu" := by
      simpa [servingNames] using hname
    rcases hlist with rfl | rfl | rfl <;> cases h <;>
      exact ⟨hpos, Set.eq_empty_of_forall_notMem (fun k hk => List.not_mem_nil hk)⟩

end Algorithm

/-! ## Shards -/

namespace Sharded

section

variable (s : Sharded A) (i : UInt32) (a : A)

theorem shardFor_setShard (k : Key) : (s.setShard i a).shardFor k = s.shardFor k := by
  unfold shardFor setShard
  rfl

theorem shards_setShard (j : UInt32) :
    (s.setShard i a).shards j = if j = i then a else s.shards j :=
  Function.update_apply s.shards i a j

end

section

variable [EvictionAlgorithm V A]

/-- A shard that an eviction did not ask, or that had no victim for it. -/
def Passed (a a' : A) : Prop :=
  a' = a ∨ (EvictionAlgorithm.evict a).2 = none ∧ a' = (EvictionAlgorithm.evict a).1

/-- Ask the shards of a list one after the other for a victim. -/
def tryShards : List UInt32 → Sharded A → Sharded A × Option Key
  | [], s => (s, none)
  | idx :: rest, s =>
      match EvictionAlgorithm.evict (s.shards idx) with
      | (a, some key) => (s.setShard idx a, some key)
      | (a, none) => tryShards rest (s.setShard idx a)

theorem evictFrom_eq_tryShards (start : UInt32) (n : Nat) (i : UInt32) (s : Sharded A) :
    evictFrom start n i s =
      tryShards ((List.range n).map (fun j => (start + i + UInt32.ofNat j) &&& s.mask)) s := by
  induction n generalizing i s with
  | zero => rfl
  | succ n ih =>
      have hzero : start + i + UInt32.ofNat 0 = start + i := UInt32.add_zero _
      have hnext : ∀ j, start + (i + 1) + UInt32.ofNat j = start + i + UInt32.ofNat (j + 1) := by
        intro j
        rw [UInt32.ofNat_add]
        ac_rfl
      rw [List.range_succ_eq_map, List.map_cons, List.map_map, hzero, evictFrom, tryShards]
      generalize EvictionAlgorithm.evict (s.shards ((start + i) &&& s.mask)) = res
      obtain ⟨a, _ | key⟩ := res
      · dsimp only
        rw [ih]
        simp only [hnext]
        rfl
      · rfl

/-- The shards that come before the first with a victim are passed, and those after it are not
asked. -/
theorem tryShards_cases {l : List UInt32} (hl : l.Nodup) (s : Sharded A) :
    (∀ x ∉ l, (tryShards l s).1.shards x = s.shards x) ∧
      (((tryShards l s).2 = none ∧ ∀ x ∈ l, (EvictionAlgorithm.evict (s.shards x)).2 = none ∧
          (tryShards l s).1.shards x = (EvictionAlgorithm.evict (s.shards x)).1) ∨
        ∃ x ∈ l, ∃ k, (tryShards l s).2 = some k ∧
          (EvictionAlgorithm.evict (s.shards x)).2 = some k ∧
          (tryShards l s).1.shards x = (EvictionAlgorithm.evict (s.shards x)).1 ∧
          ∀ y ≠ x, Passed (s.shards y) ((tryShards l s).1.shards y)) := by
  induction l generalizing s with
  | nil => exact ⟨fun x _ => rfl, Or.inl ⟨rfl, fun x hx => absurd hx List.not_mem_nil⟩⟩
  | cons idx rest ih =>
      obtain ⟨hidx, hrest⟩ := List.nodup_cons.mp hl
      rw [tryShards]
      generalize hres : EvictionAlgorithm.evict (s.shards idx) = res
      obtain ⟨a, _ | key⟩ := res
      · dsimp only
        obtain ⟨hkeep, hcases⟩ := ih hrest (s.setShard idx a)
        have hother : ∀ y ≠ idx, (s.setShard idx a).shards y = s.shards y := fun y hy =>
          (shards_setShard s idx a y).trans (if_neg hy)
        have hfirst : (tryShards rest (s.setShard idx a)).1.shards idx = a := by
          rw [hkeep idx hidx, shards_setShard, if_pos rfl]
        refine ⟨fun x hx => ?_, ?_⟩
        · rw [List.mem_cons, not_or] at hx
          rw [hkeep x hx.2, hother x hx.1]
        · rcases hcases with ⟨hnone, hall⟩ | ⟨x, hx, k, hsome, hvictim, hafter, hpassed⟩
          · refine Or.inl ⟨hnone, fun x hx => ?_⟩
            rcases List.mem_cons.mp hx with rfl | hx
            · rw [hres, hfirst]
              exact ⟨rfl, rfl⟩
            · rw [← hother x (fun heq => hidx (heq ▸ hx))]
              exact hall x hx
          · have hne : x ≠ idx := fun heq => hidx (heq ▸ hx)
            rw [hother x hne] at hvictim hafter
            refine Or.inr ⟨x, List.mem_cons_of_mem _ hx, k, hsome, hvictim, hafter, fun y hy => ?_⟩
            by_cases hyi : y = idx
            · rw [hyi, hfirst]
              exact Or.inr (by rw [hres]; exact ⟨rfl, rfl⟩)
            · rw [← hother y hyi]
              exact hpassed y hy
      · refine ⟨fun x hx => ?_, Or.inr ⟨idx, List.mem_cons_self, key, rfl, by rw [hres], ?_,
          fun y hy => Or.inl ?_⟩⟩
        · rw [List.mem_cons, not_or] at hx
          exact (shards_setShard s idx a x).trans (if_neg hx.1)
        · rw [hres]
          exact (shards_setShard s idx a idx).trans (if_pos rfl)
        · exact (shards_setShard s idx a y).trans (if_neg hy)

theorem tryShards_frame (l : List UInt32) (s : Sharded A) :
    (tryShards l s).1.shardCount = s.shardCount ∧
      ∀ k, (tryShards l s).1.shardFor k = s.shardFor k := by
  induction l generalizing s with
  | nil => exact ⟨rfl, fun k => rfl⟩
  | cons idx rest ih =>
      rw [tryShards]
      split
      · exact ⟨rfl, shardFor_setShard s idx _⟩
      · obtain ⟨hcount, hfor⟩ := ih (s.setShard idx _)
        exact ⟨hcount, fun k => (hfor k).trans (shardFor_setShard s idx _ k)⟩

/-- The shards in the order an eviction asks them. -/
def round (s : Sharded A) : List UInt32 :=
  (List.range s.shardCount).map (fun j => (s.evictCursor + 0 + UInt32.ofNat j) &&& s.mask)

theorem log2_le {s : Sharded A} (hfits : s.shardCount ≤ maxUint32) : s.shardCount.log2 ≤ 32 := by
  have hlt : 2 ^ s.shardCount.log2 < 2 ^ 32 := by
    rw [← s.powerOfTwo]
    exact Nat.lt_succ_of_le hfits
  exact ((Nat.pow_lt_pow_iff_right (by omega)).mp hlt).le

theorem mask_eq_two_pow (s : Sharded A) : s.mask.toNat = 2 ^ s.shardCount.log2 - 1 := by
  rw [s.mask_eq, ← s.powerOfTwo]

/-- A round asks no shard twice. -/
theorem nodup_round {s : Sharded A} (hfits : s.shardCount ≤ maxUint32) : s.round.Nodup := by
  refine List.Nodup.map_on (fun j hj j' hj' heq => ?_) List.nodup_range
  rw [List.mem_range, s.powerOfTwo] at hj hj'
  exact Masks.offset_inj (log2_le hfits) s.mask_eq_two_pow _ hj hj' heq

/-- A round asks the shard of every key, whatever the cursor it starts from. -/
theorem shardFor_mem_round {s : Sharded A} (hfits : s.shardCount ≤ maxUint32) (k : Key) :
    s.shardFor k ∈ s.round := by
  have hindex : (s.shardFor k).toNat < 2 ^ s.shardCount.log2 := by
    rw [shardFor, Masks.toNat_and s.mask_eq_two_pow]
    exact Nat.mod_lt _ (Nat.two_pow_pos _)
  obtain ⟨j, hj, hvisit⟩ := Masks.exists_offset (log2_le hfits) s.mask_eq_two_pow
    (s.evictCursor + 0) hindex
  rw [← s.powerOfTwo] at hj
  exact List.mem_map.mpr ⟨j, List.mem_range.mpr hj, hvisit⟩

/-- An eviction passes every shard and finds nothing, or stops at a shard that has a victim. -/
theorem evict_cases {s : Sharded A} (hfits : s.shardCount ≤ maxUint32) :
    s.evict.1.shardCount = s.shardCount ∧ (∀ k, s.evict.1.shardFor k = s.shardFor k) ∧
      ((s.evict.2 = none ∧ (∀ k, (EvictionAlgorithm.evict (s.shards (s.shardFor k))).2 = none) ∧
          ∀ x, Passed (s.shards x) (s.evict.1.shards x)) ∨
        ∃ x k, s.evict.2 = some k ∧ (EvictionAlgorithm.evict (s.shards x)).2 = some k ∧
          s.evict.1.shards x = (EvictionAlgorithm.evict (s.shards x)).1 ∧
          ∀ y ≠ x, Passed (s.shards y) (s.evict.1.shards y)) := by
  obtain ⟨s₁, hs₁⟩ : ∃ s₁ : Sharded A, s₁ = { s with evictCursor := s.evictCursor + 1 } :=
    ⟨_, rfl⟩
  have hshards : s₁.shards = s.shards := by rw [hs₁]
  have hmask : s₁.mask = s.mask := by rw [hs₁]
  have hevict : s.evict = tryShards s.round s₁ := by
    rw [evict_eq, if_neg (Nat.not_lt.mpr hfits), ← hs₁, evictFrom_eq_tryShards, hmask, round]
  obtain ⟨hcount, hfor⟩ := tryShards_frame s.round s₁
  obtain ⟨hkeep, hcases⟩ := tryShards_cases (nodup_round hfits) s₁
  rw [hshards] at hkeep hcases
  rw [hevict]
  refine ⟨hcount.trans (by rw [hs₁]), fun k => (hfor k).trans ?_, ?_⟩
  · rw [hs₁]
    unfold shardFor
    rfl
  · rcases hcases with ⟨hnone, hall⟩ | ⟨x, -, k, hfound⟩
    · refine Or.inl ⟨hnone, fun k => (hall _ (shardFor_mem_round hfits k)).1, fun x => ?_⟩
      by_cases hx : x ∈ s.round
      · exact Or.inr (hall x hx)
      · exact Or.inl (hkeep x hx)
    · exact Or.inr ⟨x, k, hfound⟩

end

variable [EvictionAlgorithm V A] [Tracking V A]

def tracked (s : Sharded A) : Set Key := {k | k ∈ Tracking.keys (s.shards (s.shardFor k))}

theorem mem_tracked {s : Sharded A} {k : Key} :
    k ∈ s.tracked ↔ k ∈ Tracking.keys (s.shards (s.shardFor k)) := by
  rw [tracked, Set.mem_ofPred_eq]

/-- Every shard is as `P` says and tracks keys of its own only. -/
structure Each (P : A → Prop) (s : Sharded A) : Prop where
  shards : ∀ i, P (s.shards i)
  own : ∀ i, ∀ k ∈ Tracking.keys (s.shards i), s.shardFor k = i

/-- Every shard serves and tracks keys of its own only. -/
structure Serving (s : Sharded A) : Prop where
  fits : s.shardCount ≤ maxUint32
  serves : ∀ i, Tracking.Serves (s.shards i)
  own : ∀ i, ∀ k ∈ Tracking.keys (s.shards i), s.shardFor k = i

theorem Serving.each {s : Sharded A} (h : s.Serving) : s.Each Tracking.Serves := ⟨h.serves, h.own⟩

section

variable {P : A → Prop} {s : Sharded A}

theorem Each.setShard (h : s.Each P) {i : UInt32} {a : A} (ha : P a)
    (hown : ∀ k ∈ Tracking.keys a, s.shardFor k = i) : (s.setShard i a).Each P where
  shards := by
    intro j
    rw [shards_setShard]
    split
    · exact ha
    · exact h.shards j
  own := by
    intro j k hk
    rw [shards_setShard] at hk
    rw [shardFor_setShard]
    split at hk
    case isTrue hj => exact hj ▸ hown k hk
    case isFalse => exact h.own j k hk

theorem mem_tracked_setShard {i : UInt32} {a : A} {k : Key} :
    k ∈ (s.setShard i a).tracked ↔
      if s.shardFor k = i then k ∈ Tracking.keys a else k ∈ s.tracked := by
  rw [mem_tracked, shardFor_setShard, shards_setShard]
  split
  · exact Iff.rfl
  · exact mem_tracked.symm

/-- A shard that loses a key of its own takes it out of the whole. -/
theorem tracked_setShard_diff {i : UInt32} {a : A} {k : Key}
    (hk : s.shardFor k = i) (ha : Tracking.keys a = Tracking.keys (s.shards i) \ {k}) :
    (s.setShard i a).tracked = s.tracked \ {k} := by
  ext k'
  rw [mem_tracked_setShard, Set.mem_sdiff, Set.mem_singleton_iff]
  split
  case isTrue hk' => rw [ha, Set.mem_sdiff, Set.mem_singleton_iff, mem_tracked, hk']
  case isFalse hk' =>
    have hne : k' ≠ k := fun heq => hk' (heq ▸ hk)
    exact ⟨fun h => ⟨h, hne⟩, fun h => h.1⟩

theorem Each.set (h : s.Each P) (k : Key) (v : Option V)
    (hP : P (EvictionAlgorithm.set k v (s.shards (s.shardFor k))))
    (hsub : Tracking.keys (EvictionAlgorithm.set k v (s.shards (s.shardFor k))) ⊆
      insert k (Tracking.keys (s.shards (s.shardFor k)))) :
    (s.set k v).Each P ∧ (s.set k v).tracked ⊆ insert k s.tracked := by
  refine ⟨h.setShard hP (fun k' hk' => ?_), fun k' hk' => ?_⟩
  · rcases hsub hk' with rfl | hold
    · rfl
    · exact h.own _ k' hold
  · rw [Sharded.set, mem_tracked_setShard] at hk'
    split at hk'
    case isTrue hsame =>
      refine (hsub hk').imp_right (fun hold => ?_)
      rwa [mem_tracked, hsame]
    case isFalse => exact Or.inr hk'

theorem Each.delete (h : s.Each P) (k : Key)
    (hP : P (IAlgorithm.delete k (s.shards (s.shardFor k))))
    (hkeys : Tracking.keys (IAlgorithm.delete k (s.shards (s.shardFor k))) =
      Tracking.keys (s.shards (s.shardFor k)) \ {k}) :
    (s.delete k).Each P ∧ (s.delete k).tracked = s.tracked \ {k} := by
  refine ⟨h.setShard hP (fun k' hk' => ?_), tracked_setShard_diff rfl hkeys⟩
  rw [hkeys] at hk'
  exact h.own _ k' hk'.1

/-- What the evictions of the shards do to their keys, the eviction of the whole does to all
keys. -/
theorem Each.evict (h : s.Each P) (hfits : s.shardCount ≤ maxUint32)
    (hP : ∀ {a : A}, P a → P (EvictionAlgorithm.evict a).1)
    (hnone : ∀ {a : A}, P a → (EvictionAlgorithm.evict a).2 = none →
      Tracking.keys (EvictionAlgorithm.evict a).1 = Tracking.keys a)
    (hsome : ∀ {a : A} {k : Key}, P a → (EvictionAlgorithm.evict a).2 = some k →
      k ∈ Tracking.keys a ∧ Tracking.keys (EvictionAlgorithm.evict a).1 = Tracking.keys a \ {k}) :
    s.evict.1.Each P ∧
      ((s.evict.2 = none ∧ s.evict.1.tracked = s.tracked ∧
          ∀ k, (EvictionAlgorithm.evict (s.shards (s.shardFor k))).2 = none) ∨
        ∃ k ∈ s.tracked, s.evict.2 = some k ∧
          (EvictionAlgorithm.evict (s.shards (s.shardFor k))).2 = some k ∧
          s.evict.1.tracked = s.tracked \ {k}) := by
  have hpassed : ∀ {a a' : A}, P a → Passed a a' → P a' ∧ Tracking.keys a' = Tracking.keys a := by
    rintro a a' ha (rfl | ⟨hno, rfl⟩)
    · exact ⟨ha, rfl⟩
    · exact ⟨hP ha, hnone ha hno⟩
  obtain ⟨-, hfor, hcases⟩ := evict_cases hfits
  rcases hcases with ⟨hno, hall, hshards⟩ | ⟨x, k, hk, hvictim, hafter, hshards⟩
  · refine ⟨⟨fun i => (hpassed (h.shards i) (hshards i)).1, fun i k hk => ?_⟩,
      Or.inl ⟨hno, ?_, hall⟩⟩
    · rw [(hpassed (h.shards i) (hshards i)).2] at hk
      rw [hfor]
      exact h.own i k hk
    · ext k
      rw [mem_tracked, mem_tracked, hfor, (hpassed (h.shards _) (hshards _)).2]
  · obtain ⟨hmem, hkeys⟩ := hsome (h.shards x) hvictim
    have hx : s.shardFor k = x := h.own x k hmem
    refine ⟨⟨fun i => ?_, fun i k' hk' => ?_⟩, Or.inr ⟨k, ?_, hk, by rw [hx, hvictim], ?_⟩⟩
    · by_cases hi : i = x
      · rw [hi, hafter]
        exact hP (h.shards x)
      · exact (hpassed (h.shards i) (hshards i hi)).1
    · rw [hfor]
      by_cases hi : i = x
      · rw [hi, hafter, hkeys] at hk'
        rw [hi]
        exact h.own x k' hk'.1
      · rw [(hpassed (h.shards i) (hshards i hi)).2] at hk'
        exact h.own i k' hk'
    · rwa [mem_tracked, hx]
    · ext k'
      rw [Set.mem_sdiff, Set.mem_singleton_iff, mem_tracked, mem_tracked, hfor]
      by_cases hk' : s.shardFor k' = x
      · rw [hk', hafter, hkeys, Set.mem_sdiff, Set.mem_singleton_iff]
      · have hne : k' ≠ k := fun heq => hk' (heq ▸ hx)
        rw [(hpassed (h.shards _) (hshards _ hk')).2]
        exact ⟨fun hold => ⟨hold, hne⟩, fun hold => hold.1⟩

end

theorem set_serves {s : Sharded A} (k : Key) (v : Option V) (h : s.Serving) :
    (s.set k v).Serving ∧ k ∈ (s.set k v).tracked ∧ (s.set k v).tracked ⊆ insert k s.tracked := by
  obtain ⟨hserves, hmem, hsub⟩ := Tracking.set_spec k v (h.serves (s.shardFor k))
  obtain ⟨heach, htracked⟩ := h.each.set k v hserves hsub
  refine ⟨⟨h.fits, heach.shards, heach.own⟩, ?_, htracked⟩
  rw [set, mem_tracked_setShard, if_pos rfl]
  exact hmem

theorem delete_serves {s : Sharded A} (k : Key) (h : s.Serving) :
    (s.delete k).Serving ∧ (s.delete k).tracked = s.tracked \ {k} := by
  obtain ⟨hserves, hkeys⟩ := Tracking.delete_spec k (h.serves (s.shardFor k))
  obtain ⟨heach, htracked⟩ := h.each.delete k hserves hkeys
  exact ⟨⟨h.fits, heach.shards, heach.own⟩, htracked⟩

theorem evict_serves {s : Sharded A} (h : s.Serving) :
    s.evict.1.Serving ∧
      ((s.evict.2 = none ∧ s.tracked = ∅ ∧ s.evict.1.tracked = ∅) ∨
        ∃ k ∈ s.tracked, s.evict.2 = some k ∧ s.evict.1.tracked = s.tracked \ {k}) := by
  have hempty : ∀ {a : A}, Tracking.Serves a → (EvictionAlgorithm.evict a).2 = none →
      Tracking.keys a = ∅ ∧ Tracking.keys (EvictionAlgorithm.evict a).1 = ∅ := by
    intro a ha hnone
    rcases (Tracking.evict_spec ha).2 with ⟨-, hkeys⟩ | ⟨k, -, hsome, -⟩
    · exact hkeys
    · rw [hnone] at hsome
      cases hsome
  have hvictim : ∀ {a : A} {k : Key}, Tracking.Serves a →
      (EvictionAlgorithm.evict a).2 = some k → k ∈ Tracking.keys a ∧
        Tracking.keys (EvictionAlgorithm.evict a).1 = Tracking.keys a \ {k} := by
    intro a k ha hsome
    rcases (Tracking.evict_spec ha).2 with ⟨hnone, -⟩ | ⟨k', hk', hsome', hkeys⟩
    · rw [hnone] at hsome
      cases hsome
    · rw [hsome', Option.some.injEq] at hsome
      exact hsome ▸ ⟨hk', hkeys⟩
  obtain ⟨heach, hcases⟩ := h.each.evict h.fits (fun ha => (Tracking.evict_spec ha).1)
    (fun ha hnone => (hempty ha hnone).2.trans (hempty ha hnone).1.symm) hvictim
  have hcount := (evict_cases h.fits).1
  refine ⟨⟨hcount ▸ h.fits, heach.shards, heach.own⟩, ?_⟩
  rcases hcases with ⟨hnone, hsame, hall⟩ | ⟨k, hk, hsome, -, hkeys⟩
  · have hnokey : s.tracked = ∅ := by
      refine Set.eq_empty_of_forall_notMem (fun k hk => ?_)
      rw [mem_tracked, (hempty (h.serves _) (hall k)).1] at hk
      exact hk
    exact Or.inl ⟨hnone, hnokey, hsame.trans hnokey⟩
  · exact Or.inr ⟨k, hk, hsome, hkeys⟩

instance : Tracking V (Sharded A) where
  keys := tracked
  Serves := Serving
  set_spec := set_serves
  delete_spec := delete_serves
  evict_spec := evict_serves

end Sharded

theorem newSharded_ok {lib : ShardLib} {name : String} {total shardCount : Int}
    {s : Sharded (Algorithm V)} (h : newSharded lib name total shardCount = .ok s) :
    0 < shardCount ∧ shardCount ≤ maxUint32 + 1 ∧ s.shardCount = shardCount.toNat ∧
      ∃ shard, newEvictionAlgorithm name (perShard total shardCount) = .ok shard ∧
        s.shards = fun _ => shard := by
  unfold newSharded at h
  dsimp only at h
  split at h
  · cases h
  case isFalse hpow =>
    split at h
    · cases h
    · split at h
      · cases h
      case h_2 shard hshard =>
        split at h
        · cases h
        case h_2 hmask =>
          cases h
          have hfits := (ShardLib.toUint32_some hmask).1
          exact ⟨by omega, by omega, rfl, shard, hshard, rfl⟩

namespace Evictor

instance : Tracking V (Evictor V) where
  keys
    | .single a => Tracking.keys a
    | .sharded s => Tracking.keys s
  Serves
    | .single a => Tracking.Serves a
    | .sharded s => Tracking.Serves s
  set_spec := by
    intro a k value h
    cases a with
    | single a => exact Tracking.set_spec k value h
    | sharded s => exact Tracking.set_spec k value h
  delete_spec := by
    intro a k h
    cases a with
    | single a => exact Tracking.delete_spec k h
    | sharded s => exact Tracking.delete_spec k h
  evict_spec := by
    intro a h
    cases a with
    | single a => exact Tracking.evict_spec h
    | sharded s => exact Tracking.evict_spec h

end Evictor

end HyperCache
