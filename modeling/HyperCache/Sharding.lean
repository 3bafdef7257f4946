/-
A sharded algorithm is its shards, each left to its own calls.

`Evict` may ask several shards in one call, and a shard that is asked in vain can still
change. So the calls of a shard are not read off the calls of the whole: `trace` is the
list of calls that the code passes on, with the shard each of them goes to.
-/
import Mathlib.Algebra.Order.BigOperators.Group.Finset
import Mathlib.Algebra.Order.Floor.Div
import Mathlib.Data.Set.Card
import HyperCache.Lib.Routing
import HyperCache.PointerLru

namespace HyperCache

open Routing Tables

variable {V A : Type}

namespace Sharded

/-! ## The calls of the shards -/

section

variable [EvictionAlgorithm V A]

/-- The shards that the loop of `Evict` asks. -/
def asked (start : UInt32) : Nat → UInt32 → Sharded A → List UInt32
  | 0, _, _ => []
  | n + 1, i, s =>
      let idx := (start + i) &&& s.mask
      match EvictionAlgorithm.evict (s.shards idx) with
      | (_, some _) => [idx]
      | (a, none) => idx :: asked start n (i + 1) (s.setShard idx a)

/-- The calls one call is passed on as. -/
def trace (s : Sharded A) : AlgOp V → List (UInt32 × AlgOp V)
  | .set key value => [(s.shardFor key, .set key value)]
  | .get key => [(s.shardFor key, .get key)]
  | .delete key => [(s.shardFor key, .delete key)]
  | .evict =>
      if s.shardCount > maxUint32 then []
      else
        (asked s.evictCursor s.shardCount 0 { s with evictCursor := s.evictCursor + 1 }).map
          (fun idx => (idx, .evict))

/-- The calls a run is passed on as. -/
def traces : Sharded A → List (AlgOp V) → List (UInt32 × AlgOp V)
  | _, [] => []
  | s, op :: rest => s.trace op ++ traces (op.step s) rest

theorem shards_evictFrom (start : UInt32) (n : Nat) (i : UInt32) (s : Sharded A) :
    (evictFrom start n i s).1.shards =
      route AlgOp.step s.shards ((asked start n i s).map (fun idx => (idx, AlgOp.evict))) := by
  induction n generalizing i s with
  | zero => rfl
  | succ n ih =>
      rw [evictFrom, asked]
      cases hevict : EvictionAlgorithm.evict (s.shards ((start + i) &&& s.mask)) with
      | mk a key =>
          have hfirst : (s.setShard ((start + i) &&& s.mask) a).shards =
              Pointwise.modify s.shards ((start + i) &&& s.mask)
                (fun a => AlgOp.evict.step a) := by
            funext j
            rw [shards_setShard, Pointwise.modify_apply]
            by_cases hj : j = (start + i) &&& s.mask
            · rw [if_pos hj, if_pos hj, hj]
              show a = (EvictionAlgorithm.evict _).1
              rw [hevict]
            · rw [if_neg hj, if_neg hj]
          cases key with
          | some key => exact hfirst
          | none =>
              dsimp only
              rw [ih, hfirst]
              rfl

/-- One call of the whole is its calls of the shards, one after the other. -/
theorem shards_step (s : Sharded A) (op : AlgOp V) :
    (op.step s).shards = route AlgOp.step s.shards (s.trace op) := by
  cases op with
  | set key value => rfl
  | get key => rfl
  | delete key => rfl
  | evict =>
      show s.evict.1.shards = _
      rw [evict_eq, trace]
      split
      · rfl
      · exact shards_evictFrom _ _ _ _

theorem shardFor_step (s : Sharded A) (op : AlgOp V) (key : Key) :
    (op.step s).shardFor key = s.shardFor key := by
  cases op with
  | set key value => exact shardFor_setShard s _ _ _
  | get key => exact shardFor_setShard s _ _ _
  | delete key => exact shardFor_setShard s _ _ _
  | evict =>
      show s.evict.1.shardFor key = _
      rw [evict]
      split
      · rfl
      · rw [evictFrom_eq_tryShards]
        exact (tryShards_frame _ _).2 key

theorem shards_run (s : Sharded A) (ops : List (AlgOp V)) (i : UInt32) :
    (ops.foldl AlgOp.step s).shards i =
      (own i (s.traces ops)).foldl AlgOp.step (s.shards i) := by
  induction ops generalizing s with
  | nil => rfl
  | cons op rest ih =>
      rw [List.foldl_cons, ih, shards_step, route_apply, traces, own_append, List.foldl_append]

theorem shardFor_run (s : Sharded A) (ops : List (AlgOp V)) (key : Key) :
    (ops.foldl AlgOp.step s).shardFor key = s.shardFor key := by
  induction ops generalizing s with
  | nil => rfl
  | cons op rest ih => exact (ih (op.step s)).trans (shardFor_step s op key)

/-- A `Get` of the whole is one of the shard of the key. -/
theorem get_run (s : Sharded A) (ops : List (AlgOp V)) (key : Key) :
    ((ops.foldl AlgOp.step s).get key).2 =
      (EvictionAlgorithm.get key ((own (s.shardFor key) (s.traces ops)).foldl AlgOp.step
        (s.shards (s.shardFor key)))).2 := by
  rw [← shards_run, ← shardFor_run s ops key]
  rfl

/-! ## One shard -/

/-- The only shard is the algorithm. -/
structure Sole (s : Sharded A) (a : A) : Prop where
  count : s.shardCount = 1
  shard : s.shards 0 = a

theorem Sole.mask_eq_zero {s : Sharded A} {a : A} (h : s.Sole a) : s.mask = 0 := by
  rw [← UInt32.toNat_inj, s.mask_eq, h.count]
  rfl

theorem Sole.shardFor_eq {s : Sharded A} {a : A} (h : s.Sole a) (key : Key) :
    s.shardFor key = 0 := by
  rw [shardFor, h.mask_eq_zero]
  exact UInt32.and_zero

theorem Sole.setShard {s : Sharded A} {a : A} (h : s.Sole a) (a' : A) :
    (s.setShard 0 a').Sole a' :=
  ⟨h.count, (shards_setShard s 0 a' 0).trans (if_pos rfl)⟩

theorem Sole.evict {s : Sharded A} {a : A} (h : s.Sole a) :
    s.evict.1.Sole (EvictionAlgorithm.evict a).1 ∧ s.evict.2 = (EvictionAlgorithm.evict a).2 := by
  have hfew : ¬ s.shardCount > maxUint32 := by
    rw [h.count, maxUint32]
    omega
  have hnext : ({ s with evictCursor := s.evictCursor + 1 } : Sharded A).Sole a :=
    ⟨h.count, h.shard⟩
  rw [Sharded.evict_eq, if_neg hfew]
  generalize ({ s with evictCursor := s.evictCursor + 1 } : Sharded A) = s' at hnext ⊢
  have hindex : (s.evictCursor + 0) &&& s'.mask = 0 := by
    rw [hnext.mask_eq_zero]
    exact UInt32.and_zero
  rw [h.count, evictFrom, hindex, hnext.shard]
  cases hevict : EvictionAlgorithm.evict a with
  | mk a' key =>
      cases key with
      | some key => exact ⟨hnext.setShard a', rfl⟩
      | none => exact ⟨hnext.setShard a', rfl⟩

/-- A call for a key changes the shard of that key, which is the only one. -/
theorem Sole.update {s : Sharded A} {a : A} (h : s.Sole a) (key : Key) (f : A → A) :
    (s.setShard (s.shardFor key) (f (s.shards (s.shardFor key)))).Sole (f a) := by
  rw [h.shardFor_eq, h.shard]
  exact h.setShard _

theorem Sole.respond {s : Sharded A} {a : A} (h : s.Sole a) (op : AlgOp V) :
    ∃ s' a' r, op.respond s = some (s', r) ∧ op.respond a = some (a', r) ∧ s'.Sole a' := by
  refine ⟨op.step s, op.step a, op.reply a, ?_, rfl, ?_⟩
  · rw [AlgOp.respond]
    cases op with
    | set key value => rfl
    | get key =>
        show some (_, Reply.found (EvictionAlgorithm.get key (s.shards (s.shardFor key))).2) = _
        rw [h.shardFor_eq, h.shard]
        rfl
    | delete key => rfl
    | evict =>
        show some (_, Reply.victim s.evict.2) = _
        rw [h.evict.2]
        rfl
  · cases op with
    | set key value => exact h.update key (EvictionAlgorithm.set key value)
    | get key => exact h.update key fun a => (EvictionAlgorithm.get key a).1
    | delete key => exact h.update key (IAlgorithm.delete key)
    | evict => exact h.evict.1

theorem Sole.run {s : Sharded A} {a : A} (h : s.Sole a) (ops : List (AlgOp V)) :
    ∃ s' a' replies, Machines.run AlgOp.respond s ops = some (s', replies) ∧
      Machines.run AlgOp.respond a ops = some (a', replies) := by
  obtain ⟨s', a', replies, hs, ha, -⟩ := Machines.run_sim (g := id)
    (fun s a op (h : s.Sole a) => h.respond op) h ops
  rw [List.map_id] at ha
  exact ⟨s', a', replies, hs, ha⟩

end

end Sharded

/-! ## The number of residents -/

namespace ClockAlgorithm

/-- Distinct keys are in distinct slots. -/
theorem length_keys_le {c : ClockAlgorithm V} (h : c.Wf) : c.keys.keys.length ≤ c.capacity := by
  have hslot : ∀ k ∈ c.keys.keys, ∃ i, c.keys.lookup k = some i :=
    fun k hk => Option.isSome_iff_exists.mp (AList.lookup_isSome.mpr hk)
  have hinj : ∀ k ∈ c.keys.keys, ∀ k' ∈ c.keys.keys,
      (c.keys.lookup k).getD 0 = (c.keys.lookup k').getD 0 → k = k' := by
    intro k hk k' hk' heq
    obtain ⟨i, hi⟩ := hslot k hk
    obtain ⟨i', hi'⟩ := hslot k' hk'
    rw [hi, hi', Option.getD_some, Option.getD_some] at heq
    subst heq
    obtain ⟨item, hitem, rfl⟩ := h.held hi
    obtain ⟨item', hitem', rfl⟩ := h.held hi'
    rw [hitem, Option.some.injEq] at hitem'
    rw [hitem']
  have hnodup : (c.keys.keys.map fun k => (c.keys.lookup k).getD 0).Nodup :=
    c.keys.keys_nodup.map_on fun k hk k' hk' => hinj k hk k' hk'
  have hsub : (c.keys.keys.map fun k => (c.keys.lookup k).getD 0) ⊆ List.range c.capacity := by
    intro i hi
    obtain ⟨k, hk, rfl⟩ := List.mem_map.mp hi
    obtain ⟨i, hi⟩ := hslot k hk
    obtain ⟨item, hitem, -⟩ := h.held hi
    rw [hi, Option.getD_some, List.mem_range]
    exact (h.slot hitem).1
  have hlen := (hnodup.subperm hsub).length_le
  rwa [List.length_map, List.length_range] at hlen

end ClockAlgorithm

namespace Algorithm

/-- An algorithm tracks no more keys than its capacity. -/
theorem exists_keys {a : Algorithm V} (h : a.Sound) :
    ∃ keys : List Key, a.tracked = {k | k ∈ keys} ∧ keys.length ≤ a.capacity := by
  cases a with
  | lru a => exact ⟨a.table.keys, rfl, a.table.bounded⟩
  | clock c => exact ⟨c.keys.keys, rfl, ClockAlgorithm.length_keys_le h⟩
  | lfu a => exact ⟨a.table.keys, rfl, a.table.bounded⟩
  | cawolfu a => exact ⟨a.table.keys, rfl, a.table.bounded⟩

end Algorithm

namespace Sharded

/-- The shards hold no more keys than their capacities add up to. -/
theorem ncard_resident_le {s : Sharded (Algorithm V)} {n : Nat}
    (h : ∀ i, (s.shards i).Sound ∧ (s.shards i).capacity = n) (hpos : 0 < s.shardCount) :
    s.resident.Finite ∧ s.resident.ncard ≤ s.shardCount * n := by
  choose keys hkeys hlen using fun i => Algorithm.exists_keys (h i).1
  have hsub : s.resident ⊆
      ((Finset.range s.shardCount).biUnion fun j => (keys (UInt32.ofNat j)).toFinset :
        Finset Key) := by
    rintro k ⟨i, hi, hk⟩
    have hk : k ∈ (s.shards i).tracked := hk
    rw [hkeys] at hk
    rw [Finset.mem_coe, Finset.mem_biUnion]
    refine ⟨i.toNat, Finset.mem_range.mpr ?_, ?_⟩
    · have hle := UInt32.le_iff_toNat_le.mp hi
      rw [s.mask_eq] at hle
      omega
    · rw [List.mem_toFinset, UInt32.ofNat_toNat]
      exact hk
  have hcard : ((Finset.range s.shardCount).biUnion fun j =>
      (keys (UInt32.ofNat j)).toFinset).card ≤ s.shardCount * n := by
    have hle := Finset.card_biUnion_le_card_mul (Finset.range s.shardCount)
      (fun j => (keys (UInt32.ofNat j)).toFinset) n ?_
    · rwa [Finset.card_range] at hle
    · intro j _
      rw [← (h (UInt32.ofNat j)).2]
      exact (List.toFinset_card_le _).trans (hlen _)
  refine ⟨(Finset.finite_toSet _).subset hsub, ?_⟩
  refine (Set.ncard_le_ncard hsub (Finset.finite_toSet _)).trans ?_
  rw [Set.ncard_coe_finset]
  exact hcard

end Sharded

/-! ## Construction -/

/-- The per-shard capacity is the ceiling, or the sum wraps and it is negative. -/
theorem perShard_eq {total shardCount : Int} (htotal : 0 ≤ total)
    (hrange : total < 0x8000000000000000) (hpos : 0 < shardCount)
    (hmax : shardCount ≤ maxUint32 + 1) (hnonneg : 0 ≤ perShard total shardCount) :
    perShard total shardCount = ((total.toNat ⌈/⌉ shardCount.toNat : Nat) : Int) := by
  rw [maxUint32] at hmax
  rw [perShard] at hnonneg ⊢
  by_cases hfits : total + shardCount - 1 < 0x8000000000000000
  · have hbmod : (total + shardCount - 1).bmod 0x10000000000000000 = total + shardCount - 1 := by
      rw [Int.bmod_def]
      omega
    rw [hbmod, Int.tdiv_eq_ediv_of_nonneg (by omega), Nat.ceilDiv_eq_add_pred_div, Int.natCast_ediv,
      show ((total.toNat + shardCount.toNat - 1 : Nat) : Int) = total + shardCount - 1 by omega,
      show ((shardCount.toNat : Nat) : Int) = shardCount by omega]
  · have hbmod : (total + shardCount - 1).bmod 0x10000000000000000 =
        -(0x10000000000000000 - (total + shardCount - 1)) := by
      rw [Int.bmod_def]
      omega
    have hquot : 1 ≤ (0x10000000000000000 - (total + shardCount - 1)) / shardCount :=
      Int.le_ediv_of_mul_le hpos (by omega)
    rw [hbmod, Int.neg_tdiv, Int.tdiv_eq_ediv_of_nonneg (by omega)] at hnonneg
    omega

theorem newSharded_capacity {lib : ShardLib} {name : String} {total shardCount : Int}
    (hrange : total < 0x8000000000000000) {s : Sharded (Algorithm V)}
    (h : newSharded lib name total shardCount = .ok s) :
    0 ≤ total ∧
      perShard total shardCount = ((total.toNat ⌈/⌉ shardCount.toNat : Nat) : Int) := by
  obtain ⟨hpos, hmax, -, shard, hshard, -⟩ := newSharded_ok h
  have htotal : 0 ≤ total := by
    unfold newSharded at h
    dsimp only at h
    split at h
    · cases h
    · split at h
      · cases h
      · omega
  have hnonneg : 0 ≤ perShard total shardCount := by
    unfold newEvictionAlgorithm at hshard
    split at hshard
    · cases hshard
    · split at hshard
      · cases hshard
      · omega
  exact ⟨htotal, perShard_eq htotal hrange hpos hmax hnonneg⟩

/-- Rounding up adds less than one key for each shard. -/
theorem mul_ceilDiv_lt (total : Nat) {shardCount : Nat} (hpos : 0 < shardCount) :
    shardCount * (total ⌈/⌉ shardCount) < total + shardCount := by
  have hle := Nat.div_mul_le_self (total + shardCount - 1) shardCount
  rw [Nat.ceilDiv_eq_add_pred_div, Nat.mul_comm]
  omega

/-- In every run of a sharded algorithm each shard is where its own calls bring an instance of the
rounded-up share of the capacity, `Get` included. The shards hold fewer keys than the capacity and
the number of shards add up to, and one shard replies as the algorithm does without shards. -/
theorem sharded_projects {lib : ShardLib} {name : String} {total shardCount : Int}
    (hrange : total < 0x8000000000000000) {s : Sharded (Algorithm V)}
    (hnew : newSharded lib name total shardCount = .ok s) (ops : List (AlgOp V)) :
    (∃ shard : Algorithm V,
      newEvictionAlgorithm name ((total.toNat ⌈/⌉ shardCount.toNat : Nat) : Int) = .ok shard ∧
        (∀ i, (ops.foldl AlgOp.step s).shards i =
          (own i (s.traces ops)).foldl AlgOp.step shard) ∧
        ∀ key, ((ops.foldl AlgOp.step s).get key).2 =
          (((own (s.shardFor key) (s.traces ops)).foldl AlgOp.step shard).get key).2) ∧
      (ops.foldl AlgOp.step s).resident.Finite ∧
      ((ops.foldl AlgOp.step s).resident.ncard : Int) < total + shardCount ∧
      (shardCount = 1 → ∃ a : Algorithm V, newEvictionAlgorithm name total = .ok a ∧
        ∃ s' a' replies, Machines.run AlgOp.respond s ops = some (s', replies) ∧
          Machines.run AlgOp.respond a ops = some (a', replies)) := by
  obtain ⟨htotal, hcap⟩ := newSharded_capacity hrange hnew
  obtain ⟨hpos, hmax, hcount, shard, hshard, hsame⟩ := newSharded_ok hnew
  obtain ⟨hsound, -, hsize⟩ := Algorithm.new_spec hshard
  rw [hcap] at hshard hsize
  have hshards : ∀ i, (ops.foldl AlgOp.step s).shards i =
      (own i (s.traces ops)).foldl AlgOp.step shard := by
    intro i
    rw [Sharded.shards_run, hsame]
  have hget : ∀ key, ((ops.foldl AlgOp.step s).get key).2 =
      (((own (s.shardFor key) (s.traces ops)).foldl AlgOp.step shard).get key).2 := by
    intro key
    rw [Sharded.get_run, hsame]
    rfl
  have heach : ∀ i, ((ops.foldl AlgOp.step s).shards i).Sound ∧
      ((ops.foldl AlgOp.step s).shards i).capacity = total.toNat ⌈/⌉ shardCount.toNat := by
    intro i
    rw [hshards]
    exact ⟨AlgOp.sound_run (A := Algorithm V) hsound _,
      (Algorithm.capacity_run hsound _).trans hsize⟩
  have hcount' : (ops.foldl AlgOp.step s).shardCount = shardCount.toNat :=
    (Sharded.shardCount_run s ops).trans hcount
  obtain ⟨hfinite, hle⟩ := Sharded.ncard_resident_le heach (by omega)
  refine ⟨⟨shard, hshard, hshards, hget⟩, hfinite, ?_, ?_⟩
  · have hpos' : 0 < shardCount.toNat := by omega
    have hlt := mul_ceilDiv_lt total.toNat hpos'
    rw [hcount'] at hle
    omega
  · rintro rfl
    have hone : ((total.toNat ⌈/⌉ (1 : Int).toNat : Nat) : Int) = total := by
      show ((total.toNat ⌈/⌉ 1 : Nat) : Int) = total
      rw [ceilDiv_one]
      omega
    rw [hone] at hshard
    have hsole : s.Sole shard := ⟨hcount, by rw [hsame]⟩
    exact ⟨shard, hshard, hsole.run ops⟩

/-- Clock over two shards: the first `Evict` asks both in vain. -/
def askedInVain : List (AlgOp Str) := [.set [97] none, .evict, .set [97, 97] none, .evict]

theorem sharded_projects_askedInVain :
    ∃ s : Sharded (Algorithm Str), newSharded byLength "clock" 3 2 = .ok s ∧
      own 1 (s.traces askedInVain) = [.set [97] none, .evict, .evict] ∧
      ((askedInVain.foldl AlgOp.step s).resident.ncard : Int) < 3 + 2 :=
  ⟨_, rfl, rfl, (@sharded_projects Str byLength "clock" 3 2 (by omega) _ rfl askedInVain).2.2.1⟩

end HyperCache
