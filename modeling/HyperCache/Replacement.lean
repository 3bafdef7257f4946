/-
What the registered algorithms do to their keys, over all their runs.

`Tracking` is about the states from which an algorithm takes every key and always
finds a victim.  `Policy` is about every state an algorithm reaches, Clock
included: a `Set` keeps all keys exactly when the key is tracked or has room, and
an `Evict` takes a loose key out, leaves the others loose, and finds nothing only if
there is none.  In LRU, LFU and CAWOLFU every tracked key is loose.  In Clock those are
loose that were not used since the hand passed them.
-/
import HyperCache.Lib.Runs
import HyperCache.Clock
import HyperCache.Tracking

namespace HyperCache

open Tables

variable {V A : Type}

class Policy (V : outParam Type) (A : Type) [EvictionAlgorithm V A] [Tracking V A] where
  Sound : A → Prop
  loose : A → Set Key
  HasRoom : Key → A → Prop
  loose_subset : ∀ {a : A}, Sound a → loose a ⊆ Tracking.keys a
  set_spec : ∀ {a : A} (k : Key) (v : Option V), Sound a →
    Sound (EvictionAlgorithm.set k v a) ∧
      Tracking.keys (EvictionAlgorithm.set k v a) ⊆ insert k (Tracking.keys a) ∧
      (Tracking.keys (EvictionAlgorithm.set k v a) = insert k (Tracking.keys a) ↔
        k ∈ Tracking.keys a ∨ HasRoom k a)
  get_spec : ∀ {a : A} (k : Key), Sound a →
    Sound (EvictionAlgorithm.get k a).1 ∧
      Tracking.keys (EvictionAlgorithm.get k a).1 = Tracking.keys a
  delete_spec : ∀ {a : A} (k : Key), Sound a →
    Sound (IAlgorithm.delete k a) ∧ Tracking.keys (IAlgorithm.delete k a) = Tracking.keys a \ {k}
  evict_spec : ∀ {a : A}, Sound a → Sound (EvictionAlgorithm.evict a).1 ∧
    (((EvictionAlgorithm.evict a).2 = none ∧ loose a = ∅ ∧
        Tracking.keys (EvictionAlgorithm.evict a).1 = Tracking.keys a) ∨
      ∃ k ∈ loose a, (EvictionAlgorithm.evict a).2 = some k ∧
        Tracking.keys (EvictionAlgorithm.evict a).1 = Tracking.keys a \ {k})
  loose_evict : ∀ {a : A} {k : Key}, Sound a → (EvictionAlgorithm.evict a).2 = some k →
    loose a \ {k} ⊆ loose (IAlgorithm.delete k (EvictionAlgorithm.evict a).1)

namespace Policy

variable [EvictionAlgorithm V A] [Tracking V A] [Policy V A] {a : A}

theorem of_evict_none (h : Sound a) (hnone : (EvictionAlgorithm.evict a).2 = none) :
    loose a = ∅ ∧ Tracking.keys (EvictionAlgorithm.evict a).1 = Tracking.keys a := by
  rcases (evict_spec h).2 with ⟨-, hkeys⟩ | ⟨k, -, hsome, -⟩
  · exact hkeys
  · rw [hnone] at hsome
    cases hsome

theorem of_evict_some (h : Sound a) {k : Key} (hsome : (EvictionAlgorithm.evict a).2 = some k) :
    k ∈ loose a ∧ Tracking.keys (EvictionAlgorithm.evict a).1 = Tracking.keys a \ {k} := by
  rcases (evict_spec h).2 with ⟨hnone, -⟩ | ⟨k', hk', hsome', hkeys⟩
  · rw [hnone] at hsome
    cases hsome
  · rw [hsome', Option.some.injEq] at hsome
    exact hsome ▸ ⟨hk', hkeys⟩

end Policy

/-! ## Runs -/

inductive AlgOp (V : Type) where
  | set (key : Key) (value : Option V)
  | get (key : Key)
  | delete (key : Key)
  | evict

def AlgOp.step [EvictionAlgorithm V A] (a : A) : AlgOp V → A
  | .set key value => EvictionAlgorithm.set key value a
  | .get key => (EvictionAlgorithm.get key a).1
  | .delete key => IAlgorithm.delete key a
  | .evict => (EvictionAlgorithm.evict a).1

namespace AlgOp

variable [EvictionAlgorithm V A] [Tracking V A] [Policy V A] {a : A}

theorem sound_step (h : Policy.Sound a) (op : AlgOp V) : Policy.Sound (op.step a) := by
  cases op with
  | set key value => exact (Policy.set_spec key value h).1
  | get key => exact (Policy.get_spec key h).1
  | delete key => exact (Policy.delete_spec key h).1
  | evict => exact (Policy.evict_spec h).1

theorem sound_run (h : Policy.Sound a) (ops : List (AlgOp V)) :
    Policy.Sound (ops.foldl step a) := by
  induction ops generalizing a with
  | nil => exact h
  | cons op rest ih => exact ih (sound_step h op)

end AlgOp

/-! ## One instance -/

namespace Algorithm

def Sound : Algorithm V → Prop
  | .clock c => c.Wf
  | _ => True

def loose : Algorithm V → Set Key
  | .clock c => c.loose
  | a => a.tracked

def HasRoom : Algorithm V → Prop
  | .lru a => a.table.keys.length < a.table.capacity
  | .clock c => c.HasRoom
  | .lfu a => a.table.keys.length < a.table.capacity
  | .cawolfu a => a.table.keys.length < a.table.capacity

section

variable {β : Type} {t : Table Key β}

theorem keys_set_eq_iff (v : Victim Key β) (f : β → β) (new : β) (k : Key) :
    {k' | k' ∈ (t.set v f new k).keys} ⊆ insert k {k' | k' ∈ t.keys} ∧
      ({k' | k' ∈ (t.set v f new k).keys} = insert k {k' | k' ∈ t.keys} ↔
        k ∈ t.keys ∨ t.keys.length < t.capacity) :=
  ⟨fun _ => Table.mem_keys_of_mem_set, Set.ext_iff.trans (t.keys_set_iff v f new k)⟩

theorem keys_renew_eq (f : β → β) (k : Key) :
    {k' | k' ∈ (t.renew f k).keys} = {k' | k' ∈ t.keys} :=
  Set.ext fun _ => Table.mem_keys_renew

theorem keys_evict_cases (v : Victim Key β) :
    ((t.evict v).2 = none ∧ {k | k ∈ t.keys} = ∅ ∧
        {k | k ∈ (t.evict v).1.keys} = {k | k ∈ t.keys}) ∨
      ∃ k ∈ t.keys, (t.evict v).2 = some k ∧
        {k' | k' ∈ (t.evict v).1.keys} = {k' | k' ∈ t.keys} \ {k} := by
  rcases t.evict_cases v with ⟨hnone, hnil⟩ | ⟨k, hk, hsome⟩
  · have hempty : {k | k ∈ t.keys} = ∅ := by simp [hnil]
    rw [hnone]
    exact Or.inl ⟨rfl, hempty, rfl⟩
  · rw [hsome]
    exact Or.inr ⟨k, hk, rfl, keys_erase_spec k⟩

theorem keys_evict_erase (v : Victim Key β) {k : Key} (hsome : (t.evict v).2 = some k) :
    {k' | k' ∈ t.keys} \ {k} ⊆ {k' | k' ∈ ((t.evict v).1.erase k).keys} := by
  rcases keys_evict_cases v with ⟨hnone, -⟩ | ⟨k', -, hsome', hkeys⟩
  · rw [hnone] at hsome
    cases hsome
  · rw [hsome', Option.some.injEq] at hsome
    rw [keys_erase_spec, hkeys, hsome, Set.sdiff_sdiff, Set.union_self]

end

/-- A table of capacity zero takes nothing in and gives nothing up, so LFU's own checks of the
capacity do not matter. -/
theorem lfu_set_table (a : LFUAlgorithm V) (key : Key) (value : Option V) :
    (a.set key value).table = a.table.set (.least LFUNode.rank)
      (fun node => { value, count := node.count + 1, last := a.seq + 1 })
      { value, count := 1, last := a.seq + 1 } key := by
  unfold LFUAlgorithm.set
  split
  case isTrue hcap =>
    unfold Table.set
    rw [dif_pos hcap]
  case isFalse => rfl

theorem lfu_evict_table (a : LFUAlgorithm V) :
    a.evict.1.table = (a.table.evict (.least LFUNode.rank)).1 ∧
      a.evict.2 = (a.table.evict (.least LFUNode.rank)).2 := by
  unfold LFUAlgorithm.evict
  split
  case isTrue hcap =>
    rw [Table.evict, if_pos hcap]
    exact ⟨rfl, rfl⟩
  case isFalse => exact ⟨rfl, rfl⟩

theorem lfu_get_cases (a : LFUAlgorithm V) (key : Key) :
    (a.table.entries.lookup key = none ∧ a.get key = (a, none)) ∨
      ∃ node, a.table.entries.lookup key = some node ∧ a.get key =
        (⟨a.table.renew (fun node => { node with count := node.count + 1, last := a.seq + 1 }) key,
          a.seq + 1⟩, some node.value) := by
  unfold LFUAlgorithm.get Table.get
  cases a.table.entries.lookup key with
  | none => exact Or.inl ⟨rfl, rfl⟩
  | some node => exact Or.inr ⟨node, rfl, rfl⟩

instance : Policy V (Algorithm V) where
  Sound := Sound
  loose := loose
  HasRoom := fun _ => HasRoom
  loose_subset := by
    intro a h
    cases a with
    | clock c => exact ClockAlgorithm.loose_subset h
    | _ => exact subset_rfl
  set_spec := by
    intro a k value h
    cases a with
    | lru a => exact ⟨h, keys_set_eq_iff .last _ _ k⟩
    | clock c =>
        obtain ⟨hwf, hsub, hiff⟩ := ClockAlgorithm.set_spec h k value
        exact ⟨hwf, hsub, Set.ext_iff.trans hiff⟩
    | lfu a =>
        refine ⟨h, ?_⟩
        show tracked (.lfu (a.set k value)) ⊆ _ ∧ (tracked (.lfu (a.set k value)) = _ ↔ _)
        rw [tracked, lfu_set_table]
        exact keys_set_eq_iff (.least LFUNode.rank) _ _ k
    | cawolfu a => exact ⟨h, keys_set_eq_iff .last _ _ k⟩
  get_spec := by
    intro a k h
    cases a with
    | lru a => exact ⟨h, keys_renew_eq id k⟩
    | clock c =>
        obtain ⟨hwf, hkeys⟩ := ClockAlgorithm.get_spec h k
        exact ⟨hwf, congrArg (fun keys => {k | k ∈ keys}) hkeys⟩
    | lfu a =>
        refine ⟨h, ?_⟩
        show {k' | k' ∈ (a.get k).1.table.keys} = _
        rcases lfu_get_cases a k with ⟨-, hget⟩ | ⟨node, -, hget⟩
        · rw [hget]
          rfl
        · rw [hget]
          exact keys_renew_eq _ k
    | cawolfu a => exact ⟨h, keys_renew_eq _ k⟩
  delete_spec := by
    intro a k h
    cases a with
    | lru a => exact ⟨h, keys_erase_spec k⟩
    | clock c =>
        obtain ⟨hwf, hkeys⟩ := ClockAlgorithm.delete_spec h k
        exact ⟨hwf, Set.ext fun k' => (hkeys k').trans and_comm⟩
    | lfu a => exact ⟨h, keys_erase_spec k⟩
    | cawolfu a => exact ⟨h, keys_erase_spec k⟩
  evict_spec := by
    intro a h
    cases a with
    | lru a => exact ⟨h, keys_evict_cases .last⟩
    | clock c =>
        obtain ⟨hwf, hcases⟩ := ClockAlgorithm.evict_spec h
        refine ⟨hwf, hcases.imp ?_ ?_⟩
        · rintro ⟨hnone, hloose, hkeys⟩
          exact ⟨hnone, hloose, congrArg (fun keys => {k | k ∈ keys}) hkeys⟩
        · rintro ⟨k, hk, hsome, hkeys⟩
          refine ⟨k, hk, hsome, Set.ext fun k' => ?_⟩
          show k' ∈ c.evict.1.keys ↔ _
          rw [hkeys]
          exact AList.mem_erase.trans and_comm
    | lfu a =>
        obtain ⟨htable, hkey⟩ := lfu_evict_table a
        refine ⟨h, ?_⟩
        show (a.evict.2 = none ∧ _ ∧ tracked (.lfu a.evict.1) = _) ∨
          ∃ k ∈ _, a.evict.2 = some k ∧ tracked (.lfu a.evict.1) = _
        rw [tracked, htable, hkey]
        exact keys_evict_cases (.least LFUNode.rank)
    | cawolfu a => exact ⟨h, keys_evict_cases .last⟩
  loose_evict := by
    intro a k h hsome
    cases a with
    | clock c => exact ClockAlgorithm.loose_evict_delete h hsome
    | lru a => exact keys_evict_erase .last hsome
    | lfu a =>
        obtain ⟨htable, hkey⟩ := lfu_evict_table a
        show {k' | k' ∈ a.table.keys} \ {k} ⊆ {k' | k' ∈ (a.evict.1.table.erase k).keys}
        rw [htable]
        exact keys_evict_erase (.least LFUNode.rank) (hkey ▸ hsome)
    | cawolfu a => exact keys_evict_erase .last hsome

def capacity : Algorithm V → Nat
  | .lru a => a.table.capacity
  | .clock c => c.capacity
  | .lfu a => a.table.capacity
  | .cawolfu a => a.table.capacity

theorem new_spec {name : String} {capacity : Int} {a : Algorithm V}
    (h : newEvictionAlgorithm name capacity = .ok a) :
    a.Sound ∧ a.tracked = ∅ ∧ a.capacity = capacity.toNat := by
  have hempty : ∀ p : Key → Prop, (∀ k, ¬p k) → {k | p k} = ∅ :=
    fun p hp => Set.eq_empty_of_forall_notMem hp
  unfold newEvictionAlgorithm at h
  split at h
  · cases h
  split at h
  · cases h
  unfold create at h
  split at h
  · cases h
  case h_2 hcreate =>
    cases h
    split at hcreate <;> cases hcreate
    case h_2 => exact ⟨ClockAlgorithm.wf_new _, hempty _ fun _ => List.not_mem_nil, rfl⟩
    all_goals exact ⟨trivial, hempty _ fun _ => List.not_mem_nil, rfl⟩

theorem capacity_step {a : Algorithm V} (h : a.Sound) (op : AlgOp V) :
    (op.step a).capacity = a.capacity := by
  cases a with
  | lru a =>
      cases op with
      | set key value => exact Table.capacity_set _ _ _ _ _
      | evict => exact Table.capacity_evict _ _
      | _ => rfl
  | clock c =>
      cases op with
      | set key value => exact ClockAlgorithm.capacity_set h key value
      | get key => exact c.capacity_get key
      | delete key => exact c.capacity_delete key
      | evict => exact c.capacity_evict
  | lfu a =>
      cases op with
      | set key value =>
          show (a.set key value).table.capacity = _
          rw [lfu_set_table]
          exact Table.capacity_set _ _ _ _ _
      | get key =>
          show (a.get key).1.table.capacity = _
          rcases lfu_get_cases a key with ⟨-, hget⟩ | ⟨node, -, hget⟩
          · rw [hget]
            rfl
          · rw [hget]
            rfl
      | delete key => rfl
      | evict =>
          show a.evict.1.table.capacity = _
          rw [(lfu_evict_table a).1]
          exact Table.capacity_evict _ _
  | cawolfu a =>
      cases op with
      | set key value => exact Table.capacity_set _ _ _ _ _
      | evict => exact Table.capacity_evict _ _
      | _ => rfl

theorem capacity_run {a : Algorithm V} (h : a.Sound) (ops : List (AlgOp V)) :
    (ops.foldl AlgOp.step a).capacity = a.capacity := by
  induction ops generalizing a with
  | nil => rfl
  | cons op rest ih =>
      have hnext : (op.step a).Sound := AlgOp.sound_step (A := Algorithm V) h op
      exact (ih hnext).trans (capacity_step h op)

/-- Clock takes a key that it tracks, has a free slot for, or has a loose key to give up for. -/
def Admits (key : Key) : Algorithm V → Prop
  | .clock c => key ∈ c.keys ∨ c.HasRoom ∨ c.loose.Nonempty
  | _ => True

theorem get_set_iff {a : Algorithm V} (h : a.Sound) (hcap : a.capacity ≠ 0) (key : Key)
    (value : Option V) : ((a.set key value).get key).2 = some value ↔ a.Admits key := by
  cases a with
  | lru a =>
      refine ⟨fun _ => trivial, fun _ => ?_⟩
      show (a.table.set .last (fun _ => value) value key).entries.lookup key = _
      rw [Table.lookup_set_self _ _ _ _ hcap]
      cases a.table.entries.lookup key <;> rfl
  | clock c => exact ClockAlgorithm.get_set_iff h hcap key value
  | lfu a =>
      refine ⟨fun _ => trivial, fun _ => ?_⟩
      show ((a.set key value).get key).2 = _
      rcases lfu_get_cases (a.set key value) key with ⟨hlookup, hget⟩ | ⟨node, hlookup, hget⟩
      · rw [lfu_set_table, Table.lookup_set_self _ _ _ _ hcap] at hlookup
        cases hlookup
      · rw [lfu_set_table, Table.lookup_set_self _ _ _ _ hcap, Option.some.injEq] at hlookup
        rw [hget, ← hlookup]
        cases a.table.entries.lookup key <;> rfl
  | cawolfu a =>
      refine ⟨fun _ => trivial, fun _ => ?_⟩
      show Option.map CAWOLFUNode.value ((a.set key value).table.entries.lookup key) = _
      rw [CAWOLFU.set, Table.lookup_set_self _ _ _ _ hcap]
      cases a.table.entries.lookup key <;> rfl

/-- After every run, a `Set` is seen by the `Get` that follows it exactly when the algorithm
admits the key, which all algorithms but Clock always do. -/
theorem get_set_run_iff {name : String} {capacity : Int} {a : Algorithm V}
    (hnew : newEvictionAlgorithm name capacity = .ok a) (hcap : 0 < capacity)
    (ops : List (AlgOp V)) (key : Key) (value : Option V) :
    (((ops.foldl AlgOp.step a).set key value).get key).2 = some value ↔
      (ops.foldl AlgOp.step a).Admits key := by
  obtain ⟨hsound, -, hcapacity⟩ := new_spec hnew
  refine get_set_iff (AlgOp.sound_run (A := Algorithm V) hsound ops) ?_ key value
  rw [capacity_run hsound, hcapacity]
  omega

/-- LFU of capacity one gives its only key up for the new one. -/
theorem get_set_run_lfu_full :
    ∃ a : Algorithm Str, newEvictionAlgorithm "lfu" 1 = .ok a ∧
      ((([AlgOp.set [97] (some [1])].foldl AlgOp.step a).set [98] (some [2])).get [98]).2 =
        some (some [2]) :=
  ⟨_, rfl, (@get_set_run_iff Str "lfu" 1 _ rfl (by omega) _ _ _).mpr trivial⟩

/-- Clock of capacity one does not take a second key: the first has just been used. -/
theorem get_set_run_clock_full :
    ∃ a : Algorithm Str, newEvictionAlgorithm "clock" 1 = .ok a ∧
      ((([AlgOp.set [97] (some [1])].foldl AlgOp.step a).set [98] (some [2])).get [98]).2 =
        none :=
  ⟨_, rfl, rfl⟩

end Algorithm

/-! ## Shards -/

namespace Sharded

variable [EvictionAlgorithm V A] [Tracking V A] [Policy V A] {s : Sharded A}

/-- The loose keys of the shards, which `Evict` reaches if it can count the shards. -/
def loose (s : Sharded A) : Set Key :=
  {k | s.shardCount ≤ maxUint32 ∧ k ∈ Policy.loose (s.shards (s.shardFor k))}

def HasRoom (k : Key) (s : Sharded A) : Prop := Policy.HasRoom k (s.shards (s.shardFor k))

omit [Policy V A] in
/-- A shard that takes a key beside those it has takes it beside all keys. -/
theorem tracked_set_eq_iff {P : A → Prop} (h : s.Each P) (k : Key) (v : Option V)
    (hsub : Tracking.keys (EvictionAlgorithm.set k v (s.shards (s.shardFor k))) ⊆
      insert k (Tracking.keys (s.shards (s.shardFor k)))) :
    (s.set k v).tracked = insert k s.tracked ↔
      Tracking.keys (EvictionAlgorithm.set k v (s.shards (s.shardFor k))) =
        insert k (Tracking.keys (s.shards (s.shardFor k))) := by
  constructor
  · intro heq
    refine hsub.antisymm (fun k' hk' => ?_)
    have hfor : s.shardFor k' = s.shardFor k := by
      rcases hk' with rfl | hk'
      · rfl
      · exact h.own _ k' hk'
    have hmem : k' ∈ (s.set k v).tracked := by
      rw [heq]
      refine hk'.imp_right (fun hk' => ?_)
      rwa [mem_tracked, hfor]
    rwa [set, mem_tracked_setShard, if_pos hfor] at hmem
  · intro heq
    ext k'
    rw [set, mem_tracked_setShard, heq]
    split
    case isTrue hfor =>
      rw [Set.mem_insert_iff, Set.mem_insert_iff, mem_tracked, hfor]
    case isFalse hfor =>
      refine ⟨Or.inr, ?_⟩
      rintro (rfl | hk')
      · exact absurd rfl hfor
      · exact hk'

theorem get_each (h : s.Each Policy.Sound) (k : Key) :
    (s.get k).1.Each Policy.Sound ∧ (s.get k).1.tracked = s.tracked := by
  obtain ⟨hsound, hkeys⟩ := Policy.get_spec k (h.shards (s.shardFor k))
  have hget : (s.get k).1 =
      s.setShard (s.shardFor k) (EvictionAlgorithm.get k (s.shards (s.shardFor k))).1 := rfl
  rw [hget]
  refine ⟨h.setShard hsound (fun k' hk' => ?_), ?_⟩
  · rw [hkeys] at hk'
    exact h.own _ k' hk'
  · ext k'
    rw [mem_tracked_setShard, hkeys]
    split
    case isTrue hfor => rw [mem_tracked, hfor]
    case isFalse => exact Iff.rfl

theorem loose_subset_tracked (h : s.Each Policy.Sound) : s.loose ⊆ s.tracked := by
  intro k hk
  rw [mem_tracked]
  exact Policy.loose_subset (h.shards (s.shardFor k)) hk.2

theorem evict_each (h : s.Each Policy.Sound) :
    s.evict.1.Each Policy.Sound ∧
      ((s.evict.2 = none ∧ s.loose = ∅ ∧ s.evict.1.tracked = s.tracked) ∨
        ∃ k ∈ s.loose, s.evict.2 = some k ∧ s.evict.1.tracked = s.tracked \ {k}) := by
  by_cases hfits : s.shardCount ≤ maxUint32
  · obtain ⟨heach, hcases⟩ := h.evict hfits (fun ha => (Policy.evict_spec ha).1)
      (fun ha hnone => (Policy.of_evict_none ha hnone).2)
      (fun ha hsome => (Policy.of_evict_some ha hsome).imp_left (Policy.loose_subset ha ·))
    refine ⟨heach, ?_⟩
    rcases hcases with ⟨hnone, hsame, hall⟩ | ⟨k, -, hsome, hvictim, hkeys⟩
    · refine Or.inl ⟨hnone, Set.eq_empty_of_forall_notMem (fun k hk => ?_), hsame⟩
      have hloose := hk.2
      rw [(Policy.of_evict_none (h.shards _) (hall k)).1] at hloose
      exact hloose
    · exact Or.inr ⟨k, ⟨hfits, (Policy.of_evict_some (h.shards _) hvictim).1⟩, hsome, hkeys⟩
  · rw [evict_eq, if_pos (Nat.lt_of_not_le hfits)]
    refine ⟨h, Or.inl ⟨rfl, Set.eq_empty_of_forall_notMem (fun k hk => hfits hk.1), rfl⟩⟩

theorem loose_evict_each (h : s.Each Policy.Sound) {k : Key} (hsome : s.evict.2 = some k) :
    s.loose \ {k} ⊆ (s.evict.1.delete k).loose := by
  rintro k' ⟨⟨hfits, hk'⟩, hne⟩
  obtain ⟨hcount, hfor, ⟨hnone, -⟩ | ⟨x, k₁, hsome₁, hvictim, hafter, hshards⟩⟩ := evict_cases hfits
  · rw [hnone] at hsome
    cases hsome
  obtain rfl : k₁ = k := Option.some.inj (hsome₁.symm.trans hsome)
  have hloose := (Policy.of_evict_some (h.shards x) hvictim).1
  have hx : s.shardFor k₁ = x := h.own x k₁ (Policy.loose_subset (h.shards x) hloose)
  refine ⟨hcount.trans_le hfits, ?_⟩
  rw [delete, shardFor_setShard, shards_setShard, hfor, hfor, hx]
  split
  case isTrue hsame =>
    rw [hsame] at hk'
    rw [hafter]
    exact Policy.loose_evict (h.shards x) hvictim ⟨hk', hne⟩
  case isFalse hother =>
    -- A shard with a loose key that was asked would have had the victim.
    rcases hshards _ hother with hkept | ⟨hnone, -⟩
    · rw [hkept]
      exact hk'
    · rw [(Policy.of_evict_none (h.shards _) hnone).1] at hk'
      cases hk'

instance : Policy V (Sharded A) where
  Sound := Each Policy.Sound
  loose := loose
  HasRoom := HasRoom
  loose_subset := loose_subset_tracked
  set_spec := by
    intro s k v h
    obtain ⟨hsound, hsub, hiff⟩ := Policy.set_spec k v (h.shards (s.shardFor k))
    obtain ⟨heach, htracked⟩ := h.set k v hsound hsub
    exact ⟨heach, htracked, (tracked_set_eq_iff h k v hsub).trans hiff⟩
  get_spec := fun k h => get_each h k
  delete_spec := by
    intro s k h
    obtain ⟨hsound, hkeys⟩ := Policy.delete_spec k (h.shards (s.shardFor k))
    exact h.delete k hsound hkeys
  evict_spec := evict_each
  loose_evict := fun h hsome => loose_evict_each h hsome

/-- The keys in the shards. -/
def resident (s : Sharded A) : Set Key := {k | ∃ i ≤ s.mask, k ∈ Tracking.keys (s.shards i)}

omit [Policy V A] in
theorem resident_eq_tracked {P : A → Prop} (h : s.Each P) : s.resident = s.tracked := by
  ext k
  rw [mem_tracked]
  constructor
  · rintro ⟨i, -, hk⟩
    rwa [h.own i k hk]
  · intro hk
    refine ⟨s.shardFor k, ?_, hk⟩
    rw [UInt32.le_iff_toNat_le, shardFor, UInt32.toNat_and]
    exact Nat.and_le_right

/-- `Evict` finds nothing only if no shard holds a key, and otherwise takes out a resident key. -/
def EvictsWhileHolding (s : Sharded A) : Prop :=
  (s.evict.2 = none → s.resident = ∅) ∧
    ∀ k, s.evict.2 = some k → k ∈ s.resident ∧ s.evict.1.resident = s.resident \ {k}

theorem evictsWhileHolding_iff (h : s.Each Policy.Sound) :
    s.EvictsWhileHolding ↔ s.resident = ∅ ∨ s.loose.Nonempty := by
  obtain ⟨heach, hcases⟩ := evict_each h
  rw [EvictsWhileHolding, resident_eq_tracked h, resident_eq_tracked heach]
  rcases hcases with ⟨hnone, hloose, -⟩ | ⟨k, hk, hsome, hkeys⟩
  · rw [hnone, hloose]
    constructor
    · exact fun hevict => Or.inl (hevict.1 rfl)
    · rintro (hempty | hne)
      · refine ⟨fun _ => hempty, fun k hk => ?_⟩
        cases hk
      · exact absurd hne Set.not_nonempty_empty
  · refine ⟨fun _ => Or.inr ⟨k, hk⟩, fun _ => ⟨fun hnone => ?_, fun k' hk' => ?_⟩⟩
    · rw [hnone] at hsome
      cases hsome
    · rw [hsome, Option.some.injEq] at hk'
      exact hk' ▸ ⟨loose_subset_tracked h hk, hkeys⟩

omit [Tracking V A] [Policy V A] in
theorem shardCount_run (s : Sharded A) (ops : List (AlgOp V)) :
    (ops.foldl AlgOp.step s).shardCount = s.shardCount := by
  induction ops generalizing s with
  | nil => rfl
  | cons op rest ih =>
      refine (ih (op.step s)).trans ?_
      cases op with
      | evict =>
          show s.evict.1.shardCount = _
          by_cases hfits : s.shardCount ≤ maxUint32
          · exact (evict_cases hfits).1
          · rw [evict_eq, if_pos (Nat.lt_of_not_le hfits)]
      | _ => rfl

end Sharded

theorem sound_newSharded {lib : ShardLib} {name : String} {total shardCount : Int}
    {s : Sharded (Algorithm V)} (h : newSharded lib name total shardCount = .ok s) :
    s.Each Policy.Sound ∧ s.tracked = ∅ := by
  obtain ⟨-, -, -, shard, hshard, hsame⟩ := newSharded_ok h
  obtain ⟨hsound, hempty, -⟩ := Algorithm.new_spec hshard
  have hnone : ∀ i, Tracking.keys (s.shards i) = ∅ := by
    intro i
    rw [hsame]
    exact hempty
  refine ⟨⟨fun i => ?_, fun i k hk => ?_⟩, Set.eq_empty_of_forall_notMem (fun k hk => ?_)⟩
  · rw [hsame]
    exact hsound
  · rw [hnone] at hk
    cases hk
  · rw [Sharded.mem_tracked, hnone] at hk
    exact hk

/-- After every run of a sharded algorithm, `Evict` does what it documents exactly when no shard
holds a key, or some shard holds a loose one and there are fewer than `2 ^ 32` shards. -/
theorem evict_run_iff {lib : ShardLib} {name : String} {total shardCount : Int}
    {s : Sharded (Algorithm V)} (hnew : newSharded lib name total shardCount = .ok s)
    (ops : List (AlgOp V)) :
    (ops.foldl AlgOp.step s).EvictsWhileHolding ↔
      (ops.foldl AlgOp.step s).resident = ∅ ∨
        shardCount ≠ 0x100000000 ∧
          ∃ k, k ∈ ((ops.foldl AlgOp.step s).shards
            ((ops.foldl AlgOp.step s).shardFor k)).loose := by
  obtain ⟨hpos, hmax, hcount, -⟩ := newSharded_ok hnew
  have hsound : (ops.foldl AlgOp.step s).Each Policy.Sound :=
    AlgOp.sound_run (A := Sharded (Algorithm V)) (sound_newSharded hnew).1 ops
  have hfits : (ops.foldl AlgOp.step s).shardCount ≤ maxUint32 ↔ shardCount ≠ 0x100000000 := by
    rw [Sharded.shardCount_run, hcount, maxUint32]
    rw [maxUint32] at hmax
    omega
  rw [Sharded.evictsWhileHolding_iff hsound, ← hfits]
  refine or_congr Iff.rfl ⟨?_, ?_⟩
  · rintro ⟨k, hk⟩
    exact ⟨hk.1, k, hk.2⟩
  · rintro ⟨hle, k, hk⟩
    exact ⟨k, hle, hk⟩

/-- Of two shards the second has the keys of odd length. -/
def byLength : ShardLib := .checked fun key => key.length.toUInt64

/-- Keys in both shards, one of them already evicted. -/
def bothShards : List (AlgOp Str) :=
  [.set [97] none, .set [98, 98] none, .set [99] none, .evict]

theorem evict_run_lru_two_shards :
    ∃ s : Sharded (Algorithm Str), newSharded byLength "lru" 4 2 = .ok s ∧
      (bothShards.foldl AlgOp.step s).shardFor [98, 98] = 0 ∧
      (bothShards.foldl AlgOp.step s).shardFor [99] = 1 ∧
      (bothShards.foldl AlgOp.step s).EvictsWhileHolding := by
  refine ⟨_, rfl, rfl, rfl, (@evict_run_iff Str byLength "lru" 4 2 _ rfl _).mpr (Or.inr ?_)⟩
  exact ⟨by decide, [99], List.mem_cons_self⟩

/-- Clock over one shard holds a key that was just set and does not evict it. -/
theorem evict_run_clock_one_shard :
    ∃ s : Sharded (Algorithm Str), newSharded (.checked fun _ => 0) "clock" 1 1 = .ok s ∧
      ([AlgOp.set [97] none].foldl AlgOp.step s).evict.2 = none ∧
      [97] ∈ ([AlgOp.set [97] none].foldl AlgOp.step s).resident :=
  ⟨_, rfl, rfl, 0, by decide, List.mem_singleton_self _⟩

/-! ## The algorithm of a cache -/

instance : Policy V (Evictor V) where
  Sound
    | .single a => Policy.Sound a
    | .sharded s => Policy.Sound s
  loose
    | .single a => Policy.loose a
    | .sharded s => Policy.loose s
  HasRoom
    | k, .single a => Policy.HasRoom k a
    | k, .sharded s => Policy.HasRoom k s
  loose_subset := by
    intro a h
    cases a with
    | single a => exact Policy.loose_subset h
    | sharded s => exact Policy.loose_subset h
  set_spec := by
    intro a k value h
    cases a with
    | single a => exact Policy.set_spec k value h
    | sharded s => exact Policy.set_spec k value h
  get_spec := by
    intro a k h
    cases a with
    | single a => exact Policy.get_spec k h
    | sharded s => exact Policy.get_spec k h
  delete_spec := by
    intro a k h
    cases a with
    | single a => exact Policy.delete_spec k h
    | sharded s => exact Policy.delete_spec k h
  evict_spec := by
    intro a h
    cases a with
    | single a => exact Policy.evict_spec h
    | sharded s => exact Policy.evict_spec h
  loose_evict := by
    intro a k h hsome
    cases a with
    | single a => exact Policy.loose_evict h hsome
    | sharded s => exact Policy.loose_evict h hsome

end HyperCache
