/-
How long a deleted key stays deleted.

The sweeper drops the tombstones that have reached their age.  Until then a tombstone keeps out
every copy no newer than itself that a Merkle pull brings.  Afterwards nothing tells a copy that
has missed the delete from a new one, and the next pull of it brings the key back.
-/
import HyperCache.Tombstone

namespace HyperCache

open Pointwise World

variable {V : Type}

/-- The tombstone has reached its age. -/
def Tombstone.due (ttl : Duration) (now : Time) (tomb : Tombstone) : Bool :=
  decide (Time.sub now tomb.placedAt ≥ ttl)

/-- `compactTombstones`, with the number of tombstones it drops. -/
def DistShard.compactTombstones (ttl : Duration) (now : Time) (sh : DistShard V) :
    DistShard V × Nat :=
  if ttl ≤ 0 then (sh, 0)
  else
    let swept := sh.tombs.entries.foldl
      (fun acc e => if e.2.due ttl now then (acc.1.erase e.1, acc.2 + 1) else acc) (sh.tombs, 0)
    ({ sh with tombs := swept.1 }, swept.2)

namespace DistShard

theorem lookup_foldl_sweep (ttl : Duration) (now : Time) (key : Key)
    (entries : List (Sigma fun _ : Key => Tombstone))
    (acc : AList (fun _ : Key => Tombstone) × Nat) :
    (entries.foldl
      (fun acc e => if e.2.due ttl now then (acc.1.erase e.1, acc.2 + 1) else acc)
      acc).1.lookup key =
      if ∃ e ∈ entries, e.1 = key ∧ e.2.due ttl now = true then none else acc.1.lookup key := by
  induction entries generalizing acc with
  | nil => simp
  | cons e entries ih =>
    rw [List.foldl_cons, ih]
    by_cases hdue : e.2.due ttl now = true
    · rw [if_pos hdue]
      dsimp only
      by_cases hkey : e.1 = key
      · subst hkey
        simp [hdue]
      · have hiff : (∃ e' ∈ e :: entries, e'.1 = key ∧ e'.2.due ttl now = true) ↔
            ∃ e' ∈ entries, e'.1 = key ∧ e'.2.due ttl now = true := by
          simp [hkey]
        simp only [hiff, AList.lookup_erase_ne (Ne.symm hkey)]
    · rw [if_neg hdue]
      have hiff : (∃ e' ∈ e :: entries, e'.1 = key ∧ e'.2.due ttl now = true) ↔
          ∃ e' ∈ entries, e'.1 = key ∧ e'.2.due ttl now = true := by
        simp [hdue]
      simp only [hiff]

/-- A sweep drops the tombstones that are due, and nothing else. -/
theorem lookup_compactTombstones {ttl : Duration} (httl : 0 < ttl) (now : Time) (key : Key)
    (sh : DistShard V) :
    (sh.compactTombstones ttl now).1.tombs.lookup key =
      (sh.tombs.lookup key).filter (fun tomb => !tomb.due ttl now) := by
  rw [compactTombstones, if_neg (Int.not_le.mpr httl)]
  dsimp only
  rw [lookup_foldl_sweep]
  cases hlook : sh.tombs.lookup key with
  | none => simp
  | some tomb =>
    have hmem : ∀ e ∈ sh.tombs.entries, e.1 = key → e.2 = tomb := by
      rintro ⟨k, t⟩ he rfl
      have := AList.mem_lookup_iff.mpr he
      rw [hlook] at this
      exact (Option.some.inj this).symm
    have hin : (⟨key, tomb⟩ : Sigma fun _ : Key => Tombstone) ∈ sh.tombs.entries :=
      AList.mem_lookup_iff.mp hlook
    have hiff : (∃ e ∈ sh.tombs.entries, e.1 = key ∧ e.2.due ttl now = true) ↔
        tomb.due ttl now = true := by
      constructor
      · rintro ⟨e, he, hkey, hdue⟩
        rwa [hmem e he hkey] at hdue
      · exact fun hdue => ⟨_, hin, rfl, hdue⟩
    simp only [hiff, Option.filter_some]
    cases tomb.due ttl now <;> rfl

theorem items_compactTombstones (ttl : Duration) (now : Time) (sh : DistShard V) :
    (sh.compactTombstones ttl now).1.items = sh.items := by
  rw [compactTombstones]
  split <;> rfl

end DistShard

/-! ## Runs of arrivals and sweeps -/

/-- A copy arrives at a node, or the sweeper of a node runs. -/
inductive StoreEvent (V : Type) where
  | arrive (e : Arrival V)
  | sweep (m : NodeID) (now : Time)

namespace StoreEvent

variable (C : Cluster) (ttl : NodeID → Duration)

def apply (sh : NodeID → DistShard V) : StoreEvent V → NodeID → DistShard V
  | .arrive e => e.deliver C sh
  | .sweep m now => modify sh m (fun s => (s.compactTombstones (ttl m) now).1)

/-- No copy of the key comes to the node by a way that does not ask for tombstones, and once the
tombstone has been swept none is pulled either. -/
def Quiet (n : NodeID) (key : Key) (tomb : Tombstone) (swept : Bool) : List (StoreEvent V) → Prop
  | [] => True
  | .arrive e :: rest =>
      (e.site = n → e.item.key = key →
        e.plants C = false ∧ (swept = true → ∀ now it, e ≠ .adopt n now it)) ∧
      Quiet n key tomb swept rest
  | .sweep m now :: rest =>
      Quiet n key tomb
        (swept || (decide (m = n) && decide (0 < ttl n) && tomb.due (ttl n) now)) rest

/-- The key is gone, and its tombstone is there until it is swept. -/
structure Gone (key : Key) (tomb : Tombstone) (swept : Bool) (sh : DistShard V) : Prop where
  gone : sh.items.get key = none
  tombs : sh.tombs.lookup key = if swept then none else some tomb

variable {C ttl} {n : NodeID} {key : Key} {tomb : Tombstone} {swept : Bool}
  {sh : NodeID → DistShard V}

theorem Gone.buried {s : DistShard V} (h : Gone key tomb false s) : s.Buried key tomb :=
  ⟨h.gone, h.tombs⟩

/-- Where the tombstone is gone too, a pull stores the copy. -/
theorem Gone.adopt {s : DistShard V} {now : Time} {it : Item V} (h : Gone it.key tomb true s) :
    ((Arrival.adopt n now it).act C s).items.get it.key = some it := by
  have htombs : s.tombs.lookup it.key = none := h.tombs
  rw [Arrival.act, DistShard.adopt, htombs]
  dsimp only
  rw [DistShard.pull, h.gone]
  dsimp only
  rw [DistShard.applySet_items]
  exact ConcurrentMap.get_set_self _ it

/-- One arrival that the condition lets through changes nothing for the key. -/
theorem Gone.arrive (h : Gone key tomb swept (sh n)) {e : Arrival V}
    (hold : e.site = n → e.item.key = key → e.item.version ≤ tomb.version)
    (hquiet : e.site = n → e.item.key = key →
      e.plants C = false ∧ (swept = true → ∀ now it, e ≠ .adopt n now it)) :
    Gone key tomb swept (e.deliver C sh n) := by
  rw [Arrival.deliver, modify_apply]
  split
  next hn =>
    by_cases hkey : e.item.key = key
    · obtain ⟨hplants, hpull⟩ := hquiet hn.symm hkey
      subst hkey
      cases swept with
      | false =>
        rw [Arrival.act_of_not_plants C h.buried (hold hn.symm rfl) hplants]
        exact h
      | true =>
        have hsame : e.act C (sh n) = sh n := by
          cases e with
          | forwardedSet dst item =>
            rw [Arrival.plants] at hplants
            rw [Arrival.act, DistShard.applyForwardedSet, hplants]
            rfl
          | repairLocal m chosen => cases hplants
          | repairMissing m it =>
            rw [Arrival.plants] at hplants
            rw [Arrival.act, DistShard.repairMissing, hplants]
            rfl
          | adopt m now it =>
            obtain rfl : n = m := hn
            exact absurd rfl (hpull rfl now it)
        rw [hsame]
        exact h
    · obtain ⟨hitems, htombs⟩ := Arrival.act_other C (Ne.symm hkey) (sh n)
      exact ⟨hitems.trans h.gone, htombs.trans h.tombs⟩
  · exact h

theorem Gone.sweep (h : Gone key tomb swept (sh n)) (m : NodeID) (now : Time) :
    Gone key tomb (swept || (decide (m = n) && decide (0 < ttl n) && tomb.due (ttl n) now))
      (modify sh m (fun s => (s.compactTombstones (ttl m) now).1) n) := by
  rw [modify_apply]
  split
  next hn =>
    subst hn
    refine ⟨by rw [DistShard.items_compactTombstones]; exact h.gone, ?_⟩
    by_cases httl : 0 < ttl n
    · rw [DistShard.lookup_compactTombstones httl, h.tombs]
      cases swept <;> cases hdue : tomb.due (ttl n) now <;> simp [httl, hdue]
    · rw [DistShard.compactTombstones, if_pos (Int.not_lt.mp httl), h.tombs]
      simp [httl]
  next hn =>
    have hne : decide (m = n) = false := decide_eq_false fun heq => hn heq.symm
    rw [hne]
    simpa using h

/-- By induction over the run, with the state of the tombstone. -/
theorem never_stored_iff (hgone : Gone key tomb swept (sh n)) (events : List (StoreEvent V))
    (hold : ∀ e, .arrive e ∈ events → e.site = n → e.item.key = key →
      e.item.version ≤ tomb.version) :
    (∀ k, ((events.take k).foldl (apply C ttl) sh n).items.get key = none) ↔
      Quiet C ttl n key tomb swept events := by
  induction events generalizing sh swept with
  | nil => simp [Quiet, hgone.gone]
  | cons ev events ih =>
    have hfirst : (∀ k, (((ev :: events).take k).foldl (apply C ttl) sh n).items.get key = none) ↔
        ∀ k, ((events.take k).foldl (apply C ttl) (apply C ttl sh ev) n).items.get key = none := by
      constructor
      · exact fun h k => h (k + 1)
      · intro h k
        cases k with
        | zero => exact hgone.gone
        | succ k => exact h k
    rw [hfirst]
    have hrest : ∀ e, .arrive e ∈ events → e.site = n → e.item.key = key →
        e.item.version ≤ tomb.version := fun e he => hold e (List.mem_cons_of_mem _ he)
    cases ev with
    | sweep m now => exact ih (hgone.sweep m now) hrest
    | arrive e =>
      rw [Quiet]
      by_cases hquiet : e.site = n → e.item.key = key →
          e.plants C = false ∧ (swept = true → ∀ now it, e ≠ .adopt n now it)
      · rw [and_iff_right hquiet]
        exact ih (hgone.arrive (hold e List.mem_cons_self) hquiet) hrest
      · -- the copy is stored, so the key is readable at once
        refine iff_of_false (fun hnever => ?_) (fun hall => hquiet hall.1)
        have hnow : (apply C ttl sh (.arrive e) n).items.get key = none := hnever 0
        refine hquiet fun hsite hkey => ⟨?_, fun hswept now it heq => ?_⟩
        · by_contra hplants
          rw [Bool.not_eq_false] at hplants
          subst hsite hkey
          rw [apply, Arrival.deliver, modify_self,
            Arrival.act_of_plants C hgone.gone hplants] at hnow
          cases hnow
        · subst heq hkey hswept
          rw [apply, Arrival.deliver, Arrival.site, modify_self] at hnow
          have hgone' : Gone it.key tomb true (sh n) := hgone
          have hstored : ((Arrival.adopt n now it).act C (sh n)).items.get it.key = some it :=
            hgone'.adopt
          cases hstored.symm.trans hnow

/-- A key that is deleted at a node under a tombstone stays unreadable there through any run of
arrivals, of copies no newer than the tombstone, and of sweeps, exactly if no copy comes by a way
that ignores tombstones and none is pulled once a sweep has found the tombstone at its age. -/
theorem stays_deleted_iff (hsh : (sh n).Buried key tomb) (events : List (StoreEvent V))
    (hold : ∀ e, .arrive e ∈ events → e.site = n → e.item.key = key →
      e.item.version ≤ tomb.version) :
    (∀ k, ((events.take k).foldl (apply C ttl) sh n).items.get key = none) ↔
      Quiet C ttl n key tomb false events := by
  have hgone : Gone key tomb false (sh n) := ⟨hsh.gone, hsh.marked⟩
  exact never_stored_iff hgone events hold

/-- Node `a` pulls version 1 of `k` before and after a sweep, where a tombstone of version 2 was
placed at 0. -/
def pulledAround (now : Time) : List (StoreEvent Str) :=
  [.arrive (.adopt [97] 1 { sampleItem with version := 1 }), .sweep [97] now,
    .arrive (.adopt [97] now { sampleItem with version := 1 })]

/-- With an age of five the key stays deleted if the sweep is at 3, and not if it is at 8. -/
theorem stays_deleted_until_swept :
    (∀ k, (((pulledAround 3).take k).foldl (apply quorumCluster (fun _ => 5))
        (fun _ => Arrival.buriedShard) [97]).items.get [107] = none) ∧
      ¬∀ k, (((pulledAround 8).take k).foldl (apply quorumCluster (fun _ => 5))
        (fun _ => Arrival.buriedShard) [97]).items.get [107] = none := by
  have hsh : Arrival.buriedShard.Buried [107] ⟨2, [97], 0⟩ := ⟨rfl, by decide⟩
  have hold : ∀ now e, .arrive e ∈ pulledAround now → e.site = [97] → e.item.key = [107] →
      e.item.version ≤ 2 := by
    intro now e he _ _
    simp only [pulledAround, List.mem_cons, List.not_mem_nil, or_false, reduceCtorEq, false_or,
      arrive.injEq] at he
    have hle : (1 : UInt64) ≤ 2 := by decide
    rcases he with rfl | rfl <;> exact hle
  rw [stays_deleted_iff hsh _ (hold 3), stays_deleted_iff hsh _ (hold 8)]
  refine ⟨⟨fun _ _ => ⟨rfl, nofun⟩, fun _ _ => ⟨rfl, nofun⟩, trivial⟩, fun hquiet => ?_⟩
  exact (hquiet.2.1 rfl rfl).2 rfl _ _ rfl

end StoreEvent

end HyperCache
