/-
What a node stores for a key while copies of it arrive concurrently.

`Arrival.act` is an arrival that nothing interrupts.  In the source an arrival holds no lock
from one of its steps to the next: a forwarded write checks that the node takes the key and
then stores, and a repair or a pull checks, looks at the local copy, and then stores.  Here
every arrival is a goroutine that takes one of these steps at a time, and a run lists the
steps of all of them, so every interleaving is a run.  A repair that was decided on against
an older copy may then store after a newer one has landed.
-/
import HyperCache.Arrival

namespace HyperCache

open Pointwise

variable {V : Type}

/-! ## Stores that keep what they overwrite -/

theorem DistShard.keptBy_applySet_iff (cfg : DistConfig) (item : Item V) (sh : DistShard V) :
    sh.KeptBy (sh.applySet cfg item) ↔
      ∀ a, sh.items.get item.key = some a → a.rank ≤ item.rank := by
  refine ⟨fun h a ha => ?_, fun h key a ha => ?_⟩
  · obtain ⟨b, hb, hab⟩ := h item.key a ha
    rw [applySet_items, ConcurrentMap.get_set_self, Option.some.injEq] at hb
    rwa [hb]
  · rw [applySet_items, ConcurrentMap.get_set]
    by_cases hk : key = item.key
    · exact ⟨item, if_pos hk, h a (hk ▸ ha)⟩
    · exact ⟨a, (if_neg hk).trans ha, le_rfl⟩

theorem DistShard.keptBy_applySet_of_none {item : Item V} {sh : DistShard V} (cfg : DistConfig)
    (h : sh.items.get item.key = none) : sh.KeptBy (sh.applySet cfg item) := by
  refine (keptBy_applySet_iff cfg item sh).mpr (fun a ha => ?_)
  rw [h] at ha
  cases ha

theorem DistShard.keptBy_applySet_of_lt {item cur : Item V} {sh : DistShard V}
    (cfg : DistConfig) (h : sh.items.get item.key = some cur) (hlt : cur.rank < item.rank) :
    sh.KeptBy (sh.applySet cfg item) := by
  refine (keptBy_applySet_iff cfg item sh).mpr (fun a ha => ?_)
  rw [h, Option.some.injEq] at ha
  exact ha ▸ hlt.le

theorem DistShard.keptBy_repairLocalReplica (cfg : DistConfig) (chosen : Item V)
    (sh : DistShard V) : sh.KeptBy (sh.repairLocalReplica cfg chosen.key chosen) := by
  rw [repairLocalReplica]
  cases hget : sh.items.get chosen.key with
  | none => exact keptBy_applySet_of_none cfg hget
  | some localIt =>
      dsimp only
      split
      · exact keptBy_applySet_of_lt cfg hget (localStale_iff.mp ‹_›)
      · exact KeptBy.refl sh

theorem DistShard.keptBy_repairMissing (cfg : DistConfig) (it : Item V) (sh : DistShard V) :
    sh.KeptBy (sh.repairMissing cfg it.key it) := by
  rw [repairMissing]
  split
  · cases hget : sh.items.get it.key with
    | none => exact keptBy_applySet_of_none cfg hget
    | some cur => exact KeptBy.refl sh
  · exact KeptBy.refl sh

theorem DistShard.keptBy_pull (cfg : DistConfig) (it : Item V) (sh : DistShard V) :
    sh.KeptBy (sh.pull cfg it.key it) := by
  rw [pull]
  cases hget : sh.items.get it.key with
  | none => exact keptBy_applySet_of_none cfg hget
  | some cur =>
      dsimp only
      split
      · exact keptBy_applySet_of_lt cfg hget (rank_lt_iff.mpr (.inl ‹_›))
      · exact KeptBy.refl sh

theorem DistShard.keptBy_adopt (cfg : DistConfig) (now : Time) (it : Item V)
    (sh : DistShard V) : sh.KeptBy (sh.adopt cfg now it.key (some it)) := by
  rw [adopt]
  split
  · exact keptBy_pull cfg it sh
  · split
    · exact KeptBy.refl sh
    · -- Dropping the tombstone leaves the items as they are.
      have hdrop : sh.KeptBy { sh with tombs := sh.tombs.erase it.key } :=
        fun _ a ha => ⟨a, ha, le_rfl⟩
      exact hdrop.trans (keptBy_pull cfg it _)

theorem DistShard.keptBy_modify_iff (sh : NodeID → DistShard V) (n : NodeID)
    (f : DistShard V → DistShard V) :
    (∀ m, (sh m).KeptBy (modify sh n f m)) ↔ (sh n).KeptBy (f (sh n)) := by
  refine ⟨fun h => modify_self sh n f ▸ h n, fun h m => ?_⟩
  rw [modify_apply]
  split
  · subst_vars
    exact h
  · exact KeptBy.refl (sh m)

namespace Arrival

variable (C : Cluster)

/-- The condition on a forwarded write that is accepted: it is not older than
the copy it overwrites.  The other arrivals compare for themselves. -/
def NotOlder (sh : NodeID → DistShard V) : Arrival V → Prop
  | .forwardedSet dst item => (C.cfg dst).acceptsForwarded item.key = true →
      ∀ a, (sh dst).items.get item.key = some a → a.rank ≤ item.rank
  | _ => True

theorem keptBy_act_iff (sh : NodeID → DistShard V) (e : Arrival V) :
    (sh e.site).KeptBy (e.act C (sh e.site)) ↔ e.NotOlder C sh := by
  cases e with
  | forwardedSet dst item =>
      rw [act, DistShard.applyForwardedSet, NotOlder, site]
      by_cases hacc : (C.cfg dst).acceptsForwarded item.key = true
      · simp only [hacc, if_true, forall_const]
        exact DistShard.keptBy_applySet_iff (C.cfg dst) item (sh dst)
      · simp only [hacc, if_false, Bool.false_eq_true, false_imp_iff, iff_true]
        exact DistShard.KeptBy.refl (sh dst)
  | repairLocal n chosen =>
      exact iff_of_true (DistShard.keptBy_repairLocalReplica (C.cfg n) chosen (sh n)) trivial
  | repairMissing n it =>
      exact iff_of_true (DistShard.keptBy_repairMissing (C.cfg n) it (sh n)) trivial
  | adopt n now it =>
      exact iff_of_true (DistShard.keptBy_adopt (C.cfg n) now it (sh n)) trivial

theorem keptBy_deliver_iff (sh : NodeID → DistShard V) (e : Arrival V) :
    (∀ n, (sh n).KeptBy (deliver C sh e n)) ↔ e.NotOlder C sh :=
  (DistShard.keptBy_modify_iff sh e.site (e.act C)).trans (keptBy_act_iff C sh e)

end Arrival

/-! ## Arrivals in flight -/

/-- Where the goroutine of an arrival stands: before its check, before it looks at the local
copy, or before it stores, with the copy it has seen.  A forwarded write has seen none. -/
inductive Stage (V : Type) where
  | check
  | compare
  | store (seen : Option (Item V))

structure InFlight (V : Type) where
  arrival : Arrival V
  stage : Stage V

/-- What a repair or a pull asks of the local copy before it stores.  A forwarded write does
not look at it. -/
def Arrival.supersedes : Arrival V → Item V → Bool
  | .forwardedSet _ _, _ => false
  | .repairLocal _ chosen, localIt => localStale localIt chosen
  | .repairMissing _ _, _ => false
  | .adopt _ _ it, cur => decide (it.version > cur.version)

theorem Arrival.rank_lt_of_supersedes {e : Arrival V} {cur : Item V}
    (h : e.supersedes cur = true) : cur.rank < e.item.rank := by
  cases e with
  | forwardedSet dst item => cases h
  | repairLocal n chosen => exact localStale_iff.mp h
  | repairMissing n it => cases h
  | adopt n now it => exact rank_lt_iff.mpr (.inl (of_decide_eq_true h))

namespace InFlight

variable (C : Cluster)

def turn (g : InFlight V) (sh : DistShard V) : DistShard V × Option (InFlight V) :=
  match g.stage with
  | .check =>
      match g.arrival with
      | .forwardedSet dst item =>
          (sh, if (C.cfg dst).acceptsForwarded item.key then some { g with stage := .store none }
            else none)
      | .repairLocal _ _ => (sh, some { g with stage := .compare })
      | .repairMissing n it =>
          (sh, if (C.cfg n).ownsKeyInternal it.key then some { g with stage := .compare }
            else none)
      | .adopt _ _ it =>
          match sh.tombs.lookup it.key with
          | none => (sh, some { g with stage := .compare })
          | some tomb =>
              if tomb.version ≥ it.version then (sh, none)
              else ({ sh with tombs := sh.tombs.erase it.key }, some { g with stage := .compare })
  | .compare =>
      match sh.items.get g.arrival.item.key with
      | none => (sh, some { g with stage := .store none })
      | some cur =>
          (sh, if g.arrival.supersedes cur then some { g with stage := .store (some cur) }
            else none)
  | .store _ => (sh.applySet (C.cfg g.arrival.site) g.arrival.item, none)

/-- What the goroutine stores ranks above what it has seen. -/
def Ahead (g : InFlight V) : Prop :=
  ∀ cur, g.stage = .store (some cur) → cur.rank < g.arrival.item.rank

/-- The condition on a store: what the node holds for the key by then is the copy that the
goroutine has seen, or is not newer than the item it stores. -/
def NotOvertaken (g : InFlight V) (sh : DistShard V) : Prop :=
  ∀ seen, g.stage = .store seen → ∀ a, sh.items.get g.arrival.item.key = some a →
    seen = some a ∨ a.rank ≤ g.arrival.item.rank

variable {C}

/-- The check and the comparison leave the items alone, and a goroutine that goes on to
store is ahead of what it has seen. -/
theorem turn_cases (g : InFlight V) (sh : DistShard V) :
    ((∃ seen, g.stage = .store seen) ∧
      g.turn C sh = (sh.applySet (C.cfg g.arrival.site) g.arrival.item, none)) ∨
    ((∀ seen, g.stage ≠ .store seen) ∧ (g.turn C sh).1.items = sh.items ∧
      ∀ g', (g.turn C sh).2 = some g' → g'.Ahead) := by
  obtain ⟨e, stage⟩ := g
  cases stage with
  | check =>
      refine .inr ⟨nofun, ?_⟩
      cases e with
      | forwardedSet dst item => simp [turn, Ahead, apply_ite, ite_eq_iff]
      | repairLocal n chosen => simp [turn, Ahead]
      | repairMissing n it => simp [turn, Ahead]
      | adopt n now it =>
          simp only [turn]
          cases sh.tombs.lookup it.key with
          | none => simp [Ahead]
          | some tomb =>
              dsimp only
              split <;> simp [Ahead]
  | compare =>
      refine .inr ⟨nofun, ?_⟩
      simp only [turn]
      cases sh.items.get e.item.key with
      | none => simp [Ahead]
      | some cur =>
          dsimp only
          refine ⟨rfl, fun g' hg' => ?_⟩
          by_cases hsup : e.supersedes cur = true
          · rw [if_pos hsup, Option.some.injEq] at hg'
            subst hg'
            rintro cur' ⟨⟩
            exact Arrival.rank_lt_of_supersedes hsup
          · rw [if_neg hsup] at hg'
            cases hg'
  | store seen => exact .inl ⟨⟨seen, rfl⟩, rfl⟩

theorem keptBy_turn_iff {g : InFlight V} (hg : g.Ahead) (sh : DistShard V) :
    sh.KeptBy (g.turn C sh).1 ↔ g.NotOvertaken sh := by
  obtain ⟨⟨seen, hseen⟩, hturn⟩ | ⟨hstage, hitems, -⟩ := turn_cases (C := C) g sh
  · rw [hturn, DistShard.keptBy_applySet_iff]
    constructor
    · exact fun h _ _ a ha => .inr (h a ha)
    · intro h a ha
      obtain hsame | hle := h seen hseen a ha
      · exact (hg a (hsame ▸ hseen)).le
      · exact hle
  · refine iff_of_true (fun key a ha => ⟨a, ?_, le_rfl⟩) (fun seen h => absurd h (hstage seen))
    rw [hitems, ha]

end InFlight

/-- The data of the nodes, and the arrivals that have started and not ended. -/
structure Race (V : Type) where
  shards : NodeID → DistShard V
  inFlight : List (InFlight V)

inductive RaceStep (V : Type) where
  | start (e : Arrival V)
  | turn (i : Nat)

namespace Race

variable (C : Cluster)

def step (s : Race V) : RaceStep V → Race V
  | .start e => { s with inFlight := s.inFlight ++ [⟨e, .check⟩] }
  | .turn i =>
      match s.inFlight[i]? with
      | none => s
      | some g =>
          { shards := modify s.shards g.arrival.site (fun sh => (g.turn C sh).1)
            inFlight :=
              match (g.turn C (s.shards g.arrival.site)).2 with
              | none => s.inFlight.eraseIdx i
              | some g' => s.inFlight.set i g' }

def Ahead (s : Race V) : Prop := ∀ g ∈ s.inFlight, g.Ahead

def NotOvertaken (s : Race V) : RaceStep V → Prop
  | .start _ => True
  | .turn i => ∀ g, s.inFlight[i]? = some g → g.NotOvertaken (s.shards g.arrival.site)

variable {C}

theorem ahead_step {s : Race V} (hs : s.Ahead) (a : RaceStep V) : (step C s a).Ahead := by
  cases a with
  | start e =>
      intro g hg
      obtain hg | hg := List.mem_append.mp hg
      · exact hs g hg
      · rw [List.mem_singleton.mp hg]
        exact nofun
  | turn i =>
      rw [step]
      cases hi : s.inFlight[i]? with
      | none => exact hs
      | some g =>
          intro g' hg'
          dsimp only at hg'
          cases hnext : (g.turn C (s.shards g.arrival.site)).2 with
          | none =>
              rw [hnext] at hg'
              exact hs g' (List.mem_of_mem_eraseIdx hg')
          | some h =>
              rw [hnext] at hg'
              obtain hmem | rfl := List.mem_or_eq_of_mem_set hg'
              · exact hs g' hmem
              · obtain ⟨-, hturn⟩ | ⟨-, -, hahead⟩ :=
                  InFlight.turn_cases (C := C) g (s.shards g.arrival.site)
                · rw [hturn] at hnext
                  cases hnext
                · exact hahead g' hnext

theorem keptBy_step_iff {s : Race V} (hs : s.Ahead) (a : RaceStep V) :
    (∀ n, (s.shards n).KeptBy ((step C s a).shards n)) ↔ s.NotOvertaken a := by
  cases a with
  | start e => exact iff_of_true (fun n => DistShard.KeptBy.refl _) trivial
  | turn i =>
      rw [step, NotOvertaken]
      cases hi : s.inFlight[i]? with
      | none => exact iff_of_true (fun n => DistShard.KeptBy.refl _) (fun g hg => by cases hg)
      | some g =>
          have hg : g.Ahead := hs g (List.mem_of_getElem? hi)
          have hturn := InFlight.keptBy_turn_iff (C := C) hg (s.shards g.arrival.site)
          refine (DistShard.keptBy_modify_iff s.shards _ _).trans (hturn.trans ?_)
          exact ⟨fun h g' hg' => Option.some.inj hg' ▸ h, fun h => h g rfl⟩

/-- The steps of an arrival that nothing interrupts.  One that ends early leaves the last
turns without effect. -/
def alone (e : Arrival V) : List (RaceStep V) := [.start e, .turn 0, .turn 0, .turn 0]

theorem step_turn_nil (sh : NodeID → DistShard V) :
    step C ⟨sh, []⟩ (.turn 0) = ⟨sh, []⟩ := rfl

theorem step_turn_singleton (sh : NodeID → DistShard V) (g : InFlight V) :
    step C ⟨sh, [g]⟩ (.turn 0) =
      ⟨modify sh g.arrival.site (fun d => (g.turn C d).1),
        (g.turn C (sh g.arrival.site)).2.toList⟩ := by
  rw [step]
  cases hnext : (g.turn C (sh g.arrival.site)).2 <;> simp [hnext]

/-- The comparison and the store of a repair or a pull that nothing interrupts. -/
def settle (C : Cluster) (e : Arrival V) (d : DistShard V) : DistShard V :=
  match d.items.get e.item.key with
  | none => d.applySet (C.cfg e.site) e.item
  | some cur => if e.supersedes cur then d.applySet (C.cfg e.site) e.item else d

theorem settle_adopt (n : NodeID) (now : Time) (it : Item V) (d : DistShard V) :
    settle C (.adopt n now it) d = d.pull (C.cfg n) it.key it := by
  rw [settle, DistShard.pull, Arrival.item]
  cases d.items.get it.key with
  | none => rfl
  | some cur => simp [Arrival.supersedes, Arrival.site]

theorem step_compare (e : Arrival V) (sh : NodeID → DistShard V) :
    step C (step C ⟨sh, [⟨e, .compare⟩]⟩ (.turn 0)) (.turn 0) =
      ⟨modify sh e.site (settle C e), []⟩ := by
  simp only [step_turn_singleton, Pointwise.modify, InFlight.turn, settle]
  cases hget : (sh e.site).items.get e.item.key with
  | none => simp [step_turn_singleton, Pointwise.modify, InFlight.turn]
  | some cur =>
      by_cases hsup : e.supersedes cur = true
      · simp [hsup, step_turn_singleton, Pointwise.modify, InFlight.turn]
      · simp [hsup, step_turn_nil]

/-- An arrival that nothing interrupts is one step of `Arrival.deliver`. -/
theorem foldl_alone (e : Arrival V) (sh : NodeID → DistShard V) :
    (alone e).foldl (step C) ⟨sh, []⟩ = ⟨Arrival.deliver C sh e, []⟩ := by
  have hstart : step C ⟨sh, []⟩ (.start e) = ⟨sh, [⟨e, .check⟩]⟩ := rfl
  simp only [alone, List.foldl_cons, List.foldl_nil, hstart, step_turn_singleton, Arrival.deliver]
  cases e with
  | forwardedSet dst item =>
      by_cases hacc : (C.cfg dst).acceptsForwarded item.key = true
      · simp [InFlight.turn, hacc, step_turn_singleton, step_turn_nil, Pointwise.modify,
          Arrival.site, Arrival.item, Arrival.act, DistShard.applyForwardedSet]
      · simp [InFlight.turn, hacc, step_turn_nil, Pointwise.modify, Arrival.act,
          DistShard.applyForwardedSet]
  | repairLocal n chosen =>
      simp only [InFlight.turn, modify_id, Option.toList_some, step_compare]
      rfl
  | repairMissing n it =>
      by_cases hown : (C.cfg n).ownsKeyInternal it.key = true
      · simp only [InFlight.turn, modify_id, hown, if_true, Option.toList_some, step_compare]
        simp only [Pointwise.modify, Arrival.act, DistShard.repairMissing, hown, if_true]
        rfl
      · simp [InFlight.turn, step_turn_nil, hown, Pointwise.modify, Arrival.act,
          DistShard.repairMissing]
  | adopt n now it =>
      cases htomb : (sh n).tombs.lookup it.key with
      | none =>
          simp [InFlight.turn, Arrival.site, htomb, step_compare, settle_adopt, Pointwise.modify,
            Arrival.act, DistShard.adopt]
      | some tomb =>
          by_cases hver : tomb.version ≥ it.version
          · simp [InFlight.turn, Arrival.site, htomb, hver, step_turn_nil, Pointwise.modify,
              Arrival.act, DistShard.adopt]
          · simp [InFlight.turn, Arrival.site, htomb, hver, step_compare, settle_adopt,
              Pointwise.modify, Arrival.act, DistShard.adopt]

end Race

/-! ## Reads -/

namespace World

variable (C : Cluster) (net : Net)

/-- The nodes a `Get` at `n` overwrites with the copy it returns: the other
owners that are up and accept the key, when repairs are sent inline. -/
def overwrites (n : NodeID) (key : Key) (m : NodeID) : Prop :=
  (C.cfg n).readConsistency ≠ .one ∧ m ∈ (C.cfg n).lookupOwners key ∧ m ≠ n ∧
    (C.cfg n).hasTransport = true ∧ (C.cfg n).repairBatch = none ∧ net.up m = true ∧
    (C.cfg m).acceptsForwarded key = true

variable {C net}

theorem repairAt_of_overwrites {n m : NodeID} {key : Key} {it : Item V} (hkey : it.key = key)
    (h : overwrites C net n key m) (sh : DistShard V) :
    repairAt C net n key it m sh = sh.applySet (C.cfg m) it := by
  obtain ⟨-, -, hmn, ht, hq, hup, hacc⟩ := h
  rw [repairAt, if_neg hmn, if_pos (by simp [ht, hq, hup]), DistShard.applyForwardedSet, hkey,
    if_pos hacc]

theorem keptBy_repairAt {n m : NodeID} {key : Key} {it : Item V} (hkey : it.key = key)
    (hone : (C.cfg n).readConsistency ≠ .one) (hm : m ∈ (C.cfg n).lookupOwners key)
    (h : ¬overwrites C net n key m) (sh : DistShard V) :
    sh.KeptBy (repairAt C net n key it m sh) := by
  subst hkey
  rw [repairAt]
  by_cases hmn : m = n
  · rw [if_pos hmn]
    exact DistShard.keptBy_repairLocalReplica (C.cfg n) it sh
  · rw [if_neg hmn]
    split
    · rename_i hdirect
      simp only [Bool.and_eq_true, Option.isNone_iff_eq_none] at hdirect
      have hacc : ¬(C.cfg m).acceptsForwarded it.key = true :=
        fun hacc => h ⟨hone, hm, hmn, hdirect.1, hdirect.2.1, hdirect.2.2, hacc⟩
      rw [DistShard.applyForwardedSet, if_neg hacc]
      exact DistShard.KeptBy.refl sh
    · exact DistShard.KeptBy.refl sh

/-- The repairs of a `Get` keep the data of a node when the copy they carry is not
older than the copy they overwrite there. -/
theorem keptBy_repairs {n m : NodeID} {key : Key} {it : Item V} (hkey : it.key = key)
    (hone : (C.cfg n).readConsistency ≠ .one) {oids : List NodeID}
    (hoids : ∀ oid ∈ oids, oid ∈ (C.cfg n).lookupOwners key) {sh : NodeID → DistShard V}
    (h : overwrites C net n key m → ∀ a, (sh m).items.get key = some a → a.rank ≤ it.rank) :
    (sh m).KeptBy
      (oids.foldl (fun sh oid => modify sh oid (repairAt C net n key it oid)) sh m) := by
  by_cases hmem : m ∈ (C.cfg n).lookupOwners key
  swap
  · rw [foldl_modify_of_notMem _ (fun hm => hmem (hoids m hm))]
    exact DistShard.KeptBy.refl _
  by_cases hover : overwrites C net n key m
  swap
  · exact foldl_modify_inv (I := fun d => (sh m).KeptBy d) (repairAt C net n key it)
      (fun d hkept => hkept.trans (keptBy_repairAt hkey hone hmem hover d)) _ _
      (DistShard.KeptBy.refl _)
  -- An overwritten node is visited more than once, and after the first visit it
  -- holds the copy itself.
  refine (foldl_modify_inv
    (I := fun d => (sh m).KeptBy d ∧ ∀ c, d.items.get key = some c → c.rank ≤ it.rank)
    (repairAt C net n key it) (fun d hI => ?_) _ _
    ⟨DistShard.KeptBy.refl _, h hover⟩).1
  rw [repairAt_of_overwrites hkey hover]
  refine ⟨hI.1.trans ((DistShard.keptBy_applySet_iff _ it d).mpr (hkey ▸ hI.2)), ?_⟩
  intro c hc
  rw [DistShard.applySet_items, ← hkey, ConcurrentMap.get_set_self, Option.some.injEq] at hc
  exact hc ▸ le_rfl

/-- A `Get` keeps the data of every node exactly when the copy it returns is not
older than the copies it overwrites. -/
theorem keptBy_getImpl_iff (n : NodeID) (key : Key) (w : World V) :
    (∀ m, (w m).shard.KeptBy ((getImpl C net n key w).1 m).shard) ↔
      ∀ it, (getImpl C net n key w).2 = some it → ∀ m, overwrites C net n key m →
        ∀ a, (w m).shard.items.get key = some a → a.rank ≤ it.rank := by
  obtain hmiss | ⟨it, m₀, hm₀, hres, ⟨hone, hsh⟩ | ⟨hone, stale, hstale, hsh⟩⟩ :=
    getImpl_cases C net n key w
  · rw [hmiss]
    exact iff_of_true (fun m => DistShard.KeptBy.refl _) (fun it h => by cases h)
  · refine iff_of_true (fun m => ?_) (fun _ _ m hm => absurd hone hm.1)
    have hkey : it.key = key := ConcurrentMap.key_of_get hm₀
    subst hkey
    show (w m).shard.KeptBy (shards (getImpl C net n it.key w).1 m)
    obtain hsh | hsh := hsh
    · rw [hsh]
      exact DistShard.KeptBy.refl _
    · rw [hsh]
      exact (DistShard.keptBy_modify_iff (shards w) n _).mpr
        (DistShard.keptBy_repairMissing (C.cfg n) it _) m
  · have hkey : it.key = key := ConcurrentMap.key_of_get hm₀
    have hnd := (C.cfg n).lookupOwners_nodup key
    show (∀ m, (w m).shard.KeptBy (shards (getImpl C net n key w).1 m)) ↔ _
    rw [hsh]
    refine ⟨fun h it' hit' m hm a ha => ?_, fun h m => ?_⟩
    · obtain rfl : it = it' := Option.some.inj (hres.symm.trans hit')
      obtain ⟨b, hb, hab⟩ := h m key a ha
      rw [List.foldl_append, foldl_modify_apply _ hnd, if_pos hm.2.1,
        repairAt_of_overwrites hkey hm, DistShard.applySet_items, ← hkey,
        ConcurrentMap.get_set_self, Option.some.injEq] at hb
      rwa [hb]
    · have howners : ∀ oid ∈ stale ++ (C.cfg n).lookupOwners key,
          oid ∈ (C.cfg n).lookupOwners key := by
        intro oid hoid
        exact (List.mem_append.mp hoid).elim (fun h => (hstale oid h).2) id
      have hover : overwrites C net n key m →
          ∀ a, (shards w m).items.get key = some a → a.rank ≤ it.rank := h it hres m
      exact keptBy_repairs hkey hone howners hover

variable (C net) in
/-- Each copy a `Get` overwrites is matched by one of the copies it compares.  A
read that does not see enough owners overwrites none. -/
def Covered (n : NodeID) (key : Key) (w : World V) : Prop :=
  requiredAcks ((C.cfg n).lookupOwners key).length (C.cfg n).readConsistency ≤
      (quorumSeen C net n key w).length →
    ∀ m, overwrites C net n key m → ∀ a, (w m).shard.items.get key = some a →
      ∃ oid ∈ quorumSeen C net n key w,
        ∃ b, (w oid).shard.items.get key = some b ∧ a.rank ≤ b.rank

theorem covered_iff (n : NodeID) (key : Key) (w : World V) :
    Covered C net n key w ↔
      ∀ it, (getImpl C net n key w).2 = some it → ∀ m, overwrites C net n key m →
        ∀ a, (w m).shard.items.get key = some a → a.rank ≤ it.rank := by
  constructor
  · intro h it hit m hm a ha
    obtain ⟨hlen, -, hmax⟩ := getImpl_quorum_hit C net hm.1 hit
    obtain ⟨oid, hoid, b, hb, hab⟩ := h hlen m hm a ha
    obtain ⟨c, hc, hcit⟩ := hmax oid hoid
    rw [hb, Option.some.injEq] at hc
    exact hab.trans (hc ▸ hcit)
  · intro h hlen m hm a ha
    have howners : (C.cfg n).lookupOwners key ≠ [] := List.ne_nil_of_mem hm.2.1
    obtain ⟨it, hit⟩ := readQuorum_of_seen C net howners hlen
    rw [← getImpl_quorum C net w hm.1 howners] at hit
    obtain ⟨-, ⟨oid, hoid, hget⟩, -⟩ := getImpl_quorum_hit C net hm.1 hit
    exact ⟨oid, hoid, it, hget, h it hit m hm a ha⟩

/-- Along any interleaving of the steps of any arrivals, what a node stores never moves
backwards in the conflict order exactly when no store finds a copy that is newer than its item
and not the one it has seen.  An arrival that nothing interrupts goes backwards only if it is a
forwarded write older than the copy it overwrites, and a `Get` on its own exactly when it
overwrites a copy that no copy it compares matches. -/
theorem stored_never_backwards_iff :
    (∀ (sh : NodeID → DistShard V) (steps : List (RaceStep V)),
      (∀ pre mid post, steps = pre ++ mid ++ post → ∀ n,
        ((pre.foldl (Race.step C) ⟨sh, []⟩).shards n).KeptBy
          (((pre ++ mid).foldl (Race.step C) ⟨sh, []⟩).shards n)) ↔
      Runs.Along (Race.step C) Race.NotOvertaken ⟨sh, []⟩ steps) ∧
    (∀ (sh : NodeID → DistShard V) (e : Arrival V),
      (∀ n, (sh n).KeptBy (((Race.alone e).foldl (Race.step C) ⟨sh, []⟩).shards n)) ↔
        e.NotOlder C sh) ∧
    (∀ (net : Net) (n : NodeID) (key : Key) (w : World V),
      (∀ m, (w m).shard.KeptBy ((getImpl C net n key w).1 m).shard) ↔ Covered C net n key w) := by
  refine ⟨fun sh steps => ?_, fun sh e => ?_,
    fun net n key w => (keptBy_getImpl_iff n key w).trans (covered_iff n key w).symm⟩
  · have hsteps : Runs.Along (Race.step C)
        (fun s a => ∀ n, (s.shards n).KeptBy ((Race.step C s a).shards n)) ⟨sh, []⟩ steps ↔ _ :=
      Runs.along_iff_between (r := fun s t : Race V => ∀ n, (s.shards n).KeptBy (t.shards n))
        (fun s n => DistShard.KeptBy.refl (s.shards n)) (fun h₁ h₂ n => (h₁ n).trans (h₂ n))
    refine hsteps.symm.trans ?_
    exact Runs.along_congr (fun s a hs => Race.ahead_step hs a)
      (fun s a hs => Race.keptBy_step_iff hs a) (fun g hg => by cases hg) steps
  · rw [Race.foldl_alone]
    exact Arrival.keptBy_deliver_iff C sh e

/-- The owners `a` and `b` hold version 1 of a key and `c` holds version 2. -/
def splitWorld : World Str := fun m =>
  { shard := DistShard.empty.applySet (quorumCluster.cfg m)
      { sampleItem with version := if m = [99] then 2 else 1 } }

/-- A quorum read at `a` stops after `a` and `b`, and its repair takes `c` back
from version 2 to version 1. -/
theorem getImpl_backwards :
    ¬(splitWorld [99]).shard.KeptBy
      ((getImpl quorumCluster allUp [97] [107] splitWorld).1
        [99]).shard := by
  intro h
  obtain ⟨b, hb, hle⟩ := h [107] { sampleItem with version := 2 } (by decide)
  have hone : ((getImpl quorumCluster allUp [97] [107]
      splitWorld).1 [99]).shard.items.get [107] = some { sampleItem with version := 1 } := by
    decide
  rw [hone, Option.some.injEq] at hb
  subst hb
  exact absurd hle (not_le.mpr (rank_lt_iff.mpr (.inl (by decide))))

end World

end HyperCache
