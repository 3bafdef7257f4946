/-
Runs of a node's rebalance ticks, with writes and deletes between them and any ring in
effect at each.

Two properties are about the past of a run: which replicas of a baseline were sent the
item, and whether a lost primacy is noticed.  Each comes from an invariant that every move of
a tick keeps.
-/
import HyperCache.SteadyRebalance

namespace HyperCache

open Keyed Runs

inductive NodeEvent (V : Type) where
  | tick (t : Tick V)
  | applySet (ring : Option Placement) (item : Item V)
  | applyForwardedSet (ring : Option Placement) (item : Item V)
  | applyRemove (ring : Option Placement) (now : Time) (key : Key)

variable {V : Type}

def NodeEvent.tick? : NodeEvent V → Option (Tick V)
  | .tick t => some t
  | _ => none

def NodeEvent.ticks (events : List (NodeEvent V)) : List (Tick V) := events.filterMap tick?

namespace DistShard

/-! ## The shedding step -/

/-- The last loop of `shedShard` changes the items only. -/
theorem foldl_shed (cfg : DistConfig) (dels : List Key) (sh : DistShard V) :
    let sh' := dels.foldl (fun sh k =>
      if !cfg.ownsKeyInternal k then { sh with items := sh.items.remove k } else sh) sh
    sh'.removedAt = sh.removedAt ∧ sh'.originalPrimary = sh.originalPrimary ∧
      sh'.originalOwners = sh.originalOwners ∧
      ∀ k, sh'.items.get k =
        if k ∈ dels ∧ cfg.ownsKeyInternal k = false then none else sh.items.get k := by
  induction dels generalizing sh with
  | nil => exact ⟨rfl, rfl, rfl, fun k => by simp⟩
  | cons d rest ih =>
      rw [List.foldl_cons]
      cases howns : cfg.ownsKeyInternal d with
      | true =>
          obtain ⟨hremoved, hprimary, howners, hget⟩ := ih sh
          refine ⟨hremoved, hprimary, howners, fun k => (hget k).trans ?_⟩
          by_cases hk : k = d
          · subst hk
            simp [howns]
          · simp [hk]
      | false =>
          obtain ⟨hremoved, hprimary, howners, hget⟩ :=
            ih { sh with items := sh.items.remove d }
          refine ⟨hremoved, hprimary, howners, fun k => (hget k).trans ?_⟩
          by_cases hk : k = d
          · subst hk
            simp [howns]
          · simp [hk, ConcurrentMap.get_remove_ne _ hk]

theorem shedRemovedKeys_records (cfg : DistConfig) (now : Time) (sh : DistShard V) :
    (sh.shedRemovedKeys cfg now).originalPrimary = sh.originalPrimary ∧
      (sh.shedRemovedKeys cfg now).originalOwners = sh.originalOwners := by
  rw [shedRemovedKeys]
  split
  · exact ⟨rfl, rfl⟩
  · obtain ⟨-, hprimary, howners, -⟩ := foldl_shed cfg (sh.due cfg now)
      { sh with removedAt := (sh.due cfg now).foldl (fun m k => m.erase k) sh.removedAt }
    exact ⟨hprimary, howners⟩

end DistShard

namespace History

/-- Note the baselines that are new. -/
def observe (h : History V) : History V :=
  { h with
    firstOwners := fun k => (h.firstOwners k).or (h.node.shard.originalOwners.lookup k) }

def start (st : NodeState V) : History V := observe { node := st }

section

variable [SizedValue V] (cfg : DistConfig)

def act (h : History V) : NodeEvent V → History V
  | .tick t => h.runRebalanceTick cfg t
  | .applySet ring item => { h with node := h.node.applySet (cfg.withRing ring) item }
  | .applyForwardedSet ring item =>
      { h with node := h.node.applyForwardedSet (cfg.withRing ring) item }
  | .applyRemove ring now key =>
      { h with node := h.node.applyRemove (cfg.withRing ring) now key }

def step (h : History V) (e : NodeEvent V) : History V := (act cfg h e).observe

end

/-! ## The owner baselines -/

/-- Every owner in a baseline was in the key's first one or was reached. -/
structure Covered (cfg : DistConfig) (h : History V) : Prop where
  known : ∀ k f, h.firstOwners k = some f → ∃ b, h.node.shard.originalOwners.lookup k = some b
  reached : ∀ k f b, h.firstOwners k = some f →
    h.node.shard.originalOwners.lookup k = some b →
    ∀ r ∈ b, r = cfg.localNode ∨ r ∈ f ∨ h.Reached k r

theorem Covered.of_keeps {cfg : DistConfig} {h h' : History V} (hc : Covered cfg h)
    (hfirst : h'.firstOwners = h.firstOwners)
    (howners : ∀ k b, h.node.shard.originalOwners.lookup k = some b →
      h'.node.shard.originalOwners.lookup k = some b)
    (hreached : ∀ k r, h.Reached k r → h'.Reached k r) : Covered cfg h' := by
  refine ⟨fun k f hf => ?_, fun k f b hf hb r hr => ?_⟩
  · rw [hfirst] at hf
    obtain ⟨b, hb⟩ := hc.known k f hf
    exact ⟨b, howners k b hb⟩
  · rw [hfirst] at hf
    obtain ⟨b₀, hb₀⟩ := hc.known k f hf
    have hsame : b₀ = b := by
      rw [howners k b₀ hb₀] at hb
      exact Option.some.inj hb
    rw [← hsame] at hr
    exact (hc.reached k f b₀ hf hb₀ r hr).imp_right (Or.imp_right (hreached k r))

theorem originalOwners_recordRemoval (now : Time) (key : Key) (sh : DistShard V) :
    (sh.recordRemoval now key).originalOwners = sh.originalOwners := by
  unfold DistShard.recordRemoval
  split <;> rfl

theorem originalOwners_release (cfg : DistConfig) (now : Time) (primary : NodeID) (key : Key)
    (sh : DistShard V) : (sh.release cfg now primary key).originalOwners = sh.originalOwners := by
  unfold DistShard.release
  dsimp only
  split
  · split
    · exact originalOwners_recordRemoval now key _
    · rfl
  · rfl

section

variable {cfg : DistConfig} {now : Time} {peers : Peers V}

theorem covered_diffMove {h h' : History V} (hc : Covered cfg h)
    (hmove : DiffMove cfg now peers h h') : Covered cfg h' := by
  cases hmove with
  | @record key hlost =>
      refine hc.of_keeps rfl (fun k b hb => ?_) (fun _ _ hr => hr)
      show (DistShard.recordRemoval now key h.node.shard).originalOwners.lookup k = _
      rw [originalOwners_recordRemoval, hb]
  | send dst hhead =>
      exact hc.of_keeps rfl (fun k b hb => owners_forwardSet _ hb)
        (fun k r => Or.imp_left (sent_forwardSet_of_sent _))
  | leaveOut left =>
      exact hc.of_keeps rfl (fun _ _ hb => hb)
        (fun k r => Or.imp_right (List.mem_append_left left))
  | @baseline key hhead hcovered =>
      refine ⟨fun k f hf => ?_, fun k f b hf hb r hr => ?_⟩
      · obtain ⟨b, hb⟩ := hc.known k f hf
        show ∃ b, (h.node.shard.setOwnerBaseline _ _).originalOwners.lookup k = some b
        rw [DistShard.lookup_setOwnerBaseline]
        split
        · exact ⟨_, rfl⟩
        · exact ⟨b, hb⟩
      · have hb' : (h.node.shard.setOwnerBaseline key
            (cfg.lookupOwners key)).originalOwners.lookup k = some b := hb
        rw [DistShard.lookup_setOwnerBaseline] at hb'
        by_cases hk : k = key
        · subst hk
          rw [if_pos rfl, Option.some.injEq] at hb'
          rw [← hb'] at hr
          obtain ⟨prev, hprev⟩ := hc.known k f hf
          rcases hcovered prev hprev r hr with hself | hold | hreached
          · exact Or.inl hself
          · exact hc.reached k f prev hf hprev r hold
          · exact Or.inr (Or.inr hreached)
        · rw [if_neg hk] at hb'
          exact hc.reached k f b hf hb' r hr

theorem covered_move {h h' : History V} (hc : Covered cfg h) (hmove : Move cfg now peers h h') :
    Covered cfg h' := by
  cases hmove with
  | diff hdiff => exact covered_diffMove hc hdiff
  | forward hhead hne =>
      exact hc.of_keeps rfl (fun k b hb => owners_forwardSet _ hb)
        (fun k r => Or.imp_left (sent_forwardSet_of_sent _))
  | hint hs => exact hc.of_keeps rfl (fun _ _ hb => hb) (fun _ _ hr => hr)
  | @release key primary hhead hne =>
      refine hc.of_keeps rfl (fun k b hb => ?_) (fun _ _ hr => hr)
      show (DistShard.release cfg now primary key h.node.shard).originalOwners.lookup k = _
      rw [originalOwners_release, hb]

end

theorem covered_observe {cfg : DistConfig} {h : History V} (hc : Covered cfg h) :
    Covered cfg h.observe := by
  refine ⟨fun k f hf => ?_, fun k f b hf hb r hr => ?_⟩
  · cases hfirst : h.firstOwners k with
    | none =>
        refine ⟨f, ?_⟩
        have hf' : (h.firstOwners k).or (h.node.shard.originalOwners.lookup k) = some f := hf
        rwa [hfirst, Option.none_or] at hf'
    | some f' => exact hc.known k f' hfirst
  · have hf' : (h.firstOwners k).or (h.node.shard.originalOwners.lookup k) = some f := hf
    have hb' : h.node.shard.originalOwners.lookup k = some b := hb
    cases hfirst : h.firstOwners k with
    | none =>
        rw [hfirst, Option.none_or, hb', Option.some.injEq] at hf'
        exact Or.inr (Or.inl (hf' ▸ hr))
    | some f' =>
        rw [hfirst, Option.some_or, Option.some.injEq] at hf'
        exact hf' ▸ hc.reached k f' b hfirst hb' r hr

section

variable [SizedValue V] (cfg : DistConfig)

theorem covered_tick (t : Tick V) {h : History V} (hc : Covered cfg h) :
    Covered cfg (h.runRebalanceTick cfg t) := by
  have hc' : Covered (cfg.withRing t.ring) h := ⟨hc.known, hc.reached⟩
  have hbefore := reflTransGen_inv (I := Covered (cfg.withRing t.ring))
    (fun _ _ => covered_move) (beforeShed_moves cfg t h) hc'
  have hshed : Covered (cfg.withRing t.ring) (h.runRebalanceTick cfg t) := by
    refine hbefore.of_keeps rfl (fun k b hb => ?_) (fun _ _ hr => hr)
    show (DistShard.shedRemovedKeys _ _ _).originalOwners.lookup k = _
    rw [(DistShard.shedRemovedKeys_records _ _ _).2, hb]
  exact ⟨hshed.known, hshed.reached⟩

theorem covered_step (h : History V) (e : NodeEvent V) (hc : Covered cfg h) :
    Covered cfg (step cfg h e) := by
  refine covered_observe ?_
  cases e with
  | tick t => exact covered_tick cfg t hc
  | applySet ring item =>
      exact hc.of_keeps rfl (fun k b hb => DistShard.owners_recordOriginalPrimary hb)
        (fun _ _ hr => hr)
  | applyForwardedSet ring item =>
      refine hc.of_keeps rfl (fun k b hb => ?_) (fun _ _ hr => hr)
      show (h.node.applyForwardedSet _ item).shard.originalOwners.lookup k = _
      rw [NodeState.applyForwardedSet_shard]
      exact DistShard.owners_applyForwardedSet hb
  | applyRemove ring now key => exact hc.of_keeps rfl (fun _ _ hb => hb) (fun _ _ hr => hr)

theorem covered_run (st : NodeState V) (events : List (NodeEvent V)) :
    Covered cfg (events.foldl (step cfg) (start st)) := by
  have hstart : Covered cfg ({ node := st } : History V) :=
    ⟨fun _ _ hf => (Option.some_ne_none _ hf.symm).elim,
      fun _ _ _ hf => (Option.some_ne_none _ hf.symm).elim⟩
  exact List.foldlRecOn events (step cfg) (covered_observe hstart)
    (fun h hc e _ => covered_step cfg h e hc)

/-! ## What the limit leaves out -/

/-- The calls of the replica diff. -/
def diffCalls (h : History V) : Nat := h.calls.countP (fun c => !c.replicate)

/-- The diff has made so many calls since `h₀`, and has left a peer out only at its limit. -/
def Limited (limit : Nat) (h₀ : History V) (acc : History V × Nat) : Prop :=
  acc.1.diffCalls = h₀.diffCalls + acc.2 ∧ (acc.1.cut = h₀.cut ∨ 0 < limit ∧ limit ≤ acc.2)

omit [SizedValue V] in
theorem limited_sendReplicaDiff {peers : Peers V} {limit : Nat} {h₀ : History V} (item : Item V)
    (rids : List NodeID) {acc : History V × Nat} (h : Limited limit h₀ acc) :
    Limited limit h₀ (sendReplicaDiff cfg peers limit item rids acc) := by
  induction rids generalizing acc with
  | nil => exact h
  | cons rid rest ih =>
      obtain ⟨h₁, processed⟩ := acc
      have hcalls : (forwardSet cfg peers ⟨rid, item, false⟩ h₁).1.diffCalls =
          h₀.diffCalls + (processed + 1) := by
        rw [← Nat.add_assoc, ← h.1]
        exact List.countP_append
      rw [sendReplicaDiff]
      split
      · exact ih h
      · dsimp only
        split
        case isTrue hlimit => exact ⟨hcalls, Or.inr hlimit⟩
        case isFalse =>
          exact ih ⟨hcalls, h.2.imp_right (And.imp_right Nat.le_succ_of_le)⟩

omit [SizedValue V] in
theorem limited_replDiffItem {now : Time} {peers : Peers V} {limit : Nat} {h₀ : History V}
    {acc : History V × Nat} (h : Limited limit h₀ acc) (item : Item V) :
    Limited limit h₀ (replDiffItem cfg now peers limit acc item) := by
  rw [replDiffItem]
  split
  · exact h
  · split
    · exact h
    · split
      · exact h
      · dsimp only
        split
        · exact h
        · split
          · exact h
          · exact limited_sendReplicaDiff cfg item _ h

theorem cut_migrateIfNeeded (now : Time) (peers : Peers V) (h : History V) (item : Item V) :
    (h.migrateIfNeeded cfg now peers item).cut = h.cut ∧
      (h.migrateIfNeeded cfg now peers item).diffCalls = h.diffCalls := by
  have hcalls (dst : NodeID) :
      (h.calls ++ [ForwardCall.mk dst item true]).countP (fun c => !c.replicate) =
        h.diffCalls :=
    List.countP_append
  rw [migrateIfNeeded]
  split
  · exact ⟨rfl, rfl⟩
  · split
    · exact ⟨rfl, rfl⟩
    · split
      · exact ⟨rfl, rfl⟩
      · rw [handOver]
        split
        case h_1 heq =>
          obtain rfl := (congrArg Prod.fst heq).symm
          exact ⟨rfl, hcalls _⟩
        case h_2 heq =>
          obtain rfl := (congrArg Prod.fst heq).symm
          exact ⟨rfl, hcalls _⟩

/-- An event leaves peers out only if it is a tick whose replica diff reaches its limit. -/
theorem cut_step (h : History V) (e : NodeEvent V) :
    (step cfg h e).cut = h.cut ∨ ∃ t, e = .tick t ∧ 0 < cfg.replicaDiffMaxPerTick ∧
      h.diffCalls + cfg.replicaDiffMaxPerTick ≤ (step cfg h e).diffCalls := by
  cases e with
  | tick t =>
      have hmigrated : (h.migrated cfg t).cut = h.cut ∧
          (h.migrated cfg t).diffCalls = h.diffCalls :=
        List.foldlRecOn (motive := fun h' : History V => h'.cut = h.cut ∧ h'.diffCalls =
          h.diffCalls) _ _ ⟨rfl, rfl⟩ fun h' hsame item _ =>
            have hone := cut_migrateIfNeeded (cfg.withRing t.ring) t.now t.peers h' item
            ⟨hone.1.trans hsame.1, hone.2.trans hsame.2⟩
      show (beforeShed cfg t h).cut = h.cut ∨ ∃ t', _ ∧ _ ∧ _ ≤ (beforeShed cfg t h).diffCalls
      rw [beforeShed, replicateNewReplicas]
      split
      · exact Or.inl hmigrated.1
      · obtain ⟨hcalls, hcut⟩ := List.foldlRecOn
          (motive := Limited cfg.replicaDiffMaxPerTick (h.migrated cfg t)) _ _
          (⟨rfl, Or.inl rfl⟩ : Limited _ _ (h.migrated cfg t, 0)) fun acc hacc item _ =>
            limited_replDiffItem (cfg.withRing t.ring) hacc item
        rw [hmigrated.2] at hcalls
        refine hcut.imp (fun hsame => hsame.trans hmigrated.1) fun hlimit => ?_
        exact ⟨t, rfl, hlimit.1, (Nat.add_le_add_left hlimit.2 _).trans_eq hcalls.symm⟩
  | _ => exact Or.inl rfl

/-- After every event, every owner other than the node in a key's baseline that was not in the
key's first baseline has been sent the item by some tick's replica diff, or the limit of a tick
was reached before its turn, as it is only in a tick that makes as many calls. -/
theorem baseline_sent_run (st : NodeState V) (events : List (NodeEvent V)) :
    let h := events.foldl (step cfg) (start st)
    (∀ key baseline first, h.node.shard.originalOwners.lookup key = some baseline →
      h.firstOwners key = some first →
      ∀ r ∈ baseline, r ≠ cfg.localNode → r ∉ first →
        (∃ c ∈ h.calls, c.dst = r ∧ c.item.key = key ∧ c.replicate = false) ∨
          (key, r) ∈ h.cut) ∧
    ∀ e, (step cfg h e).cut = h.cut ∨ ∃ t, e = .tick t ∧ 0 < cfg.replicaDiffMaxPerTick ∧
      h.diffCalls + cfg.replicaDiffMaxPerTick ≤ (step cfg h e).diffCalls := by
  intro h
  refine ⟨fun key baseline first hbaseline hfirst r hr hself hnew => ?_, cut_step cfg h⟩
  rcases (covered_run cfg st events).reached key first baseline hfirst hbaseline r hr with
    heq | hold | hreached
  · exact absurd heq hself
  · exact absurd hold hnew
  · exact hreached

end

/-- The node stores an item while it is alone, and later ticks find a replica `b`, which
answers every call with `ok` in the first of them. -/
def joined (ok : Bool) : List (NodeEvent Str) :=
  [.applySet (tickOn [[97]] 0 ok : Tick Str).ring World.sampleItem,
    .tick (tickOn [[97], [98]] 0 ok),
    .tick (tickOn [[97], [98]] 1 true)]

def freshNode : NodeState Str := { shard := .empty }

theorem baseline_sent_joined :
    let h := (joined true).foldl (step plainConfig) (start freshNode)
    h.node.shard.originalOwners.lookup [107] = some [[97], [98]] ∧
      h.firstOwners [107] = some [[97]] ∧
      ((∃ c ∈ h.calls, c.dst = [98] ∧ c.item.key = [107] ∧ c.replicate = false) ∨
        ([107], [98]) ∈ h.cut) := by
  intro h
  have hbaseline : h.node.shard.originalOwners.lookup [107] = some [[97], [98]] := by decide
  have hfirst : h.firstOwners [107] = some [[97]] := by decide
  exact ⟨hbaseline, hfirst, (baseline_sent_run plainConfig freshNode (joined true)).1 [107]
    _ _ hbaseline hfirst [98] (by decide) (by decide) (by decide)⟩

/-- The only call to the new replica fails.  The replica is in the baseline all the same, and
the next tick sends it nothing. -/
theorem baseline_not_delivered :
    let h := (joined false).foldl (step plainConfig) (start freshNode)
    h.node.shard.originalOwners.lookup [107] = some [[97], [98]] ∧
      h.firstOwners [107] = some [[97]] ∧ h.calls.length = 1 ∧ h.delivered = [] :=
  ⟨rfl, rfl, rfl, rfl⟩

/-! ## Lost primacy -/

section

variable {cfg : DistConfig} {now : Time} {peers : Peers V} {key : Key}

theorem primary_recordRemoval (k : Key) (sh : DistShard V) :
    (sh.recordRemoval now k).originalPrimary = sh.originalPrimary := by
  unfold DistShard.recordRemoval
  split <;> rfl

theorem primary_forwardSet {primary : NodeID} (c : ForwardCall V) {h : History V}
    (hrecord : h.node.shard.originalPrimary.lookup key = some primary) :
    (h.forwardSet cfg peers c).1.node.shard.originalPrimary.lookup key = some primary :=
  receive_inv (P := fun st => st.shard.originalPrimary.lookup key = some primary)
    (fun st it _ hst => by
      rw [NodeState.applyForwardedSet_shard]
      exact DistShard.primary_applyForwardedSet hst) hrecord

/-- A tick does not touch the record of a key of which the node is the primary. -/
theorem primary_move (hhead : (cfg.lookupOwners key).head? = some cfg.localNode)
    {primary : NodeID} {h h' : History V}
    (hrecord : h.node.shard.originalPrimary.lookup key = some primary)
    (hmove : Move cfg now peers h h') :
    h'.node.shard.originalPrimary.lookup key = some primary := by
  cases hmove with
  | diff hdiff =>
      cases hdiff with
      | @record k hlost =>
          show (DistShard.recordRemoval now k h.node.shard).originalPrimary.lookup key = _
          rw [primary_recordRemoval, hrecord]
      | send dst _ => exact primary_forwardSet _ hrecord
      | leaveOut left => exact hrecord
      | baseline _ _ => exact hrecord
  | forward _ _ => exact primary_forwardSet _ hrecord
  | hint hs => exact hrecord
  | @release k p hother hne =>
      have hk : key ≠ k := by
        rintro rfl
        rw [hhead] at hother
        exact hne (Option.some.inj hother).symm
      exact (DistShard.sameFor_release hk h.node.shard).2.trans hrecord

end

section

variable [SizedValue V] (cfg : DistConfig)

theorem primary_tick {t : Tick V} {key : Key}
    (hhead : ((cfg.withRing t.ring).lookupOwners key).head? = some cfg.localNode)
    {primary : NodeID} {h : History V}
    (hrecord : h.node.shard.originalPrimary.lookup key = some primary) :
    (step cfg h (.tick t)).node.shard.originalPrimary.lookup key = some primary := by
  have hbefore := reflTransGen_inv
    (I := fun h => h.node.shard.originalPrimary.lookup key = some primary)
    (fun _ _ => primary_move hhead) (beforeShed_moves cfg t h) hrecord
  show (DistShard.shedRemovedKeys _ _ _).originalPrimary.lookup key = _
  rw [(DistShard.shedRemovedKeys_records _ _ _).1, hbefore]

/-- Nothing but a tick replaces a record. -/
theorem primary_step {e : NodeEvent V} (he : e.tick? = none) {key : Key} {primary : NodeID}
    {h : History V} (hrecord : h.node.shard.originalPrimary.lookup key = some primary) :
    (step cfg h e).node.shard.originalPrimary.lookup key = some primary := by
  cases e with
  | tick t => cases he
  | applySet ring item => exact DistShard.primary_recordOriginalPrimary hrecord
  | applyForwardedSet ring item =>
      show (h.node.applyForwardedSet _ item).shard.originalPrimary.lookup key = _
      rw [NodeState.applyForwardedSet_shard]
      exact DistShard.primary_applyForwardedSet hrecord
  | applyRemove ring now k => exact hrecord

/-- Of every stored key of which the tick finds the node the primary, the node is the
primary on record. -/
def RecordsPrimacy (h : History V) : NodeEvent V → Prop
  | .tick t => ∀ it, h.node.shard.items.get it.key = some it →
      ((cfg.withRing t.ring).lookupOwners it.key).head? = some cfg.localNode →
      h.node.shard.originalPrimary.lookup it.key = some cfg.localNode
  | _ => True

/-- In a run whose ticks find the node the primary only of stored keys whose recorded primary it
is, a key of which it was the primary at one tick and another node is at the next is a candidate
at the next. -/
theorem lost_primacy_run {h₀ : History V} {events : List (NodeEvent V)}
    (hrun : Along (step cfg) (RecordsPrimacy cfg) h₀ events) (before : List (NodeEvent V))
    (t : Tick V) (between : List (NodeEvent V)) (t' : Tick V) (after : List (NodeEvent V))
    (hevents : events = before ++ .tick t :: (between ++ .tick t' :: after))
    (hbetween : ∀ e ∈ between, e.tick? = none) :
    let h := before.foldl (step cfg) h₀
    let h' := (before ++ .tick t :: between).foldl (step cfg) h₀
    ∀ it it', h.node.shard.items.get it.key = some it →
      h'.node.shard.items.get it.key = some it' →
      ((cfg.withRing t.ring).lookupOwners it.key).head? = some cfg.localNode →
      (∃ primary, ((cfg.withRing t'.ring).lookupOwners it.key).head? = some primary ∧
        primary ≠ cfg.localNode) →
      it' ∈ (h'.collected cfg t').2 := by
  intro h h' it it' hget hget' hhead hlost
  -- The record is there before the first tick and stays until the second.
  have hbefore : Along (step cfg) (RecordsPrimacy cfg) h
      (.tick t :: (between ++ .tick t' :: after)) := by
    rw [hevents] at hrun
    exact (along_append.mp hrun).2
  have hrecord := hbefore.1 it hget hhead
  have hend : h' = between.foldl (step cfg) (step cfg h (.tick t)) := by
    show (before ++ .tick t :: between).foldl (step cfg) h₀ = _
    rw [List.foldl_append, List.foldl_cons]
  have hrecord' : h'.node.shard.originalPrimary.lookup it.key = some cfg.localNode := by
    rw [hend]
    exact List.foldlRecOn
      (motive := fun h => h.node.shard.originalPrimary.lookup it.key = some cfg.localNode)
      between (step cfg) (primary_tick cfg hhead hrecord)
      (fun h hh e he => primary_step cfg (hbetween e he) hh)
  have hkey : it'.key = it.key := ConcurrentMap.key_of_get hget'
  refine mem_collected.mpr ⟨by rw [hkey]; exact hget', ?_⟩
  obtain ⟨primary, hprimary, hne⟩ := hlost
  rw [hkey, DistShard.lostKey, hrecord']
  cases hown : (cfg.withRing t'.ring).ownsKeyInternal it.key with
  | false => rfl
  | true =>
      rw [if_neg (by simp)]
      cases howners : (cfg.withRing t'.ring).lookupOwners it.key with
      | nil =>
          rw [howners] at hprimary
          cases hprimary
      | cons cur rest =>
          rw [howners] at hprimary
          have hcur : cur ≠ cfg.localNode := (Option.some.inj hprimary).symm ▸ hne
          simp [hcur, DistConfig.withRing]

end

/-- The item reaches `b` while `a` is its primary.  Then `a` is away for a tick and back at
the next: `b` was the primary and is not any more, and the scan does not pick the key. -/
theorem lost_primacy_missed :
    let cfg : DistConfig := { localNode := [98], ring := none }
    let t : Tick Str := tickOn [[98]] 0 true
    let t' : Tick Str := tickOn [[97], [98]] 1 true
    let h := step cfg (start freshNode)
      (.applyForwardedSet (some (.fixed [[97], [98]] (by decide))) World.sampleItem)
    let h' := step cfg h (.tick t)
    h.node.shard.items.get [107] = some World.sampleItem ∧
      ((cfg.withRing t.ring).lookupOwners [107]).head? = some cfg.localNode ∧
      h'.node.shard.items.get [107] = some World.sampleItem ∧
      ((cfg.withRing t'.ring).lookupOwners [107]).head? = some [97] ∧
      (h'.collected cfg t').2 = [] := by
  decide

/-- The node holds the item as its primary from the start, and loses the primacy to `b`. -/
theorem lost_primacy_run_moved :
    let t : Tick Str := tickOn [[97], [98]] 0 true
    let t' : Tick Str := tickOn [[98], [97]] 1 true
    let h := step plainConfig (start primaryNode) (.tick t)
    Along (step plainConfig) (RecordsPrimacy plainConfig) (start primaryNode)
        [.tick t, .tick t'] ∧
      World.sampleItem ∈ (h.collected plainConfig t').2 := by
  intro t t' h
  have hrun : Along (step plainConfig) (RecordsPrimacy plainConfig) (start primaryNode)
      [.tick t, .tick t'] := by
    refine ⟨fun it hget _ => ?_, fun it _ hhead => ?_, trivial⟩
    · have hget' : (ConcurrentMap.empty.set World.sampleItem).get it.key = some it := hget
      rw [ConcurrentMap.get_set] at hget'
      split at hget'
      case isTrue hkey =>
        rw [hkey]
        rfl
      case isFalse => cases hget'
    · have hother : some ([98] : NodeID) = some [97] := hhead
      exact absurd hother (by decide)
  exact ⟨hrun, lost_primacy_run plainConfig hrun [] t [] t' [] rfl
    (fun e he => absurd he List.not_mem_nil) World.sampleItem World.sampleItem rfl (by decide) rfl
    ⟨[98], rfl, by decide⟩⟩

end History

end HyperCache
