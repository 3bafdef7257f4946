/-
Rebalancing on a steady ring: a tick forwards each candidate once, and the next tick
finds none.

The scan has two reasons to pick a key and a migration clears each in its own way: a key
the node no longer owns is released, and for a key it still owns the new primary is put on
record.  What a peer fans back cannot undo either, because the ownership guard refuses the
first kind and a record is never overwritten for the second.
-/
import Mathlib.Data.List.Dedup
import HyperCache.RebalanceTick

namespace HyperCache

open Keyed Runs

variable {V : Type}

namespace DistShard

/-- The scan has no reason to pick the key again. -/
def Settled (cfg : DistConfig) (key : Key) (sh : DistShard V) : Prop :=
  if cfg.ownsKeyInternal key then
    ∃ primary, sh.originalPrimary.lookup key = some primary ∧ primary ≠ cfg.localNode
  else sh.items.get key = none

/-- What the scan looks at is as it was. -/
def SameFor (key : Key) (sh sh' : DistShard V) : Prop :=
  sh'.items.get key = sh.items.get key ∧
    sh'.originalPrimary.lookup key = sh.originalPrimary.lookup key

theorem Settled.of_sameFor {cfg : DistConfig} {key : Key} {sh sh' : DistShard V}
    (h : Settled cfg key sh) (hsame : SameFor key sh sh') : Settled cfg key sh' := by
  unfold Settled at h ⊢
  rwa [hsame.1, hsame.2]

theorem Settled.not_lost {cfg : DistConfig} {it : Item V} {sh : DistShard V}
    (h : Settled cfg it.key sh) (hget : sh.items.get it.key = some it) :
    sh.lostKey cfg it.key = false := by
  unfold Settled at h
  unfold lostKey
  cases howns : cfg.ownsKeyInternal it.key with
  | false =>
      rw [howns, if_neg Bool.false_ne_true, hget] at h
      cases h
  | true =>
      rw [howns, if_pos rfl] at h
      obtain ⟨primary, hrecord, hne⟩ := h
      rw [if_neg (by simp), hrecord]
      cases cfg.lookupOwners it.key with
      | nil => rfl
      | cons cur rest => simp [hne]

theorem sameFor_applyForwardedSet {cfg : DistConfig} {item : Item V} {key : Key}
    (hkey : key ≠ item.key) (sh : DistShard V) :
    SameFor key sh (sh.applyForwardedSet cfg item) := by
  unfold applyForwardedSet
  split
  · refine ⟨?_, ?_⟩
    · rw [applySet_items, ConcurrentMap.get_set_ne _ hkey]
    · show (sh.recordOriginalPrimary cfg item.key).originalPrimary.lookup key = _
      unfold recordOriginalPrimary
      split
      · rfl
      · split
        · rfl
        · split
          · rfl
          · exact AList.lookup_insert_ne hkey
  · exact ⟨rfl, rfl⟩

theorem settled_applyForwardedSet {cfg : DistConfig} (item : Item V) {key : Key}
    {sh : DistShard V} (h : Settled cfg key sh) :
    Settled cfg key (sh.applyForwardedSet cfg item) := by
  by_cases hkey : key = item.key
  · subst hkey
    unfold Settled at h ⊢
    split
    case isTrue howns =>
      rw [if_pos howns] at h
      obtain ⟨primary, hrecord, hne⟩ := h
      exact ⟨primary, primary_applyForwardedSet hrecord, hne⟩
    case isFalse howns =>
      rw [if_neg howns] at h
      rw [applyForwardedSet, if_neg (by rw [DistConfig.acceptsForwarded_eq]; exact howns)]
      exact h
  · exact h.of_sameFor (sameFor_applyForwardedSet hkey sh)

theorem sameFor_release {cfg : DistConfig} {now : Time} {primary : NodeID} {key k : Key}
    (hk : k ≠ key) (sh : DistShard V) : SameFor k sh (sh.release cfg now primary key) := by
  refine ⟨?_, ?_⟩
  · rw [World.release_get, if_neg (fun h => hk h.2.2)]
  · unfold release recordRemoval
    dsimp only
    split
    · split
      · split <;> exact AList.lookup_insert_ne hk
      · exact AList.lookup_insert_ne hk
    · exact AList.lookup_insert_ne hk

theorem settled_release {cfg : DistConfig} (hgrace : cfg.removalGracePeriod ≤ 0) (now : Time)
    {primary : NodeID} (hne : primary ≠ cfg.localNode) (key : Key) (sh : DistShard V) :
    Settled cfg key (sh.release cfg now primary key) := by
  unfold Settled
  split
  case isTrue howns =>
    refine ⟨primary, ?_, hne⟩
    unfold release
    dsimp only
    rw [howns, if_neg (by simp)]
    exact AList.lookup_insert _
  case isFalse howns =>
    rw [World.release_get, if_pos ⟨Bool.eq_false_iff.mpr howns, hgrace, rfl⟩]

end DistShard

namespace History

variable (cfg : DistConfig)

/-- The call that hands an item over to its primary. -/
def handOverCall (item : Item V) : ForwardCall V :=
  ⟨((cfg.lookupOwners item.key).head?).getD [], item, true⟩

/-- The shard when some keys are settled, after a start from `sh₀` in which nothing but
keys of `touched` changed for the scan. -/
structure Progress (sh₀ : DistShard V) (settled touched : List Key) (sh : DistShard V) :
    Prop where
  settled : ∀ k ∈ settled, DistShard.Settled cfg k sh
  same : ∀ k, k ∉ touched → DistShard.SameFor k sh₀ sh

variable {cfg} {sh₀ : DistShard V} {settled touched : List Key}

theorem Progress.of_sameFor {sh sh' : DistShard V} (h : Progress cfg sh₀ settled touched sh)
    (hitems : sh'.items = sh.items) (hprimary : sh'.originalPrimary = sh.originalPrimary) :
    Progress cfg sh₀ settled touched sh' := by
  have hsame : ∀ k, DistShard.SameFor k sh sh' := fun k => ⟨by rw [hitems], by rw [hprimary]⟩
  refine ⟨fun k hk => (h.settled k hk).of_sameFor (hsame k), fun k hk => ?_⟩
  exact ⟨(hsame k).1.trans (h.same k hk).1, (hsame k).2.trans (h.same k hk).2⟩

theorem Progress.receive {items : List (Item V)} (hitems : ∀ it ∈ items, it.key ∈ touched)
    {st : NodeState V} (h : Progress cfg sh₀ settled touched st.shard) :
    Progress cfg sh₀ settled touched (History.receive cfg items st).shard := by
  refine receive_inv (P := fun st => Progress cfg sh₀ settled touched st.shard)
    (fun st it hit hst => ?_) h
  rw [NodeState.applyForwardedSet_shard]
  refine ⟨fun k hk => DistShard.settled_applyForwardedSet it (hst.settled k hk),
    fun k hk => ?_⟩
  have hne : k ≠ it.key := fun heq => hk (heq ▸ hitems it hit)
  have hsame : DistShard.SameFor k st.shard (st.shard.applyForwardedSet cfg it) :=
    DistShard.sameFor_applyForwardedSet hne st.shard
  exact ⟨hsame.1.trans (hst.same k hk).1, hsame.2.trans (hst.same k hk).2⟩

theorem Progress.release (hgrace : cfg.removalGracePeriod ≤ 0) (now : Time) {primary : NodeID}
    (hne : primary ≠ cfg.localNode) {key : Key} (hkey : key ∈ touched) {sh : DistShard V}
    (h : Progress cfg sh₀ settled touched sh) :
    Progress cfg sh₀ (settled ++ [key]) touched (sh.release cfg now primary key) := by
  refine ⟨fun k hk => ?_, fun k hk => ?_⟩
  · by_cases heq : k = key
    · rw [heq]
      exact DistShard.settled_release hgrace now hne key sh
    · have hk' : k ∈ settled := by simpa [heq] using hk
      exact (h.settled k hk').of_sameFor (DistShard.sameFor_release heq sh)
  · have hne : k ≠ key := fun heq => hk (heq ▸ hkey)
    have hsame : DistShard.SameFor k sh (sh.release cfg now primary key) :=
      DistShard.sameFor_release hne sh
    exact ⟨hsame.1.trans (h.same k hk).1, hsame.2.trans (h.same k hk).2⟩

/-- A candidate has another primary. -/
theorem primary_of_lost {key : Key} {sh : DistShard V} (h : sh.lostKey cfg key = true) :
    ∃ primary rest, cfg.lookupOwners key = primary :: rest ∧ primary ≠ cfg.localNode := by
  unfold DistShard.lostKey at h
  cases howns : cfg.ownsKeyInternal key with
  | false => exact cfg.primary_of_not_owned howns
  | true =>
      rw [howns, if_neg (by simp)] at h
      cases howners : cfg.lookupOwners key with
      | nil => simp [howners] at h
      | cons primary rest =>
          refine ⟨primary, rest, rfl, ?_⟩
          rw [howners] at h
          cases hrecord : sh.originalPrimary.lookup key with
          | none => simp [hrecord] at h
          | some prev =>
              rw [hrecord] at h
              simp at h
              exact h.2

/-- The history while the candidates are handed over: those handed over are settled and
were called for in their order, and the others are as the scan saw them. -/
structure Handed (cfg : DistConfig) (sh₀ : DistShard V) (handed : List (Item V))
    (h : History V) : Prop where
  calls : h.calls = handed.map (handOverCall cfg)
  progress : Progress cfg sh₀ (handed.map Item.key) (handed.map Item.key) h.node.shard

section

variable [SizedValue V]

theorem handOver_calls (now : Time) (peers : Peers V) (primary : NodeID) (item : Item V)
    (h : History V) :
    (h.handOver cfg now peers primary item).calls = h.calls ++ [⟨primary, item, true⟩] := by
  unfold handOver forwardSet
  dsimp only
  cases peers.succeeds ⟨primary, item, true⟩ <;> rfl

theorem handOver_shard (now : Time) (peers : Peers V) (primary : NodeID) (item : Item V)
    (h : History V) :
    (h.handOver cfg now peers primary item).node.shard =
      (receive cfg (peers.fanBack (h.calls ++ [⟨primary, item, true⟩])) h.node).shard := by
  unfold handOver forwardSet
  dsimp only
  cases peers.succeeds ⟨primary, item, true⟩ <;> rfl

theorem handed_migrate (ht : cfg.hasTransport = true) (hgrace : cfg.removalGracePeriod ≤ 0)
    (now : Time) (peers : Peers V) {handed : List (Item V)} {h : History V}
    (hh : Handed cfg sh₀ handed h) {item : Item V} {primary : NodeID} {rest : List NodeID}
    (howners : cfg.lookupOwners item.key = primary :: rest) (hne : primary ≠ cfg.localNode) :
    Handed cfg sh₀ (handed ++ [item]) (h.migrateIfNeeded cfg now peers item) := by
  have hcall : handOverCall cfg item = ⟨primary, item, true⟩ := by
    rw [handOverCall, howners]
    rfl
  have hcalls : h.calls ++ [⟨primary, item, true⟩] =
      (handed ++ [item]).map (handOverCall cfg) := by
    rw [List.map_append, List.map_singleton, hcall, hh.calls]
  -- What comes back was handed over before or is being handed over now.
  have hback : ∀ it ∈ peers.fanBack (h.calls ++ [⟨primary, item, true⟩]),
      it.key ∈ (handed ++ [item]).map Item.key := by
    intro it hit
    obtain ⟨c, hc, -, rfl⟩ := peers.fanBack_forwarded _ it hit
    rw [hcalls] at hc
    obtain ⟨it', hit', rfl⟩ := List.mem_map.mp hc
    exact List.mem_map_of_mem hit'
  have hbefore : Progress cfg sh₀ (handed.map Item.key) ((handed ++ [item]).map Item.key)
      h.node.shard := by
    refine ⟨hh.progress.settled, fun k hk => hh.progress.same k (fun hmem => hk ?_)⟩
    rw [List.map_append]
    exact List.mem_append_left _ hmem
  have hreceived := hbefore.receive hback
  have hitem : item.key ∈ (handed ++ [item]).map Item.key := by simp
  have hreleased := hreceived.release hgrace now hne hitem
  rw [← List.map_singleton, ← List.map_append] at hreleased
  rw [migrateIfNeeded, howners]
  dsimp only
  rw [if_neg hne, if_neg (by simp [ht])]
  refine ⟨(handOver_calls now peers primary item h).trans hcalls, ?_⟩
  show Progress cfg sh₀ _ _ ((handOver cfg now peers primary item h).node.shard.release _ _ _ _)
  rw [handOver_shard]
  exact hreleased

theorem handed_migrateAll (ht : cfg.hasTransport = true) (hgrace : cfg.removalGracePeriod ≤ 0)
    (now : Time) (peers : Peers V) {items handed : List (Item V)} {h : History V}
    (hh : Handed cfg sh₀ handed h)
    (hlost : ∀ it ∈ items, ∃ primary rest,
      cfg.lookupOwners it.key = primary :: rest ∧ primary ≠ cfg.localNode) :
    Handed cfg sh₀ (handed ++ items) (items.foldl (migrateIfNeeded cfg now peers) h) := by
  induction items generalizing handed h with
  | nil =>
      rw [List.append_nil]
      exact hh
  | cons item rest ih =>
      obtain ⟨⟨primary, owners, howners, hne⟩, hrest⟩ := List.forall_mem_cons.mp hlost
      have hnext := ih (handed_migrate ht hgrace now peers hh howners hne) hrest
      rwa [List.append_assoc] at hnext

end

/-- The history during the replica diff: the calls of the diff are for keys of which the
node is the primary. -/
structure Diffed (cfg : DistConfig) (sh₀ : DistShard V) (handed : List (Item V))
    (h : History V) : Prop where
  calls : ∃ own, h.calls = handed.map (handOverCall cfg) ++ own ∧ ∀ c ∈ own,
    c.replicate = false ∧ (cfg.lookupOwners c.item.key).head? = some cfg.localNode
  progress : Progress cfg sh₀ (handed.map Item.key) (handed.map Item.key) h.node.shard

theorem Diffed.fanBack {handed : List (Item V)} {h : History V} (hh : Diffed cfg sh₀ handed h)
    (peers : Peers V) : ∀ it ∈ peers.fanBack h.calls, it.key ∈ handed.map Item.key := by
  intro it hit
  obtain ⟨own, hcalls, hown⟩ := hh.calls
  obtain ⟨c, hc, hrep, rfl⟩ := peers.fanBack_forwarded _ it hit
  rw [hcalls] at hc
  rcases List.mem_append.mp hc with hc | hc
  · obtain ⟨it', hit', rfl⟩ := List.mem_map.mp hc
    exact List.mem_map_of_mem hit'
  · rw [(hown c hc).1] at hrep
    cases hrep

theorem diffed_move {now : Time} {peers : Peers V} {handed : List (Item V)} {h h' : History V}
    (hh : Diffed cfg sh₀ handed h) (hmove : DiffMove cfg now peers h h') :
    Diffed cfg sh₀ handed h' := by
  cases hmove with
  | @record key hlost =>
      refine ⟨hh.calls, hh.progress.of_sameFor ?_ ?_⟩
      · show (DistShard.recordRemoval now key h.node.shard).items = _
        unfold DistShard.recordRemoval
        split <;> rfl
      · show (DistShard.recordRemoval now key h.node.shard).originalPrimary = _
        unfold DistShard.recordRemoval
        split <;> rfl
  | @send item dst hhead =>
      obtain ⟨own, hcalls, hown⟩ := hh.calls
      have hcalls' : ∃ own, h.calls ++ [⟨dst, item, false⟩] =
          handed.map (handOverCall cfg) ++ own ∧ ∀ c ∈ own,
            c.replicate = false ∧ (cfg.lookupOwners c.item.key).head? = some cfg.localNode := by
        refine ⟨own ++ [⟨dst, item, false⟩], by rw [hcalls, List.append_assoc], fun c hc => ?_⟩
        rcases List.mem_append.mp hc with hc | hc
        · exact hown c hc
        · rw [List.mem_singleton.mp hc]
          exact ⟨rfl, hhead⟩
      have hsent : Diffed cfg sh₀ handed { h with calls := h.calls ++ [⟨dst, item, false⟩] } :=
        ⟨hcalls', hh.progress⟩
      exact ⟨hcalls', hh.progress.receive (hsent.fanBack peers)⟩
  | leaveOut left => exact ⟨hh.calls, hh.progress⟩
  | baseline hhead hcovered => exact ⟨hh.calls, hh.progress.of_sameFor rfl rfl⟩

theorem mem_collected {t : Tick V} {h : History V} {it : Item V} :
    it ∈ (h.collected cfg t).2 ↔
      h.node.shard.items.get it.key = some it ∧
        h.node.shard.lostKey (cfg.withRing t.ring) it.key = true := by
  show it ∈ (DistShard.collectOver _ _ _ _).2 ↔ _
  rw [(World.collectOver_spec _ _ _ _).2.2, List.mem_filter, (t.scan.perm _).mem_iff,
    ConcurrentMap.mem_all]

theorem nodup_collected (t : Tick V) (h : History V) :
    ((h.collected cfg t).2.map Item.key).Nodup := by
  show ((DistShard.collectOver _ _ _ _).2.map Item.key).Nodup
  rw [(World.collectOver_spec _ _ _ _).2.2]
  refine List.Nodup.sublist (List.filter_sublist.map _) ?_
  rw [((t.scan.perm _).map Item.key).nodup_iff, ConcurrentMap.map_key_all]
  exact h.node.shard.items.keys_nodup

section

variable [SizedValue V]

/-- After a tick its candidates are settled, and the rest is as the scan saw it. -/
theorem diffed_tick (ht : cfg.hasTransport = true) (hgrace : cfg.removalGracePeriod ≤ 0)
    (t : Tick V) (st : NodeState V) :
    Diffed (cfg.withRing t.ring) st.shard
      (t.batches.arrange (History.collected cfg t { node := st }).2)
      (History.runRebalanceTick cfg t { node := st }) := by
  obtain ⟨hitems, hprimary, -⟩ := World.collectOver_spec (cfg.withRing t.ring) t.now
    (t.scan.arrange st.shard.items.all) st.shard
  have hstart : Handed (cfg.withRing t.ring) st.shard []
      (History.collected cfg t { node := st }).1 := by
    refine ⟨rfl, fun k hk => absurd hk List.not_mem_nil, fun k _ => ⟨?_, ?_⟩⟩
    · show (DistShard.collectOver _ _ _ _).1.items.get k = _
      rw [hitems]
    · show (DistShard.collectOver _ _ _ _).1.originalPrimary.lookup k = _
      rw [hprimary]
  have hcandidates : ∀ it ∈ t.batches.arrange (History.collected cfg t { node := st }).2,
      ∃ primary rest, (cfg.withRing t.ring).lookupOwners it.key = primary :: rest ∧
        primary ≠ cfg.localNode := fun it hit =>
    primary_of_lost (mem_collected.mp ((t.batches.perm _).mem_iff.mp hit)).2
  have ht' : (cfg.withRing t.ring).hasTransport = true := ht
  have hgrace' : (cfg.withRing t.ring).removalGracePeriod ≤ 0 := hgrace
  have hmigrated := handed_migrateAll ht' hgrace' t.now t.peers hstart hcandidates
  rw [List.nil_append] at hmigrated
  have hdiffed := reflTransGen_inv (fun _ _ => diffed_move)
    (replicateNewReplicas_moves (cfg.withRing t.ring) t.now t.peers t.diff _)
    ⟨⟨[], by rw [hmigrated.calls, List.append_nil], fun c hc => absurd hc List.not_mem_nil⟩,
      hmigrated.progress⟩
  refine ⟨hdiffed.calls, hdiffed.progress.of_sameFor ?_ ?_⟩
  · show (DistShard.shedRemovedKeys _ _ _).items = _
    rw [DistShard.shedRemovedKeys, if_pos hgrace']
    rfl
  · show (DistShard.shedRemovedKeys _ _ _).originalPrimary = _
    rw [DistShard.shedRemovedKeys, if_pos hgrace']
    rfl

/-- On a node with a transport and no grace period a tick makes one call for each candidate,
to its new primary.  Unless something else than the fan-out of the tick's own forwards
arrives, the next tick on the same ring finds no candidate. -/
theorem rebalance_settles (ht : cfg.hasTransport = true) (hgrace : cfg.removalGracePeriod ≤ 0)
    (t t' : Tick V) (hring : t'.ring = t.ring) (late : Peers V) (st : NodeState V) :
    let h := History.runRebalanceTick cfg t { node := st }
    (∀ it ∈ (History.collected cfg t { node := st }).2, ∃ primary rest,
      (cfg.withRing t.ring).lookupOwners it.key = primary :: rest ∧ primary ≠ cfg.localNode ∧
        h.calls.filter (fun c => c.item.key = it.key) = [⟨primary, it, true⟩]) ∧
    (History.collected cfg t' { h with
      node := receive (cfg.withRing t.ring) (late.fanBack h.calls) h.node }).2 = [] := by
  intro h
  have hperm := t.batches.perm (History.collected cfg t { node := st }).2
  have hdiffed : Diffed (cfg.withRing t.ring) st.shard _ h := diffed_tick ht hgrace t st
  constructor
  · intro it hit
    obtain ⟨hget, hlost⟩ := mem_collected.mp hit
    obtain ⟨primary, rest, howners, hne⟩ := primary_of_lost hlost
    refine ⟨primary, rest, howners, hne, ?_⟩
    obtain ⟨own, hcalls, hown⟩ := hdiffed.calls
    have hnodup := (hperm.map Item.key).nodup_iff.mpr (nodup_collected t { node := st })
    have hownNone : own.filter (fun c => c.item.key = it.key) = [] := by
      refine List.filter_eq_nil_iff.mpr (fun c hc hkey => hne ?_)
      have hhead := (hown c hc).2
      rw [of_decide_eq_true hkey, howners] at hhead
      exact Option.some.inj hhead
    have hone := filter_key_eq_singleton hnodup (hperm.mem_iff.mpr hit)
    rw [hcalls, List.filter_append, hownNone, List.append_nil, List.filter_map]
    show ((t.batches.arrange _).filter (fun x => x.key = it.key)).map _ = _
    rw [hone, List.map_singleton, handOverCall, howners]
    rfl
  · rw [List.eq_nil_iff_forall_not_mem]
    intro it hit
    obtain ⟨hget, hlost⟩ := mem_collected.mp hit
    rw [hring] at hlost
    have hend := hdiffed.progress.receive (hdiffed.fanBack late)
    by_cases hkey : it.key ∈ (t.batches.arrange (History.collected cfg t { node := st }).2).map
        Item.key
    · rw [(hend.settled it.key hkey).not_lost hget] at hlost
      cases hlost
    · -- The key is as the first scan saw it, which would have picked it too.
      obtain ⟨hitems, hprimary⟩ := hend.same it.key hkey
      refine hkey (List.mem_map_of_mem (hperm.mem_iff.mpr (mem_collected.mpr ⟨?_, ?_⟩)))
      · exact hitems.symm.trans hget
      · rw [← hlost, DistShard.lostKey, DistShard.lostKey]
        dsimp only at hprimary ⊢
        rw [hprimary]

end

/-- Peers that give every call the same answer and fan everything back at once. -/
def echoing (ok : Bool) : Peers V where
  succeeds _ := ok
  fanBack calls := (calls.filter (·.replicate)).map (·.item)
  fanBack_forwarded := by
    intro calls it hit
    obtain ⟨c, hc, rfl⟩ := List.mem_map.mp hit
    obtain ⟨hmem, hrep⟩ := List.mem_filter.mp hc
    exact ⟨c, hmem, hrep, rfl⟩

/-- A tick on a ring that places every key on the given owners. -/
def tickOn (owners : List NodeID) (now : Time) (ok : Bool) : Tick V where
  ring := some (.fixed owners.dedup owners.nodup_dedup)
  now := now
  shedAt := now
  peers := echoing ok
  scan := .asStored _
  batches := .asStored _
  diff := .asStored _

/-- A node that stores one item, of which it was the primary. -/
def primaryNode : NodeState Str :=
  { shard := DistShard.empty.applySet
      { localNode := [97], ring := some (.fixed [[97], [98]] (by decide)) } World.sampleItem }

def plainConfig : DistConfig := { localNode := [97], ring := none }

/-- The primary has moved to `b`: the item is forwarded there, comes back, and is not
picked again. -/
theorem rebalance_settles_moved :
    let t : Tick Str := tickOn [[98], [97]] 0 true
    let h := History.runRebalanceTick plainConfig t { node := primaryNode }
    plainConfig.hasTransport = true ∧ plainConfig.removalGracePeriod ≤ 0 ∧
      (History.collected plainConfig t { node := primaryNode }).2 = [World.sampleItem] ∧
      (History.collected plainConfig t { h with
        node := receive (plainConfig.withRing t.ring) ((echoing true).fanBack h.calls) h.node }).2 =
          [] :=
  ⟨rfl, by decide, rfl, (rebalance_settles rfl (by decide) _ _ rfl (echoing true) primaryNode).2⟩

end History

end HyperCache
