/-
The grace period of a key that the node no longer owns.

The node remembers when it first saw that it does not own a key, and a tick sheds the copy
once that was long enough ago.  Nothing clears the record when the node owns the key again,
short of the shedding step at the end of the period.
-/
import HyperCache.RebalanceRuns

namespace HyperCache

open Keyed Runs

variable {V : Type}

namespace DistShard

theorem mem_due {cfg : DistConfig} {now : Time} {key : Key} {sh : DistShard V} :
    key ∈ sh.due cfg now ↔
      ∃ since, sh.removedAt.lookup key = some since ∧
        Time.sub now since ≥ cfg.removalGracePeriod := by
  unfold due
  constructor
  · intro hkey
    obtain ⟨⟨k, since⟩, hmem, rfl⟩ := List.mem_map.mp hkey
    obtain ⟨hentry, hold⟩ := List.mem_filter.mp hmem
    exact ⟨since, AList.mem_lookup_iff.mpr hentry, of_decide_eq_true hold⟩
  · rintro ⟨since, hsince, hold⟩
    refine List.mem_map.mpr ⟨⟨key, since⟩, List.mem_filter.mpr ⟨?_, ?_⟩, rfl⟩
    · exact AList.mem_lookup_iff.mp hsince
    · exact decide_eq_true hold

theorem lookup_foldl_erase (dels : List Key) (m : AList (fun _ : Key => Time)) (k : Key) :
    (dels.foldl (fun m k => m.erase k) m).lookup k = if k ∈ dels then none else m.lookup k := by
  induction dels generalizing m with
  | nil => rfl
  | cons d rest ih =>
      rw [List.foldl_cons, ih]
      by_cases hk : k = d
      · subst hk
        simp [AList.lookup_erase]
      · simp [hk, AList.lookup_erase_ne hk]

/-- With a grace period the step drops the records that are due, and of their keys the
copies the node does not own. -/
theorem shedRemovedKeys_spec (cfg : DistConfig) (hgrace : 0 < cfg.removalGracePeriod)
    (now : Time) (sh : DistShard V) :
    (∀ k, (sh.shedRemovedKeys cfg now).removedAt.lookup k =
        if k ∈ sh.due cfg now then none else sh.removedAt.lookup k) ∧
      ∀ k, (sh.shedRemovedKeys cfg now).items.get k =
        if k ∈ sh.due cfg now ∧ cfg.ownsKeyInternal k = false then none
        else sh.items.get k := by
  rw [shedRemovedKeys, if_neg (not_le.mpr hgrace), shedShard]
  obtain ⟨hremoved, -, -, hget⟩ := foldl_shed cfg (sh.due cfg now)
    { sh with removedAt := (sh.due cfg now).foldl (fun m k => m.erase k) sh.removedAt }
  refine ⟨fun k => ?_, hget⟩
  rw [hremoved]
  exact lookup_foldl_erase _ _ k

end DistShard

namespace History

theorem lookup_recordRemoval (now : Time) (key k : Key) (sh : DistShard V) :
    (sh.recordRemoval now key).removedAt.lookup k =
      if k = key then some ((sh.removedAt.lookup key).getD now) else sh.removedAt.lookup k := by
  unfold DistShard.recordRemoval
  split
  case isTrue hmem =>
    obtain ⟨since, hsince⟩ := Option.isSome_iff_exists.mp (AList.lookup_isSome.mpr hmem)
    split
    case isTrue hk => rw [hk, hsince, Option.getD_some]
    case isFalse => rfl
  case isFalse hnot =>
    split
    case isTrue hk =>
      rw [hk, AList.lookup_eq_none.mpr hnot, Option.getD_none]
      exact AList.lookup_insert _
    case isFalse hk => exact AList.lookup_insert_ne hk

theorem removedAt_recordOriginalPrimary (cfg : DistConfig) (key : Key) (sh : DistShard V) :
    (sh.recordOriginalPrimary cfg key).removedAt = sh.removedAt := by
  unfold DistShard.recordOriginalPrimary
  split
  · rfl
  · split
    · rfl
    · split <;> rfl

theorem removedAt_applyForwardedSet (cfg : DistConfig) (item : Item V) (st : NodeState V) :
    (st.applyForwardedSet cfg item).shard.removedAt = st.shard.removedAt := by
  rw [NodeState.applyForwardedSet_shard, DistShard.applyForwardedSet]
  split
  · exact removedAt_recordOriginalPrimary cfg item.key st.shard
  · rfl

section

variable {cfg : DistConfig} {now : Time} {peers : Peers V}

theorem removedAt_forwardSet (c : ForwardCall V) (h : History V) :
    (h.forwardSet cfg peers c).1.node.shard.removedAt = h.node.shard.removedAt :=
  receive_inv (P := fun st => st.shard.removedAt = h.node.shard.removedAt)
    (fun st it _ hst => (removedAt_applyForwardedSet cfg it st).trans hst) rfl

/-- From `h` on, records have only been added, with the clock of the tick and for keys the
node does not own. -/
def OnlyRecords (cfg : DistConfig) (now : Time) (sh sh' : DistShard V) : Prop :=
  ∀ k since,
    (sh.removedAt.lookup k = some since → sh'.removedAt.lookup k = some since) ∧
    (sh'.removedAt.lookup k = some since →
      sh.removedAt.lookup k = some since ∨ since = now ∧ cfg.ownsKeyInternal k = false)

theorem OnlyRecords.record {sh sh' : DistShard V} (h : OnlyRecords cfg now sh sh') {key : Key}
    (hlost : cfg.ownsKeyInternal key = false) :
    OnlyRecords cfg now sh (sh'.recordRemoval now key) := by
  intro k since
  rw [lookup_recordRemoval]
  by_cases hk : k = key
  · subst hk
    rw [if_pos rfl]
    constructor
    · intro hsince
      rw [(h k since).1 hsince, Option.getD_some]
    · intro hsince
      cases hold : sh'.removedAt.lookup k with
      | none =>
          rw [hold, Option.getD_none, Option.some.injEq] at hsince
          exact Or.inr ⟨hsince.symm, hlost⟩
      | some since' =>
          rw [hold, Option.getD_some, Option.some.injEq] at hsince
          subst hsince
          exact (h k since').2 hold
  · rw [if_neg hk]
    exact h k since

theorem OnlyRecords.of_eq {sh sh' sh'' : DistShard V} (h : OnlyRecords cfg now sh sh')
    (heq : sh''.removedAt = sh'.removedAt) : OnlyRecords cfg now sh sh'' := by
  intro k since
  rw [heq]
  exact h k since

theorem onlyRecords_move {sh : DistShard V} {h h' : History V}
    (hr : OnlyRecords cfg now sh h.node.shard) (hmove : Move cfg now peers h h') :
    OnlyRecords cfg now sh h'.node.shard := by
  cases hmove with
  | diff hdiff =>
      cases hdiff with
      | record hlost => exact hr.record hlost
      | send dst _ => exact hr.of_eq (removedAt_forwardSet _ h)
      | leaveOut left => exact hr
      | baseline _ _ => exact hr.of_eq rfl
  | forward _ _ => exact hr.of_eq (removedAt_forwardSet _ h)
  | hint hs => exact hr
  | @release key primary hhead hne =>
      show OnlyRecords cfg now sh (h.node.shard.release cfg now primary key)
      unfold DistShard.release
      dsimp only
      split
      case isTrue hlost =>
        rw [Bool.not_eq_true'] at hlost
        split
        · have hput : OnlyRecords cfg now sh { h.node.shard with
              originalPrimary := h.node.shard.originalPrimary.insert key primary } :=
            hr.of_eq rfl
          exact hput.record hlost
        · exact hr.of_eq rfl
      case isFalse => exact hr.of_eq rfl

end

section

variable [SizedValue V] (cfg : DistConfig)

theorem onlyRecords_tick (t : Tick V) (h : History V) :
    OnlyRecords (cfg.withRing t.ring) t.now h.node.shard (h.beforeShed cfg t).node.shard :=
  reflTransGen_inv
    (I := fun h' => OnlyRecords (cfg.withRing t.ring) t.now h.node.shard h'.node.shard)
    (fun _ _ => onlyRecords_move) (beforeShed_moves cfg t h)
    (fun _ _ => ⟨fun hsince => hsince, Or.inl⟩)

/-- At every past tick since a record was made the node did not own the key. -/
def LostSince (past : List (Tick V)) (h : History V) : Prop :=
  ∀ key since, h.node.shard.removedAt.lookup key = some since →
    ∀ t ∈ past, since ≤ t.now → (cfg.withRing t.ring).ownsKeyInternal key = false

/-- The removal record of a key that the tick finds owned is due at the tick, and the
shedding step drops it. -/
def DropsRegained (h : History V) : NodeEvent V → Prop
  | .tick t => ∀ key since, h.node.shard.removedAt.lookup key = some since →
      (cfg.withRing t.ring).ownsKeyInternal key = true →
      Time.sub t.shedAt since ≥ cfg.removalGracePeriod
  | _ => True

/-- Up to the shedding step, a tick records only keys lost at this very tick. -/
theorem lostSince_beforeShed {past : List (Tick V)} {t : Tick V}
    (hlater : ∀ t' ∈ past, t'.now < t.now) {h : History V} (hsince : LostSince cfg past h) :
    LostSince cfg past (h.beforeShed cfg t) := by
  intro key since hrecord t' ht' hle
  rcases (onlyRecords_tick cfg t h key since).2 hrecord with hold | ⟨hnow, -⟩
  · exact hsince key since hold t' ht' hle
  · rw [hnow] at hle
    exact absurd (hlater t' ht') (not_lt.mpr hle)

theorem lostSince_tick (hgrace : 0 < cfg.removalGracePeriod) {past : List (Tick V)} {t : Tick V}
    (hlater : ∀ t' ∈ past, t'.now < t.now) {h : History V} (hsince : LostSince cfg past h)
    (hdrops : DropsRegained cfg h (.tick t)) :
    LostSince cfg (past ++ [t]) (step cfg h (.tick t)) := by
  intro key since hrecord t' ht' hle
  have hshed := (DistShard.shedRemovedKeys_spec (cfg.withRing t.ring) hgrace t.shedAt
    (h.beforeShed cfg t).node.shard).1 key
  have hrecord' : (DistShard.shedRemovedKeys (cfg.withRing t.ring) t.shedAt
    (h.beforeShed cfg t).node.shard).removedAt.lookup key = some since := hrecord
  rw [hshed] at hrecord'
  split at hrecord'
  · cases hrecord'
  case isFalse hnotDue =>
    rcases List.mem_append.mp ht' with ht' | ht'
    · exact lostSince_beforeShed cfg hlater hsince key since hrecord' t' ht' hle
    · rw [List.mem_singleton.mp ht']
      rcases (onlyRecords_tick cfg t h key since).2 hrecord' with hold | ⟨-, hlost⟩
      · -- An old record of an owned key would have been due.
        rw [Bool.eq_false_iff]
        intro howns
        exact hnotDue (DistShard.mem_due.mpr ⟨since, hrecord', hdrops key since hold howns⟩)
      · exact hlost

theorem lostSince_other {past : List (Tick V)} {e : NodeEvent V} (he : e.tick? = none)
    {h : History V} (hsince : LostSince cfg past h) : LostSince cfg past (step cfg h e) := by
  have hsame : (step cfg h e).node.shard.removedAt = h.node.shard.removedAt := by
    cases e with
    | tick t => cases he
    | applySet ring item => exact removedAt_recordOriginalPrimary _ _ _
    | applyForwardedSet ring item => exact removedAt_applyForwardedSet _ _ _
    | applyRemove ring now key => rfl
  intro key since hrecord
  rw [hsame] at hrecord
  exact hsince key since hrecord

theorem lostSince_run (hgrace : 0 < cfg.removalGracePeriod) {events : List (NodeEvent V)}
    {past : List (Tick V)} {h : History V}
    (htimes : ((past ++ NodeEvent.ticks events).map Tick.now).Pairwise (· < ·))
    (hrun : Along (step cfg) (DropsRegained cfg) h events) (hsince : LostSince cfg past h) :
    LostSince cfg (past ++ NodeEvent.ticks events) (events.foldl (step cfg) h) := by
  induction events generalizing past h with
  | nil =>
      rw [NodeEvent.ticks, List.filterMap_nil, List.append_nil]
      exact hsince
  | cons e rest ih =>
      cases he : e.tick? with
      | none =>
          have hticks : NodeEvent.ticks (e :: rest) = NodeEvent.ticks rest := by
            rw [NodeEvent.ticks, List.filterMap_cons_none he]
            rfl
          rw [hticks] at htimes ⊢
          exact ih htimes hrun.2 (lostSince_other cfg he hsince)
      | some t =>
          have htick : e = .tick t := by
            cases e with
            | tick t' => rw [Option.some.inj he]
            | applySet ring item => cases he
            | applyForwardedSet ring item => cases he
            | applyRemove ring now key => cases he
          have hticks : past ++ NodeEvent.ticks (e :: rest) =
              (past ++ [t]) ++ NodeEvent.ticks rest := by
            rw [NodeEvent.ticks, List.filterMap_cons_some he, List.append_assoc]
            rfl
          rw [hticks] at htimes ⊢
          have hlater : ∀ t' ∈ past, t'.now < t.now := by
            rw [List.map_append, List.map_append, List.pairwise_append,
              List.pairwise_append] at htimes
            exact fun t' ht' => htimes.1.2.2 _ (List.mem_map_of_mem ht') _ (by simp)
          subst htick
          exact ih htimes hrun.2 (lostSince_tick cfg hgrace hlater hsince hrun.1)

theorem since_le_of_sub_ge {now since grace : Int} (hgrace : 0 < grace)
    (h : Time.sub now since ≥ grace) : since ≤ now - grace := by
  have hsub : grace ≤ max (-0x8000000000000000 : Int) (min 0x7fffffffffffffff (now - since)) := h
  omega

/-- With a grace period and ticks in the order of time, in a run in which no tick leaves behind
the removal record of a key it finds owned, a copy is shed only when the node did not own the
key at any tick of the preceding interval of that length. -/
theorem shed_after_grace_run (hgrace : 0 < cfg.removalGracePeriod) {st : NodeState V}
    {events : List (NodeEvent V)}
    (htimes : ((NodeEvent.ticks events).map Tick.now).Pairwise (· < ·))
    (hrun : Along (step cfg) (DropsRegained cfg) (start st) events)
    (before : List (NodeEvent V)) (t : Tick V) (after : List (NodeEvent V))
    (hevents : events = before ++ .tick t :: after) :
    let h := before.foldl (step cfg) (start st)
    ∀ key, (h.beforeShed cfg t).node.shard.items.get key ≠ none →
      (h.runRebalanceTick cfg t).node.shard.items.get key = none →
      ∀ t' ∈ NodeEvent.ticks before ++ [t], t.shedAt - cfg.removalGracePeriod ≤ t'.now →
        (cfg.withRing t'.ring).ownsKeyInternal key = false := by
  intro h key hstored hgone t' ht' hwithin
  rw [hevents] at htimes hrun
  have hticks : NodeEvent.ticks (before ++ .tick t :: after) =
      NodeEvent.ticks before ++ t :: NodeEvent.ticks after := List.filterMap_append
  rw [hticks, List.map_append, List.pairwise_append] at htimes
  have hlater : ∀ t' ∈ NodeEvent.ticks before, t'.now < t.now := fun t' ht' =>
    htimes.2.2 _ (List.mem_map_of_mem ht') _ List.mem_cons_self
  have hempty : LostSince cfg [] (start st) := fun _ _ _ t ht => absurd ht List.not_mem_nil
  have hpast : LostSince cfg (NodeEvent.ticks before) h :=
    lostSince_run cfg hgrace htimes.1 (along_append.mp hrun).1 hempty
  -- The copy went because a record was due and the node does not own the key.
  have hshed := (DistShard.shedRemovedKeys_spec (cfg.withRing t.ring) hgrace t.shedAt
    (h.beforeShed cfg t).node.shard).2 key
  have hgone' : (DistShard.shedRemovedKeys (cfg.withRing t.ring) t.shedAt
    (h.beforeShed cfg t).node.shard).items.get key = none := hgone
  rw [hshed] at hgone'
  split at hgone'
  case isFalse => exact absurd hgone' hstored
  case isTrue hdue =>
    rcases List.mem_append.mp ht' with ht' | ht'
    · obtain ⟨since, hrecord, hold⟩ := DistShard.mem_due.mp hdue.1
      have hsince : since ≤ t.shedAt - cfg.removalGracePeriod := since_le_of_sub_ge hgrace hold
      exact lostSince_beforeShed cfg hlater hpast key since hrecord t' ht' (hsince.trans hwithin)
    · rw [List.mem_singleton.mp ht']
      exact hdue.2

end

/-- A node that holds an item and owns it only as long as it is in the ring. -/
def graceConfig : DistConfig := { localNode := [100], ring := none, removalGracePeriod := 10 }

def holder : NodeState Str :=
  { shard := DistShard.empty.applySet graceConfig World.sampleItem }

def lostAt (now : Time) : Tick Str := tickOn [[97]] now true

def ownedAt (now : Time) : Tick Str := tickOn [[97], [100]] now true

/-- The node loses the key, owns it again at the time 5 and loses it once more at 8.  Its copy is
shed at 10, because the record of the first loss is still there. -/
theorem shed_after_regain :
    let h := [.tick (lostAt 0), .tick (ownedAt 5), .tick (lostAt 8)].foldl (step graceConfig)
      (start holder)
    (h.beforeShed graceConfig (lostAt 10)).node.shard.items.get [107] = some World.sampleItem ∧
      (h.runRebalanceTick graceConfig (lostAt 10)).node.shard.items.get [107] = none ∧
      (lostAt 10).shedAt - graceConfig.removalGracePeriod ≤ (ownedAt 5).now ∧
      (graceConfig.withRing (ownedAt 5).ring).ownsKeyInternal [107] = true := by
  decide

/-- Lost at 0 and shed at 10. -/
theorem shed_after_grace_run_lost :
    let h := step graceConfig (start holder) (.tick (lostAt 0))
    0 < graceConfig.removalGracePeriod ∧
      (h.beforeShed graceConfig (lostAt 10)).node.shard.items.get [107] ≠ none ∧
      (h.runRebalanceTick graceConfig (lostAt 10)).node.shard.items.get [107] = none ∧
      ∀ t' ∈ [lostAt 0, lostAt 10],
        (lostAt 10).shedAt - graceConfig.removalGracePeriod ≤ t'.now →
        (graceConfig.withRing t'.ring).ownsKeyInternal [107] = false := by
  intro h
  have hstored : (h.beforeShed graceConfig (lostAt 10)).node.shard.items.get [107] ≠ none := by
    decide
  have hgone : (h.runRebalanceTick graceConfig (lostAt 10)).node.shard.items.get [107] = none := by
    decide
  have hrun : Along (step graceConfig) (DropsRegained graceConfig) (start holder)
      [.tick (lostAt 0), .tick (lostAt 10)] := by
    refine ⟨fun key since _ howns => ?_, fun key since _ howns => ?_, trivial⟩
    · exact absurd (show false = true from howns) Bool.false_ne_true
    · exact absurd (show false = true from howns) Bool.false_ne_true
  have hgrace : 0 < graceConfig.removalGracePeriod := by decide
  exact ⟨hgrace, hstored, hgone, shed_after_grace_run graceConfig hgrace (by decide) hrun
    [.tick (lostAt 0)] (lostAt 10) [] rfl [107] hstored hgone⟩

end History

end HyperCache
