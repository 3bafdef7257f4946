/-
Operations behind a wrapper that injects no faults.

At zero rates the wrapper is the wrapped transport as far as its methods go, so an
operation that only calls methods does not notice it.  A sync asks the slot for the
concrete type before it looks for keys that only the peer stores.  Behind a wrapper
it finds none, and the copies it would have fetched stay away.  The gossip tick asks
as well, but its two paths do the same.
-/
import HyperCache.Convergence
import HyperCache.Operations

namespace HyperCache

open Pointwise Chunks

variable {V : Type}

/-- An operation of one node, with the type of its result.  `through` is any operation that
reaches other nodes only by calling methods of its transport, as hint replay, rebalancing,
repair flushes, heartbeats and key listings do. -/
inductive Operation (V : Type) : Type → Type 1 where
  | set (n : NodeID) (item : Item V) : Operation V (Option CallErr)
  | get (n : NodeID) (key : Key) : Operation V (Option (Item V))
  | remove (n : NodeID) (keys : List Key) : Operation V (Option CallErr)
  | syncWith (n peer : NodeID) : Operation V (Option CallErr)
  | runGossipTick (n : NodeID) (pick : Nat) : Operation V Unit
  | through {R : Type} (n : NodeID)
      (body : DistTransport V → Running V → Running V × R) : Operation V R

namespace Deployment

variable (D : Deployment V)

/-- The operation on nodes with the given fault injectors. -/
def run [SizedValue V] {R : Type} (chaos : NodeID → Option Nat) :
    Operation V R → Running V → Running V × R
  | .set n item => D.set (D.transportOf (D.stored chaos) n) n item
  | .get n key => D.get (D.transportOf (D.stored chaos) n) n key
  | .remove n keys => D.remove (D.transportOf (D.stored chaos) n) n keys
  | .syncWith n peer =>
      D.syncWith (D.transportOf (D.stored chaos) n) (D.stored chaos n) n peer
  | .runGossipTick n pick => fun s =>
      (D.runGossipTick (D.transportOf (D.stored chaos) n) (D.stored chaos n) n pick s, ())
  | .through n body => body (D.transportOf (D.stored chaos) n)

/-! ## What a bare transport tells a sync -/

/-- The answer to a `ForwardGet` of node `n` over its bare transport. -/
def reply (n peer : NodeID) (key : Key) (w : World V) : Except CallErr (Option (Item V)) :=
  match D.wire n with
  | .inProcess => (World.forwardGet D.net peer key w).mapError .node
  | .http => (forwardGetHTTP D.codec D.cluster D.net peer key w).mapError .http

/-- The keys of the peer that a sync over a bare transport gets to see. -/
def offered (n peer : NodeID) (s : Running V) : List Key :=
  match D.wire n with
  | .inProcess => (s.nodes peer).shard.items.keys
  | .http => D.capped n (D.listKeysHTTP peer (fun _ => true) s)

/-- A sync behind a wrapper is offered no key that the node does not list and the peer would
send. -/
def NothingToPull {R : Type} (chaos : NodeID → Option Nat) : Operation V R → Running V → Prop
  | .syncWith n peer, s =>
      (D.cluster.cfg n).hasTransport = true → chaos n ≠ none →
        ∀ key ∈ D.offered n peer s, ¬ World.lists (s.nodes n).shard key →
          ∀ it, D.reply n peer key s.nodes ≠ .ok (some it)
  | _, _ => True

/-- Over HTTP, every key that a node lists comes back from JSON as it was. -/
def KeysSurvive (n : NodeID) (s : Running V) : Prop :=
  D.wire n = .http → ∀ m key, World.lists (s.nodes m).shard key → D.codec.text key = key

/-- The keys survive as far as the operation is a sync. -/
def SyncKeysSurvive {R : Type} : Operation V R → Running V → Prop
  | .syncWith n _, s => D.KeysSurvive n s
  | _, _ => True

section

variable {D} {n peer : NodeID} {key : Key}

/-- The transport of node `n` without fault injectors. -/
abbrev bareTransport (D : Deployment V) (n : NodeID) : DistTransport V :=
  D.transportOf (D.stored fun _ => none) n

theorem forwardGet_bare (s : Running V) :
    (D.bareTransport n).forwardGet peer key s = (s, D.reply n peer key s.nodes) := by
  show (D.wired _ (D.wire n)).forwardGet peer key s = _
  unfold reply
  cases D.wire n with
  | http => rfl
  | inProcess =>
      show (ite _ _ _ : Running V × Except CallErr (Option (Item V))) = _
      unfold World.forwardGet
      cases D.net.up peer with
      | true => rfl
      | false => rfl

theorem reply_congr {w w' : World V} (h : w peer = w' peer) :
    D.reply n peer key w = D.reply n peer key w' := by
  unfold reply World.forwardGet forwardGetHTTP handleGet
  rw [h]

theorem reply_of_down (hup : D.net.up peer = false) (w : World V) :
    ∃ e, D.reply n peer key w = .error e := by
  unfold reply World.forwardGet forwardGetHTTP
  rw [hup]
  cases D.wire n with
  | inProcess => exact ⟨_, rfl⟩
  | http => exact ⟨_, rfl⟩

/-- A copy that comes back is of a key the peer stores, and has that key if JSON keeps it. -/
theorem reply_hit {w : World V} {it : Item V} (h : D.reply n peer key w = .ok (some it)) :
    (w peer).shard.items.get key ≠ none ∧
      ((D.wire n = .http → D.codec.text key = key) → it.key = key) := by
  unfold reply at h
  cases hw : D.wire n with
  | inProcess =>
      rw [hw] at h
      unfold World.forwardGet at h
      cases hup : D.net.up peer with
      | false =>
          rw [hup] at h
          cases h
      | true =>
          rw [hup] at h
          have hget : (w peer).shard.items.get key = some it := Except.ok.inj h
          exact ⟨by rw [hget]; exact Option.some_ne_none it,
            fun _ => ConcurrentMap.key_of_get hget⟩
  | http =>
      rw [hw] at h
      dsimp only at h
      cases hget : forwardGetHTTP D.codec D.cluster D.net peer key w with
      | error e =>
          rw [hget] at h
          cases h
      | ok got =>
          rw [hget] at h
          cases h
          obtain ⟨hstored, hkey⟩ := forwardGetHTTP_hit hget
          exact ⟨hstored, fun htext => hkey.trans (htext rfl)⟩

theorem toOption_reply_iff {w : World V} {r : Option (Item V)} :
    (D.reply n peer key w).toOption = some r ↔ D.reply n peer key w = .ok r := by
  cases D.reply n peer key w with
  | error e => exact iff_of_false (fun h => by cases h) (fun h => by cases h)
  | ok r' => exact ⟨fun h => congrArg Except.ok (Option.some.inj h),
      fun h => congrArg some (Except.ok.inj h)⟩

theorem key_of_answer {s : Running V} (htext : D.KeysSurvive n s) {it : Item V}
    (h : (D.reply n peer key s.nodes).toOption = some (some it)) : it.key = key := by
  obtain ⟨hstored, hkey⟩ := reply_hit (toOption_reply_iff.mp h)
  obtain ⟨held, hheld⟩ := Option.ne_none_iff_exists'.mp hstored
  exact hkey (fun hw => htext hw peer key (World.lists_of_item hheld))

/-- Fetching keys from another node changes the fetching node's data only. -/
theorem foldl_fetchAndAdopt_bare (hne : peer ≠ n) (ht : (D.cluster.cfg n).hasTransport = true)
    (keys : List Key) (s : Running V) :
    let s' := keys.foldl (fun s k => D.fetchAndAdopt (D.bareTransport n) n peer k s) s
    (s'.nodes n).shard = (s.nodes n).shard.adoptAll (D.cluster.cfg n) D.net.now
        (fun k => (D.reply n peer k s.nodes).toOption) keys ∧
      ∀ m ≠ n, s'.nodes m = s.nodes m := by
  induction keys generalizing s with
  | nil => exact ⟨rfl, fun m _ => rfl⟩
  | cons k rest ih =>
      let next := D.fetchAndAdopt (D.bareTransport n) n peer k s
      have hstep : (next.nodes n).shard = (s.nodes n).shard.adoptAnswer (D.cluster.cfg n)
          D.net.now k (D.reply n peer k s.nodes).toOption ∧
          ∀ m ≠ n, next.nodes m = s.nodes m := by
        show ((D.fetchAndAdopt (D.bareTransport n) n peer k s).nodes n).shard = _ ∧
          ∀ m ≠ n, (D.fetchAndAdopt (D.bareTransport n) n peer k s).nodes m = s.nodes m
        unfold fetchAndAdopt
        simp only [ht, Bool.not_true, Bool.false_eq_true, if_false, forwardGet_bare]
        cases D.reply n peer k s.nodes with
        | error e => exact ⟨rfl, fun m _ => rfl⟩
        | ok r =>
            dsimp only [Running.modify]
            exact ⟨congrArg NodeState.shard (modify_self s.nodes n _),
              fun m hm => modify_ne s.nodes _ hm⟩
      have hanswer : (fun k => (D.reply n peer k next.nodes).toOption) =
          fun k => (D.reply n peer k s.nodes).toOption := by
        funext k
        rw [reply_congr (hstep.2 peer hne)]
      obtain ⟨ihn, ihother⟩ := ih next
      rw [hanswer, hstep.1] at ihn
      exact ⟨ihn, fun m hm => (ihother m hm).trans (hstep.2 m hm)⟩

theorem applyMerkleDiffs_eq (t : DistTransport V) (entries : List MerkleKV) (diffs : List Nat)
    (size : Nat) (s : Running V) :
    D.applyMerkleDiffs t n peer entries diffs size s =
      ((diffs.flatMap (fun ci => chunk size ci entries)).map (·.k)).foldl
        (fun s k => D.fetchAndAdopt t n peer k s) s := by
  rw [applyMerkleDiffs, foldl_chunks, List.foldl_map]

theorem record_of_not_lists {sh : DistShard V} (h : ¬ World.lists sh key) :
    sh.record key = ⟨none, none⟩ := by
  have hitem : sh.items.get key = none := by
    by_contra hsome
    obtain ⟨it, hit⟩ := Option.ne_none_iff_exists'.mp hsome
    exact h (World.lists_of_item hit)
  have htomb : sh.tombs.lookup key = none := by
    by_contra hsome
    obtain ⟨tomb, htomb⟩ := Option.ne_none_iff_exists'.mp hsome
    exact h ⟨tomb.version, DistShard.mem_merkleEntries.mpr (.inr ⟨tomb, htomb, rfl⟩)⟩
  rw [DistShard.record, hitem, htomb]

/-- Fetching keys without a record changes nothing exactly when no copy comes back. -/
theorem adoptAll_eq_self_iff (cfg : DistConfig) (now : Time)
    {answer : Key → Option (Option (Item V))}
    (hkeyed : ∀ key it, answer key = some (some it) → it.key = key) (keys : List Key)
    {sh : DistShard V} (hempty : ∀ key ∈ keys, sh.record key = ⟨none, none⟩) :
    sh.adoptAll cfg now answer keys = sh ↔ ∀ key ∈ keys, ∀ it, answer key ≠ some (some it) := by
  constructor
  · intro heq key hmem it hit
    have hrec := DistShard.record_adoptAll cfg now hkeyed keys sh key
    rw [heq, if_pos hmem, hit, hempty key hmem] at hrec
    cases hrec
  · intro hmiss
    induction keys with
    | nil => rfl
    | cons k rest ih =>
        have hk := hmiss k List.mem_cons_self
        have hrecord := hempty k List.mem_cons_self
        have hstep : sh.adoptAnswer cfg now k (answer k) = sh := by
          cases hans : answer k with
          | none => rfl
          | some r =>
              cases r with
              | some it => exact absurd hans (hk it)
              | none =>
                  have hitem : sh.items.get k = none := congrArg Record.item hrecord
                  show sh.adopt cfg now k none = sh
                  rw [DistShard.adopt]
                  split
                  · rfl
                  · rw [hitem]
        rw [DistShard.adoptAll, List.foldl_cons, hstep]
        exact ih (fun key h => hempty key (List.mem_cons_of_mem k h))
          (fun key h => hmiss key (List.mem_cons_of_mem k h))

/-! ## A sync with and without a wrapper -/

theorem fetchMerkle_of_up (hup : D.net.up peer = true) (s : Running V) :
    (D.bareTransport n).fetchMerkle peer s = (s, .ok (D.merkleTree peer s)) := by
  show (D.wired _ (D.wire n)).fetchMerkle peer s = _
  cases D.wire n with
  | inProcess => exact if_pos hup
  | http => exact if_pos hup

theorem fetchMerkle_of_down (hup : D.net.up peer = false) (s : Running V) :
    ∃ e, (D.bareTransport n).fetchMerkle peer s = (s, .error e) := by
  show ∃ e, (D.wired _ (D.wire n)).fetchMerkle peer s = _
  cases D.wire n with
  | inProcess => exact ⟨_, if_neg (by simp [hup])⟩
  | http => exact ⟨_, if_neg (by simp [hup])⟩

/-- Over a bare transport a sync finds the offered keys that the node does not list. -/
theorem resolveMissingKeys_bare (hup : D.net.up peer = true) (entries : List MerkleKV)
    (s : Running V) :
    ∃ missing, D.resolveMissingKeys (D.bareTransport n) (.bare (D.wire n)) n peer entries s =
        (s, missing) ∧
      ∀ key, key ∈ missing ↔ key ∈ D.offered n peer s ∧ key ∉ entries.map (·.k) := by
  unfold offered
  cases hw : D.wire n with
  | inProcess =>
      refine ⟨World.enumerateRemoteOnlyKeys (s.nodes peer).shard entries, ?_, fun key => ?_⟩
      · unfold resolveMissingKeys enumerateRemoteOnlyKeys
        simp only [hup, if_true]
        cases World.enumerateRemoteOnlyKeys (s.nodes peer).shard entries with
        | nil => rfl
        | cons k rest => rfl
      · unfold World.enumerateRemoteOnlyKeys
        rw [List.mem_filter, Bool.not_eq_true', List.contains_eq_mem, decide_eq_false_iff_not]
  | http =>
      have hlist : (D.bareTransport n).listKeys peer [] s =
          (s, .ok (D.listKeysHTTP peer (fun _ => true) s)) := by
        show (D.wired _ (D.wire n)).listKeys peer [] s = _
        rw [hw]
        exact if_pos hup
      refine ⟨(D.capped n (D.listKeysHTTP peer (fun _ => true) s)).dedup.filter
        (fun k => !(entries.map (·.k)).contains k), ?_, fun key => ?_⟩
      · unfold resolveMissingKeys enumerateRemoteOnlyKeys
        dsimp only
        rw [hlist]
      · rw [List.mem_filter, List.mem_dedup, Bool.not_eq_true', List.contains_eq_mem,
          decide_eq_false_iff_not]

theorem resolveMissingKeys_wrapped (t : DistTransport V) (i : Nat) (inner : Stored)
    (entries : List MerkleKV) (s : Running V) :
    D.resolveMissingKeys t (.chaos i inner) n peer entries s = (s, []) := rfl

/-- The keys of the local chunks that differ from the peer's. -/
def diffKeys (D : Deployment V) (n peer : NodeID) (s : Running V) : List Key :=
  let sh := (s.nodes n).shard
  let localTree := sh.buildMerkleTree D.sum256 (D.cluster.cfg n) D.order.localTree
  ((localTree.diffLeafRanges (D.merkleTree peer s)).flatMap
    (fun ci => chunk localTree.chunkSize ci (D.order.entries.sort sh.merkleEntries))).map (·.k)

/-- A sync that reaches its peer fetches the keys of differing chunks, and then those it has
found missing. -/
theorem syncWith_of_up (ht : (D.cluster.cfg n).hasTransport = true)
    (hup : D.net.up peer = true) {slot : Stored} {s : Running V} {missing : List Key}
    (hmissing : D.resolveMissingKeys (D.bareTransport n) slot n peer
      (D.order.entries.sort (s.nodes n).shard.merkleEntries) s = (s, missing)) :
    D.syncWith (D.bareTransport n) slot n peer s =
      (missing.foldl (fun s k => D.fetchAndAdopt (D.bareTransport n) n peer k s)
        ((D.diffKeys n peer s).foldl
          (fun s k => D.fetchAndAdopt (D.bareTransport n) n peer k s) s), none) := by
  unfold syncWith syncWithStatus
  simp only [ht, Bool.not_true, Bool.false_eq_true, if_false, fetchMerkle_of_up hup, hmissing,
    applyMerkleDiffs_eq]
  rfl

theorem lists_of_mem_diffKeys {s : Running V} (h : key ∈ D.diffKeys n peer s) :
    World.lists (s.nodes n).shard key := by
  obtain ⟨e, he, rfl⟩ := List.mem_map.mp h
  obtain ⟨ci, -, hci⟩ := List.mem_flatMap.mp he
  exact (World.lists_iff D.order.entries).mpr
    (List.mem_map_of_mem (List.mem_of_mem_drop (List.mem_of_mem_take hci)))

/-- The offered keys are keys of the peer, if JSON keeps those. -/
theorem stored_of_offered {s : Running V} (htext : D.KeysSurvive n s)
    (h : key ∈ D.offered n peer s) : World.lists (s.nodes peer).shard key := by
  unfold offered at h
  cases hw : D.wire n with
  | inProcess =>
      rw [hw] at h
      obtain ⟨it, hit⟩ := ConcurrentMap.mem_keys.mp h
      exact World.lists_of_item hit
  | http =>
      rw [hw] at h
      have hlisted : key ∈ D.listKeysHTTP peer (fun _ => true) s := by
        unfold capped at h
        dsimp only at h
        split at h
        · exact List.mem_of_mem_take h
        · exact h
      obtain ⟨k, hk, rfl⟩ := List.mem_map.mp hlisted
      have hstored : World.lists (s.nodes peer).shard k := by
        refine mem_of_mem_walkKeys (P := World.lists (s.nodes peer).shard) ?_
          (fun _ h => absurd h List.not_mem_nil) k hk
        intro cursor key hpage
        obtain ⟨it, hit⟩ := ConcurrentMap.mem_keys.mp
          ((D.shards_perm peer _).mem_iff.mp (mem_of_mem_handleKeys hpage))
        exact World.lists_of_item hit
      rw [htext hw peer k hstored]
      exact hstored

/-- A sync that reaches no peer does not look at the slot. -/
theorem syncWith_of_unreached
    (h : (D.cluster.cfg n).hasTransport = false ∨ D.net.up peer = false) (slot slot' : Stored)
    (s : Running V) :
    D.syncWith (D.bareTransport n) slot n peer s =
      D.syncWith (D.bareTransport n) slot' n peer s := by
  unfold syncWith syncWithStatus
  rcases h with ht | hup
  · rw [ht]
    rfl
  · obtain ⟨e, he⟩ := fetchMerkle_of_down (n := n) hup s
    rw [he]

/-- Fetching keys the node does not list, after those of differing chunks, changes nothing
exactly when no copy comes back. -/
theorem shards_fetch_iff (hne : peer ≠ n) (ht : (D.cluster.cfg n).hasTransport = true)
    {s : Running V} (htext : D.KeysSurvive n s) {missing : List Key}
    (hmissing : ∀ key ∈ missing, ¬ World.lists (s.nodes n).shard key) :
    let fetch := fun (s : Running V) k => D.fetchAndAdopt (D.bareTransport n) n peer k s
    let s' := (D.diffKeys n peer s).foldl fetch s
    World.shards s'.nodes = World.shards (missing.foldl fetch s').nodes ↔
      ∀ key ∈ missing, ∀ it, D.reply n peer key s.nodes ≠ .ok (some it) := by
  intro fetch s'
  obtain ⟨hdiff, hothers⟩ := foldl_fetchAndAdopt_bare hne ht (D.diffKeys n peer s) s
  obtain ⟨hpull, hothers'⟩ := foldl_fetchAndAdopt_bare hne ht missing s'
  have hanswer : (fun k => (D.reply n peer k s'.nodes).toOption) =
      fun k => (D.reply n peer k s.nodes).toOption := by
    funext k
    rw [reply_congr (hothers peer hne)]
  have hkeyed : ∀ key it, (D.reply n peer key s.nodes).toOption = some (some it) →
      it.key = key := fun _ _ => key_of_answer htext
  have hempty : ∀ key ∈ missing, (s'.nodes n).shard.record key = ⟨none, none⟩ := by
    intro key hkey
    have hnot : key ∉ D.diffKeys n peer s := fun h => hmissing key hkey (lists_of_mem_diffKeys h)
    rw [hdiff, DistShard.record_adoptAll _ _ hkeyed, if_neg hnot]
    exact record_of_not_lists (hmissing key hkey)
  -- Only the data of `n` can differ.
  have hshards : World.shards s'.nodes = World.shards (missing.foldl fetch s').nodes ↔
      ((missing.foldl fetch s').nodes n).shard = (s'.nodes n).shard := by
    constructor
    · intro h
      exact (congrFun h n).symm
    · intro h
      funext m
      by_cases hm : m = n
      · subst hm
        exact h.symm
      · exact congrArg NodeState.shard (hothers' m hm).symm
  rw [hshards, hpull, hanswer, adoptAll_eq_self_iff _ _ hkeyed missing hempty]
  exact forall₂_congr (fun key _ => forall_congr' (fun it => not_congr toOption_reply_iff))

/-- A sync that reaches its peer ends as it would without the wrapper exactly when it is
offered nothing it would fetch. -/
theorem syncWith_wrapped_iff_of_up (ht : (D.cluster.cfg n).hasTransport = true)
    (hup : D.net.up peer = true) {s : Running V} (htext : D.KeysSurvive n s) (i : Nat)
    (inner : Stored) :
    let wrapped := D.syncWith (D.bareTransport n) (.chaos i inner) n peer s
    let bare := D.syncWith (D.bareTransport n) (.bare (D.wire n)) n peer s
    (wrapped.2 = bare.2 ∧ World.shards wrapped.1.nodes = World.shards bare.1.nodes) ↔
      ∀ key ∈ D.offered n peer s, ¬ World.lists (s.nodes n).shard key →
        ∀ it, D.reply n peer key s.nodes ≠ .ok (some it) := by
  intro wrapped bare
  obtain ⟨missing, hmissing, hmem⟩ := resolveMissingKeys_bare (n := n) hup
    (D.order.entries.sort (s.nodes n).shard.merkleEntries) s
  have hoffered : ∀ key, key ∈ missing ↔
      key ∈ D.offered n peer s ∧ ¬ World.lists (s.nodes n).shard key := by
    intro key
    rw [hmem, World.lists_iff D.order.entries]
  have hwrapped : wrapped = _ :=
    syncWith_of_up ht hup (resolveMissingKeys_wrapped (D.bareTransport n) i inner _ s)
  have hbare : bare = _ := syncWith_of_up ht hup hmissing
  rw [hwrapped, hbare]
  by_cases hne : peer = n
  · -- A node lists what it stores, so it has nothing to offer itself.
    have hown : ∀ key ∈ D.offered n peer s, World.lists (s.nodes n).shard key :=
      fun key ho => hne ▸ stored_of_offered htext ho
    have hnil : missing = [] := List.eq_nil_iff_forall_not_mem.mpr (fun key hkey =>
      ((hoffered key).mp hkey).2 (hown key ((hoffered key).mp hkey).1))
    rw [hnil]
    exact iff_of_true ⟨rfl, rfl⟩ (fun key ho hl => absurd (hown key ho) hl)
  · have hiff := shards_fetch_iff hne ht htext (fun key h => ((hoffered key).mp h).2)
    constructor
    · intro hsame key ho hl
      exact hiff.mp hsame.2 key ((hoffered key).mpr ⟨ho, hl⟩)
    · intro h
      refine ⟨rfl, hiff.mpr (fun key hkey => ?_)⟩
      obtain ⟨ho, hl⟩ := (hoffered key).mp hkey
      exact h key ho hl

theorem syncWith_wrapped_iff {s : Running V} (htext : D.KeysSurvive n s) (i : Nat)
    (inner : Stored) :
    let wrapped := D.syncWith (D.bareTransport n) (.chaos i inner) n peer s
    let bare := D.syncWith (D.bareTransport n) (.bare (D.wire n)) n peer s
    (wrapped.2 = bare.2 ∧ World.shards wrapped.1.nodes = World.shards bare.1.nodes) ↔
      ((D.cluster.cfg n).hasTransport = true →
        ∀ key ∈ D.offered n peer s, ¬ World.lists (s.nodes n).shard key →
          ∀ it, D.reply n peer key s.nodes ≠ .ok (some it)) := by
  intro wrapped bare
  cases ht : (D.cluster.cfg n).hasTransport with
  | false =>
      have hsame : wrapped = bare := syncWith_of_unreached (.inl ht) _ _ s
      rw [hsame]
      exact iff_of_true ⟨rfl, rfl⟩ (fun h => by cases h)
  | true =>
      cases hup : D.net.up peer with
      | false =>
          have hsame : wrapped = bare := syncWith_of_unreached (.inr hup) _ _ s
          rw [hsame]
          refine iff_of_true ⟨rfl, rfl⟩ (fun _ key _ _ it hit => ?_)
          obtain ⟨e, he⟩ : ∃ e, D.reply n peer key s.nodes = .error e :=
            reply_of_down hup s.nodes
          rw [he] at hit
          cases hit
      | true =>
          refine (syncWith_wrapped_iff_of_up ht hup htext i inner).trans ?_
          exact ⟨fun h _ => h, fun h => h rfl⟩

/-! ## Gossip -/

/-- The direct path of the gossip tick does what the method does. -/
theorem runGossipTick_wrapped (i : Nat) (inner : Stored) (pick : Nat) (s : Running V) :
    D.runGossipTick (D.bareTransport n) (.chaos i inner) n pick s =
      D.runGossipTick (D.bareTransport n) (.bare (D.wire n)) n pick s := by
  cases hw : D.wire n with
  | http => rfl
  | inProcess =>
      unfold runGossipTick
      cases (D.cluster.cfg n).hasTransport with
      | false => rfl
      | true =>
          simp only [Bool.not_true, Bool.false_eq_true, if_false]
          cases ((s.peers n).membership.list.filter (fun m => m.id ≠ n))[pick]? with
          | none => rfl
          | some target =>
              show ((D.wired _ (D.wire n)).gossip target.id _ s).1 =
                if D.net.up target.id then D.acceptGossip target.id _ s else s
              rw [hw]
              show (ite _ _ _ : Running V × Except CallErr Unit).1 = _
              cases D.net.up target.id with
              | false => rfl
              | true =>
                  show D.acceptGossip target.id _ s = D.acceptGossip target.id _ s
                  unfold acceptGossip
                  congr 1
                  funext p
                  exact Peer.acceptGossip_delivered false D.net.now D.runtime _ p

end

/-- Behind wrappers that inject nothing, an operation gives the result and leaves the stores of
the bare transports exactly when it is not a sync with something to pull. -/
theorem run_wrapped_same_iff [SizedValue V] {R : Type} {chaos : NodeID → Option Nat}
    (hidle : ∀ m i, chaos m = some i → (D.injector i).Idle) (op : Operation V R)
    (s : Running V) (htext : D.SyncKeysSurvive op s) :
    let wrapped := D.run chaos op s
    let bare := D.run (fun _ => none) op s
    (wrapped.2 = bare.2 ∧ World.shards wrapped.1.nodes = World.shards bare.1.nodes) ↔
      D.NothingToPull chaos op s := by
  intro wrapped bare
  have ht : ∀ n, D.transportOf (D.stored chaos) n = D.bareTransport n := transportOf_stored hidle
  have hsame : wrapped = bare → ((wrapped.2 = bare.2 ∧
      World.shards wrapped.1.nodes = World.shards bare.1.nodes) ↔ True) := by
    intro h
    rw [h]
    exact iff_of_true ⟨rfl, rfl⟩ trivial
  cases op with
  | set n item => exact hsame (congrArg (D.set · n item s) (ht n))
  | get n key => exact hsame (congrArg (D.get · n key s) (ht n))
  | remove n keys => exact hsame (congrArg (D.remove · n keys s) (ht n))
  | through n body => exact hsame (congrArg (body · s) (ht n))
  | runGossipTick n pick =>
      apply hsame
      show (D.runGossipTick (D.transportOf (D.stored chaos) n) (D.stored chaos n) n pick s, ()) =
        (D.runGossipTick (D.bareTransport n) (.bare (D.wire n)) n pick s, ())
      rw [ht, stored]
      cases chaos n with
      | none => rfl
      | some i => exact congrArg (·, ()) (runGossipTick_wrapped i _ pick s)
  | syncWith n peer =>
      have hwrapped : wrapped = D.syncWith (D.bareTransport n) (D.stored chaos n) n peer s :=
        congrArg (D.syncWith · (D.stored chaos n) n peer s) (ht n)
      rw [hwrapped, stored]
      show _ ↔ ((D.cluster.cfg n).hasTransport = true → chaos n ≠ none → _)
      cases hc : chaos n with
      | none => exact iff_of_true ⟨rfl, rfl⟩ (fun _ h => absurd rfl h)
      | some i =>
          refine (syncWith_wrapped_iff htext i (.bare (D.wire n))).trans ?_
          exact forall_congr' (fun _ => ⟨fun h _ => h, fun h => h (Option.some_ne_none i)⟩)

/-- A library that keeps every string, with strings for values. -/
def textCodec : Codec Str where
  text := fun s => s
  formatTime := fun _ => []
  encode := .str
  ofAny := fun
    | .str s => some s
    | _ => none
  ofRaw := fun
    | .str s => s
    | _ => []

/-- Three owners of every key on one kind of transport, with an injector whose rates have been
set to zero. -/
def calm (wire : Wire) : Deployment Str where
  cluster := World.quorumCluster
  net := World.allUp
  wire := fun _ => wire
  codec := textCodec
  injector := fun _ => (({} : Chaos).setDropRate 0).setLatency 5 0
  sum64 := fun _ => 0
  sum256 := fun bytes => bytes
  order := World.insertionOrder
  runtime := {}
  glob := fun _ _ => some false
  listKeysMax := fun _ => 0
  shards := fun _ sh => [some sh.items.keys]
  shards_perm := by
    intro m sh
    rw [List.flatMap_cons, List.flatMap_nil, List.append_nil]
    exact .refl _

theorem calm_idle (wire : Wire) (i : Nat) : ((calm wire).injector i).Idle :=
  ⟨rfl, rfl⟩

/-- Node `a` stores the key `k`, and nothing has been injected yet. -/
def oneHolder : Running Str where
  nodes := World.loneCopy
  peers := fun m => Peer.standalone (fun _ => 0) {} { id := m }
  logs := fun _ => {}

/-- Where all nodes are on bare in-process transports, the operations of a node that go through
its transport are those of `World`. -/
theorem operations_as_world {D : Deployment V} [SizedValue V]
    (hwire : ∀ n, D.wire n = .inProcess) (n : NodeID) (s : Running V) :
    (∀ item, D.set (D.bareTransport n) n item s =
      onNodes s (·.map .node) (World.set D.cluster D.net n item s.nodes)) ∧
    (∀ key, D.get (D.bareTransport n) n key s =
      onNodes s id (World.getImpl D.cluster D.net n key s.nodes)) ∧
    (∀ keys, D.remove (D.bareTransport n) n keys s =
      onNodes s (·.map .node) (World.remove D.cluster D.net n keys s.nodes)) ∧
    ∀ peer, D.syncWithStatus (D.bareTransport n) (.bare .inProcess) n peer s =
      onNodes s (·.mapError .node)
        (World.syncWithStatus D.cluster D.net D.sum256 D.order n peer s.nodes) := by
  have h := inProcess_transportOf hwire n
  exact ⟨fun item => h.set n item s, fun key => h.get n key s, fun keys => h.remove n keys s,
    fun peer => h.syncWithStatus n peer s⟩

/-- Node `b` reads, writes, removes and syncs the key that `a` stores. -/
theorem operations_as_world_at_b :
    let D := calm .inProcess
    let t := D.bareTransport [98]
    D.get t [98] [107] oneHolder =
        onNodes oneHolder id (World.getImpl D.cluster D.net [98] [107] World.loneCopy) ∧
      D.set t [98] World.sampleItem oneHolder = onNodes oneHolder (·.map .node)
        (World.set D.cluster D.net [98] World.sampleItem World.loneCopy) ∧
      D.remove t [98] [[107]] oneHolder = onNodes oneHolder (·.map .node)
        (World.remove D.cluster D.net [98] [[107]] World.loneCopy) ∧
      D.syncWithStatus t (.bare .inProcess) [98] [97] oneHolder =
        onNodes oneHolder (·.mapError .node)
          (World.syncWithStatus D.cluster D.net D.sum256 D.order [98] [97] World.loneCopy) := by
  obtain ⟨hset, hget, hremove, hsync⟩ :=
    operations_as_world (D := calm .inProcess) (fun _ => rfl) [98] oneHolder
  exact ⟨hget [107], hset World.sampleItem, hremove [[107]], hsync [97]⟩

/-- Node `a` finds nothing at `b`, and buries its copy with and without the wrapper. -/
theorem run_wrapped_same_sync_with_b :
    let wrapped := (calm .inProcess).run (fun _ => some 0) (.syncWith [97] [98]) oneHolder
    let bare := (calm .inProcess).run (fun _ => none) (.syncWith [97] [98]) oneHolder
    wrapped.2 = bare.2 ∧ World.shards wrapped.1.nodes = World.shards bare.1.nodes := by
  refine ((calm .inProcess).run_wrapped_same_iff (fun _ i _ => calm_idle .inProcess i)
    (.syncWith [97] [98]) oneHolder (fun h => by cases h)).mpr ?_
  intro _ _ key hoffered
  exact absurd hoffered List.not_mem_nil

/-- Node `b` syncs with `a`.  On the bare transport it gets the copy, and behind the wrapper it
does not. -/
theorem sync_misses_copy_behind_wrapper :
    let wrapped := (calm .inProcess).run (fun _ => some 0) (.syncWith [98] [97]) oneHolder
    let bare := (calm .inProcess).run (fun _ => none) (.syncWith [98] [97]) oneHolder
    wrapped.2 = none ∧ bare.2 = none ∧
      (wrapped.1.nodes [98]).shard.items.get [107] = none ∧
      (bare.1.nodes [98]).shard.items.get [107] = some World.sampleItem := by
  decide

-- Over HTTP the listing is what the wrapper hides.
example :
    let wrapped := (calm .http).run (fun _ => some 0) (.syncWith [98] [97]) oneHolder
    let bare := (calm .http).run (fun _ => none) (.syncWith [98] [97]) oneHolder
    wrapped.2 = none ∧ bare.2 = none ∧
      (wrapped.1.nodes [98]).shard.view [107] = none ∧
      (bare.1.nodes [98]).shard.view [107] = some ([107], 0, [], 0) := by
  decide

end Deployment

end HyperCache
