/-
Merkle anti-entropy between two nodes.

`SyncWith` compares the two summaries, reads from the peer every key of a
differing local chunk and every key only the peer stores, and reconciles each
with `fetchAndAdopt`.  The keys it reads are fixed by the state before the sync,
and reconciling a key touches only the record of that key, twice the same as
once.  So the record of a key after the sync is a function of its record before,
the peer's copy, and whether the key is read.
-/
import HyperCache.Arrival
import HyperCache.Merkle

namespace HyperCache

open Pointwise Chunks

variable {V : Type}

/-! ## The record of a key -/

structure Record (V : Type) where
  item : Option (Item V)
  tomb : Option Tombstone

def DistShard.record (sh : DistShard V) (key : Key) : Record V :=
  ⟨sh.items.get key, sh.tombs.lookup key⟩

/-- `fetchAndAdopt` on the record of its key.  A miss buries a live item that has
no tombstone.  A copy replaces everything older than itself. -/
def Record.adopt (cfg : DistConfig) (now : Time) : Option (Item V) → Record V → Record V
  | none, r =>
      match r.tomb, r.item with
      | none, some cur => ⟨none, some ⟨cur.version + 1, cfg.localNode, now⟩⟩
      | _, _ => r
  | some it, r =>
      if r.tomb.any (·.version ≥ it.version) then r
      else ⟨if r.item.any (·.version ≥ it.version) then r.item else some it, none⟩

theorem Record.adopt_none_of_tomb (cfg : DistConfig) (now : Time) {r : Record V} {t : Tombstone}
    (h : r.tomb = some t) : r.adopt cfg now none = r := by
  rw [adopt, h]

theorem Record.adopt_none_of_item (cfg : DistConfig) (now : Time) {r : Record V} {cur : Item V}
    (ht : r.tomb = none) (hi : r.item = some cur) :
    r.adopt cfg now none = ⟨none, some ⟨cur.version + 1, cfg.localNode, now⟩⟩ := by
  rw [adopt, ht, hi]

theorem Record.adopt_none_of_gone (cfg : DistConfig) (now : Time) {r : Record V}
    (hi : r.item = none) : r.adopt cfg now none = r := by
  rw [adopt, hi]
  split
  · rename_i h
    cases h
  · rfl

/-- Adopting the same reply again changes nothing. -/
theorem Record.adopt_adopt (cfg : DistConfig) (now : Time) (reply : Option (Item V))
    (r : Record V) : (r.adopt cfg now reply).adopt cfg now reply = r.adopt cfg now reply := by
  cases reply with
  | none =>
      obtain ⟨item, tomb⟩ := r
      cases tomb with
      | some t => rw [adopt_none_of_tomb cfg now rfl, adopt_none_of_tomb cfg now rfl]
      | none =>
          cases item with
          | none => rw [adopt_none_of_gone cfg now rfl, adopt_none_of_gone cfg now rfl]
          | some cur =>
              have hbury : adopt cfg now none ⟨some cur, none⟩ =
                  ⟨none, some ⟨cur.version + 1, cfg.localNode, now⟩⟩ :=
                adopt_none_of_item cfg now rfl rfl
              rw [hbury, adopt_none_of_tomb cfg now rfl]
  | some it =>
      by_cases ht : r.tomb.any (·.version ≥ it.version) = true
      · simp [adopt, ht]
      · by_cases hi : r.item.any (·.version ≥ it.version) = true
        · simp [adopt, ht, hi]
        · simp [adopt, ht, hi]

theorem DistShard.record_pull (cfg : DistConfig) (it : Item V) (sh : DistShard V) :
    (sh.pull cfg it.key it).record it.key =
      ⟨if (sh.items.get it.key).any (·.version ≥ it.version) then sh.items.get it.key
        else some it, sh.tombs.lookup it.key⟩ := by
  rw [pull]
  cases hget : sh.items.get it.key with
  | none => simp [record]
  | some cur =>
      by_cases hlt : it.version > cur.version
      · have hnot : ¬cur.version ≥ it.version := not_le.mpr hlt
        simp [record, hlt, hnot]
      · simp [record, hlt, hget, not_lt.mp hlt]

theorem DistShard.record_adopt (cfg : DistConfig) (now : Time) {key : Key}
    {reply : Option (Item V)} (hkey : ∀ it, reply = some it → it.key = key)
    (sh : DistShard V) :
    (sh.adopt cfg now key reply).record key = (sh.record key).adopt cfg now reply := by
  cases reply with
  | none =>
      rw [adopt]
      by_cases hmem : key ∈ sh.tombs
      · obtain ⟨t, ht⟩ := Option.isSome_iff_exists.mp (AList.lookup_isSome.mpr hmem)
        rw [if_pos hmem, Record.adopt_none_of_tomb cfg now ht]
      · have ht : sh.tombs.lookup key = none := AList.lookup_eq_none.mpr hmem
        rw [if_neg hmem]
        cases hget : sh.items.get key with
        | none => rw [Record.adopt_none_of_gone cfg now hget]
        | some cur =>
            rw [Record.adopt_none_of_item cfg now ht hget]
            simp [record]
  | some it =>
      obtain rfl := hkey it rfl
      rw [adopt, Record.adopt]
      cases ht : sh.tombs.lookup it.key with
      | none =>
          dsimp only
          rw [record_pull]
          simp [record, ht]
      | some tomb =>
          by_cases hle : tomb.version ≥ it.version
          · simp [record, ht, hle]
          · simp only [hle, if_false]
            rw [record_pull]
            simp [record, ht, hle]

theorem DistShard.record_adopt_ne (cfg : DistConfig) (now : Time) {key key' : Key}
    {reply : Option (Item V)} (hkey : ∀ it, reply = some it → it.key = key)
    (hne : key' ≠ key) (sh : DistShard V) :
    (sh.adopt cfg now key reply).record key' = sh.record key' := by
  have hpull : ∀ (it : Item V) (sh' : DistShard V), it.key = key →
      (sh'.pull cfg key it).record key' = sh'.record key' := by
    rintro it sh' rfl
    rw [pull]
    split
    · simp [record, ConcurrentMap.get_set_ne _ hne]
    · split
      · simp [record, ConcurrentMap.get_set_ne _ hne]
      · rfl
  cases reply with
  | none =>
      rw [adopt]
      split
      · rfl
      · split
        · rfl
        · simp [record, ConcurrentMap.get_remove_ne _ hne, AList.lookup_insert_ne hne]
  | some it =>
      rw [adopt]
      split
      · exact hpull it sh (hkey it rfl)
      · split
        · rfl
        · rw [hpull it _ (hkey it rfl)]
          simp [record, AList.lookup_erase_ne hne]

/-- `fetchAndAdopt` with the answer of the peer, which is none when the call fails. -/
def DistShard.adoptAnswer (cfg : DistConfig) (now : Time) (key : Key) :
    Option (Option (Item V)) → DistShard V → DistShard V
  | none, sh => sh
  | some reply, sh => sh.adopt cfg now key reply

def DistShard.adoptAll (cfg : DistConfig) (now : Time) (answer : Key → Option (Option (Item V)))
    (keys : List Key) (sh : DistShard V) : DistShard V :=
  keys.foldl (fun sh key => sh.adoptAnswer cfg now key (answer key)) sh

/-- Fetching keys reconciles the records of exactly those keys the peer answers for. -/
theorem DistShard.record_adoptAll (cfg : DistConfig) (now : Time)
    {answer : Key → Option (Option (Item V))}
    (hkeyed : ∀ key it, answer key = some (some it) → it.key = key) (keys : List Key)
    (sh : DistShard V) (key : Key) :
    (sh.adoptAll cfg now answer keys).record key =
      if key ∈ keys then
        (answer key).elim (sh.record key) (fun reply => (sh.record key).adopt cfg now reply)
      else sh.record key := by
  induction keys generalizing sh with
  | nil => rfl
  | cons k rest ih =>
      rw [adoptAll, List.foldl_cons]
      refine (ih _).trans ?_
      cases hans : answer k with
      | none =>
          by_cases hk : key = k
          · subst hk
            rw [hans, if_pos List.mem_cons_self]
            exact ite_self _
          · have hmem : key ∈ k :: rest ↔ key ∈ rest := by simp [hk]
            simp only [hmem]
            rfl
      | some reply =>
          have hreply : ∀ it, reply = some it → it.key = k := fun it hit =>
            hkeyed k it (by rw [hans, hit])
          by_cases hk : key = k
          · subst hk
            rw [hans, if_pos List.mem_cons_self, adoptAnswer, record_adopt cfg now hreply]
            show (if key ∈ rest then Record.adopt cfg now reply (Record.adopt cfg now reply _)
              else _) = _
            rw [Record.adopt_adopt, ite_self]
            rfl
          · have hmem : key ∈ k :: rest ↔ key ∈ rest := by simp [hk]
            rw [adoptAnswer, record_adopt_ne cfg now hreply hk]
            simp only [hmem]

/-! ## The sync -/

/-- The sorts of one sync: of the peer's tree, of the local tree, and of the local
entries, which are gathered and sorted once more. -/
structure SyncOrder where
  remoteTree : MerkleSort
  localTree : MerkleSort
  entries : MerkleSort

namespace World

variable (C : Cluster) (net : Net)

def fetchAndAdopt (n peer : NodeID) (key : Key) (w : World V) : World V :=
  if !(C.cfg n).hasTransport then w
  else
    match forwardGet net peer key w with
    | .error _ => w
    | .ok reply =>
        modify w n (fun st => { st with shard := st.shard.adopt (C.cfg n) net.now key reply })

/-- A pull of a key the peer holds is the arrival of the peer's copy. -/
theorem shards_fetchAndAdopt {n peer : NodeID} {key : Key} {w : World V} {it : Item V}
    (ht : (C.cfg n).hasTransport = true) (hup : net.up peer = true)
    (hget : (w peer).shard.items.get key = some it) :
    shards (fetchAndAdopt C net n peer key w) =
      Arrival.deliver C (shards w) (.adopt n net.now it) := by
  obtain rfl : it.key = key := ConcurrentMap.key_of_get hget
  rw [fetchAndAdopt, forwardGet]
  simp only [ht, hup, hget, Bool.not_true, Bool.false_eq_true, if_false, if_true]
  exact comp_modify NodeState.shard w n _ rfl

def applyMerkleDiffs (n peer : NodeID) (entries : List MerkleKV) (diffs : List Nat)
    (chunkSize : Nat) (w : World V) : World V :=
  diffs.foldl
    (fun w ci =>
      if ci * chunkSize ≥ entries.length then w
      else (chunk chunkSize ci entries).foldl (fun w e => fetchAndAdopt C net n peer e.k w) w) w

def enumerateRemoteOnlyKeys (remote : DistShard V) (entries : List MerkleKV) : List Key :=
  remote.items.keys.filter (fun k => !(entries.map (·.k)).contains k)

variable (sum256 : List UInt8 → List UInt8) (o : SyncOrder)

def syncWithStatus (n peer : NodeID) (w : World V) : World V × Except Err Bool :=
  if !(C.cfg n).hasTransport then (w, .error .noTransport)
  else if !net.up peer then (w, .error .backendNotFound)
  else
    let remoteTree := (w peer).shard.buildMerkleTree sum256 (C.cfg peer) o.remoteTree
    let localTree := (w n).shard.buildMerkleTree sum256 (C.cfg n) o.localTree
    let entries := o.entries.sort (w n).shard.merkleEntries
    let diffs := localTree.diffLeafRanges remoteTree
    let missing := enumerateRemoteOnlyKeys (w peer).shard entries
    let w := applyMerkleDiffs C net n peer entries diffs localTree.chunkSize w
    let w := missing.foldl (fun w k => fetchAndAdopt C net n peer k w) w
    (w, .ok (diffs.isEmpty && missing.isEmpty))

def syncWith (n peer : NodeID) (w : World V) : World V × Option Err :=
  match syncWithStatus C net sum256 o n peer w with
  | (w, .ok _) => (w, none)
  | (w, .error e) => (w, some e)

/-- The keys a sync reads from the peer, in order. -/
def pulledKeys (n peer : NodeID) (w : World V) : List Key :=
  let entries := o.entries.sort (w n).shard.merkleEntries
  (((w n).shard.buildMerkleTree sum256 (C.cfg n) o.localTree).diffLeafRanges
    ((w peer).shard.buildMerkleTree sum256 (C.cfg peer) o.remoteTree)).flatMap
      (fun ci => (chunk (C.cfg n).chunkSize ci entries).map (·.k)) ++
    enumerateRemoteOnlyKeys (w peer).shard entries

/-- A sync that reaches its peer reads the pulled keys one by one. -/
theorem syncWithStatus_world {n peer : NodeID} (ht : (C.cfg n).hasTransport = true)
    (hup : net.up peer = true) (w : World V) :
    (syncWithStatus C net sum256 o n peer w).1 =
      (pulledKeys C sum256 o n peer w).foldl (fun w k => fetchAndAdopt C net n peer k w) w := by
  have hdiffs : ∀ (entries : List MerkleKV) (diffs : List Nat) (size : Nat) (w : World V),
      applyMerkleDiffs C net n peer entries diffs size w =
        (diffs.flatMap (fun ci => (chunk size ci entries).map (·.k))).foldl
          (fun w k => fetchAndAdopt C net n peer k w) w := by
    intro entries diffs size w
    rw [applyMerkleDiffs, foldl_chunks, ← List.map_flatMap, List.foldl_map]
  simp only [syncWithStatus, ht, hup, Bool.not_true, Bool.false_eq_true, if_false, hdiffs,
    pulledKeys, List.foldl_append]
  rfl

theorem syncWithStatus_status {n peer : NodeID} (ht : (C.cfg n).hasTransport = true)
    (hup : net.up peer = true) (w : World V) :
    (syncWithStatus C net sum256 o n peer w).2 =
      .ok ((((w n).shard.buildMerkleTree sum256 (C.cfg n) o.localTree).diffLeafRanges
          ((w peer).shard.buildMerkleTree sum256 (C.cfg peer) o.remoteTree)).isEmpty &&
        (enumerateRemoteOnlyKeys (w peer).shard
          (o.entries.sort (w n).shard.merkleEntries)).isEmpty) := by
  simp only [syncWithStatus, ht, hup, Bool.not_true, Bool.false_eq_true, if_false]

/-! ## Records after a sync -/

variable {C net}

/-- Reading keys from another node reconciles the records of exactly those keys
and leaves the other node alone. -/
theorem foldl_fetchAndAdopt {n peer : NodeID} (hne : peer ≠ n)
    (ht : (C.cfg n).hasTransport = true) (hup : net.up peer = true) (keys : List Key)
    (w : World V) :
    (∀ key, ((keys.foldl (fun w k => fetchAndAdopt C net n peer k w) w) n).shard.record key =
      if key ∈ keys then
        ((w n).shard.record key).adopt (C.cfg n) net.now ((w peer).shard.items.get key)
      else (w n).shard.record key) ∧
    (keys.foldl (fun w k => fetchAndAdopt C net n peer k w) w) peer = w peer := by
  have hfold : ∀ w : World V,
      ((keys.foldl (fun w k => fetchAndAdopt C net n peer k w) w) n).shard =
        (w n).shard.adoptAll (C.cfg n) net.now (fun k => some ((w peer).shard.items.get k)) keys ∧
      (keys.foldl (fun w k => fetchAndAdopt C net n peer k w) w) peer = w peer := by
    induction keys with
    | nil => exact fun w => ⟨rfl, rfl⟩
    | cons k rest ih =>
        intro w
        have hstep : fetchAndAdopt C net n peer k w = modify w n (fun st =>
            { st with
              shard := st.shard.adopt (C.cfg n) net.now k ((w peer).shard.items.get k) }) := by
          simp only [fetchAndAdopt, ht, Bool.not_true, Bool.false_eq_true, if_false, forwardGet,
            hup, if_true]
        have hpeer : fetchAndAdopt C net n peer k w peer = w peer := by
          rw [hstep, modify_ne _ _ hne]
        obtain ⟨ihn, ihpeer⟩ := ih (fetchAndAdopt C net n peer k w)
        rw [hpeer, hstep, modify_self] at ihn
        rw [hpeer] at ihpeer
        rw [List.foldl_cons, hstep]
        rw [hstep] at ihpeer
        exact ⟨ihn, ihpeer⟩
  obtain ⟨hn, hpeer⟩ := hfold w
  refine ⟨fun key => ?_, hpeer⟩
  rw [hn, DistShard.record_adoptAll (C.cfg n) net.now
    (fun k it h => ConcurrentMap.key_of_get (Option.some.inj h))]
  rfl

theorem record_syncWithStatus {n peer : NodeID} (hne : peer ≠ n)
    (ht : (C.cfg n).hasTransport = true) (hup : net.up peer = true) (w : World V) (key : Key) :
    ((syncWithStatus C net sum256 o n peer w).1 n).shard.record key =
      if key ∈ pulledKeys C sum256 o n peer w then
        ((w n).shard.record key).adopt (C.cfg n) net.now ((w peer).shard.items.get key)
      else (w n).shard.record key := by
  rw [syncWithStatus_world C net sum256 o ht hup]
  exact (foldl_fetchAndAdopt hne ht hup _ w).1 key

def lists (sh : DistShard V) (key : Key) : Prop := ∃ v, ⟨key, v⟩ ∈ sh.merkleEntries

theorem lists_iff (s : MerkleSort) {sh : DistShard V} {key : Key} :
    lists sh key ↔ key ∈ (s.sort sh.merkleEntries).map (·.k) := by
  rw [lists, List.mem_map]
  constructor
  · rintro ⟨v, hv⟩
    exact ⟨⟨key, v⟩, (s.perm _).mem_iff.mpr hv, rfl⟩
  · rintro ⟨e, he, rfl⟩
    exact ⟨e.v, (s.perm _).mem_iff.mp he⟩

theorem lists_iff_chunk (cfg : DistConfig) (s : MerkleSort) {sh : DistShard V} {key : Key} :
    lists sh key ↔ ∃ i < sh.leafCount cfg,
      key ∈ (chunk cfg.chunkSize i (s.sort sh.merkleEntries)).map (·.k) := by
  rw [lists_iff s, mem_iff_chunk cfg.chunkSize_pos, List.length_map, (s.perm _).length_eq]
  simp only [map_chunk]
  rfl

theorem lt_leafCount_of_mem_chunk {cfg : DistConfig} {s : MerkleSort} {sh : DistShard V}
    {i : Nat} {e : MerkleKV} (h : e ∈ chunk cfg.chunkSize i (s.sort sh.merkleEntries)) :
    i < sh.leafCount cfg := by
  by_contra hge
  have hlen : (s.sort sh.merkleEntries).length ≤ i * cfg.chunkSize := by
    rw [(s.perm _).length_eq]
    exact count_le cfg.chunkSize_pos (Nat.le_of_not_lt hge)
  rw [chunk_of_le hlen] at h
  exact absurd h List.not_mem_nil

/-- A sync reads a listed key when the leaf counts differ or a chunk with the key
does, and an unlisted key when the peer stores it. -/
theorem mem_pulledKeys {n peer : NodeID} {w : World V} {key : Key} :
    key ∈ pulledKeys C sum256 o n peer w ↔
      (lists (w n).shard key ∧
        ((w n).shard.leafCount (C.cfg n) ≠ (w peer).shard.leafCount (C.cfg peer) ∨
          ∃ i, key ∈ (chunk (C.cfg n).chunkSize i
              (o.localTree.sort (w n).shard.merkleEntries)).map (·.k) ∧
            (w n).shard.leaf sum256 (C.cfg n) o.localTree i ≠
              (w peer).shard.leaf sum256 (C.cfg peer) o.remoteTree i)) ∨
      (¬lists (w n).shard key ∧ ∃ it, (w peer).shard.items.get key = some it) := by
  have hkeys : ∀ i, (chunk (C.cfg n).chunkSize i
      (o.entries.sort (w n).shard.merkleEntries)).map (·.k) =
      (chunk (C.cfg n).chunkSize i (o.localTree.sort (w n).shard.merkleEntries)).map (·.k) := by
    intro i
    rw [map_chunk, map_chunk, o.entries.map_eq o.localTree]
  rw [pulledKeys, List.mem_append]
  refine or_congr ?_ ?_
  · simp only [List.mem_flatMap, hkeys, mem_diffLeafRanges]
    constructor
    · rintro ⟨i, ⟨hi, hdiff⟩, hmem⟩
      refine ⟨(lists_iff_chunk (C.cfg n) o.localTree).mpr ⟨i, hi, hmem⟩, ?_⟩
      exact hdiff.imp_right (fun hleaf => ⟨i, hmem, hleaf⟩)
    · rintro ⟨hlist, hcount | ⟨i, hmem, hleaf⟩⟩
      · obtain ⟨i, hi, hmem⟩ := (lists_iff_chunk (C.cfg n) o.localTree).mp hlist
        exact ⟨i, ⟨hi, .inl hcount⟩, hmem⟩
      · obtain ⟨e, he, -⟩ := List.mem_map.mp hmem
        exact ⟨i, ⟨lt_leafCount_of_mem_chunk he, .inr hleaf⟩, hmem⟩
  · rw [enumerateRemoteOnlyKeys, List.mem_filter, ConcurrentMap.mem_keys, lists_iff o.entries]
    simp [and_comm]

variable (C net) in
theorem syncWith_cases (n peer : NodeID) (w : World V) :
    ((syncWith C net sum256 o n peer w).2 ≠ none ∧ (syncWith C net sum256 o n peer w).1 = w) ∨
    ((C.cfg n).hasTransport = true ∧ net.up peer = true ∧
      (syncWith C net sum256 o n peer w).2 = none ∧
      (syncWith C net sum256 o n peer w).1 = (syncWithStatus C net sum256 o n peer w).1) := by
  by_cases ht : (C.cfg n).hasTransport = true
  swap
  · exact .inl (by simp [syncWith, syncWithStatus, ht])
  by_cases hup : net.up peer = true
  swap
  · exact .inl (by simp [syncWith, syncWithStatus, ht, hup])
  · refine .inr ⟨ht, hup, ?_, ?_⟩
    · simp [syncWith, syncWithStatus, ht, hup]
    · simp [syncWith, syncWithStatus, ht, hup]

theorem record_syncWith {n peer : NodeID} (hne : peer ≠ n) {w : World V}
    (hnil : (syncWith C net sum256 o n peer w).2 = none) (key : Key) :
    ((syncWith C net sum256 o n peer w).1 n).shard.record key =
      if key ∈ pulledKeys C sum256 o n peer w then
        ((w n).shard.record key).adopt (C.cfg n) net.now ((w peer).shard.items.get key)
      else (w n).shard.record key := by
  obtain ⟨herr, -⟩ | ⟨ht, hup, -, heq⟩ := syncWith_cases C net sum256 o n peer w
  · exact absurd hnil herr
  · rw [heq]
    exact record_syncWithStatus sum256 o hne ht hup w key

end World

end HyperCache
