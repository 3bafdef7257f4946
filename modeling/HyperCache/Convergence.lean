/-
What one sync does to a key, by what the two nodes hold.

A peer that lacks a key cannot be told from one that has deleted it, and a
tombstone is never sent.  A sync therefore removes live keys the peer has not
received, and records a tombstone only for a key the local node still stores.
A copy the peer stores is adopted whenever its key is read, and a key goes unread
only when every local chunk with it hashes as at the peer.
-/
import HyperCache.AntiEntropy

namespace HyperCache

open Chunks

namespace World

variable {V : Type} {C : Cluster} {net : Net} (sum256 : List UInt8 → List UInt8) (o : SyncOrder)

/-- The leaf counts agree and every local chunk with the key hashes as at the
peer. -/
def hidden (C : Cluster) (n peer : NodeID) (w : World V) (key : Key) : Prop :=
  (w n).shard.leafCount (C.cfg n) = (w peer).shard.leafCount (C.cfg peer) ∧
    ∀ i, key ∈ (chunk (C.cfg n).chunkSize i
        (o.localTree.sort (w n).shard.merkleEntries)).map (·.k) →
      (w n).shard.leaf sum256 (C.cfg n) o.localTree i =
        (w peer).shard.leaf sum256 (C.cfg peer) o.remoteTree i

theorem mem_pulledKeys_of_lists {n peer : NodeID} {w : World V} {key : Key}
    (h : lists (w n).shard key) :
    key ∈ pulledKeys C sum256 o n peer w ↔ ¬hidden sum256 o C n peer w key := by
  rw [mem_pulledKeys, hidden]
  simp only [h, true_and, not_true_eq_false, false_and, or_false]
  constructor
  · rintro (hcount | ⟨i, hmem, hleaf⟩) ⟨heq, hsame⟩
    · exact hcount heq
    · exact hleaf (hsame i hmem)
  · intro hnot
    by_contra hnone
    rw [not_or, not_exists, not_not] at hnone
    refine hnot ⟨hnone.1, fun i hmem => ?_⟩
    by_contra hleaf
    exact hnone.2 i ⟨hmem, hleaf⟩

theorem lists_of_item {sh : DistShard V} {key : Key} {it : Item V}
    (h : sh.items.get key = some it) : lists sh key :=
  ⟨it.version, DistShard.mem_merkleEntries.mpr (.inl ⟨it, h, rfl⟩)⟩

/-! ## A peer that lacks a live key -/

/-- A key that the peer does not store live survives a sync exactly when the sync
fails, the local node also has a tombstone for it, or it is hidden.  Otherwise the
miss is taken for a delete, one version above the local copy. -/
theorem live_after_sync_iff {n peer : NodeID} (hne : peer ≠ n) {w : World V} {key : Key}
    {it : Item V} (hlive : (w n).shard.items.get key = some it)
    (hmiss : (w peer).shard.items.get key = none) :
    (((syncWith C net sum256 o n peer w).1 n).shard.items.get key ≠ none ↔
      (syncWith C net sum256 o n peer w).2 ≠ none ∨
      (w n).shard.tombs.lookup key ≠ none ∨ hidden sum256 o C n peer w key) ∧
    (((syncWith C net sum256 o n peer w).1 n).shard.items.get key = none →
      ((syncWith C net sum256 o n peer w).1 n).shard.tombs.lookup key =
        some ⟨it.version + 1, n, net.now⟩) := by
  have hitem : ((w n).shard.record key).item = some it := hlive
  by_cases hnil : (syncWith C net sum256 o n peer w).2 = none
  swap
  · obtain ⟨-, hsame⟩ | ⟨-, -, hok, -⟩ := syncWith_cases C net sum256 o n peer w
    · rw [hsame, hlive]
      exact ⟨iff_of_true (by simp) (.inl hnil), fun h => by cases h⟩
    · exact absurd hok hnil
  have hrec := record_syncWith sum256 o hne hnil key
  rw [hmiss] at hrec
  have hstays : ((syncWith C net sum256 o n peer w).1 n).shard.record key =
      (w n).shard.record key →
      ((syncWith C net sum256 o n peer w).1 n).shard.items.get key = some it :=
    fun h => (congrArg Record.item h).trans hlive
  by_cases hpull : key ∈ pulledKeys C sum256 o n peer w
  · have hshown := (mem_pulledKeys_of_lists sum256 o (lists_of_item hlive)).mp hpull
    rw [if_pos hpull] at hrec
    cases htomb : (w n).shard.tombs.lookup key with
    | some t =>
        rw [Record.adopt_none_of_tomb _ _ htomb] at hrec
        rw [hstays hrec]
        exact ⟨iff_of_true (by simp) (.inr (.inl (by simp))), fun h => by cases h⟩
    | none =>
        rw [Record.adopt_none_of_item _ _ htomb hitem, C.localNode_eq] at hrec
        have hgone : ((syncWith C net sum256 o n peer w).1 n).shard.items.get key = none :=
          congrArg Record.item hrec
        exact ⟨iff_of_false (by simp [hgone]) (by simp [hnil, hshown]),
          fun _ => congrArg Record.tomb hrec⟩
  · have hhidden : hidden sum256 o C n peer w key := by
      by_contra h
      exact hpull ((mem_pulledKeys_of_lists sum256 o (lists_of_item hlive)).mpr h)
    rw [if_neg hpull] at hrec
    rw [hstays hrec]
    exact ⟨iff_of_true (by simp) (.inr (.inr hhidden)), fun h => by cases h⟩

def insertionOrder : SyncOrder := ⟨.insertion _, .insertion _, .insertion _⟩

/-- Node `a` holds the key `k` and the other nodes hold nothing. -/
def loneCopy : World Str := fun m =>
  if m = [97] then { shard := DistShard.empty.applySet (quorumCluster.cfg m) sampleItem }
  else { shard := .empty }

/-- A sync of `a` with `b` buries the key. -/
theorem lone_copy_buried :
    ((syncWith quorumCluster allUp (fun bytes => bytes) insertionOrder [97] [98] loneCopy).1
      [97]).shard.tombs.lookup [107] = some ⟨1, [97], 0⟩ := by
  have hlive : (loneCopy [97]).shard.items.get [107] = some sampleItem := by decide
  have hmiss : (loneCopy [98]).shard.items.get [107] = none := rfl
  exact (live_after_sync_iff _ insertionOrder (by decide) hlive hmiss).2 rfl

/-- Whatever the hash, `a` loses the key when it syncs with `b`. -/
theorem lone_copy_lost :
    (loneCopy [97]).shard.items.get [107] = some sampleItem ∧
      (loneCopy [98]).shard.record [107] = ⟨none, none⟩ ∧
      ∀ sum256, ((syncWith quorumCluster allUp sum256 insertionOrder [97] [98] loneCopy).1
        [97]).shard.items.get [107] = none :=
  ⟨by decide, rfl, fun _ => rfl⟩

/-! ## A peer that stores a key -/

def HoldsAtLeast (sh : DistShard V) (key : Key) (v : UInt64) : Prop :=
  (∃ it, sh.items.get key = some it ∧ v ≤ it.version) ∨
    ∃ tomb, sh.tombs.lookup key = some tomb ∧ v ≤ tomb.version

theorem holdsAtLeast_iff {sh : DistShard V} {key : Key} {v : UInt64} :
    HoldsAtLeast sh key v ↔ ∃ x, ⟨key, x⟩ ∈ sh.merkleEntries ∧ v ≤ x := by
  simp only [HoldsAtLeast, DistShard.mem_merkleEntries]
  constructor
  · rintro (⟨it, hget, hle⟩ | ⟨tomb, hlook, hle⟩)
    · exact ⟨it.version, .inl ⟨it, hget, rfl⟩, hle⟩
    · exact ⟨tomb.version, .inr ⟨tomb, hlook, rfl⟩, hle⟩
  · rintro ⟨x, ⟨it, hget, rfl⟩ | ⟨tomb, hlook, rfl⟩, hle⟩
    · exact .inl ⟨it, hget, hle⟩
    · exact .inr ⟨tomb, hlook, hle⟩

theorem holdsAtLeast_of_adopt {sh sh' : DistShard V} {cfg : DistConfig} {now : Time} {key : Key}
    {it : Item V} (h : sh'.record key = (sh.record key).adopt cfg now (some it)) :
    HoldsAtLeast sh' key it.version := by
  have hitem : sh'.items.get key = ((sh.record key).adopt cfg now (some it)).item :=
    congrArg Record.item h
  have htomb : sh'.tombs.lookup key = ((sh.record key).adopt cfg now (some it)).tomb :=
    congrArg Record.tomb h
  rw [Record.adopt] at hitem htomb
  by_cases hkeep : (sh.record key).tomb.any (·.version ≥ it.version) = true
  · rw [if_pos hkeep] at htomb
    cases ht : (sh.record key).tomb with
    | none => simp [ht] at hkeep
    | some t => exact .inr ⟨t, htomb.trans ht, by simpa [ht] using hkeep⟩
  · rw [if_neg hkeep] at hitem
    by_cases hnewer : (sh.record key).item.any (·.version ≥ it.version) = true
    · rw [if_pos hnewer] at hitem
      cases hi : (sh.record key).item with
      | none => simp [hi] at hnewer
      | some cur => exact .inl ⟨cur, hitem.trans hi, by simpa [hi] using hnewer⟩
    · rw [if_neg hnewer] at hitem
      exact .inl ⟨it, hitem, le_rfl⟩

theorem mem_merkleEntries_congr {sh sh' : DistShard V} {key : Key}
    (h : sh'.record key = sh.record key) (v : UInt64) :
    ⟨key, v⟩ ∈ sh'.merkleEntries ↔ ⟨key, v⟩ ∈ sh.merkleEntries := by
  have hitem : sh'.items.get key = sh.items.get key := congrArg Record.item h
  have htomb : sh'.tombs.lookup key = sh.tombs.lookup key := congrArg Record.tomb h
  simp only [DistShard.mem_merkleEntries, hitem, htomb]

/-- If chunks that hash alike have the same entries, then everything listed under
a hidden key is listed by the peer. -/
theorem mem_peer_of_hidden {n peer : NodeID} {w : World V}
    (hinj : ∀ i, (w n).shard.leaf sum256 (C.cfg n) o.localTree i =
        (w peer).shard.leaf sum256 (C.cfg peer) o.remoteTree i →
      chunk (C.cfg n).chunkSize i (o.localTree.sort (w n).shard.merkleEntries) =
        chunk (C.cfg peer).chunkSize i (o.remoteTree.sort (w peer).shard.merkleEntries))
    {key : Key} (h : hidden sum256 o C n peer w key) {v : UInt64}
    (hv : ⟨key, v⟩ ∈ (w n).shard.merkleEntries) :
    ⟨key, v⟩ ∈ (w peer).shard.merkleEntries := by
  have hsorted : ⟨key, v⟩ ∈ o.localTree.sort (w n).shard.merkleEntries :=
    (o.localTree.perm _).mem_iff.mpr hv
  obtain ⟨i, -, hi⟩ := (mem_iff_chunk (C.cfg n).chunkSize_pos).mp hsorted
  rw [hinj i (h.2 i (List.mem_map.mpr ⟨_, hi, rfl⟩))] at hi
  exact (o.remoteTree.perm _).mem_iff.mp (List.mem_of_mem_drop (List.mem_of_mem_take hi))

/-- Assume that chunks with different entries hash differently.  After a sync the
local node holds every key the peer stores at its version or above, except for a
hidden key that the peer deleted and wrote again, and of which the local node
knows the delete only. -/
theorem sync_reaches_versions_iff {n peer : NodeID} (hne : peer ≠ n) {w : World V}
    (hinj : ∀ i, (w n).shard.leaf sum256 (C.cfg n) o.localTree i =
        (w peer).shard.leaf sum256 (C.cfg peer) o.remoteTree i →
      chunk (C.cfg n).chunkSize i (o.localTree.sort (w n).shard.merkleEntries) =
        chunk (C.cfg peer).chunkSize i (o.remoteTree.sort (w peer).shard.merkleEntries))
    (hnil : (syncWith C net sum256 o n peer w).2 = none) :
    (∀ key it, (w peer).shard.items.get key = some it →
      HoldsAtLeast ((syncWith C net sum256 o n peer w).1 n).shard key it.version) ↔
    ∀ key it tomb, (w peer).shard.items.get key = some it →
      (w peer).shard.tombs.lookup key = some tomb → tomb.version < it.version →
      lists (w n).shard key → (∀ v, ⟨key, v⟩ ∈ (w n).shard.merkleEntries → v = tomb.version) →
      ¬hidden sum256 o C n peer w key := by
  have hrec := record_syncWith sum256 o hne hnil
  have hunread : ∀ key, lists (w n).shard key → hidden sum256 o C n peer w key →
      ((syncWith C net sum256 o n peer w).1 n).shard.record key = (w n).shard.record key := by
    intro key hlist hhidden
    rw [hrec key, if_neg (fun hmem => (mem_pulledKeys_of_lists sum256 o hlist).mp hmem hhidden)]
  refine ⟨fun h key it tomb hit htomb hlt hlist honly hhidden => ?_, fun h key it hit => ?_⟩
  · obtain ⟨x, hx, hle⟩ := holdsAtLeast_iff.mp (h key it hit)
    rw [mem_merkleEntries_congr (hunread key hlist hhidden)] at hx
    rw [honly x hx] at hle
    exact absurd hlt (not_lt.mpr hle)
  · by_cases hmem : key ∈ pulledKeys C sum256 o n peer w
    · have hread := hrec key
      rw [if_pos hmem, hit] at hread
      exact holdsAtLeast_of_adopt hread
    -- An unread key is listed and hidden, so what the local node lists under it
    -- is the peer's item or the peer's tombstone.
    have hlist : lists (w n).shard key := by
      by_contra hno
      exact hmem (mem_pulledKeys sum256 o |>.mpr (.inr ⟨hno, it, hit⟩))
    have hhidden : hidden sum256 o C n peer w key := by
      by_contra hno
      exact hmem ((mem_pulledKeys_of_lists sum256 o hlist).mpr hno)
    have hsame := mem_merkleEntries_congr (hunread key hlist hhidden)
    by_contra hlow
    have hbelow : ∀ v, ⟨key, v⟩ ∈ (w n).shard.merkleEntries →
        ∃ tomb, (w peer).shard.tombs.lookup key = some tomb ∧ tomb.version = v ∧
          v < it.version := by
      intro v hv
      have hlt : v < it.version := by
        by_contra hge
        exact hlow (holdsAtLeast_iff.mpr ⟨v, (hsame v).mpr hv, not_lt.mp hge⟩)
      obtain ⟨it', hit', hver⟩ | ⟨tomb, htomb, hver⟩ :=
        DistShard.mem_merkleEntries.mp (mem_peer_of_hidden sum256 o hinj hhidden hv)
      · obtain rfl : it' = it := Option.some.inj (hit'.symm.trans hit)
        exact absurd hlt (hver ▸ lt_irrefl _)
      · exact ⟨tomb, htomb, hver, hlt⟩
    obtain ⟨v, hv⟩ := hlist
    obtain ⟨tomb, htomb, hver, hlt⟩ := hbelow v hv
    refine h key it tomb hit htomb (hver ▸ hlt) ⟨v, hv⟩ (fun v' hv' => ?_) hhidden
    obtain ⟨tomb', htomb', hver', -⟩ := hbelow v' hv'
    obtain rfl : tomb' = tomb := Option.some.inj (htomb'.symm.trans htomb)
    exact hver'.symm

/-- Node `b`, which has nothing, gets the copy of `a`. -/
theorem lone_copy_pulled :
    HoldsAtLeast ((syncWith quorumCluster allUp (fun bytes => bytes) insertionOrder [98] [97]
      loneCopy).1 [98]).shard [107] sampleItem.version := by
  refine (sync_reaches_versions_iff _ insertionOrder (by decide) (fun i hi => ?_) rfl).mpr
    (fun key it tomb _ htomb => by cases htomb) [107] sampleItem (by decide)
  cases i with
  | zero => exact absurd hi (by decide)
  | succ i =>
      have hend : ∀ l : List MerkleKV, l.length ≤ 1 → chunk 128 (i + 1) l = [] :=
        fun l hl => chunk_of_le (by omega)
      exact (hend _ (by decide)).trans (hend _ (by decide)).symm

def chunkOne : Cluster := .uniform { localNode := [], ring := none, merkleChunkSize := 1 }

/-- Both nodes have a tombstone of version 1 for the key `k`.  Node `b` has since
written the key at version 2, and `a` stores another key instead. -/
def rewritten : World Str := fun m =>
  let item : Item Str :=
    if m = [97] then { key := [97], value := some [1], version := 1 }
    else { sampleItem with version := 2 }
  { shard := { DistShard.empty.applySet (chunkOne.cfg m) item with
      tombs := (∅ : AList _).insert [107] ⟨1, [98], 0⟩ } }

/-- The second chunk is the tombstone on both sides, so whatever the hash, `a` does
not read the key and keeps nothing but the tombstone. -/
theorem rewritten_missed :
    (rewritten [98]).shard.items.get [107] = some { sampleItem with version := 2 } ∧
      ∀ sum256, (syncWith chunkOne allUp sum256 insertionOrder [97] [98] rewritten).2 = none ∧
        ((syncWith chunkOne allUp sum256 insertionOrder [97] [98] rewritten).1
          [97]).shard.record [107] = ⟨none, some ⟨1, [98], 0⟩⟩ := by
  refine ⟨by decide, fun sum256 => ⟨rfl, ?_⟩⟩
  have hhidden : hidden sum256 insertionOrder chunkOne [97] [98] rewritten [107] := by
    refine ⟨by decide, fun i hi => ?_⟩
    obtain ⟨e, he, -⟩ := List.mem_map.mp hi
    have hlt : i < 2 := lt_leafCount_of_mem_chunk he
    match i, hlt with
    | 0, _ => exact absurd hi (by decide)
    | 1, _ => rfl
  have hlist : lists (rewritten [97]).shard [107] := ⟨1, by decide⟩
  rw [record_syncWith sum256 insertionOrder (by decide) rfl,
    if_neg (fun hmem => (mem_pulledKeys_of_lists sum256 insertionOrder hlist).mp hmem hhidden)]
  rfl

/-! ## A peer that deleted a key -/

/-- A node holds a tombstone of at least version `t`, or an item above it. -/
def Guarded (sh : DistShard V) (key : Key) (t : UInt64) : Prop :=
  (∃ tomb, sh.tombs.lookup key = some tomb ∧ t ≤ tomb.version) ∨
    ∃ it, sh.items.get key = some it ∧ t < it.version

theorem guarded_congr {sh sh' : DistShard V} {key : Key} (h : sh'.record key = sh.record key)
    (t : UInt64) : Guarded sh' key t ↔ Guarded sh key t := by
  have hitem : sh'.items.get key = sh.items.get key := congrArg Record.item h
  have htomb : sh'.tombs.lookup key = sh.tombs.lookup key := congrArg Record.tomb h
  rw [Guarded, Guarded, hitem, htomb]

/-- A sync with a node that does not store the key never brings it back, and one
with a node whose copy is no newer than the tombstone does not either. -/
theorem buried_after_sync {n peer : NodeID} (hne : peer ≠ n) {w : World V} {key : Key}
    {tomb : Tombstone} (hrec : (w n).shard.record key = ⟨none, some tomb⟩)
    (hold : ∀ copy, (w peer).shard.items.get key = some copy → copy.version ≤ tomb.version) :
    ((syncWith C net sum256 o n peer w).1 n).shard.record key = ⟨none, some tomb⟩ := by
  obtain ⟨-, hsame⟩ | ⟨-, -, hnil, -⟩ := syncWith_cases C net sum256 o n peer w
  · rw [hsame, hrec]
  · rw [record_syncWith sum256 o hne hnil, hrec]
    split
    · cases hcopy : (w peer).shard.items.get key with
      | none => rfl
      | some copy => simp [Record.adopt, hold copy hcopy]
    · rfl

/-- After a sync with a peer that does not store a key, the local node is guarded
against version `t` exactly when it held a tombstone of at least `t`, or an item
that the sync leaves in place above `t` or buries at `t` or above.  A node that
held nothing learns nothing of the delete.  A node left with a tombstone of at
least `t` and no item stays without one through a sync with any peer whose copy is
not above `t`. -/
theorem guarded_after_sync_iff {n peer : NodeID} (hne : peer ≠ n) {w : World V} {key : Key}
    (hmiss : (w peer).shard.items.get key = none)
    (hnil : (syncWith C net sum256 o n peer w).2 = none) (t : UInt64) :
    (Guarded ((syncWith C net sum256 o n peer w).1 n).shard key t ↔
      (∃ tomb, (w n).shard.tombs.lookup key = some tomb ∧ t ≤ tomb.version) ∨
      (∃ it, (w n).shard.items.get key = some it ∧
        ((w n).shard.tombs.lookup key ≠ none ∨ hidden sum256 o C n peer w key) ∧
        t < it.version) ∨
      ∃ it, (w n).shard.items.get key = some it ∧ (w n).shard.tombs.lookup key = none ∧
        ¬hidden sum256 o C n peer w key ∧ t ≤ it.version + 1) ∧
    ∀ (net' : Net) (o' : SyncOrder) (w' : World V) (peer' : NodeID) (tomb : Tombstone),
      peer' ≠ n → (w' n).shard.record key = ⟨none, some tomb⟩ → t ≤ tomb.version →
      (∀ copy, (w' peer').shard.items.get key = some copy → copy.version ≤ t) →
      ((syncWith C net' sum256 o' n peer' w').1 n).shard.items.get key = none := by
  refine ⟨?_, fun net' o' w' peer' tomb hne' hrec hle hold => ?_⟩
  swap
  · have hburied : ((syncWith C net' sum256 o' n peer' w').1 n).shard.record key =
        ⟨none, some tomb⟩ :=
      buried_after_sync sum256 o' hne' hrec (fun copy hcopy => (hold copy hcopy).trans hle)
    exact congrArg Record.item hburied
  have hrec := record_syncWith sum256 o hne hnil key
  rw [hmiss] at hrec
  cases htomb : (w n).shard.tombs.lookup key with
  | some tomb =>
      rw [Record.adopt_none_of_tomb _ _ htomb, ite_self] at hrec
      rw [guarded_congr hrec, Guarded, htomb]
      simp
  | none =>
      cases hitem : (w n).shard.items.get key with
      | none =>
          rw [Record.adopt_none_of_gone _ _ hitem, ite_self] at hrec
          rw [guarded_congr hrec, Guarded, htomb, hitem]
          simp
      | some it =>
          have hread : key ∈ pulledKeys C sum256 o n peer w ↔ _ :=
            mem_pulledKeys_of_lists sum256 o (lists_of_item hitem)
          rw [Record.adopt_none_of_item _ _ htomb hitem] at hrec
          by_cases hhidden : hidden sum256 o C n peer w key
          · rw [if_neg (fun hmem => hread.mp hmem hhidden)] at hrec
            rw [guarded_congr hrec, Guarded, htomb, hitem]
            simp [hhidden]
          · rw [if_pos (hread.mpr hhidden)] at hrec
            have hgone : ((syncWith C net sum256 o n peer w).1 n).shard.items.get key = none :=
              congrArg Record.item hrec
            have hmark : ((syncWith C net sum256 o n peer w).1 n).shard.tombs.lookup key =
                some ⟨it.version + 1, (C.cfg n).localNode, net.now⟩ :=
              congrArg Record.tomb hrec
            rw [Guarded, hgone, hmark]
            simp [hhidden]

/-- Node `b` deleted the key `k` at version 1, `c` still holds version 1, and `a`
has never seen the key. -/
def deletedAtB : World Str := fun m =>
  if m = [98] then
    { shard := { DistShard.empty with tombs := (∅ : AList _).insert [107] ⟨1, [98], 0⟩ } }
  else if m = [99] then
    { shard := DistShard.empty.applySet (quorumCluster.cfg m) { sampleItem with version := 1 } }
  else { shard := .empty }

/-- A sync of `a`, which holds version 0, with `b` leaves `a` guarded against version 1. -/
theorem deleted_copy_guarded :
    let w : World Str := fun m => if m = [97] then loneCopy m else deletedAtB m
    (w [98]).shard.record [107] = ⟨none, some ⟨1, [98], 0⟩⟩ ∧
      Guarded ((syncWith quorumCluster allUp (fun bytes => bytes) insertionOrder [97] [98]
        w).1 [97]).shard [107] 1 := by
  refine ⟨rfl, (guarded_after_sync_iff _ insertionOrder (by decide) rfl rfl 1).1.mpr
    (.inr (.inr ⟨sampleItem, by decide, rfl, fun h => ?_, by decide⟩))⟩
  exact absurd (h.2 0 (by decide)) (by decide)

/-- Whatever the hash, a sync of `a` with `b` leaves no trace of the delete, and a
sync with `c` then makes the key live at `a`. -/
theorem delete_not_learned :
    (deletedAtB [98]).shard.record [107] = ⟨none, some ⟨1, [98], 0⟩⟩ ∧
      ∀ sum256, (syncWith quorumCluster allUp sum256 insertionOrder [97] [98] deletedAtB).2 =
          none ∧
        ((syncWith quorumCluster allUp sum256 insertionOrder [97] [98] deletedAtB).1
          [97]).shard.record [107] = ⟨none, none⟩ ∧
        ((syncWith quorumCluster allUp sum256 insertionOrder [97] [99]
          (syncWith quorumCluster allUp sum256 insertionOrder [97] [98] deletedAtB).1).1
            [97]).shard.items.get [107] = some { sampleItem with version := 1 } := by
  refine ⟨rfl, fun sum256 => ?_⟩
  have hsame : (syncWith quorumCluster allUp sum256 insertionOrder [97] [98] deletedAtB).1 =
      deletedAtB := rfl
  rw [hsame]
  exact ⟨rfl, rfl, rfl⟩

/-! ## A clean sync -/

/-- A clean sync has found nothing at the peer that the local node does not list,
and no differing leaf.  The leaves agree unless the local node lists nothing, in
which case none is compared. -/
theorem clean_sync {n peer : NodeID} {w : World V}
    (h : (syncWithStatus C net sum256 o n peer w).2 = .ok true) :
    (∀ key it, (w peer).shard.items.get key = some it → lists (w n).shard key) ∧
    ((w n).shard.leafCount (C.cfg n) = 0 ∨
      (w n).shard.leafCount (C.cfg n) = (w peer).shard.leafCount (C.cfg peer) ∧
      ∀ i < (w n).shard.leafCount (C.cfg n),
        (w n).shard.leaf sum256 (C.cfg n) o.localTree i =
          (w peer).shard.leaf sum256 (C.cfg peer) o.remoteTree i) := by
  rw [syncWithStatus] at h
  split at h
  · cases h
  split at h
  · cases h
  simp only [Except.ok.injEq, Bool.and_eq_true, List.isEmpty_iff] at h
  obtain ⟨hdiffs, hmissing⟩ := h
  have hnone : ∀ i < (w n).shard.leafCount (C.cfg n),
      (w n).shard.leafCount (C.cfg n) = (w peer).shard.leafCount (C.cfg peer) ∧
      (w n).shard.leaf sum256 (C.cfg n) o.localTree i =
        (w peer).shard.leaf sum256 (C.cfg peer) o.remoteTree i := by
    intro i hi
    have hnot := mt (mem_diffLeafRanges sum256).mpr (hdiffs ▸ List.not_mem_nil (a := i))
    grind
  refine ⟨fun key it hit => ?_, ?_⟩
  · by_contra hno
    have hmem : key ∈ enumerateRemoteOnlyKeys (w peer).shard
        (o.entries.sort (w n).shard.merkleEntries) := by
      rw [enumerateRemoteOnlyKeys, List.mem_filter, ConcurrentMap.mem_keys]
      rw [lists_iff o.entries] at hno
      exact ⟨⟨it, hit⟩, by simpa using hno⟩
    rw [hmissing] at hmem
    exact absurd hmem List.not_mem_nil
  · by_cases hzero : (w n).shard.leafCount (C.cfg n) = 0
    · exact .inl hzero
    · exact .inr ⟨(hnone 0 (Nat.pos_of_ne_zero hzero)).1, fun i hi => (hnone i hi).2⟩

/-- Two nodes whose chunks have the same bytes and the same key lengths list the
same entries. -/
theorem sorted_eq_of_bytes {n peer : NodeID} {w : World V}
    (hcount : (w n).shard.leafCount (C.cfg n) = (w peer).shard.leafCount (C.cfg peer))
    (hlen : ∀ i < (w n).shard.leafCount (C.cfg n),
      (chunk (C.cfg n).chunkSize i (o.localTree.sort (w n).shard.merkleEntries)).map
          (·.k.length) =
        (chunk (C.cfg peer).chunkSize i (o.remoteTree.sort (w peer).shard.merkleEntries)).map
          (·.k.length))
    (hbytes : ∀ i < (w n).shard.leafCount (C.cfg n),
      leafBytes (chunk (C.cfg n).chunkSize i (o.localTree.sort (w n).shard.merkleEntries)) =
        leafBytes (chunk (C.cfg peer).chunkSize i
          (o.remoteTree.sort (w peer).shard.merkleEntries))) :
    o.localTree.sort (w n).shard.merkleEntries =
      o.remoteTree.sort (w peer).shard.merkleEntries := by
  have hlocal : count (C.cfg n).chunkSize (o.localTree.sort (w n).shard.merkleEntries).length =
      (w n).shard.leafCount (C.cfg n) := by
    rw [(o.localTree.perm _).length_eq, DistShard.leafCount]
  have hremote : count (C.cfg peer).chunkSize
      (o.remoteTree.sort (w peer).shard.merkleEntries).length =
      (w peer).shard.leafCount (C.cfg peer) := by
    rw [(o.remoteTree.perm _).length_eq, DistShard.leafCount]
  refine eq_of_chunks (C.cfg n).chunkSize_pos (C.cfg peer).chunkSize_pos
    (by rw [hlocal, hremote, hcount]) (fun i hi => ?_)
  rw [hlocal] at hi
  exact leafBytes_inj (hlen i hi) (hbytes i hi)

/-- Assume that no two different chunks of the two nodes collide under the hash.
After a clean sync the local node lists every key the peer stores, and it lists
nothing or the corresponding chunks of the two nodes have the same bytes.  Where
their keys also have the same lengths, the two nodes list the same keys with the
same versions, and a key live on both and not deleted at the peer has one version.
The bytes do not tell an item from a tombstone and leave out the origin. -/
theorem clean_sync_listing {n peer : NodeID} {w : World V}
    (hsha : ∀ i, (w n).shard.leaf sum256 (C.cfg n) o.localTree i =
        (w peer).shard.leaf sum256 (C.cfg peer) o.remoteTree i →
      leafBytes (chunk (C.cfg n).chunkSize i (o.localTree.sort (w n).shard.merkleEntries)) =
        leafBytes (chunk (C.cfg peer).chunkSize i
          (o.remoteTree.sort (w peer).shard.merkleEntries)))
    (hclean : (syncWithStatus C net sum256 o n peer w).2 = .ok true) :
    (∀ key it, (w peer).shard.items.get key = some it → lists (w n).shard key) ∧
    ((w n).shard.merkleEntries = [] ∨
      (w n).shard.leafCount (C.cfg n) = (w peer).shard.leafCount (C.cfg peer) ∧
      ∀ i < (w n).shard.leafCount (C.cfg n),
        leafBytes (chunk (C.cfg n).chunkSize i (o.localTree.sort (w n).shard.merkleEntries)) =
          leafBytes (chunk (C.cfg peer).chunkSize i
            (o.remoteTree.sort (w peer).shard.merkleEntries))) ∧
    ((w n).shard.merkleEntries ≠ [] →
      (∀ i < (w n).shard.leafCount (C.cfg n),
        (chunk (C.cfg n).chunkSize i (o.localTree.sort (w n).shard.merkleEntries)).map
            (·.k.length) =
          (chunk (C.cfg peer).chunkSize i (o.remoteTree.sort (w peer).shard.merkleEntries)).map
            (·.k.length)) →
      (w n).shard.merkleEntries.Perm (w peer).shard.merkleEntries ∧
      ∀ key a b, (w n).shard.items.get key = some a → (w peer).shard.items.get key = some b →
        (w peer).shard.tombs.lookup key = none → a.version = b.version) := by
  obtain ⟨hlisted, hleaves⟩ := clean_sync sum256 o hclean
  rw [DistShard.leafCount_eq_zero] at hleaves
  refine ⟨hlisted, hleaves.imp_right (fun h => ⟨h.1, fun i hi => hsha i (h.2 i hi)⟩),
    fun hne hlen => ?_⟩
  obtain ⟨hcount, hleaf⟩ := hleaves.resolve_left hne
  have hsorted := sorted_eq_of_bytes o hcount hlen (fun i hi => hsha i (hleaf i hi))
  have hperm : (w n).shard.merkleEntries.Perm (w peer).shard.merkleEntries :=
    (o.localTree.perm _).symm.trans (hsorted ▸ o.remoteTree.perm _)
  refine ⟨hperm, fun key a b ha hb htomb => ?_⟩
  have hmem : ⟨key, a.version⟩ ∈ (w peer).shard.merkleEntries :=
    hperm.mem_iff.mp (DistShard.mem_merkleEntries.mpr (.inl ⟨a, ha, rfl⟩))
  obtain ⟨b', hb', hver⟩ | ⟨tomb, hlook, -⟩ := DistShard.mem_merkleEntries.mp hmem
  · rw [hb, Option.some.injEq] at hb'
    rw [hb', hver]
  · rw [htomb] at hlook
    cases hlook

/-- Every node holds version 1 of the key `k`, written by itself. -/
def ownVersions : World Str := fun m =>
  { shard := DistShard.empty.applySet (quorumCluster.cfg m)
      { sampleItem with version := 1, origin := m } }

/-- A clean sync of `a` with `b` shows that they list the same entries. -/
theorem own_versions_listed :
    (ownVersions [97]).shard.merkleEntries.Perm (ownVersions [98]).shard.merkleEntries := by
  have hclean : (syncWithStatus quorumCluster allUp (fun bytes => bytes) insertionOrder [97] [98]
      ownVersions).2 = .ok true := by decide
  exact ((clean_sync_listing (fun bytes => bytes) insertionOrder (fun _ h => h) hclean).2.2
    (by decide) (by decide)).1

/-- Whatever the hash, a sync of `a` with `b` is clean although the two copies have
different origins, and `a`'s ranks higher. -/
theorem clean_with_different_origins :
    (∀ sum256, (syncWithStatus quorumCluster allUp sum256 insertionOrder [97] [98]
        ownVersions).2 = .ok true) ∧
      (ownVersions [97]).shard.items.get [107] =
        some { sampleItem with version := 1, origin := [97] } ∧
      (ownVersions [98]).shard.items.get [107] =
        some { sampleItem with version := 1, origin := [98] } ∧
      isHigherVersion { sampleItem with version := 1, origin := [97] }
        { sampleItem with version := 1, origin := [98] } = true := by
  refine ⟨fun sum256 => ?_, by decide, by decide, by decide⟩
  have htree : (ownVersions [98]).shard.buildMerkleTree sum256 (quorumCluster.cfg [98])
      insertionOrder.remoteTree = (ownVersions [97]).shard.buildMerkleTree sum256
        (quorumCluster.cfg [97]) insertionOrder.localTree := rfl
  have hmissing : enumerateRemoteOnlyKeys (ownVersions [98]).shard
      (insertionOrder.entries.sort (ownVersions [97]).shard.merkleEntries) = [] := by decide
  rw [syncWithStatus_status _ _ _ _ rfl rfl, htree, MerkleTree.diffLeafRanges_self, hmissing]
  rfl

end World

end HyperCache
