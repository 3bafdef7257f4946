/-
Listing the keys of a cluster.

`ListKeys` asks every member it believes alive for its matching keys and merges the
answers into one set as they come in.  Merging stops at the limit of the caller and then
reports the list as truncated, even where all further keys are in the set already.

A node asked over HTTP serves one shard per page.  The client follows the cursor from
page to page, for at most 1024 pages, and returns what it has without an error when it
runs out of pages to ask for.
-/
import Mathlib.Data.Finset.Sort
import HyperCache.Lib.Capped
import HyperCache.Transport

namespace HyperCache

open Keyed

variable {V : Type}

/-! ## Merging the answers -/

structure ListKeysResult where
  keys : List Key
  truncated : Bool
  partialNodes : List NodeID

structure ListKeysAccumulator where
  dedup : Finset Key := ∅
  maxKeys : Nat
  partialNodes : List NodeID := []
  truncated : Bool := false

namespace ListKeysAccumulator

def tryAdd (a : ListKeysAccumulator) : List Key → ListKeysAccumulator
  | [] => a
  | k :: rest =>
      if a.dedup.card ≥ a.maxKeys then { a with truncated := true }
      else tryAdd { a with dedup := insert k a.dedup } rest

def markPartial (a : ListKeysAccumulator) (peer : NodeID) : ListKeysAccumulator :=
  { a with partialNodes := a.partialNodes ++ [peer] }

def result (a : ListKeysAccumulator) : ListKeysResult where
  keys := a.dedup.sort (· ≤ ·)
  truncated := a.truncated
  partialNodes := a.partialNodes

theorem tryAdd_eq (a : ListKeysAccumulator) (keys : List Key) :
    a.tryAdd keys =
      { a with
        dedup := (Capped.collect a.maxKeys keys a.dedup).1
        truncated := a.truncated || (Capped.collect a.maxKeys keys a.dedup).2 } := by
  induction keys generalizing a with
  | nil => simp [tryAdd, Capped.collect]
  | cons k rest ih =>
      rw [tryAdd, Capped.collect]
      by_cases hfull : a.dedup.card ≥ a.maxKeys
      · rw [if_pos hfull, if_pos hfull, Bool.or_true]
      · rw [if_neg hfull, if_neg hfull, ih]

theorem foldl_tryAdd (a : ListKeysAccumulator) (lists : List (List Key)) :
    lists.foldl tryAdd a = a.tryAdd lists.flatten := by
  induction lists generalizing a with
  | nil => rfl
  | cons keys rest ih =>
      rw [List.foldl_cons, ih, List.flatten_cons, tryAdd_eq, tryAdd_eq, tryAdd_eq,
        Capped.collect_append]
      simp only [Bool.or_assoc]

end ListKeysAccumulator

/-! ## `ListKeys` -/

def defaultListKeysMax : Nat := 10000

def localMatchingKeys (matcher : Key → Bool) (shards : List (Option (List Key))) : List Key :=
  (shards.flatMap (·.getD [])).filter matcher

/-- What `ListKeys` reads at the node it runs on: the membership and the transport, where
there are any, and the shards.  A transport is what its `ListKeys` answers. -/
structure KeyLister where
  localNode : NodeID
  membership : Option Membership
  transport : Option (NodeID → Str → Except CallErr (List Key))
  shards : List (Option (List Key))
  glob : Str → Key → Option Bool

namespace KeyLister

def alivePeerIDs (l : KeyLister) : List NodeID :=
  match l.membership with
  | none => [l.localNode]
  | some m => (m.list.filter (fun n => n.state = .alive)).map Node.id

/-- The keys of one peer, or nothing when they cannot be had. -/
def peerKeys (l : KeyLister) (pattern : Str) (matcher : Key → Bool) (peer : NodeID) :
    Option (List Key) :=
  if peer = l.localNode then some (localMatchingKeys matcher l.shards)
  else
    match l.transport with
    | none => none
    | some listKeys => (listKeys peer pattern).toOption

def collectPeerKeys (l : KeyLister) (pattern : Str) (matcher : Key → Bool)
    (acc : ListKeysAccumulator) (peer : NodeID) : ListKeysAccumulator :=
  match l.peerKeys pattern matcher peer with
  | none => acc.markPartial peer
  | some keys => acc.tryAdd keys

/-- `DistMemory.ListKeys`.  The peers answer in the order `order`. -/
def listKeys (l : KeyLister) (order : VisitOrder NodeID) (pattern : Str) (maxResults : Int) :
    Except CallErr ListKeysResult :=
  let maxKeys := if maxResults ≤ 0 then defaultListKeysMax else maxResults.toNat
  match buildKeyMatcher l.glob pattern with
  | none => .error .badPattern
  | some matcher =>
      .ok ((order.arrange l.alivePeerIDs).foldl (l.collectPeerKeys pattern matcher)
        { maxKeys }).result

/-- The answers of the peers in the order in which they are merged. -/
def merged (l : KeyLister) (order : VisitOrder NodeID) (pattern : Str) (matcher : Key → Bool) :
    List Key :=
  (order.arrange l.alivePeerIDs).flatMap (fun peer => (l.peerKeys pattern matcher peer).getD [])

theorem foldl_collectPeerKeys {l : KeyLister} {pattern : Str} {matcher : Key → Bool}
    {peers : List NodeID} (hok : ∀ peer ∈ peers, (l.peerKeys pattern matcher peer).isSome)
    (acc : ListKeysAccumulator) :
    peers.foldl (l.collectPeerKeys pattern matcher) acc =
      acc.tryAdd (peers.flatMap (fun peer => (l.peerKeys pattern matcher peer).getD [])) := by
  have hfold : peers.foldl (l.collectPeerKeys pattern matcher) acc =
      (peers.map (fun peer => (l.peerKeys pattern matcher peer).getD [])).foldl
        ListKeysAccumulator.tryAdd acc := by
    rw [List.foldl_map]
    refine List.foldl_ext _ _ acc (fun acc peer hpeer => ?_)
    obtain ⟨keys, hkeys⟩ := Option.isSome_iff_exists.mp (hok peer hpeer)
    rw [collectPeerKeys, hkeys]
    rfl
  rw [hfold, ListKeysAccumulator.foldl_tryAdd, List.flatten_eq_flatMap, List.flatMap_map]
  rfl

theorem listKeys_eq {l : KeyLister} (order : VisitOrder NodeID) {pattern : Str}
    {matcher : Key → Bool} {maxResults : Int} (hmax : 0 < maxResults)
    (hpattern : buildKeyMatcher l.glob pattern = some matcher)
    (hok : ∀ peer ∈ l.alivePeerIDs, (l.peerKeys pattern matcher peer).isSome) :
    l.listKeys order pattern maxResults =
      let found := Capped.collect maxResults.toNat (l.merged order pattern matcher) ∅
      .ok ⟨found.1.sort (· ≤ ·), found.2, []⟩ := by
  have hvisited : ∀ peer ∈ order.arrange l.alivePeerIDs,
      (l.peerKeys pattern matcher peer).isSome :=
    fun peer hpeer => hok peer ((order.perm _).mem_iff.mp hpeer)
  rw [listKeys, hpattern]
  dsimp only
  rw [if_neg (not_le.mpr hmax), foldl_collectPeerKeys hvisited, ListKeysAccumulator.tryAdd_eq]
  rfl

/-- What a listing of a union of keys is to return. -/
def Lists (union : Finset Key) (max : Nat) (r : ListKeysResult) : Prop :=
  (union.card ≤ max → r.keys = union.sort (· ≤ ·) ∧ r.truncated = false) ∧
    (max < union.card → r.truncated = true ∧
      ∃ part ⊆ union, part.card = max ∧ r.keys = part.sort (· ≤ ·))

/-- The outcome of merging is right unless the keys reach the cap exactly and the last one
repeats. -/
theorem lists_collect_iff (max : Nat) (keys : List Key) :
    Lists keys.toFinset max
        ⟨(Capped.collect max keys ∅).1.sort (· ≤ ·), (Capped.collect max keys ∅).2, []⟩ ↔
      ¬(keys.toFinset.card = max ∧ Capped.LastRepeats keys) := by
  constructor
  · rintro ⟨hsmall, -⟩ ⟨hcard, hlast⟩
    obtain ⟨-, huncut⟩ := hsmall (Nat.le_of_eq hcard)
    rcases Capped.collect_outcome max keys with ⟨hcut, -⟩ | ⟨-, -, -, hnew⟩
    · exact Bool.noConfusion (hcut.symm.trans huncut)
    · exact hnew hcard hlast
  · intro hfine
    rcases Capped.collect_outcome max keys with ⟨hcut, hsub, hcard, hmore⟩ | ⟨hcut, hall, hle, -⟩
    · have hlt : max < keys.toFinset.card := hmore.resolve_right hfine
      exact ⟨fun hsmall => absurd hlt (Nat.not_lt.mpr hsmall),
        fun _ => ⟨hcut, _, hsub, hcard, rfl⟩⟩
    · refine ⟨fun _ => ⟨?_, hcut⟩, fun hlt => absurd hle (Nat.not_le.mpr hlt)⟩
      show (Capped.collect max keys ∅).1.sort (· ≤ ·) = _
      rw [hall]

/-- A listing that meets no failure is right unless the union has exactly as many keys as were
asked for and the last key that is merged was merged before. -/
theorem listKeys_lists_iff {l : KeyLister} (order : VisitOrder NodeID) {pattern : Str}
    {matcher : Key → Bool} {maxResults : Int} (hmax : 0 < maxResults)
    (hpattern : buildKeyMatcher l.glob pattern = some matcher)
    (hok : ∀ peer ∈ l.alivePeerIDs, (l.peerKeys pattern matcher peer).isSome) :
    (∃ r, l.listKeys order pattern maxResults = .ok r ∧
        Lists (l.merged order pattern matcher).toFinset maxResults.toNat r) ↔
      ¬((l.merged order pattern matcher).toFinset.card = maxResults.toNat ∧
        Capped.LastRepeats (l.merged order pattern matcher)) := by
  rw [listKeys_eq order hmax hpattern hok, ← lists_collect_iff]
  constructor
  · rintro ⟨r, hr, hlists⟩
    cases hr
    exact hlists
  · intro hlists
    exact ⟨_, rfl, hlists⟩

/-- Two nodes that both hold the key `[97]` and nothing else. -/
def replicated : KeyLister where
  localNode := [1]
  membership := some
    (((Membership.new 2 1 Nat.one_pos).upsertLocked 0 { id := [1] }).upsertLocked 0 { id := [2] })
  transport := some (fun _ _ => .ok [[97]])
  shards := [some [[97]]]
  glob := fun _ _ => none

theorem replicated_answers :
    ∀ peer ∈ replicated.alivePeerIDs, (replicated.peerKeys [] (fun _ => true) peer).isSome := by
  decide

theorem replicated_merged :
    replicated.merged (.asStored _) [] (fun _ => true) = [[97], [97]] := by
  decide

/-- With room for two keys the one key is listed as such. -/
theorem listKeys_lists_two :
    ∃ r, replicated.listKeys (.asStored _) [] 2 = .ok r ∧
      Lists (replicated.merged (.asStored _) [] (fun _ => true)).toFinset 2 r := by
  have hmax : (0 : Int) < 2 := by decide
  apply (listKeys_lists_iff (.asStored _) hmax rfl replicated_answers).mpr
  rintro ⟨hcard, -⟩
  rw [replicated_merged] at hcard
  exact absurd hcard (by decide)

/-- With room for one key the listing has every key there is and calls itself truncated. -/
theorem listKeys_truncates_all :
    (replicated.merged (.asStored _) [] (fun _ => true)).toFinset = {[97]} ∧
      replicated.listKeys (.asStored _) [] 1 =
        .ok ⟨({[97]} : Finset Key).sort (· ≤ ·), true, []⟩ := by
  have hmax : (0 : Int) < 1 := by decide
  rw [listKeys_eq (.asStored _) hmax rfl replicated_answers, replicated_merged]
  exact ⟨by decide, rfl⟩

end KeyLister

/-! ## Walking the pages of a node -/

/-- The keys of a shard that match. -/
def matching (matcher : Key → Bool) (shard : Option (List Key)) : List Key :=
  (shard.getD []).filter matcher

/-- The index of the page without a next cursor.  Behind a nil shard at the end there is one
more page. -/
def lastPage (shards : List (Option (List Key))) : Nat :=
  if shards.getLast?.join.isSome then shards.length - 1 else shards.length

theorem lastPage_le (shards : List (Option (List Key))) : lastPage shards ≤ shards.length := by
  unfold lastPage
  split
  · exact Nat.sub_le _ _
  · exact Nat.le_refl _

theorem length_le_lastPage_add_one (shards : List (Option (List Key))) :
    shards.length ≤ lastPage shards + 1 := by
  unfold lastPage
  split <;> omega

theorem lastPage_of_last {shards : List (Option (List Key))} {i : Nat}
    {shard : Option (List Key)} (hi : shards[i]? = some shard) (hlast : i + 1 = shards.length) :
    lastPage shards = if shard.isSome then i else i + 1 := by
  have hget : shards.getLast?.join = shard := by
    rw [List.getLast?_eq_getElem?, ← hlast, Nat.add_sub_cancel, hi]
    rfl
  rw [lastPage, hget, ← hlast, Nat.add_sub_cancel]

/-- The page at an index when no limit is given. -/
theorem handleKeys_eq (shards : List (Option (List Key))) (matcher : Key → Bool)
    (cursor : Option Nat) :
    handleKeys shards matcher 0 cursor =
      { keys := matching matcher shards[cursor.getD 0]?.join
        nextCursor :=
          if cursor.getD 0 < lastPage shards then some (cursor.getD 0 + 1) else none } := by
  have hle := lastPage_le shards
  have hge := length_le_lastPage_add_one shards
  unfold handleKeys
  generalize cursor.getD 0 = i
  dsimp only
  rcases hi : shards[i]? with - | - | shard
  · have hout : shards.length ≤ i := List.getElem?_eq_none_iff.mp hi
    have hend : ¬i < lastPage shards := by omega
    rw [if_neg hend]
    rfl
  · have hin : i < shards.length := (List.getElem?_eq_some_iff.mp hi).1
    have hnext : i < lastPage shards := by
      rcases Nat.lt_or_ge (i + 1) shards.length with hlt | hend
      · omega
      · rw [lastPage_of_last hi (by omega)]
        exact Nat.lt_succ_self i
    rw [if_pos hnext]
    rfl
  · have hin : i < shards.length := (List.getElem?_eq_some_iff.mp hi).1
    have hnext : i < lastPage shards ↔ i + 1 < shards.length := by
      rcases Nat.lt_or_ge (i + 1) shards.length with hlt | hend
      · omega
      · rw [lastPage_of_last hi (by omega)]
        show i < i ↔ i + 1 < shards.length
        omega
    simp only [hnext]
    rfl

/-- What a client meets that lists the keys of a node over HTTP.  A key is in one shard.
`text` is what JSON makes of a string and `bodyLen` the length of a reply. -/
structure KeysEndpoint where
  shards : List (Option (List Key))
  nodup : (shards.flatMap (·.getD [])).Nodup
  glob : Str → Key → Option Bool
  text : Str → Str
  bodyLen : Option Nat → KeysPage → Nat
  respBodyLimit : Int

namespace KeysEndpoint

def keys (e : KeysEndpoint) : List Key := e.shards.flatMap (·.getD [])

/-- `limitedBody` lets the reply pass. -/
def Passes (e : KeysEndpoint) (matcher : Key → Bool) (cursor : Option Nat) : Prop :=
  e.respBodyLimit ≤ 0 ∨
    (e.bodyLen cursor (handleKeys e.shards matcher 0 cursor) : Int) ≤ e.respBodyLimit

instance (e : KeysEndpoint) (matcher : Key → Bool) (cursor : Option Nat) :
    Decidable (e.Passes matcher cursor) :=
  inferInstanceAs (Decidable (_ ∨ _))

def listKeysPage (e : KeysEndpoint) (pattern : Str) (cursor : Option Nat) :
    Except HTTPErr KeysPage :=
  match buildKeyMatcher e.glob pattern with
  | none => .error (.status 400)
  | some matcher =>
      let page := handleKeys e.shards matcher 0 cursor
      if e.Passes matcher cursor then .ok { page with keys := page.keys.map e.text }
      else .error .decode

/-- The loop of `DistHTTPTransport.ListKeys` with the errors of its pages. -/
def walkPages (e : KeysEndpoint) (pattern : Str) :
    Nat → Option Nat → List Key → Except HTTPErr (List Key)
  | 0, _, all => .ok all
  | rounds + 1, cursor, all =>
      match e.listKeysPage pattern cursor with
      | .error err => .error err
      | .ok page =>
          let all := all ++ page.keys
          match page.nextCursor with
          | none => .ok all
          | some next =>
              if cursor = some next then .ok all else walkPages e pattern rounds (some next) all

/-- `DistHTTPTransport.ListKeys`. -/
def listKeys (e : KeysEndpoint) (pattern : Str) : Except HTTPErr (List Key) :=
  e.walkPages pattern safetyLimit none []

/-- The cursor that asks for a page. -/
def cursorAt : Nat → Option Nat
  | 0 => none
  | i + 1 => some (i + 1)

@[simp] theorem cursorAt_getD (i : Nat) : (cursorAt i).getD 0 = i := by
  cases i <;> rfl

theorem cursorAt_ne (i : Nat) : cursorAt i ≠ some (i + 1) := by
  cases i with
  | zero => exact nofun
  | succ i =>
      show some (i + 1) ≠ some (i + 1 + 1)
      simp

section

variable {e : KeysEndpoint} {pattern : Str} {matcher : Key → Bool}

theorem listKeysPage_eq (hpattern : buildKeyMatcher e.glob pattern = some matcher) (i : Nat) :
    e.listKeysPage pattern (cursorAt i) =
      if e.Passes matcher (cursorAt i) then
        .ok { keys := (matching matcher e.shards[i]?.join).map e.text
              nextCursor := if i < lastPage e.shards then some (i + 1) else none }
      else .error .decode := by
  rw [listKeysPage, hpattern]
  dsimp only
  rw [handleKeys_eq, cursorAt_getD]

/-- One round of the walk, at a page that passes. -/
theorem walkPages_succ (hpattern : buildKeyMatcher e.glob pattern = some matcher) {i : Nat}
    (hpass : e.Passes matcher (cursorAt i)) (rounds : Nat) (all : List Key) :
    e.walkPages pattern (rounds + 1) (cursorAt i) all =
      if i < lastPage e.shards then
        e.walkPages pattern rounds (cursorAt (i + 1))
          (all ++ (matching matcher e.shards[i]?.join).map e.text)
      else .ok (all ++ (matching matcher e.shards[i]?.join).map e.text) := by
  rw [walkPages, listKeysPage_eq hpattern, if_pos hpass]
  dsimp only
  by_cases hmore : i < lastPage e.shards
  · rw [if_pos hmore, if_pos hmore]
    exact if_neg (cursorAt_ne i)
  · rw [if_neg hmore, if_neg hmore]

/-- The last page shows what is left of the shards. -/
theorem flatMap_drop_lastPage (shards : List (Option (List Key))) (rounds : Nat) :
    ((shards.drop (lastPage shards)).take (rounds + 1)).flatMap (matching matcher) =
      matching matcher shards[lastPage shards]?.join := by
  have hle := length_le_lastPage_add_one shards
  cases hi : shards[lastPage shards]? with
  | none =>
      rw [List.drop_eq_nil_of_le (List.getElem?_eq_none_iff.mp hi)]
      rfl
  | some shard =>
      obtain ⟨hin, rfl⟩ := List.getElem?_eq_some_iff.mp hi
      rw [List.drop_eq_getElem_cons hin, List.drop_eq_nil_of_le hle, List.take_succ_cons,
        List.take_nil, List.flatMap_singleton]
      rfl

/-- Where its pages pass, a walk returns the matching keys of as many shards as it has rounds. -/
theorem walkPages_ok (hpattern : buildKeyMatcher e.glob pattern = some matcher) {rounds i : Nat}
    (hi : i ≤ lastPage e.shards)
    (hpass : ∀ j, i ≤ j → j < i + rounds → j ≤ lastPage e.shards → e.Passes matcher (cursorAt j))
    (all : List Key) :
    e.walkPages pattern rounds (cursorAt i) all =
      .ok (all ++ (((e.shards.drop i).take rounds).flatMap (matching matcher)).map e.text) := by
  induction rounds generalizing i all with
  | zero =>
      rw [walkPages, List.take_zero]
      exact congrArg _ (List.append_nil all).symm
  | succ rounds ih =>
      rw [walkPages_succ hpattern (hpass i (Nat.le_refl i) (by omega) hi)]
      by_cases hmore : i < lastPage e.shards
      · have hin : i < e.shards.length := Nat.lt_of_lt_of_le hmore (lastPage_le e.shards)
        have hrest := ih hmore (fun j hj hlt => hpass j (by omega) (by omega))
          (all ++ (matching matcher e.shards[i]?.join).map e.text)
        rw [if_pos hmore, hrest, List.drop_eq_getElem_cons hin, List.take_succ_cons,
          List.flatMap_cons, List.map_append, List.append_assoc, List.getElem?_eq_getElem hin]
        rfl
      · obtain rfl : i = lastPage e.shards := Nat.le_antisymm hi (Nat.not_lt.mp hmore)
        rw [if_neg hmore, flatMap_drop_lastPage]

/-- A walk that returns keys was let through at every page it asked for. -/
theorem passes_of_walkPages (hpattern : buildKeyMatcher e.glob pattern = some matcher)
    {rounds i : Nat} {all found : List Key}
    (hok : e.walkPages pattern rounds (cursorAt i) all = .ok found) :
    ∀ j, i ≤ j → j < i + rounds → j ≤ lastPage e.shards → e.Passes matcher (cursorAt j) := by
  induction rounds generalizing i all with
  | zero =>
      intro j hij hj
      omega
  | succ rounds ih =>
      intro j hij hj hlast
      by_cases hpass : e.Passes matcher (cursorAt i)
      · rcases Nat.eq_or_lt_of_le hij with rfl | hlt
        · exact hpass
        · rw [walkPages_succ hpattern hpass, if_pos (by omega)] at hok
          exact ih hok j hlt (by omega) hlast
      · rw [walkPages, listKeysPage_eq hpattern, if_neg hpass] at hok
        cases hok

theorem listKeys_of_passes (hpattern : buildKeyMatcher e.glob pattern = some matcher)
    (hpass : ∀ i < safetyLimit, i ≤ lastPage e.shards → e.Passes matcher (cursorAt i)) :
    e.listKeys pattern =
      .ok (((e.shards.take safetyLimit).flatMap (matching matcher)).map e.text) := by
  have hfrom : ∀ j, 0 ≤ j → j < 0 + safetyLimit → j ≤ lastPage e.shards →
      e.Passes matcher (cursorAt j) := by
    intro j _ hj
    rw [Nat.zero_add] at hj
    exact hpass j hj
  have hwalk := walkPages_ok hpattern (Nat.zero_le _) hfrom []
  rw [List.drop_zero, List.nil_append] at hwalk
  exact hwalk

/-- The matching keys, of the shards that a walk reaches and of the others. -/
theorem filter_keys (e : KeysEndpoint) (matcher : Key → Bool) :
    e.keys.filter matcher = (e.shards.take safetyLimit).flatMap (matching matcher) ++
      (e.shards.drop safetyLimit).flatMap (matching matcher) := by
  rw [← List.flatMap_append, List.take_append_drop, keys, List.filter_flatMap]
  rfl

end

theorem flatMap_matching_eq_nil_iff {matcher : Key → Bool} {shards : List (Option (List Key))} :
    shards.flatMap (matching matcher) = [] ↔
      ∀ shard ∈ shards, ∀ k ∈ shard.getD [], matcher k = false := by
  rw [List.flatMap_eq_nil_iff]
  refine forall₂_congr (fun shard _ => ?_)
  rw [matching, List.filter_eq_nil_iff]
  simp only [Bool.not_eq_true]

/-- A listing returns every matching key once, and no other key, if and only if the pattern is
well formed, no reply is too long, no key in a shard past the first 1024 matches and JSON keeps
the matching keys as they are. -/
theorem listKeys_complete_iff (e : KeysEndpoint) (htext : ∀ s, e.text (e.text s) = e.text s)
    (pattern : Str) :
    (∃ matcher found, buildKeyMatcher e.glob pattern = some matcher ∧
        e.listKeys pattern = .ok found ∧ found.Nodup ∧
        ∀ k, k ∈ found ↔ k ∈ e.keys ∧ matcher k = true) ↔
      ∃ matcher, buildKeyMatcher e.glob pattern = some matcher ∧
        (∀ i < safetyLimit, i ≤ lastPage e.shards → e.Passes matcher (cursorAt i)) ∧
        (∀ shard ∈ e.shards.drop safetyLimit, ∀ k ∈ shard.getD [], matcher k = false) ∧
        ∀ k ∈ e.keys, matcher k = true → e.text k = k := by
  constructor
  · rintro ⟨matcher, found, hpattern, hok, hnodup, hfound⟩
    have hpass : ∀ i < safetyLimit, i ≤ lastPage e.shards → e.Passes matcher (cursorAt i) :=
      fun i hi => passes_of_walkPages (i := 0) hpattern hok i (Nat.zero_le i) (by omega)
    rw [listKeys_of_passes hpattern hpass] at hok
    cases hok
    -- Both lists have the same elements, so what lies past the limit adds nothing.
    have hperm : List.Perm _ (e.keys.filter matcher) :=
      (List.perm_ext_iff_of_nodup hnodup (e.nodup.filter matcher)).mpr
        (fun k => (hfound k).trans List.mem_filter.symm)
    have hlength := hperm.length_eq
    rw [List.length_map, filter_keys, List.length_append] at hlength
    have hrest : (e.shards.drop safetyLimit).flatMap (matching matcher) = [] :=
      List.eq_nil_of_length_eq_zero (by omega)
    refine ⟨matcher, hpattern, hpass, flatMap_matching_eq_nil_iff.mp hrest, fun k hk hmatch => ?_⟩
    obtain ⟨k', -, rfl⟩ := List.mem_map.mp ((hfound k).mpr ⟨hk, hmatch⟩)
    exact htext k'
  · rintro ⟨matcher, hpattern, hpass, hrest, hkeep⟩
    have hall : (e.shards.take safetyLimit).flatMap (matching matcher) =
        e.keys.filter matcher := by
      rw [filter_keys, flatMap_matching_eq_nil_iff.mpr hrest, List.append_nil]
    have hsame : (e.keys.filter matcher).map e.text = (e.keys.filter matcher).map id := by
      apply List.map_congr_left
      intro k hk
      exact hkeep k (List.mem_filter.mp hk).1 (List.mem_filter.mp hk).2
    refine ⟨matcher, e.keys.filter matcher, hpattern, ?_, e.nodup.filter matcher,
      fun k => List.mem_filter⟩
    rw [listKeys_of_passes hpattern hpass, hall, hsame, List.map_id]

/-- Three shards, one of them missing, behind the default limit of 16 MiB. -/
def fewShards : KeysEndpoint where
  shards := [some [[97], [98]], none, some [[99]]]
  nodup := by decide
  glob := fun _ _ => none
  text := id
  bodyLen := fun _ _ => 49
  respBodyLimit := 16777216

theorem listKeys_complete_fewShards :
    ∃ matcher found, buildKeyMatcher fewShards.glob [] = some matcher ∧
      fewShards.listKeys [] = .ok found ∧ found.Nodup ∧
      ∀ k, k ∈ found ↔ k ∈ fewShards.keys ∧ matcher k = true := by
  apply (listKeys_complete_iff fewShards (fun _ => rfl) []).mpr
  refine ⟨fun _ => true, rfl, fun _ _ _ => Or.inr ?_, ?_, fun _ _ _ => rfl⟩
  · show (49 : Int) ≤ 16777216
    decide
  · intro shard hshard
    cases hshard

theorem flatMap_empty_shards (n : Nat) {f : Option (List Key) → List Key}
    (hf : f (some []) = []) : (List.replicate n (some [])).flatMap f = [] := by
  rw [List.flatMap_eq_nil_iff]
  intro shard hshard
  rw [List.eq_of_mem_replicate hshard, hf]

def farShards : List (Option (List Key)) :=
  List.replicate safetyLimit (some []) ++ [some [[97]]]

theorem keys_farShards : farShards.flatMap (·.getD []) = [[97]] := by
  rw [farShards, List.flatMap_append, flatMap_empty_shards safetyLimit rfl]
  rfl

theorem take_farShards : farShards.take safetyLimit = List.replicate safetyLimit (some []) :=
  List.take_left' List.length_replicate

/-- A node with 1025 shards and one key, in the last shard. -/
def manyShards : KeysEndpoint where
  shards := farShards
  nodup := by
    rw [keys_farShards]
    exact List.nodup_singleton _
  glob := fun _ _ => none
  text := id
  bodyLen := fun _ _ => 50
  respBodyLimit := 16777216

/-- The walk ends before the last shard and reports no error. -/
theorem listKeys_manyShards :
    manyShards.keys = [[97]] ∧ buildKeyMatcher manyShards.glob [] = some (fun _ => true) ∧
      manyShards.listKeys [] = .ok [] := by
  have hpass : ∀ i < safetyLimit, i ≤ lastPage manyShards.shards →
      manyShards.Passes (fun _ => true) (cursorAt i) := by
    intro i _ _
    refine Or.inr ?_
    show (50 : Int) ≤ 16777216
    decide
  refine ⟨keys_farShards, rfl, ?_⟩
  rw [listKeys_of_passes rfl hpass]
  show Except.ok (((farShards.take safetyLimit).flatMap (matching fun _ => true)).map id) = _
  rw [take_farShards, flatMap_empty_shards safetyLimit rfl]
  rfl

end KeysEndpoint

end HyperCache
