/-
The shards of the map items are stored in.

A key belongs to one of the 32 shards by its hash, and a shard keeps the number of its items
apart from the items, so that `Count` can add the 32 numbers up without a lock.  A shard
carries the fact that its number is right, and the map the fact that every key is in its own
shard.

Every call locks one shard at a time.  `Clear` locks them one after another, with the calls
of others in between.  A plain map on which the same goroutines make the same calls in the
same order has the same contents and answers, and `Count` is the number of its keys after
every locked update.

`ConcurrentMap` is the map that other modules use.  It is the union of the shards.
-/
import HyperCache.Lib.Scripts
import HyperCache.ConcurrentMap
import HyperCache.Eviction

namespace HyperCache

open Interleaving Scripts

variable {V : Type}

/-! ## A shard -/

/-- `ConcurrentMapShard`. -/
structure MapShard (V : Type) where
  items : AList (fun _ : Key => Item V) := ∅
  count : Int64 := 0
  counted : count = Int64.ofNat items.keys.length := by rfl

namespace MapShard

theorem count_insert (s : MapShard V) (key : Key) (value : Item V) :
    (if (s.items.lookup key).isSome then s.count else s.count + 1) =
      Int64.ofNat (s.items.insert key value).keys.length := by
  rw [Keyed.length_keys_insert, s.counted]
  by_cases h : key ∈ s.items
  · rw [if_pos h, if_pos (AList.lookup_isSome.mpr h)]
  · rw [if_neg h, if_neg (mt AList.lookup_isSome.mp h), Int64.ofNat_add]
    rfl

theorem count_erase (s : MapShard V) {key : Key} (h : (s.items.lookup key).isSome) :
    s.count + (-1) = Int64.ofNat (s.items.erase key).keys.length := by
  have hmem : key ∈ s.items := AList.lookup_isSome.mp h
  have hpos : 0 < s.items.keys.length := List.length_pos_of_mem hmem
  have hcount : s.count = Int64.ofNat (s.items.keys.length - 1) + 1 := by
    have hsucc : Int64.ofNat (s.items.keys.length - 1 + 1) = _ := Int64.ofNat_add _ _
    rw [Nat.sub_add_cancel hpos] at hsucc
    exact s.counted.trans hsucc
  rw [Keyed.length_keys_erase, if_pos hmem, hcount, Int64.add_assoc]
  exact Int64.add_zero _

/-- What `Set` does under the lock. -/
def set (s : MapShard V) (key : Key) (value : Item V) : MapShard V where
  items := s.items.insert key value
  count := if (s.items.lookup key).isSome then s.count else s.count + 1
  counted := s.count_insert key value

/-- What `Pop` does under the lock. -/
def pop (s : MapShard V) (key : Key) : MapShard V × Option (Item V) :=
  match h : s.items.lookup key with
  | none => (s, none)
  | some item =>
      ({ items := s.items.erase key
         count := s.count + (-1)
         counted := s.count_erase (Option.isSome_of_eq_some h) }, some item)

/-- What `Remove` does under the lock. -/
def remove (s : MapShard V) (key : Key) : MapShard V :=
  if h : (s.items.lookup key).isSome then
    { items := s.items.erase key
      count := s.count + (-1)
      counted := s.count_erase h }
  else s

theorem erase_of_lookup_eq_none {s : MapShard V} {key : Key} (h : s.items.lookup key = none) :
    s.items.erase key = s.items :=
  Keyed.erase_of_notMem (AList.lookup_eq_none.mp h)

theorem items_pop (s : MapShard V) (key : Key) : (s.pop key).1.items = s.items.erase key := by
  rw [pop]
  split
  case h_1 h => exact (erase_of_lookup_eq_none h).symm
  case h_2 => rfl

theorem snd_pop (s : MapShard V) (key : Key) : (s.pop key).2 = s.items.lookup key := by
  rw [pop]
  split
  case h_1 h => exact h.symm
  case h_2 h => exact h.symm

theorem items_remove (s : MapShard V) (key : Key) : (s.remove key).items = s.items.erase key := by
  rw [remove]
  split
  case isTrue => rfl
  case isFalse h =>
    rw [Option.not_isSome_iff_eq_none] at h
    exact (erase_of_lookup_eq_none h).symm

end MapShard

/-! ## The map -/

def shardCount : Nat := 32

def getShardIndex (sum64 : Str → UInt64) (key : Key) : UInt32 := hash sum64 key &&& (32 - 1)

theorem getShardIndex_lt (sum64 : Str → UInt64) (key : Key) :
    (getShardIndex sum64 key).toNat < shardCount := by
  have hle := Nat.and_le_right (n := (hash sum64 key).toNat) (m := 31)
  exact Nat.lt_succ_of_le hle

/-- Which shard a key belongs to. -/
def shardOf (sum64 : Str → UInt64) (key : Key) : Fin shardCount :=
  ⟨(getShardIndex sum64 key).toNat, getShardIndex_lt sum64 key⟩

structure ShardedMap (sum64 : Str → UInt64) (V : Type) where
  shards : Fin shardCount → MapShard V
  routed : ∀ i, ∀ key ∈ (shards i).items, shardOf sum64 key = i

namespace ShardedMap

variable {sum64 : Str → UInt64}

/-- `New`. -/
def new : ShardedMap sum64 V where
  shards _ := {}
  routed _ _ h := absurd h (AList.notMem_empty _)

def getShard (m : ShardedMap sum64 V) (key : Key) : MapShard V := m.shards (shardOf sum64 key)

def get (m : ShardedMap sum64 V) (key : Key) : Option (Item V) := (m.getShard key).items.lookup key

/-- The map with another shard in the place of one. -/
def replace (m : ShardedMap sum64 V) (i : Fin shardCount) (s : MapShard V)
    (h : ∀ key ∈ s.items, shardOf sum64 key = i) : ShardedMap sum64 V where
  shards := Function.update m.shards i s
  routed j key hkey := by
    by_cases hj : j = i
    · subst hj
      rw [Function.update_self] at hkey
      exact h key hkey
    · rw [Function.update_of_ne hj] at hkey
      exact m.routed j key hkey

theorem routed_set (m : ShardedMap sum64 V) (key : Key) (value : Item V) :
    ∀ k ∈ ((m.getShard key).set key value).items, shardOf sum64 k = shardOf sum64 key := by
  intro k hk
  rcases AList.mem_insert _ |>.mp hk with rfl | hk
  · rfl
  · exact m.routed _ k hk

theorem routed_erase (m : ShardedMap sum64 V) (key : Key) {s : MapShard V}
    (hs : s.items = (m.getShard key).items.erase key) :
    ∀ k ∈ s.items, shardOf sum64 k = shardOf sum64 key := by
  intro k hk
  rw [hs] at hk
  exact m.routed _ k (AList.mem_erase.mp hk).2

def set (m : ShardedMap sum64 V) (key : Key) (value : Item V) : ShardedMap sum64 V :=
  m.replace (shardOf sum64 key) ((m.getShard key).set key value) (m.routed_set key value)

def pop (m : ShardedMap sum64 V) (key : Key) : ShardedMap sum64 V × Option (Item V) :=
  (m.replace (shardOf sum64 key) ((m.getShard key).pop key).1
    (m.routed_erase key ((m.getShard key).items_pop key)), ((m.getShard key).pop key).2)

def remove (m : ShardedMap sum64 V) (key : Key) : ShardedMap sum64 V :=
  m.replace (shardOf sum64 key) ((m.getShard key).remove key)
    (m.routed_erase key ((m.getShard key).items_remove key))

/-- One round of the loop of `Clear`. -/
def clearShard (m : ShardedMap sum64 V) (i : Fin shardCount) : ShardedMap sum64 V :=
  m.replace i {} (fun _ h => absurd h (AList.notMem_empty _))

def clear (m : ShardedMap sum64 V) : ShardedMap sum64 V :=
  (List.finRange shardCount).foldl clearShard m

def count (m : ShardedMap sum64 V) : Int64 :=
  (List.finRange shardCount).foldl (fun total i => total + (m.shards i).count) 0

/-- The keys `All` yields, shard by shard. -/
def keys (m : ShardedMap sum64 V) : List Key :=
  (List.finRange shardCount).flatMap (fun i => (m.shards i).items.keys)

/-! ## Contents -/

theorem get_replace (m : ShardedMap sum64 V) (i : Fin shardCount) (s : MapShard V)
    (h : ∀ key ∈ s.items, shardOf sum64 key = i) (k : Key) :
    (m.replace i s h).get k = if shardOf sum64 k = i then s.items.lookup k else m.get k := by
  show (Function.update m.shards i s (shardOf sum64 k)).items.lookup k = _
  by_cases hi : shardOf sum64 k = i
  · rw [if_pos hi, hi, Function.update_self]
  · rw [if_neg hi, Function.update_of_ne hi]
    rfl

/-- A shard that differs at one key only changes the map at that key. -/
theorem get_replace_of_ne (m : ShardedMap sum64 V) (key : Key) (s : MapShard V)
    (h : ∀ k ∈ s.items, shardOf sum64 k = shardOf sum64 key) (o : Option (Item V))
    (hs : ∀ k, s.items.lookup k = if k = key then o else (m.getShard key).items.lookup k) :
    (m.replace (shardOf sum64 key) s h).get = Function.update m.get key o := by
  funext k
  rw [get_replace, hs, Function.update_apply]
  by_cases hk : k = key
  · subst hk
    rw [if_pos rfl, if_pos rfl, if_pos rfl]
  · rw [if_neg hk, if_neg hk]
    by_cases hi : shardOf sum64 k = shardOf sum64 key
    · rw [if_pos hi, get, getShard, getShard, hi]
    · rw [if_neg hi]

theorem lookup_erase_eq (items : AList (fun _ : Key => Item V)) (key k : Key) :
    (items.erase key).lookup k = if k = key then none else items.lookup k := by
  by_cases hk : k = key
  · subst hk
    rw [if_pos rfl, AList.lookup_erase]
  · rw [if_neg hk, AList.lookup_erase_ne hk]

theorem get_set (m : ShardedMap sum64 V) (key : Key) (value : Item V) :
    (m.set key value).get = Function.update m.get key (some value) := by
  refine get_replace_of_ne m key _ _ (some value) (fun k => ?_)
  show ((m.getShard key).items.insert key value).lookup k = _
  by_cases hk : k = key
  · subst hk
    rw [if_pos rfl, AList.lookup_insert]
  · rw [if_neg hk, AList.lookup_insert_ne hk]

theorem get_pop (m : ShardedMap sum64 V) (key : Key) :
    (m.pop key).1.get = Function.update m.get key none := by
  refine get_replace_of_ne m key _ (m.routed_erase key (MapShard.items_pop _ key)) none
    (fun k => ?_)
  rw [MapShard.items_pop, lookup_erase_eq]

theorem snd_pop (m : ShardedMap sum64 V) (key : Key) : (m.pop key).2 = m.get key :=
  MapShard.snd_pop _ key

theorem get_remove (m : ShardedMap sum64 V) (key : Key) :
    (m.remove key).get = Function.update m.get key none := by
  refine get_replace_of_ne m key _ _ none (fun k => ?_)
  rw [MapShard.items_remove, lookup_erase_eq]

theorem get_clearShard (m : ShardedMap sum64 V) (i : Fin shardCount) (k : Key) :
    (m.clearShard i).get k = if shardOf sum64 k = i then none else m.get k :=
  get_replace ..

theorem get_foldl_clearShard (m : ShardedMap sum64 V) (l : List (Fin shardCount)) (k : Key) :
    (l.foldl clearShard m).get k = if shardOf sum64 k ∈ l then none else m.get k := by
  induction l generalizing m with
  | nil => rfl
  | cons i l ih =>
      rw [List.foldl_cons, ih, get_clearShard]
      by_cases hi : shardOf sum64 k = i
      · rw [if_pos hi, ite_self, if_pos (List.mem_cons.mpr (Or.inl hi))]
      · rw [if_neg hi]
        exact if_congr (by rw [List.mem_cons, or_iff_right hi]) rfl rfl

theorem get_clear (m : ShardedMap sum64 V) (k : Key) : m.clear.get k = none := by
  rw [clear, get_foldl_clearShard, if_pos (List.mem_finRange _)]

/-! ## Keys and their number -/

theorem mem_keys {m : ShardedMap sum64 V} {k : Key} : k ∈ m.keys ↔ (m.get k).isSome := by
  rw [keys, List.mem_flatMap, get, AList.lookup_isSome]
  constructor
  · rintro ⟨i, -, hk⟩
    rw [getShard, m.routed i k hk]
    exact hk
  · intro hk
    exact ⟨shardOf sum64 k, List.mem_finRange _, hk⟩

theorem keys_nodup (m : ShardedMap sum64 V) : m.keys.Nodup := by
  rw [keys, List.nodup_flatMap]
  refine ⟨fun i _ => (m.shards i).items.keys_nodup, ?_⟩
  apply (List.nodup_finRange shardCount).imp
  intro i j hne k hi hj
  exact hne ((m.routed i k hi).symm.trans (m.routed j k hj))

theorem foldl_count (m : ShardedMap sum64 V) (l : List (Fin shardCount)) (n : Nat) :
    l.foldl (fun total i => total + (m.shards i).count) (Int64.ofNat n) =
      Int64.ofNat (n + (l.flatMap (fun i => (m.shards i).items.keys)).length) := by
  induction l generalizing n with
  | nil => rfl
  | cons i l ih =>
      rw [List.foldl_cons, (m.shards i).counted, ← Int64.ofNat_add, ih, List.flatMap_cons,
        List.length_append, Nat.add_assoc]

/-- `Count` is the number of keys. -/
theorem count_eq (m : ShardedMap sum64 V) : m.count = Int64.ofNat m.keys.length := by
  have h := m.foldl_count (List.finRange shardCount) 0
  rw [Nat.zero_add] at h
  exact h

end ShardedMap

/-! ## Calls at the same time -/

/-- What a call does to one shard under its lock. -/
inductive ShardUpdate (V : Type) where
  | set (key : Key) (value : Item V)
  | pop (key : Key)
  | remove (key : Key)
  | clearShard (i : Fin shardCount)

inductive MapCall (V : Type) where
  | set (key : Key) (value : Item V)
  | pop (key : Key)
  | remove (key : Key)
  | clear

/-- The locked updates of a call, in order. -/
def MapCall.updates : MapCall V → List (ShardUpdate V)
  | .set key value => [.set key value]
  | .pop key => [.pop key]
  | .remove key => [.remove key]
  | .clear => (List.finRange shardCount).map .clearShard

namespace ShardedMap

variable {sum64 : Str → UInt64}

/-- A locked update, with the item that `Pop` returns. -/
def update (m : ShardedMap sum64 V) : ShardUpdate V → ShardedMap sum64 V × Option (Item V)
  | .set key value => (m.set key value, none)
  | .pop key => m.pop key
  | .remove key => (m.remove key, none)
  | .clearShard i => (m.clearShard i, none)

/-- The same update of a map without shards. -/
def updatePlain (sum64 : Str → UInt64) (m : Key → Option (Item V)) :
    ShardUpdate V → (Key → Option (Item V)) × Option (Item V)
  | .set key value => (Function.update m key (some value), none)
  | .pop key => (Function.update m key none, m key)
  | .remove key => (Function.update m key none, none)
  | .clearShard i => (fun key => if shardOf sum64 key = i then none else m key, none)

theorem update_simulates (m : ShardedMap sum64 V) (plain : Key → Option (Item V))
    (u : ShardUpdate V) (h : m.get = plain) :
    (m.update u).1.get = (updatePlain sum64 plain u).1 ∧
      (m.update u).2 = (updatePlain sum64 plain u).2 := by
  subst h
  cases u with
  | set key value => exact ⟨m.get_set key value, rfl⟩
  | pop key => exact ⟨m.get_pop key, m.snd_pop key⟩
  | remove key => exact ⟨m.get_remove key, rfl⟩
  | clearShard i => exact ⟨funext (m.get_clearShard i), rfl⟩

variable {ι : Type} [DecidableEq ι]

/-- The updates of a goroutine that makes its calls one after another. -/
def script (calls : ι → List (MapCall V)) (i : ι) : List (ShardUpdate V) :=
  (calls i).flatMap MapCall.updates

end ShardedMap

/-- A map without shards, with the calls that every goroutine has left to make.  The first of
them may be a `Clear` that has passed some of the shards. -/
structure PlainMap (ι V : Type) where
  contents : Key → Option (Item V) := fun _ => none
  todo : ι → List (MapCall V)
  passed : ι → Nat := fun _ => 0
  answers : List (Option (Item V)) := []

namespace PlainMap

open ShardedMap

variable {ι : Type} [DecidableEq ι] {sum64 : Str → UInt64}

/-- The first call of a goroutine returns. -/
def returns (p : PlainMap ι V) (i : ι) (rest : List (MapCall V))
    (contents : Key → Option (Item V)) (answer : Option (Item V)) : PlainMap ι V where
  contents
  todo := Function.update p.todo i rest
  passed := Function.update p.passed i 0
  answers := p.answers ++ [answer]

/-- The `Clear` of a goroutine goes on to the next shard. -/
def passes (p : PlainMap ι V) (i : ι) (contents : Key → Option (Item V)) : PlainMap ι V where
  contents
  todo := p.todo
  passed := Function.update p.passed i (p.passed i + 1)
  answers := p.answers ++ [none]

/-- The call of a goroutine takes effect.  That of a `Clear` does so for the keys of one shard
at a time. -/
def turn (sum64 : Str → UInt64) (p : PlainMap ι V) (i : ι) : Option (PlainMap ι V) :=
  match p.todo i with
  | [] => none
  | .set key value :: rest => p.returns i rest (Function.update p.contents key (some value)) none
  | .pop key :: rest => p.returns i rest (Function.update p.contents key none) (p.contents key)
  | .remove key :: rest => p.returns i rest (Function.update p.contents key none) none
  | .clear :: rest =>
      let contents := fun key =>
        if (shardOf sum64 key).val = p.passed i then none else p.contents key
      some (if p.passed i + 1 < shardCount then p.passes i contents
        else p.returns i rest contents none)

/-- The locked updates that a goroutine has left. -/
def left (p : PlainMap ι V) (i : ι) : List (ShardUpdate V) :=
  ((p.todo i).flatMap MapCall.updates).drop (p.passed i)

/-- Only a `Clear` is under way for more than one turn. -/
def Wf (p : PlainMap ι V) : Prop :=
  ∀ i, p.passed i = 0 ∨ p.passed i < shardCount ∧ ∃ rest, p.todo i = .clear :: rest

variable {p : PlainMap ι V} {i : ι}

theorem left_returns_self (rest : List (MapCall V)) (contents : Key → Option (Item V))
    (answer : Option (Item V)) :
    (p.returns i rest contents answer).left i = rest.flatMap MapCall.updates := by
  simp [left, returns]

theorem left_returns_ne {j : ι} (hj : j ≠ i) (rest : List (MapCall V))
    (contents : Key → Option (Item V)) (answer : Option (Item V)) :
    (p.returns i rest contents answer).left j = p.left j := by
  simp [left, returns, hj]

theorem Wf.returns (h : p.Wf) (i : ι) (rest : List (MapCall V))
    (contents : Key → Option (Item V)) (answer : Option (Item V)) :
    (p.returns i rest contents answer).Wf := by
  intro j
  by_cases hj : j = i
  · rw [hj]
    exact Or.inl (Function.update_self ..)
  · have hsame := h j
    simp only [PlainMap.returns, Function.update_of_ne hj]
    exact hsame

/-- What one turn does: it makes the first of the updates that are left. -/
structure Makes (sum64 : Str → UInt64) (p : PlainMap ι V) (i : ι) (u : ShardUpdate V)
    (rest : List (ShardUpdate V)) (p' : PlainMap ι V) : Prop where
  wf : p'.Wf
  contents : p'.contents = (updatePlain sum64 p.contents u).1
  answers : p'.answers = p.answers ++ [(updatePlain sum64 p.contents u).2]
  own : p'.left i = rest
  others : ∀ j ≠ i, p'.left j = p.left j

theorem makes_returns (h : p.Wf) {u : ShardUpdate V} {rest : List (MapCall V)}
    {contents : Key → Option (Item V)} {answer : Option (Item V)}
    (hupdate : updatePlain sum64 p.contents u = (contents, answer)) :
    Makes sum64 p i u (rest.flatMap MapCall.updates) (p.returns i rest contents answer) where
  wf := h.returns i rest contents answer
  contents := by rw [hupdate]; rfl
  answers := by rw [hupdate]; rfl
  own := left_returns_self rest contents answer
  others := fun _ hj => left_returns_ne hj rest contents answer

theorem makes_passes (h : p.Wf) {rest : List (MapCall V)} (htodo : p.todo i = .clear :: rest)
    (hmore : p.passed i + 1 < shardCount) :
    Makes sum64 p i (.clearShard ⟨p.passed i, Nat.lt_of_succ_lt hmore⟩)
      ((MapCall.clear.updates ++ rest.flatMap MapCall.updates).drop (p.passed i + 1))
      (p.passes i (updatePlain sum64 p.contents
        (.clearShard ⟨p.passed i, Nat.lt_of_succ_lt hmore⟩)).1) where
  wf := by
    intro j
    simp only [passes]
    by_cases hj : j = i
    · rw [hj, Function.update_self]
      exact Or.inr ⟨hmore, rest, htodo⟩
    · rw [Function.update_of_ne hj]
      exact h j
  contents := rfl
  answers := rfl
  own := by
    simp only [left, passes, Function.update_self, htodo, List.flatMap_cons]
  others := by
    intro j hj
    simp only [left, passes, Function.update_of_ne hj]

theorem drop_updates_clear {n : Nat} (hn : n < shardCount) (rest : List (ShardUpdate V)) :
    (MapCall.clear.updates ++ rest).drop n =
      .clearShard ⟨n, hn⟩ :: (MapCall.clear.updates ++ rest).drop (n + 1) := by
  have hlen : n < (MapCall.clear.updates ++ rest : List (ShardUpdate V)).length := by
    rw [List.length_append, MapCall.updates, List.length_map, List.length_finRange]
    omega
  rw [List.drop_eq_getElem_cons hlen, List.getElem_append_left (by
    rw [MapCall.updates, List.length_map, List.length_finRange]
    exact hn)]
  simp [MapCall.updates]

/-- A goroutine with calls left has updates left, and its turn makes the first of them. -/
theorem turn_cases (sum64 : Str → UInt64) (h : p.Wf) (i : ι) :
    (p.todo i = [] ∧ p.left i = [] ∧ p.turn sum64 i = none) ∨
      p.todo i ≠ [] ∧ ∃ u rest p', p.left i = u :: rest ∧ p.turn sum64 i = some p' ∧
        Makes sum64 p i u rest p' := by
  have hfirst : ∀ {call : MapCall V} {rest}, p.todo i = call :: rest → call ≠ .clear →
      p.passed i = 0 := by
    intro call rest htodo hne
    rcases h i with hzero | ⟨-, rest', hclear⟩
    · exact hzero
    · rw [htodo] at hclear
      exact absurd (List.cons.inj hclear).1 hne
  rw [turn, left]
  cases htodo : p.todo i with
  | nil => exact Or.inl ⟨rfl, List.drop_nil, rfl⟩
  | cons call rest =>
      refine Or.inr ⟨List.cons_ne_nil _ _, ?_⟩
      rw [List.flatMap_cons]
      cases call with
      | set key value =>
          rw [hfirst htodo (by rintro ⟨⟩)]
          exact ⟨.set key value, _, _, rfl, rfl, makes_returns h rfl⟩
      | pop key =>
          rw [hfirst htodo (by rintro ⟨⟩)]
          exact ⟨.pop key, _, _, rfl, rfl, makes_returns h rfl⟩
      | remove key =>
          rw [hfirst htodo (by rintro ⟨⟩)]
          exact ⟨.remove key, _, _, rfl, rfl, makes_returns h rfl⟩
      | clear =>
          have hlt : p.passed i < shardCount := by
            rcases h i with hzero | ⟨hlt, -⟩
            · rw [hzero]
              decide
            · exact hlt
          have hcontents : (fun key => if (shardOf sum64 key).val = p.passed i then none
              else p.contents key) =
                (updatePlain sum64 p.contents (.clearShard ⟨p.passed i, hlt⟩)).1 :=
            funext fun key => if_congr (Fin.ext_iff (b := ⟨p.passed i, hlt⟩)).symm rfl rfl
          refine ⟨_, _, _, drop_updates_clear hlt _, rfl, ?_⟩
          rw [hcontents]
          split
          case isTrue hmore => exact makes_passes h htodo hmore
          case isFalse hlast =>
            have hall : (MapCall.clear.updates ++ rest.flatMap MapCall.updates).drop
                (p.passed i + 1) = rest.flatMap MapCall.updates := by
              refine List.drop_left' ?_
              rw [MapCall.updates, List.length_map, List.length_finRange]
              omega
            rw [hall]
            exact makes_returns h rfl

end PlainMap

namespace ShardedMap

variable {sum64 : Str → UInt64} {ι : Type} [DecidableEq ι]

/-- The map without shards is as far as the shards are. -/
structure Follows (calls : ι → List (MapCall V)) (p : PlainMap ι V)
    (st : State ι (ShardedMap sum64 V) (ShardUpdate V) (Option (Item V))) : Prop where
  wf : p.Wf
  contents : st.shared.get = p.contents
  answers : st.answers = p.answers
  left : ∀ i, (script calls i).drop (st.pc i) = p.left i

theorem follows_step {calls : ι → List (MapCall V)} {p : PlainMap ι V}
    {st st' : State ι (ShardedMap sum64 V) (ShardUpdate V) (Option (Item V))} {i : ι}
    (h : Follows calls p st) (hstep : step update (script calls) st i = some st') :
    ∃ p', p.turn sum64 i = some p' ∧ Follows calls p' st' := by
  obtain ⟨u, hu, rfl⟩ := step_eq_some hstep
  obtain ⟨hlt, hget⟩ := List.getElem?_eq_some_iff.mp hu
  have hleft := h.left i
  rw [List.drop_eq_getElem_cons hlt, hget] at hleft
  rcases p.turn_cases sum64 h.wf i with ⟨-, hnone, -⟩ | ⟨-, u', rest, p', hsome, hturn, hmakes⟩
  · rw [hnone] at hleft
    cases hleft
  rw [hsome] at hleft
  obtain ⟨rfl, hrest⟩ := List.cons.inj hleft
  obtain ⟨hcontents, hanswer⟩ := update_simulates st.shared p.contents u h.contents
  refine ⟨p', hturn, hmakes.wf, hcontents.trans hmakes.contents.symm, ?_, fun j => ?_⟩
  · rw [hmakes.answers, ← h.answers, ← hanswer]
    exact List.map_append
  · show (script calls j).drop (Function.update st.pc i (st.pc i + 1) j) = _
    by_cases hj : j = i
    · rw [hj, Function.update_self, hrest, hmakes.own]
    · rw [Function.update_of_ne hj, h.left, hmakes.others j hj]

theorem follows_run {calls : ι → List (MapCall V)} {sched : List ι}
    {st : State ι (ShardedMap sum64 V) (ShardUpdate V) (Option (Item V))}
    (hrun : run (step update (script calls)) { shared := new } sched = some st) :
    ∃ p, run (PlainMap.turn sum64) { todo := calls } sched = some p ∧ Follows calls p st := by
  refine run_history (I := fun sched st => ∃ p, run (PlainMap.turn sum64) { todo := calls } sched =
    some p ∧ Follows calls p st) ?_ ?_ hrun
  · exact ⟨_, rfl, fun _ => Or.inl rfl, rfl, rfl, fun _ => rfl⟩
  · rintro sched st i st' ⟨p, hp, hfollows⟩ hstep
    obtain ⟨p', hturn, hfollows'⟩ := follows_step hfollows hstep
    refine ⟨p', ?_, hfollows'⟩
    rw [run_concat, hp]
    exact hturn

/-- A goroutine has no turn left once all its calls have returned. -/
theorem Follows.returned_iff {calls : ι → List (MapCall V)} {p : PlainMap ι V}
    {st : State ι (ShardedMap sum64 V) (ShardUpdate V) (Option (Item V))}
    (h : Follows calls p st) (i : ι) :
    step update (script calls) st i = none ↔ p.todo i = [] := by
  rw [step_eq_none_iff, ← List.drop_eq_nil_iff, h.left i]
  rcases p.turn_cases sum64 h.wf i with ⟨htodo, hleft, -⟩ | ⟨htodo, u, rest, p', hleft, -⟩
  · exact iff_of_true hleft htodo
  · rw [hleft]
    exact iff_of_false (List.cons_ne_nil _ _) htodo

/-- Goroutines call `Set`, `Pop`, `Remove` and `Clear` at the same time.  After every schedule of
their locked updates the contents, and the items that `Pop` returned, are those of a plain map on
which the calls take effect in the order of the schedule, all of them once every call has
returned, and `Count` is the number of its keys. -/
theorem concurrent_calls_plain (sum64 : Str → UInt64) (calls : ι → List (MapCall V))
    {sched : List ι} {st : State ι (ShardedMap sum64 V) (ShardUpdate V) (Option (Item V))}
    (hrun : run (step update (script calls)) { shared := new } sched = some st) :
    ∃ plain, run (PlainMap.turn sum64) { todo := calls } sched = some plain ∧
      (∀ i, step update (script calls) st i = none ↔ plain.todo i = []) ∧
      (∀ key, st.shared.get key = plain.contents key) ∧ st.answers = plain.answers ∧
      st.shared.keys.Nodup ∧ (∀ key, key ∈ st.shared.keys ↔ (plain.contents key).isSome) ∧
      st.shared.count = Int64.ofNat st.shared.keys.length ∧
      (st.shared.keys.length < 0x8000000000000000 →
        st.shared.count.toInt = st.shared.keys.length) := by
  obtain ⟨plain, hplain, hfollows⟩ := follows_run hrun
  refine ⟨plain, hplain, hfollows.returned_iff, congrFun hfollows.contents, hfollows.answers,
    keys_nodup _, ?_, count_eq _, ?_⟩
  · intro key
    rw [mem_keys, hfollows.contents]
  · intro hlt
    rw [count_eq, Int64.toInt_ofNat_of_lt hlt]

/-- One goroutine sets, pops and removes, the other one clears the map. -/
def overtakenCalls : Bool → List (MapCall Str)
  | false =>
      [.set [97] { key := [97], value := some [1] }, .pop [97],
        .set [98] { key := [98], value := some [2] }, .remove [97]]
  | true => [.clear]

/-- The hash that puts a key into the shard of its first letter. -/
def firstLetter (key : Str) : UInt64 := (key.headD 0).toUInt64

/-- The clearing has passed the shard of `b` when it is set, and not yet that of `a` when it is
popped. -/
theorem concurrent_calls_plain_overtaken :
    ∃ st : State Bool (ShardedMap firstLetter Str) (ShardUpdate Str) (Option (Item Str)),
      run (step update (script overtakenCalls)) { shared := new }
          ([false, true, false] ++ List.replicate 31 true ++ [false, false]) = some st ∧
        (∀ i, step update (script overtakenCalls) st i = none) ∧
        st.answers[2]? = some (some { key := [97], value := some [1] }) ∧
        st.shared.get [97] = none ∧ (st.shared.get [98]).isSome ∧ st.shared.count.toInt = 1 := by
  have hrun := (rfl : run (step update (script overtakenCalls))
    { shared := (new : ShardedMap firstLetter Str) }
    ([false, true, false] ++ List.replicate 31 true ++ [false, false]) = some _)
  obtain ⟨-, -, -, -, -, -, -, -, hcount⟩ :=
    concurrent_calls_plain firstLetter overtakenCalls hrun
  refine ⟨_, hrun, fun i => ?_, rfl, rfl, rfl, hcount (by decide)⟩
  cases i <;> rfl

/-! ## The union of the shards -/

/-- The map without shards has the same contents. -/
def Represents (m : ShardedMap sum64 V) (union : ConcurrentMap V) : Prop :=
  ∀ k, m.get k = union.get k

variable {m : ShardedMap sum64 V} {union : ConcurrentMap V}

theorem represents_new : Represents (new : ShardedMap sum64 V) ConcurrentMap.empty :=
  fun _ => rfl

theorem Represents.set (h : Represents m union) (it : Item V) :
    Represents (m.set it.key it) (union.set it) := by
  intro k
  rw [get_set, ConcurrentMap.get_set, Function.update_apply, h k]

theorem Represents.remove (h : Represents m union) (key : Key) :
    Represents (m.remove key) (union.remove key) := by
  intro k
  rw [get_remove, Function.update_apply]
  by_cases hk : k = key
  · subst hk
    rw [if_pos rfl, ConcurrentMap.get_remove_self]
  · rw [if_neg hk, ConcurrentMap.get_remove_ne _ hk, h k]

theorem Represents.pop (h : Represents m union) (key : Key) :
    Represents (m.pop key).1 (union.remove key) := by
  intro k
  rw [get_pop, ← get_remove]
  exact h.remove key k

theorem represents_clear (m : ShardedMap sum64 V) (union : ConcurrentMap V) :
    Represents m.clear union.clear :=
  fun k => m.get_clear k

theorem Represents.keys_perm (h : Represents m union) : m.keys.Perm union.keys := by
  refine (List.perm_ext_iff_of_nodup m.keys_nodup union.keys_nodup).mpr (fun k => ?_)
  rw [mem_keys, ConcurrentMap.mem_keys, h k, Option.isSome_iff_exists]

theorem Represents.count_eq (h : Represents m union) : m.count = Int64.ofNat union.count := by
  rw [ShardedMap.count_eq, ConcurrentMap.count_eq, h.keys_perm.length_eq]

/-- The item of a `Set` has the key it is stored under. -/
def OwnKey : MapCall V → Prop
  | .set key value => value.key = key
  | _ => True

/-- The call on the map without shards. -/
def onUnion (union : ConcurrentMap V) : MapCall V → ConcurrentMap V
  | .set _ value => union.set value
  | .pop key => union.remove key
  | .remove key => union.remove key
  | .clear => union.clear

/-- A call whose updates have no others in between. -/
def call (m : ShardedMap sum64 V) (call : MapCall V) : ShardedMap sum64 V :=
  call.updates.foldl (fun m u => (m.update u).1) m

theorem call_clear (m : ShardedMap sum64 V) : m.call .clear = m.clear := by
  rw [call, MapCall.updates, List.foldl_map]
  rfl

theorem Represents.call (h : Represents m union) {call : MapCall V} (hown : OwnKey call) :
    Represents (m.call call) (onUnion union call) := by
  cases call with
  | set key value =>
      have hkey : value.key = key := hown
      subst hkey
      exact h.set value
  | pop key => exact h.pop key
  | remove key => exact h.remove key
  | clear =>
      rw [call_clear]
      exact represents_clear m union

theorem Represents.calls (h : Represents m union) {calls : List (MapCall V)}
    (hown : ∀ call ∈ calls, OwnKey call) :
    Represents (calls.foldl ShardedMap.call m) (calls.foldl onUnion union) := by
  induction calls generalizing m union with
  | nil => exact h
  | cons call calls ih =>
      rw [List.forall_mem_cons] at hown
      exact ih (h.call hown.1) hown.2

/-- Calls that are made one after another, with items under their own keys, leave the union of
the shards as they leave a map without shards, and `Count` is its count. -/
theorem union_calls (calls : List (MapCall V)) (hown : ∀ call ∈ calls, OwnKey call) :
    let m := calls.foldl call (new : ShardedMap sum64 V)
    let union := calls.foldl onUnion .empty
    (∀ k, m.get k = union.get k) ∧ m.keys.Perm union.keys ∧
      m.count = Int64.ofNat union.count := by
  intro m union
  have h : Represents m union := represents_new.calls hown
  exact ⟨h, h.keys_perm, h.count_eq⟩

/-- Two keys of different shards, one of them popped and removed once more. -/
theorem union_calls_two_letters :
    let m := (overtakenCalls false).foldl call (new : ShardedMap firstLetter Str)
    m.keys.Perm ((overtakenCalls false).foldl onUnion .empty).keys ∧
      m.count = Int64.ofNat ((overtakenCalls false).foldl onUnion .empty).count :=
  (union_calls (overtakenCalls false) (by simp [overtakenCalls, OwnKey])).2

end ShardedMap

end HyperCache
