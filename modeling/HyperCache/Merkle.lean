/-
The Merkle summary of a node's data.

A node lists a (key, version) pair for every item and for every tombstone, sorts
the pairs by key, cuts them into chunks and hashes the bytes of each chunk.  Two
summaries are compared leaf by leaf.

The hash is the parameter `sum256`.  `slices.SortFunc` is not stable, and the
pairs reach it in the iteration order of a map, so an item and a tombstone of the
same key may come out either way round.  `MerkleSort` stands for one such sort.
-/
import HyperCache.Lib.Chunks
import HyperCache.Lib.SortBy
import HyperCache.Shard

namespace HyperCache

open Chunks

structure MerkleKV where
  k : Key
  v : UInt64
  deriving DecidableEq, Repr

/-- One run of `slices.SortFunc` by key. -/
abbrev MerkleSort := Sorting.SortBy MerkleKV.k

structure MerkleTree where
  leafHashes : List (List UInt8)
  root : List UInt8
  chunkSize : Nat

def encodeUint64BigEndian (v : UInt64) : List UInt8 :=
  [(v >>> 56).toUInt8, (v >>> 48).toUInt8, (v >>> 40).toUInt8, (v >>> 32).toUInt8,
    (v >>> 24).toUInt8, (v >>> 16).toUInt8, (v >>> 8).toUInt8, v.toUInt8]

def leafBytes (entries : List MerkleKV) : List UInt8 :=
  entries.flatMap (fun e => e.k ++ encodeUint64BigEndian e.v)

/-- A number is determined by its last digit in base 256 and the rest. -/
theorem eq_of_digit {a b d : Nat} (hrest : a / (d * 256) = b / (d * 256))
    (hdigit : a / d % 256 = b / d % 256) : a / d = b / d := by
  rw [← Nat.div_div_eq_div_mul, ← Nat.div_div_eq_div_mul] at hrest
  omega

theorem length_encodeUint64BigEndian (v : UInt64) : (encodeUint64BigEndian v).length = 8 := rfl

theorem encodeUint64BigEndian_inj {v v' : UInt64}
    (h : encodeUint64BigEndian v = encodeUint64BigEndian v') : v = v' := by
  simp only [encodeUint64BigEndian, List.cons.injEq, and_true] at h
  obtain ⟨h₇, h₆, h₅, h₄, h₃, h₂, h₁, h₀⟩ := h
  rw [← UInt8.toNat_inj] at h₇ h₆ h₅ h₄ h₃ h₂ h₁ h₀
  -- Each byte is a digit of the version in base 256.
  simp only [UInt64.toNat_toUInt8, UInt64.toNat_shiftRight, UInt64.reduceToNat, Nat.reduceMod,
    Nat.shiftRight_eq_div_pow, Nat.reducePow] at h₇ h₆ h₅ h₄ h₃ h₂ h₁ h₀
  have htop : ∀ u : UInt64, u.toNat / (2 ^ 56 * 256) = 0 :=
    fun u => Nat.div_eq_of_lt u.toNat_lt
  have e₇ := eq_of_digit ((htop v).trans (htop v').symm) h₇
  have e₆ := eq_of_digit e₇ h₆
  have e₅ := eq_of_digit e₆ h₅
  have e₄ := eq_of_digit e₅ h₄
  have e₃ := eq_of_digit e₄ h₃
  have e₂ := eq_of_digit e₃ h₂
  have e₁ := eq_of_digit e₂ h₁
  apply UInt64.toNat_inj.mp
  omega

/-- The bytes of a chunk determine its entries once the key lengths are known.
Nothing separates a key from the version before it, so without the lengths they
do not. -/
theorem leafBytes_inj {a b : List MerkleKV}
    (hlen : a.map (·.k.length) = b.map (·.k.length)) (h : leafBytes a = leafBytes b) :
    a = b := by
  induction a generalizing b with
  | nil => exact (List.map_eq_nil_iff.mp hlen.symm).symm
  | cons e rest ih =>
      cases b with
      | nil => cases hlen
      | cons f rest' =>
          simp only [List.map_cons, List.cons.injEq] at hlen
          simp only [leafBytes, List.flatMap_cons] at h
          have hhead : (e.k ++ encodeUint64BigEndian e.v).length =
              (f.k ++ encodeUint64BigEndian f.v).length := by
            rw [List.length_append, List.length_append, hlen.1, length_encodeUint64BigEndian,
              length_encodeUint64BigEndian]
          obtain ⟨hef, hrest⟩ := List.append_inj h hhead
          obtain ⟨hk, hv⟩ := List.append_inj hef hlen.1
          have heq : e = f := by
            cases e
            cases f
            exact congrArg₂ MerkleKV.mk hk (encodeUint64BigEndian_inj hv)
          rw [heq, ih hlen.2 hrest]

variable (sum256 : List UInt8 → List UInt8)

/-- One level of `foldMerkle`: hash the pairs and promote an odd last node. -/
def foldLevel : List (List UInt8) → List (List UInt8)
  | [] => []
  | [a] => [a]
  | a :: b :: rest => sum256 (a ++ b) :: foldLevel rest

theorem foldLevel_length_le (level : List (List UInt8)) :
    (foldLevel sum256 level).length ≤ level.length := by
  induction level using foldLevel.induct with
  | case1 => exact Nat.le_refl 0
  | case2 a => exact Nat.le_refl 1
  | case3 a b rest ih =>
      rw [foldLevel, List.length_cons, List.length_cons, List.length_cons]
      omega

def foldMerkle : List (List UInt8) → List UInt8
  | [] => []
  | [a] => a
  | a :: b :: rest => foldMerkle (foldLevel sum256 (a :: b :: rest))
  termination_by level => level.length
  decreasing_by
    have h := foldLevel_length_le sum256 rest
    rw [foldLevel, List.length_cons, List.length_cons, List.length_cons]
    omega

/-- The chunk size in use, 128 unless configured. -/
def DistConfig.chunkSize (cfg : DistConfig) : Nat :=
  if cfg.merkleChunkSize = 0 then 128 else cfg.merkleChunkSize

theorem DistConfig.chunkSize_pos (cfg : DistConfig) : 0 < cfg.chunkSize := by
  unfold chunkSize
  split
  · omega
  · omega

namespace DistShard

variable {V : Type}

/-- `merkleEntries`: items and tombstones alike. -/
def merkleEntries (sh : DistShard V) : List MerkleKV :=
  sh.items.all.map (fun it => ⟨it.key, it.version⟩) ++
    sh.tombs.entries.map (fun e => ⟨e.1, e.2.version⟩)

/-- The hash of the `i`-th chunk. -/
def leaf (cfg : DistConfig) (s : MerkleSort) (sh : DistShard V) (i : Nat) : List UInt8 :=
  sum256 (leafBytes (chunk cfg.chunkSize i (s.sort sh.merkleEntries)))

def leafCount (cfg : DistConfig) (sh : DistShard V) : Nat :=
  count cfg.chunkSize sh.merkleEntries.length

/-- `BuildMerkleTree` with one run of its sort. -/
def buildMerkleTree (cfg : DistConfig) (s : MerkleSort) (sh : DistShard V) : MerkleTree :=
  let leaves := (List.range (sh.leafCount cfg)).map (sh.leaf sum256 cfg s)
  { leafHashes := leaves, root := foldMerkle sum256 leaves, chunkSize := cfg.chunkSize }

theorem leafCount_eq_zero {cfg : DistConfig} {sh : DistShard V} :
    sh.leafCount cfg = 0 ↔ sh.merkleEntries = [] := by
  constructor
  · intro h
    have hlen := count_le cfg.chunkSize_pos (Nat.le_of_eq h)
    rw [Nat.zero_mul, Nat.le_zero] at hlen
    exact List.length_eq_zero_iff.mp hlen
  · intro h
    have hpos := cfg.chunkSize_pos
    rw [leafCount, h, count]
    exact Nat.div_eq_of_lt (by simp; omega)

theorem mem_merkleEntries {sh : DistShard V} {e : MerkleKV} :
    e ∈ sh.merkleEntries ↔ (∃ it, sh.items.get e.k = some it ∧ it.version = e.v) ∨
      ∃ tomb, sh.tombs.lookup e.k = some tomb ∧ tomb.version = e.v := by
  rw [merkleEntries, List.mem_append, List.mem_map, List.mem_map]
  refine or_congr ⟨?_, ?_⟩ ⟨?_, ?_⟩
  · rintro ⟨it, hmem, rfl⟩
    exact ⟨it, ConcurrentMap.mem_all.mp hmem, rfl⟩
  · rintro ⟨it, hget, hver⟩
    have hkey := ConcurrentMap.key_of_get hget
    exact ⟨it, ConcurrentMap.mem_all.mpr (hkey ▸ hget), by rw [hkey, hver]⟩
  · rintro ⟨⟨k, tomb⟩, hmem, rfl⟩
    exact ⟨tomb, AList.mem_lookup_iff.mpr hmem, rfl⟩
  · rintro ⟨tomb, hlook, hver⟩
    exact ⟨⟨e.k, tomb⟩, AList.mem_lookup_iff.mp hlook, congrArg (MerkleKV.mk e.k) hver⟩

end DistShard

def MerkleTree.diffLeafRanges (mt other : MerkleTree) : List Nat :=
  if mt.leafHashes.length ≠ other.leafHashes.length then List.range mt.leafHashes.length
  else (List.range mt.leafHashes.length).filter
    (fun i => mt.leafHashes[i]? ≠ other.leafHashes[i]?)

theorem MerkleTree.diffLeafRanges_self (mt : MerkleTree) : mt.diffLeafRanges mt = [] := by
  simp [diffLeafRanges]

/-- The differing leaves: all of them when the leaf counts differ. -/
theorem mem_diffLeafRanges {V : Type} {cfg cfg' : DistConfig} {s s' : MerkleSort}
    {sh sh' : DistShard V} {i : Nat} :
    i ∈ (sh.buildMerkleTree sum256 cfg s).diffLeafRanges (sh'.buildMerkleTree sum256 cfg' s') ↔
      i < sh.leafCount cfg ∧ (sh.leafCount cfg ≠ sh'.leafCount cfg' ∨
        sh.leaf sum256 cfg s i ≠ sh'.leaf sum256 cfg' s' i) := by
  simp only [MerkleTree.diffLeafRanges, DistShard.buildMerkleTree, List.length_map,
    List.length_range]
  by_cases hcount : sh.leafCount cfg = sh'.leafCount cfg'
  · simp only [hcount, ne_eq, not_true_eq_false, if_false, List.mem_filter, List.mem_range,
      false_or, decide_eq_true_eq]
    refine and_congr_right fun hi => ?_
    simp [hi]
  · simp [hcount]

end HyperCache
