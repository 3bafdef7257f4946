/-
What the bytes of a Merkle leaf say about its entries.

A leaf hashes the keys and versions of its chunk one after the other, with nothing
between a version and the next key.  The eight bytes of a version may therefore be read
as part of a longer key.  All entries of a chunk can be read as a single one, and a
single entry as two when its key can be cut into a key, eight bytes and a greater key.
-/
import HyperCache.Merkle

namespace HyperCache

/-- The entries of one chunk: sorted by key, with distinct keys that are not empty. -/
structure LeafEntries (chunkSize : Nat) (entries : List MerkleKV) : Prop where
  sorted : entries.Pairwise (fun a b => a.k < b.k)
  keyed : ∀ e ∈ entries, e.k ≠ []
  fits : entries.length ≤ chunkSize

/-- The key reads as a smaller key, the eight bytes of a version and the rest. -/
def Splits (k : Key) : Prop :=
  ∃ i < k.length, 0 < i ∧ i + 8 < k.length ∧ k.take i < k.drop (i + 8)

instance (k : Key) : Decidable (Splits k) :=
  inferInstanceAs (Decidable (∃ i < k.length, 0 < i ∧ i + 8 < k.length ∧ k.take i < k.drop (i + 8)))

/-! ## Versions as bytes -/

/-- Any eight bytes are those of a version. -/
theorem exists_encodeUint64BigEndian (b₇ b₆ b₅ b₄ b₃ b₂ b₁ b₀ : UInt8) :
    ∃ v, encodeUint64BigEndian v = [b₇, b₆, b₅, b₄, b₃, b₂, b₁, b₀] := by
  have h₇ := b₇.toNat_lt
  have h₆ := b₆.toNat_lt
  have h₅ := b₅.toNat_lt
  have h₄ := b₄.toNat_lt
  have h₃ := b₃.toNat_lt
  have h₂ := b₂.toNat_lt
  have h₁ := b₁.toNat_lt
  have h₀ := b₀.toNat_lt
  -- The version whose digits in base 256 are the bytes.
  refine ⟨UInt64.ofNat (((((((b₇.toNat * 256 + b₆.toNat) * 256 + b₅.toNat) * 256 + b₄.toNat) * 256
    + b₃.toNat) * 256 + b₂.toNat) * 256 + b₁.toNat) * 256 + b₀.toNat), ?_⟩
  simp only [encodeUint64BigEndian, List.cons.injEq, and_true]
  refine ⟨?_, ?_, ?_, ?_, ?_, ?_, ?_, ?_⟩ <;> apply UInt8.toNat_inj.mp <;>
    simp only [UInt64.toNat_toUInt8, UInt64.toNat_shiftRight, UInt64.reduceToNat, Nat.reduceMod,
      Nat.shiftRight_eq_div_pow, Nat.reducePow, UInt64.toNat_ofNat'] <;> omega

theorem exists_version {bytes : List UInt8} (h : bytes.length = 8) :
    ∃ v, encodeUint64BigEndian v = bytes := by
  match bytes, h with
  | [b₇, b₆, b₅, b₄, b₃, b₂, b₁, b₀], _ =>
      exact exists_encodeUint64BigEndian b₇ b₆ b₅ b₄ b₃ b₂ b₁ b₀

/-! ## Reading a leaf in another way -/

theorem leafBytes_cons (e : MerkleKV) (rest : List MerkleKV) :
    leafBytes (e :: rest) = e.k ++ encodeUint64BigEndian e.v ++ leafBytes rest :=
  List.flatMap_cons

theorem leafBytes_singleton (e : MerkleKV) : leafBytes [e] = e.k ++ encodeUint64BigEndian e.v :=
  List.append_nil _

/-- The bytes of a leaf that is not empty are a key and a last version. -/
theorem exists_merged (e : MerkleKV) (rest : List MerkleKV) :
    ∃ tail v, leafBytes (e :: rest) = e.k ++ tail ++ encodeUint64BigEndian v := by
  induction rest generalizing e with
  | nil =>
      refine ⟨[], e.v, ?_⟩
      rw [leafBytes_singleton, List.append_nil]
  | cons f rest ih =>
      obtain ⟨tail, v, hrest⟩ := ih f
      refine ⟨encodeUint64BigEndian e.v ++ (f.k ++ tail), v, ?_⟩
      rw [leafBytes_cons, hrest]
      simp only [List.append_assoc]

/-- A chunk of several entries has the bytes of a chunk of one entry. -/
theorem exists_single {c : Nat} {e f : MerkleKV} {rest : List MerkleKV}
    (h : LeafEntries c (e :: f :: rest)) :
    ∃ b, LeafEntries c [b] ∧ leafBytes [b] = leafBytes (e :: f :: rest) := by
  obtain ⟨tail, v, hbytes⟩ := exists_merged e (f :: rest)
  have hkey : e.k ++ tail ≠ [] := by
    intro hnil
    exact h.keyed e List.mem_cons_self (List.append_eq_nil_iff.mp hnil).1
  have hfits := h.fits
  rw [List.length_cons, List.length_cons] at hfits
  refine ⟨⟨e.k ++ tail, v⟩, ⟨List.pairwise_singleton _ _, ?_, ?_⟩, ?_⟩
  · intro b hb
    rw [List.mem_singleton.mp hb]
    exact hkey
  · rw [List.length_singleton]
    omega
  · rw [leafBytes_singleton, hbytes]

/-- An entry whose key splits has the bytes of a chunk of two entries. -/
theorem exists_pair {c : Nat} (hc : 2 ≤ c) {e : MerkleKV} (h : Splits e.k) :
    ∃ a b, LeafEntries c [a, b] ∧ leafBytes [a, b] = leafBytes [e] := by
  obtain ⟨i, hi, hpos, hlong, hlt⟩ := h
  have hlen : ((e.k.drop i).take 8).length = 8 := by
    rw [List.length_take, List.length_drop]
    omega
  obtain ⟨v, hv⟩ := exists_version hlen
  have hcut : e.k.take i ++ ((e.k.drop i).take 8 ++ e.k.drop (i + 8)) = e.k := by
    rw [← List.drop_drop, List.take_append_drop, List.take_append_drop]
  refine ⟨⟨e.k.take i, v⟩, ⟨e.k.drop (i + 8), e.v⟩, ⟨?_, ?_, ?_⟩, ?_⟩
  · exact List.pairwise_pair.mpr hlt
  · intro b hb hnil
    have hzero := congrArg List.length hnil
    rcases List.mem_cons.mp hb with rfl | hb
    · rw [List.length_take, List.length_nil] at hzero
      omega
    · rw [List.mem_singleton.mp hb, List.length_drop, List.length_nil] at hzero
      omega
  · exact hc
  · rw [leafBytes_cons, leafBytes_singleton, leafBytes_singleton, hv]
    simp only [List.append_assoc]
    rw [← List.append_assoc _ (e.k.drop (i + 8)), ← List.append_assoc, hcut]

/-- Two or more entries with the bytes of a single one split its key. -/
theorem splits_of_leafBytes {c : Nat} {e f g : MerkleKV} {rest : List MerkleKV}
    (h : LeafEntries c (f :: g :: rest)) (heq : leafBytes [e] = leafBytes (f :: g :: rest)) :
    Splits e.k := by
  obtain ⟨tail, v, htail⟩ := exists_merged g rest
  have hf : 0 < f.k.length := List.length_pos_iff.mpr (h.keyed f List.mem_cons_self)
  have hg : 0 < g.k.length :=
    List.length_pos_iff.mpr (h.keyed g (List.mem_cons_of_mem f List.mem_cons_self))
  -- Both sides end in the eight bytes of a version.
  have hkey : e.k = f.k ++ encodeUint64BigEndian f.v ++ (g.k ++ tail) := by
    rw [leafBytes_singleton, leafBytes_cons, htail, ← List.append_assoc] at heq
    have hlast : (encodeUint64BigEndian e.v).length = (encodeUint64BigEndian v).length := by
      rw [length_encodeUint64BigEndian, length_encodeUint64BigEndian]
    exact (List.append_inj' heq hlast).1
  have hlt : f.k < g.k ++ tail :=
    List.Lex.append_right _ tail ((List.pairwise_cons.mp h.sorted).1 g List.mem_cons_self)
  have hver := length_encodeUint64BigEndian f.v
  refine ⟨f.k.length, ?_, hf, ?_, ?_⟩
  · rw [hkey, List.length_append, List.length_append]
    omega
  · rw [hkey, List.length_append, List.length_append, List.length_append]
    omega
  · have htake : e.k.take f.k.length = f.k := by
      rw [hkey, List.append_assoc, List.take_left]
    have hdrop : e.k.drop (f.k.length + 8) = g.k ++ tail := by
      rw [hkey]
      refine List.drop_left' ?_
      rw [List.length_append, hver]
    rw [htake, hdrop]
    exact hlt

theorem eq_nil_of_leafBytes {b : List MerkleKV} (h : leafBytes [] = leafBytes b) : b = [] := by
  cases b with
  | nil => rfl
  | cons f rest =>
      have hlen := congrArg List.length h
      rw [leafBytes_cons, List.length_append, List.length_append,
        length_encodeUint64BigEndian] at hlen
      have hnil : (leafBytes []).length = 0 := rfl
      omega

theorem eq_of_leafBytes_singleton {e f : MerkleKV} (h : leafBytes [e] = leafBytes [f]) : e = f := by
  have hlen := congrArg List.length h
  rw [leafBytes_singleton, leafBytes_singleton, List.length_append, List.length_append,
    length_encodeUint64BigEndian, length_encodeUint64BigEndian] at hlen
  have hkeys : [e].map (·.k.length) = [f].map (·.k.length) := by
    rw [List.map_singleton, List.map_singleton, Nat.add_right_cancel hlen]
  exact List.singleton_inj.mp (leafBytes_inj hkeys h)

/-- The bytes of a chunk determine its entries exactly when it has at most one and, unless
chunks are of size one, the key of that one does not split. -/
theorem leafBytes_determines_iff {c : Nat} {a : List MerkleKV} (ha : LeafEntries c a) :
    (∀ b, LeafEntries c b → leafBytes a = leafBytes b → a = b) ↔
      a.length ≤ 1 ∧ (2 ≤ c → ∀ e ∈ a, ¬Splits e.k) := by
  constructor
  · intro h
    refine ⟨?_, fun hc e he hsplit => ?_⟩
    · match a with
      | [] => exact Nat.zero_le 1
      | [e] => exact Nat.le_refl 1
      | e :: f :: rest =>
          obtain ⟨b, hb, hbytes⟩ := exists_single ha
          cases h [b] hb hbytes.symm
    · match a, he with
      | [e'], he =>
          obtain rfl := List.mem_singleton.mp he
          obtain ⟨b, b', hb, hbytes⟩ := exists_pair hc hsplit
          cases h [b, b'] hb hbytes.symm
      | e' :: f :: rest, _ =>
          obtain ⟨b, hb, hbytes⟩ := exists_single ha
          cases h [b] hb hbytes.symm
  · rintro ⟨hlen, hsplit⟩ b hb hbytes
    match a with
    | [] => exact (eq_nil_of_leafBytes hbytes).symm
    | [e] =>
        match b with
        | [] => cases eq_nil_of_leafBytes hbytes.symm
        | [f] => rw [eq_of_leafBytes_singleton hbytes]
        | f :: g :: rest =>
            have hc : 2 ≤ c := by
              have hfits := hb.fits
              rw [List.length_cons, List.length_cons] at hfits
              omega
            exact absurd (splits_of_leafBytes hb hbytes) (hsplit hc e List.mem_cons_self)
    | e :: f :: rest =>
        rw [List.length_cons, List.length_cons] at hlen
        omega

theorem leafBytes_determines_k :
    LeafEntries 128 [⟨[107], 1⟩] ∧ ∀ b, LeafEntries 128 b →
      leafBytes [⟨[107], 1⟩] = leafBytes b → [⟨[107], 1⟩] = b := by
  have ha : LeafEntries 128 [⟨[107], 1⟩] := ⟨by decide, by decide, by decide⟩
  exact ⟨ha, (leafBytes_determines_iff ha).mpr ⟨by decide, fun _ => by decide⟩⟩

/-- The keys `a` and `b` at versions 1 and 2, and one key of ten bytes at version 2. -/
theorem leafBytes_ambiguous :
    let two : List MerkleKV := [⟨[97], 1⟩, ⟨[98], 2⟩]
    let one : List MerkleKV := [⟨[97, 0, 0, 0, 0, 0, 0, 0, 1, 98], 2⟩]
    LeafEntries 128 two ∧ LeafEntries 128 one ∧ leafBytes two = leafBytes one ∧ two ≠ one :=
  ⟨⟨by decide, by decide, by decide⟩, ⟨by decide, by decide, by decide⟩, by decide, by decide⟩

end HyperCache
