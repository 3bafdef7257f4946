/-
LFU's map and heap hold the nodes of the LFU table, and its victim is the table's.

The table counts accesses without a bound and is where the least used key is
looked up by going through all of them. The heap has it at index zero.
-/
import HyperCache.Lib.Runs
import HyperCache.PointerLfu

namespace HyperCache

open HeapContract Pointwise Tables

variable {V : Type}

namespace Pointers

namespace LFUAlgorithm

/-- What the table keeps of a node. -/
def use (l : LFUAlgorithm V) (p : Nat) : LFUNode V where
  value := (l.freqs.mem p).value
  count := (l.freqs.mem p).count.toNat
  last := (l.freqs.mem p).last

/-- The map has the nodes of the heap, the table `m` has their contents, and no two of them
were used last at one time. -/
structure Content (l : LFUAlgorithm V) (m : AList fun _ : Key => LFUNode V) : Prop where
  items : ∀ key p, l.items.lookup key = some p ↔
    p ∈ l.freqs.nodes ∧ (l.freqs.mem p).key = key
  lookup : ∀ key, m.lookup key = (l.items.lookup key).map l.use
  length_eq : l.length = l.freqs.nodes.length
  fresh : ∀ p ∈ l.freqs.nodes, p < l.fresh
  count_nonneg : ∀ p ∈ l.freqs.nodes, 0 ≤ (l.freqs.mem p).count
  last_le : ∀ p ∈ l.freqs.nodes, (l.freqs.mem p).last ≤ l.seq
  last_inj : ∀ p q, p ∈ l.freqs.nodes → q ∈ l.freqs.nodes →
    (l.freqs.mem p).last = (l.freqs.mem q).last → p = q

variable {l : LFUAlgorithm V} {m : AList fun _ : Key => LFUNode V} {p : Nat} {key : Key}

theorem Content.mem_iff (h : Content l m) : key ∈ m ↔ key ∈ l.items := by
  rw [← AList.lookup_isSome, h.lookup, Option.isSome_map, AList.lookup_isSome]

theorem Content.perm_keys (h : Content l m) (hnodup : l.freqs.nodes.Nodup) :
    m.keys.Perm (l.freqs.nodes.map fun p => (l.freqs.mem p).key) := by
  refine (List.perm_ext_iff_of_nodup m.keys_nodup ?_).mpr ?_
  · refine List.Nodup.map_on ?_ hnodup
    intro p hp q hq heq
    have hp' := (h.items _ p).mpr ⟨hp, heq⟩
    have hq' := (h.items _ q).mpr ⟨hq, rfl⟩
    exact Option.some.inj (hp'.symm.trans hq')
  · intro key
    rw [← AList.mem_keys, h.mem_iff, ← AList.lookup_isSome, Option.isSome_iff_exists,
      List.mem_map]
    exact exists_congr (h.items key)

theorem Content.length_keys (h : Content l m) (hnodup : l.freqs.nodes.Nodup) :
    m.keys.length = l.freqs.nodes.length := by
  rw [(h.perm_keys hnodup).length_eq, List.length_map]

/-- The package moves nodes in the heap and changes nothing else of them. -/
theorem Content.rearrange (h : Content l m) {fh : FrequencyHeap V}
    (hperm : fh.nodes.Perm l.freqs.nodes) (hunplaced : fh.unplaced = l.freqs.unplaced) :
    Content { l with freqs := fh } m := by
  have hsame := FrequencyHeap.same_of_unplaced hunplaced
  have huse : ({ l with freqs := fh } : LFUAlgorithm V).use = l.use := by
    funext p
    obtain ⟨-, hvalue, hcount, hlast⟩ := hsame p
    simp only [use, hvalue, hcount, hlast]
  constructor
  · intro key p
    rw [hperm.mem_iff, (hsame p).1]
    exact h.items key p
  · rw [huse]
    exact h.lookup
  · rw [hperm.length_eq]
    exact h.length_eq
  · intro p hp
    exact h.fresh p (hperm.mem_iff.mp hp)
  · intro p hp
    rw [(hsame p).2.2.1]
    exact h.count_nonneg p (hperm.mem_iff.mp hp)
  · intro p hp
    rw [(hsame p).2.2.2]
    exact h.last_le p (hperm.mem_iff.mp hp)
  · intro p q hp hq
    rw [(hsame p).2.2.2, (hsame q).2.2.2]
    exact h.last_inj p q (hperm.mem_iff.mp hp) (hperm.mem_iff.mp hq)

/-! ## The least used key -/

/-- No other key was used as rarely and as long ago. -/
def LeastUsed (l : LFUAlgorithm V) (key : Key) : Prop :=
  ∃ p, l.items.lookup key = some p ∧ ∀ key' q, l.items.lookup key' = some q → key' ≠ key →
    (l.freqs.mem p).count < (l.freqs.mem q).count ∨
      (l.freqs.mem p).count = (l.freqs.mem q).count ∧ (l.freqs.mem p).last < (l.freqs.mem q).last

/-- The table gives up the least used key. -/
theorem Content.pick (h : Content l m) (hkey : l.LeastUsed key) :
    (Victim.least LFUNode.rank).pick m = some key := by
  obtain ⟨p, hp, hleast⟩ := hkey
  refine Victim.pick_least (by rw [h.lookup, hp]; rfl) ?_
  intro key' b hb hne
  rw [h.lookup] at hb
  obtain ⟨q, hq, rfl⟩ := Option.map_eq_some_iff.mp hb
  have hnonneg := h.count_nonneg p ((h.items _ _).mp hp).1
  have hnonneg' := h.count_nonneg q ((h.items _ _).mp hq).1
  rw [LFUNode.rank, LFUNode.rank, Prod.Lex.toLex_lt_toLex]
  show (l.freqs.mem p).count.toNat < (l.freqs.mem q).count.toNat ∨
    (l.freqs.mem p).count.toNat = (l.freqs.mem q).count.toNat ∧
      (l.freqs.mem p).last < (l.freqs.mem q).last
  rcases hleast key' q hq hne with hlt | ⟨heq, hlt⟩
  · left
    omega
  · exact Or.inr ⟨congrArg Int.toNat heq, hlt⟩

/-- The heap has the least used key at index zero. -/
theorem Content.leastUsed (h : Content l m) (hvalid : l.freqs.Valid)
    (hp : l.freqs.nodes[0]? = some p) : l.LeastUsed (l.freqs.mem p).key := by
  have hmem := List.mem_of_getElem? hp
  refine ⟨p, (h.items _ p).mpr ⟨hmem, rfl⟩, ?_⟩
  intro key q hq hne
  obtain ⟨hqmem, rfl⟩ := (h.items key q).mp hq
  have hle := hvalid.ordered.root_le hp hqmem
  rw [FrequencyHeap.rank, FrequencyHeap.rank, Prod.Lex.toLex_le_toLex] at hle
  refine hle.imp_right (And.imp_right fun hlast => ?_)
  refine lt_of_le_of_ne hlast fun heq => hne ?_
  rw [h.last_inj p q hmem hqmem heq]

/-! ## What the calls do to the content -/

/-- A node leaves the heap, the map and the table. -/
theorem Content.remove (h : Content l m) (hp : l.items.lookup key = some p)
    (hnodup : l.freqs.nodes.Nodup) {fh : FrequencyHeap V}
    (hperm : l.freqs.nodes.Perm (p :: fh.nodes)) (hunplaced : fh.unplaced = l.freqs.unplaced) :
    Content { l with freqs := fh, items := l.items.erase key, length := l.length - 1 }
      (m.erase key) := by
  have hsame := FrequencyHeap.same_of_unplaced hunplaced
  have hrest : Content { l with freqs := ⟨fh.mem, p :: fh.nodes⟩ } m :=
    h.rearrange hperm.symm hunplaced
  have hnotMem : p ∉ fh.nodes := (List.nodup_cons.mp (hperm.nodup_iff.mp hnodup)).1
  have hsub : ∀ {q}, q ∈ fh.nodes → q ∈ p :: fh.nodes := List.mem_cons_of_mem p
  have hpkey := ((h.items key p).mp hp).2
  constructor
  · intro key' q
    by_cases hne : key' = key
    · subst hne
      rw [AList.lookup_erase]
      constructor
      · intro hq
        cases hq
      · rintro ⟨hq, hqkey⟩
        have hq' := (hrest.items key' q).mpr ⟨hsub hq, hqkey⟩
        have heq : q = p := Option.some.inj (hq'.symm.trans hp)
        exact absurd (heq ▸ hq) hnotMem
    · rw [AList.lookup_erase_ne hne]
      refine (hrest.items key' q).trans ⟨?_, And.imp_left hsub⟩
      rintro ⟨hq, hqkey⟩
      refine ⟨(List.mem_cons.mp hq).resolve_left ?_, hqkey⟩
      rintro rfl
      have hqkey' : (fh.mem q).key = key' := hqkey
      rw [(hsame q).1, hpkey] at hqkey'
      exact hne hqkey'.symm
  · intro key'
    by_cases hne : key' = key
    · subst hne
      rw [AList.lookup_erase, AList.lookup_erase]
      rfl
    · rw [AList.lookup_erase_ne hne, AList.lookup_erase_ne hne]
      exact hrest.lookup key'
  · have hlen := hrest.length_eq
    simp only [List.length_cons] at hlen
    show l.length - 1 = fh.nodes.length
    omega
  · exact fun q hq => hrest.fresh q (hsub hq)
  · exact fun q hq => hrest.count_nonneg q (hsub hq)
  · exact fun q hq => hrest.last_le q (hsub hq)
  · exact fun q r hq hr => hrest.last_inj q r (hsub hq) (hsub hr)

/-- Between `l` and `l'` the node `p` of a key, old or new, is written at the next time. -/
structure Written (l : LFUAlgorithm V) (key : Key) (p : Nat) (l' : LFUAlgorithm V) : Prop where
  fit : ∀ q ∈ l.freqs.nodes, (l.freqs.mem q).key = key ↔ q = p
  seq_eq : l'.seq = l.seq + 1
  other : ∀ q, q ≠ p → l'.freqs.mem q = l.freqs.mem q
  key_eq : (l'.freqs.mem p).key = key
  last_eq : (l'.freqs.mem p).last = l.seq + 1
  count_nonneg : 0 ≤ (l'.freqs.mem p).count
  nodes : ∀ q, q ∈ l'.freqs.nodes ↔ q = p ∨ q ∈ l.freqs.nodes
  items : ∀ k, l'.items.lookup k = if k = key then some p else l.items.lookup k
  length_eq : l'.length = l'.freqs.nodes.length
  fresh : p < l'.fresh
  fresh_le : l.fresh ≤ l'.fresh

namespace Written

variable {l' : LFUAlgorithm V}

theorem old (h : Written l key p l') {q : Nat} (hq : q ∈ l'.freqs.nodes) (hne : q ≠ p) :
    q ∈ l.freqs.nodes := ((h.nodes q).mp hq).resolve_left hne

theorem items_iff (h : Written l key p l') (hl : Content l m) (k : Key) (q : Nat) :
    l'.items.lookup k = some q ↔ q ∈ l'.freqs.nodes ∧ (l'.freqs.mem q).key = k := by
  rw [h.items]
  by_cases hne : q = p
  · subst hne
    rw [h.key_eq, h.nodes]
    constructor
    · intro hq
      refine ⟨Or.inl rfl, ?_⟩
      by_contra hk
      rw [if_neg (Ne.symm hk)] at hq
      obtain ⟨hqmem, hqkey⟩ := (hl.items k q).mp hq
      exact hk (((h.fit q hqmem).mpr rfl).symm.trans hqkey)
    · rintro ⟨-, rfl⟩
      rw [if_pos rfl]
  · rw [h.other q hne, h.nodes]
    by_cases hk : k = key
    · subst hk
      rw [if_pos rfl, Option.some.injEq]
      constructor
      · exact fun heq => absurd heq.symm hne
      · rintro ⟨hq, hqkey⟩
        exact ((h.fit q (hq.resolve_left hne)).mp hqkey).symm
    · rw [if_neg hk, hl.items k q]
      exact and_congr_left fun _ => ⟨Or.inr, fun hq => hq.resolve_left hne⟩

theorem lookup_eq (h : Written l key p l') (hl : Content l m) (k : Key) :
    (m.insert key (l'.use p)).lookup k = (l'.items.lookup k).map l'.use := by
  rw [h.items]
  by_cases hk : k = key
  · subst hk
    rw [AList.lookup_insert, if_pos rfl, Option.map_some]
  · rw [AList.lookup_insert_ne hk, if_neg hk, hl.lookup]
    refine Option.map_congr fun q hq => ?_
    obtain ⟨hqmem, hqkey⟩ := (hl.items k q).mp hq
    have hne : q ≠ p := fun heq => hk (hqkey.symm.trans ((h.fit q hqmem).mpr heq))
    rw [use, use, h.other q hne]

/-- Every other node was used before. -/
theorem last_lt (h : Written l key p l') (hl : Content l m)
    (hseq : l.seq.toNat + 1 < 0x10000000000000000) {q : Nat} (hq : q ∈ l'.freqs.nodes)
    (hne : q ≠ p) : (l'.freqs.mem q).last < (l'.freqs.mem p).last := by
  have hsucc : (l.seq + 1).toNat = l.seq.toNat + 1 := by
    rw [UInt64.toNat_add]
    exact Nat.mod_eq_of_lt hseq
  have hle := hl.last_le q (h.old hq hne)
  rw [UInt64.le_iff_toNat_le] at hle
  rw [h.other q hne, h.last_eq, UInt64.lt_iff_toNat_lt, hsucc]
  omega

theorem content (h : Written l key p l') (hl : Content l m)
    (hseq : l.seq.toNat + 1 < 0x10000000000000000) : Content l' (m.insert key (l'.use p)) := by
  refine ⟨h.items_iff hl, h.lookup_eq hl, h.length_eq, ?_, ?_, ?_, ?_⟩
  · intro q hq
    rcases (h.nodes q).mp hq with rfl | hq
    · exact h.fresh
    · exact lt_of_lt_of_le (hl.fresh q hq) h.fresh_le
  · intro q hq
    by_cases hne : q = p
    · exact hne ▸ h.count_nonneg
    · rw [h.other q hne]
      exact hl.count_nonneg q (h.old hq hne)
  · intro q hq
    rw [h.seq_eq, ← h.last_eq]
    by_cases hne : q = p
    · rw [hne]
    · exact le_of_lt (h.last_lt hl hseq hq hne)
  · intro q r hq hr heq
    by_cases hqp : q = p
    · by_contra hne
      have hlt := h.last_lt hl hseq hr fun hrp => hne (hqp.trans hrp.symm)
      rw [← heq, hqp] at hlt
      exact lt_irrefl _ hlt
    · by_cases hrp : r = p
      · have hlt := h.last_lt hl hseq hq hqp
        rw [heq, hrp] at hlt
        exact absurd hlt (lt_irrefl _)
      · rw [h.other q hqp, h.other r hrp] at heq
        exact hl.last_inj q r (h.old hq hqp) (h.old hr hrp) heq

end Written

/-! ## An access -/

section Access

variable (value : Option V → Option V)

theorem touch_other {q : Nat} (hq : q ≠ p) :
    (l.touch p value).freqs.mem q = l.freqs.mem q := by
  simp [touch, modify_ne _ _ hq]

theorem touch_self (hnonneg : 0 ≤ (l.freqs.mem p).count)
    (hcount : (l.freqs.mem p).count + 1 < 0x8000000000000000) :
    (l.touch p value).freqs.mem p =
      { l.freqs.mem p with
        value := value (l.freqs.mem p).value
        count := (l.freqs.mem p).count + 1
        last := l.seq + 1 } := by
  have hbmod : ((l.freqs.mem p).count + 1).bmod 0x10000000000000000 =
      (l.freqs.mem p).count + 1 := Int.bmod_eq_of_le (by omega) (by omega)
  simp [touch, hbmod]

theorem touch_indexed (h : l.freqs.Indexed) : (l.touch p value).freqs.Indexed := by
  refine ⟨h.nodup, ?_⟩
  intro i q hq
  refine Eq.trans ?_ (h.index i q hq)
  show (modify l.freqs.mem p _ q).index = _
  rw [modify_apply]
  split <;> rfl

theorem touch_content (h : Content l m) (hp : l.items.lookup key = some p)
    (hseq : l.seq.toNat + 1 < 0x10000000000000000)
    (hcount : (l.freqs.mem p).count + 1 < 0x8000000000000000) :
    Content (l.touch p value)
      (m.insert key ⟨value (l.use p).value, (l.use p).count + 1, l.seq + 1⟩) := by
  obtain ⟨hmem, hkey⟩ := (h.items key p).mp hp
  have hnonneg := h.count_nonneg p hmem
  have hself := touch_self value hnonneg hcount
  have huse : (l.touch p value).use p =
      ⟨value (l.use p).value, (l.use p).count + 1, l.seq + 1⟩ := by
    rw [use, hself, use]
    congr 1
    show ((l.freqs.mem p).count + 1).toNat = (l.freqs.mem p).count.toNat + 1
    omega
  rw [← huse]
  refine Written.content ?_ h hseq
  constructor
  case fit =>
    intro q hq
    rw [← (h.items key q).trans (and_iff_right hq), hp, Option.some.injEq, eq_comm]
  case seq_eq => rfl
  case other => exact fun q hq => touch_other value hq
  case key_eq => exact hself ▸ hkey
  case last_eq => rw [hself]
  case count_nonneg =>
    rw [hself]
    show 0 ≤ (l.freqs.mem p).count + 1
    omega
  case nodes => exact fun q => ⟨Or.inr, fun hq => hq.elim (fun heq => heq ▸ hmem) id⟩
  case items =>
    intro k
    split
    · rename_i hk
      rw [hk]
      exact hp
    · rfl
  case length_eq => exact h.length_eq
  case fresh => exact h.fresh p hmem
  case fresh_le => exact le_refl _

theorem access_spec (H : Package (FrequencyHeap.interface V)) (h : Content l m)
    (hvalid : l.freqs.Valid) (hp : l.items.lookup key = some p)
    (hseq : l.seq.toNat + 1 < 0x10000000000000000)
    (hcount : (l.freqs.mem p).count + 1 < 0x8000000000000000) :
    ∃ fh, l.access H p value = some { l.touch p value with freqs := fh } ∧ fh.Valid ∧
      Content { l.touch p value with freqs := fh }
        (m.insert key ⟨value (l.use p).value, (l.use p).count + 1, l.seq + 1⟩) ∧
      (fh.mem p).value = value (l.freqs.mem p).value := by
  obtain ⟨hmem, -⟩ := (h.items key p).mp hp
  have hcontent := touch_content value h hp hseq hcount
  obtain ⟨fh, hfix, hvalid', hperm, hunplaced⟩ :=
    (touch_indexed value hvalid.toIndexed).fix H hmem hvalid.ordered (fun q hq => by
      rw [FrequencyHeap.rank, FrequencyHeap.rank, touch_other value hq])
  refine ⟨fh, ?_, hvalid', hcontent.rearrange hperm hunplaced, ?_⟩
  · rw [access, hfix]
    rfl
  · rw [(FrequencyHeap.same_of_unplaced hunplaced p).2.1,
      touch_self value (h.count_nonneg p hmem) hcount]

end Access

/-! ## An insertion and a removal -/

variable (H : Package (FrequencyHeap.interface V))

theorem allocate_other {value : Option V} {q : Nat} (hq : q ≠ l.fresh) :
    (l.allocate key value).freqs.mem q = l.freqs.mem q := by
  simp [allocate, modify_ne _ _ hq]

theorem allocate_self (l : LFUAlgorithm V) (key : Key) (value : Option V) :
    (l.allocate key value).freqs.mem l.fresh = ⟨key, value, 1, 0, l.seq + 1⟩ := by
  simp [allocate]

/-- The content once the new node is in the heap, wherever the package puts it. -/
theorem allocate_content (h : Content l m) (hkey : l.items.lookup key = none)
    (hseq : l.seq.toNat + 1 < 0x10000000000000000) (value : Option V) :
    Content { l.allocate key value with
        freqs := ⟨(l.allocate key value).freqs.mem, l.fresh :: l.freqs.nodes⟩
        length := l.length + 1 }
      (m.insert key ⟨value, 1, l.seq + 1⟩) := by
  have hself := allocate_self l key value
  have huse : ({ l.allocate key value with
      freqs := ⟨(l.allocate key value).freqs.mem, l.fresh :: l.freqs.nodes⟩
      length := l.length + 1 } : LFUAlgorithm V).use l.fresh = ⟨value, 1, l.seq + 1⟩ := by
    rw [use, hself]
    rfl
  rw [← huse]
  refine Written.content ?_ h hseq
  constructor
  case fit =>
    intro q hq
    constructor
    · intro hqkey
      rw [(h.items key q).mpr ⟨hq, hqkey⟩] at hkey
      cases hkey
    · rintro rfl
      exact absurd (h.fresh _ hq) (lt_irrefl _)
  case seq_eq => rfl
  case other => exact fun q hq => allocate_other hq
  case key_eq => rw [hself]
  case last_eq => rw [hself]
  case count_nonneg =>
    rw [hself]
    exact Int.one_nonneg
  case nodes => exact fun q => List.mem_cons
  case items =>
    intro k
    split
    · rename_i hk
      rw [hk]
      exact AList.lookup_insert _
    · rename_i hk
      exact AList.lookup_insert_ne hk
  case length_eq =>
    show l.length + 1 = ((l.fresh :: l.freqs.nodes).length : Int)
    rw [h.length_eq, List.length_cons, Int.natCast_succ]
  case fresh => exact Nat.lt_succ_self _
  case fresh_le => exact Nat.le_succ _

theorem insertNew_spec (h : Content l m) (hvalid : l.freqs.Valid) (hkey : l.items.lookup key = none)
    (hseq : l.seq.toNat + 1 < 0x10000000000000000) (value : Option V) :
    (l.insertNew H key value).freqs.Valid ∧
      Content (l.insertNew H key value) (m.insert key ⟨value, 1, l.seq + 1⟩) := by
  have hfresh : l.fresh ∉ l.freqs.nodes := fun hmem => lt_irrefl _ (h.fresh _ hmem)
  have hother : ∀ q ∈ l.freqs.nodes,
      (l.allocate key value).freqs.mem q = l.freqs.mem q :=
    fun q hq => allocate_other fun heq => hfresh (heq ▸ hq)
  have hallocated : (l.allocate key value).freqs.Valid := by
    refine ⟨⟨hvalid.nodup, ?_⟩, ?_⟩
    · intro i q hq
      rw [hother q (List.mem_of_getElem? hq)]
      exact hvalid.index i q hq
    · intro i j a b ha hb hij
      rw [FrequencyHeap.rank, FrequencyHeap.rank, hother a (List.mem_of_getElem? ha),
        hother b (List.mem_of_getElem? hb)]
      exact hvalid.ordered i j a b ha hb hij
  obtain ⟨hpushed, hperm, hunplaced⟩ := hallocated.push H hfresh
  exact ⟨hpushed, (allocate_content h hkey hseq value).rearrange hperm hunplaced⟩

theorem internalEvict_spec (h : Content l m) (hvalid : l.freqs.Valid) (hlength : l.length ≠ 0) :
    ∃ fh key, l.internalEvict H = some ({ l with
        freqs := fh
        items := l.items.erase key
        length := l.length - 1 }, some key) ∧
      l.LeastUsed key ∧ fh.Valid ∧
      Content { l with freqs := fh, items := l.items.erase key, length := l.length - 1 }
        (m.erase key) := by
  have hpos : 0 < l.freqs.nodes.length := by
    have := h.length_eq
    omega
  have hroot := List.getElem?_eq_getElem hpos
  have hmem := List.mem_of_getElem? hroot
  obtain ⟨fh, hremove, hvalid', hperm, hunplaced⟩ := hvalid.remove H hroot
  refine ⟨fh, _, ?_, h.leastUsed hvalid hroot, hvalid',
    h.remove ((h.items _ _).mpr ⟨hmem, rfl⟩) hvalid.nodup hperm hunplaced⟩
  rw [internalEvict, if_neg hlength, ← (FrequencyHeap.same_of_unplaced hunplaced _).1]
  exact congrArg (fun o => o.bind fun r => some (({ l with
    freqs := r.1
    items := l.items.erase (r.1.mem r.2).key
    length := l.length - 1 } : LFUAlgorithm V), some (r.1.mem r.2).key)) hremove

/-! ## The calls and the table -/

structure Refines (l : LFUAlgorithm V) (t : HyperCache.LFUAlgorithm V) : Prop where
  capacity_eq : t.table.capacity = l.cap
  seq_eq : t.seq = l.seq
  valid : l.freqs.Valid
  content : Content l t.table.entries

variable {t : HyperCache.LFUAlgorithm V}

theorem Refines.length_eq (h : l.Refines t) : l.length = t.table.entries.keys.length := by
  rw [h.content.length_keys h.valid.nodup]
  exact h.content.length_eq

theorem Refines.length_le (h : l.Refines t) : l.length ≤ l.cap := by
  have hle := t.table.bounded
  rw [h.capacity_eq] at hle
  rw [h.length_eq]
  omega

/-- What a call takes out of the map, and what it replies if it is `Evict`. -/
def RemovesLeastUsed (l : LFUAlgorithm V) (l' : LFUAlgorithm V) (r : Reply V) : AlgOp V → Prop
  | .set key _ =>
      (l.cap = 0 ∨ key ∈ l.items) ∧ l'.items = l.items ∨
        key ∉ l.items ∧ l.length < l.cap ∧ l'.items = l.items.insert key l.fresh ∨
        key ∉ l.items ∧ l.length = l.cap ∧ ∃ victim, l.LeastUsed victim ∧
          l'.items = (l.items.erase victim).insert key l.fresh
  | .get _ => l'.items = l.items
  | .delete key => l'.items = l.items.erase key
  | .evict =>
      (∀ key, key ∉ l.items) ∧ l' = l ∧ r = .victim none ∨
        ∃ victim, l.LeastUsed victim ∧ l'.items = l.items.erase victim ∧
          r = .victim (some victim)

/-- The accesses of a call do not pass the range of LFU's counters. -/
def CountsWithoutWrap : Algorithm V → AlgOp V → Prop
  | .lfu t, .set key _ => t.seq.toNat + 1 < 0x10000000000000000 ∧
      ∀ node ∈ t.table.entries.lookup key, node.count + 1 < 0x8000000000000000
  | .lfu t, .get key => ∀ node ∈ t.table.entries.lookup key,
      t.seq.toNat + 1 < 0x10000000000000000 ∧ node.count + 1 < 0x8000000000000000
  | _, _ => True

instance : (a : Algorithm V) → (op : AlgOp V) → Decidable (CountsWithoutWrap a op)
  | .lfu _, .set _ _ => inferInstanceAs (Decidable (_ ∧ _))
  | .lfu t, .get key => inferInstanceAs (Decidable (∀ node ∈ t.table.entries.lookup key, _ ∧ _))
  | .lfu _, .delete _ => .isTrue trivial
  | .lfu _, .evict => .isTrue trivial
  | .lru _, _ => .isTrue trivial
  | .clock _, _ => .isTrue trivial
  | .cawolfu _, _ => .isTrue trivial

theorem evict_refines (h : l.Refines t) :
    ∃ l', l.evict H = some (l', t.evict.2) ∧ l'.Refines t.evict.1 ∧
      l.RemovesLeastUsed l' (.victim t.evict.2) .evict := by
  have hlen := h.length_eq
  by_cases hzero : l.length = 0
  · have hnil : t.table.keys = [] := List.eq_nil_of_length_eq_zero (by
      show t.table.entries.keys.length = 0
      omega)
    have hevict : t.evict = (t, none) := by
      rw [HyperCache.LFUAlgorithm.evict, HyperCache.LFUAlgorithm.internalEvict,
        Table.evict_of_nil hnil]
      split <;> rfl
    have hempty : ∀ key, key ∉ l.items := by
      intro key hkey
      have hmem : key ∈ t.table.keys := h.content.mem_iff.mpr hkey
      rw [hnil] at hmem
      cases hmem
    rw [hevict]
    refine ⟨l, ?_, h, Or.inl ⟨hempty, rfl, rfl⟩⟩
    rw [evict, internalEvict, if_pos hzero]
    split <;> rfl
  · have hcap : l.cap ≠ 0 := by
      have := h.length_le
      omega
    obtain ⟨fh, key, hexec, hleast, hvalid, hcontent⟩ :=
      internalEvict_spec H h.content h.valid hzero
    have hevict : t.evict = ({ t with table := t.table.erase key }, some key) := by
      rw [HyperCache.LFUAlgorithm.evict, if_neg (h.capacity_eq ▸ hcap),
        HyperCache.LFUAlgorithm.internalEvict,
        Table.evict_of_pick (h.capacity_eq ▸ hcap) (h.content.pick hleast)]
    rw [hevict, evict, if_neg hcap]
    exact ⟨_, hexec, ⟨h.capacity_eq, h.seq_eq, hvalid, hcontent⟩, Or.inr ⟨key, hleast, rfl, rfl⟩⟩

theorem delete_refines (h : l.Refines t) (key : Key) :
    ∃ l', l.delete H key = some l' ∧ l'.Refines (t.delete key) ∧ l'.items = l.items.erase key := by
  rw [delete]
  cases hkey : l.items.lookup key with
  | none =>
      have hmem : key ∉ l.items := AList.lookup_eq_none.mp hkey
      have hcontent := h.content
      rw [← Keyed.erase_of_notMem (mt h.content.mem_iff.mp hmem)] at hcontent
      rw [Keyed.erase_of_notMem hmem]
      exact ⟨l, rfl, ⟨h.capacity_eq, h.seq_eq, h.valid, hcontent⟩, rfl⟩
  | some p =>
      have hmem := ((h.content.items key p).mp hkey).1
      obtain ⟨i, hi⟩ := List.mem_iff_getElem?.mp hmem
      obtain ⟨fh, hremove, hvalid, hperm, hunplaced⟩ := h.valid.remove H hi
      refine ⟨{ l with freqs := fh, items := l.items.erase key, length := l.length - 1 }, ?_, ?_,
        rfl⟩
      · rw [← h.valid.index i p hi] at hremove
        simp [hremove]
      · exact ⟨h.capacity_eq, h.seq_eq, hvalid,
          h.content.remove hkey h.valid.nodup hperm hunplaced⟩

theorem get_refines (h : l.Refines t) {key : Key}
    (hrange : CountsWithoutWrap (.lfu t) (.get key)) :
    ∃ l', l.get H key = some (l', (t.get key).2) ∧ l'.Refines (t.get key).1 ∧
      l'.items = l.items := by
  have hlookup := h.content.lookup key
  rw [get]
  cases hkey : l.items.lookup key with
  | none =>
      rw [hkey, Option.map_none] at hlookup
      have hget : t.get key = (t, none) := by
        rcases Algorithm.lfu_get_cases t key with ⟨-, hget⟩ | ⟨node, hnode, -⟩
        · exact hget
        · rw [hlookup] at hnode
          cases hnode
      rw [hget]
      exact ⟨l, rfl, h, rfl⟩
  | some p =>
      rw [hkey, Option.map_some] at hlookup
      obtain ⟨hseq, hcount⟩ := hrange _ hlookup
      rw [h.seq_eq] at hseq
      have hnonneg := h.content.count_nonneg p ((h.content.items key p).mp hkey).1
      obtain ⟨fh, hexec, hvalid, hcontent, hvalue⟩ := access_spec id H h.content h.valid hkey hseq
        (by simp only [use] at hcount; omega)
      rcases Algorithm.lfu_get_cases t key with ⟨hnone, -⟩ | ⟨node, hnode, hget⟩
      · rw [hlookup] at hnone
        cases hnone
      · obtain rfl := Option.some.inj (hlookup.symm.trans hnode)
        rw [hget]
        refine ⟨{ l.touch p id with freqs := fh }, ?_, ⟨h.capacity_eq, ?_, hvalid, ?_⟩, rfl⟩
        · simp [hexec, hvalue, use]
        · rw [h.seq_eq]
          rfl
        · rw [Table.entries_renew _ hlookup, h.seq_eq]
          exact hcontent

section Set

variable {key : Key} {value : Option V}

/-- A state after `Set`, given what it holds. -/
theorem Refines.after_set (h : l.Refines t) (hcap : l.cap ≠ 0) {l' : LFUAlgorithm V}
    (hcap' : l'.cap = l.cap) (hseq' : l'.seq = l.seq + 1) (hvalid : l'.freqs.Valid)
    (hcontent : Content l' (t.table.set (.least LFUNode.rank)
      (fun node => { value, count := node.count + 1, last := l.seq + 1 })
      { value, count := 1, last := l.seq + 1 } key).entries) : l'.Refines (t.set key value) := by
  have hset := Algorithm.lfu_set_table t key value
  rw [h.seq_eq] at hset
  constructor
  · rw [hset, Table.capacity_set, hcap', h.capacity_eq]
  · rw [HyperCache.LFUAlgorithm.set, if_neg (h.capacity_eq ▸ hcap), hseq', ← h.seq_eq]
  · exact hvalid
  · rw [hset]
    exact hcontent

theorem set_old_refines (h : l.Refines t) (hcap : l.cap ≠ 0)
    (hrange : CountsWithoutWrap (.lfu t) (.set key value)) (hkey : l.items.lookup key = some p) :
    ∃ l', l.access H p (fun _ => value) = some l' ∧ l'.Refines (t.set key value) ∧
      l'.items = l.items := by
  obtain ⟨hseq, hcount⟩ := hrange
  rw [h.seq_eq] at hseq
  have hlookup := h.content.lookup key
  rw [hkey, Option.map_some] at hlookup
  have hcount := hcount _ hlookup
  have hnonneg := h.content.count_nonneg p ((h.content.items key p).mp hkey).1
  obtain ⟨fh, hexec, hvalid, hcontent, -⟩ := access_spec (fun _ => value) H h.content h.valid
    hkey hseq (by simp only [use] at hcount; omega)
  have hmem : key ∈ t.table.entries := AList.lookup_isSome.mp (by rw [hlookup]; rfl)
  refine ⟨_, hexec, h.after_set hcap rfl rfl hvalid ?_, rfl⟩
  rw [Table.set_of_mem _ _ _ (h.capacity_eq ▸ hcap) hmem, Table.entries_renew _ hlookup]
  exact hcontent

theorem set_room_refines (h : l.Refines t) (hcap : l.cap ≠ 0)
    (hseq : l.seq.toNat + 1 < 0x10000000000000000) (hkey : l.items.lookup key = none)
    (hroom : l.length ≠ l.cap) : (l.insertNew H key value).Refines (t.set key value) := by
  have hentry : key ∉ t.table.entries :=
    mt h.content.mem_iff.mp (AList.lookup_eq_none.mp hkey)
  have hlen := h.length_eq
  obtain ⟨hvalid, hcontent⟩ := insertNew_spec H h.content h.valid hkey hseq value
  refine h.after_set hcap rfl rfl hvalid ?_
  rw [Table.entries_set_of_room _ _ _ (h.capacity_eq ▸ hcap) hentry
    (by rw [h.capacity_eq]; omega)]
  exact hcontent

theorem set_full_refines (value : Option V) (h : l.Refines t) (hcap : l.cap ≠ 0)
    (hseq : l.seq.toNat + 1 < 0x10000000000000000) (hkey : l.items.lookup key = none)
    (hfull : l.length = l.cap) :
    ∃ l' gone, l.internalEvict H = some (l', some gone) ∧ l.LeastUsed gone ∧
      (l'.insertNew H key value).Refines (t.set key value) ∧
      (l'.insertNew H key value).items = (l.items.erase gone).insert key l.fresh := by
  have hitem := AList.lookup_eq_none.mp hkey
  have hentry := mt h.content.mem_iff.mp hitem
  have hlen := h.length_eq
  obtain ⟨fh, gone, hexec, hleast, hvalid, hcontent⟩ :=
    internalEvict_spec H h.content h.valid (by omega)
  have hnone : (l.items.erase gone).lookup key = none :=
    AList.lookup_eq_none.mpr fun hmem => hitem (AList.mem_erase.mp hmem).2
  obtain ⟨hvalid', hcontent'⟩ := insertNew_spec H hcontent hvalid hnone hseq value
  refine ⟨_, gone, hexec, hleast, h.after_set hcap rfl rfl hvalid' ?_, rfl⟩
  rw [Table.entries_set_of_full _ _ _ (h.capacity_eq ▸ hcap) hentry
    (by rw [h.capacity_eq]; omega) (h.content.pick hleast)]
  exact hcontent'

theorem set_refines (h : l.Refines t) (hrange : CountsWithoutWrap (.lfu t) (.set key value)) :
    ∃ l', l.set H key value = some l' ∧ l'.Refines (t.set key value) ∧
      l.RemovesLeastUsed l' .done (.set key value) := by
  have hseq : l.seq.toNat + 1 < 0x10000000000000000 := h.seq_eq ▸ hrange.1
  rw [set]
  split
  · rename_i hzero
    have hset : t.set key value = t := by
      rw [HyperCache.LFUAlgorithm.set, if_pos (h.capacity_eq.trans hzero)]
    rw [hset]
    exact ⟨l, rfl, h, Or.inl ⟨Or.inl hzero, rfl⟩⟩
  · rename_i hcap
    cases hkey : l.items.lookup key with
    | some p =>
        obtain ⟨l', hexec, hrefines, hitems⟩ := set_old_refines H h hcap hrange hkey
        have hitem : key ∈ l.items := AList.lookup_isSome.mp (by rw [hkey]; rfl)
        exact ⟨l', hexec, hrefines, Or.inl ⟨Or.inr hitem, hitems⟩⟩
    | none =>
        have hitem : key ∉ l.items := AList.lookup_eq_none.mp hkey
        have hle := h.length_le
        simp only
        split
        · rename_i hfull
          obtain ⟨l', gone, hexec, hleast, hrefines, hitems⟩ :=
            set_full_refines H value h hcap hseq hkey hfull
          rw [hexec]
          exact ⟨_, rfl, hrefines, Or.inr (Or.inr ⟨hitem, hfull, gone, hleast, hitems⟩)⟩
        · rename_i hroom
          exact ⟨_, rfl, set_room_refines H h hcap hseq hkey hroom,
            Or.inr (Or.inl ⟨hitem, by omega, rfl⟩)⟩

end Set

/-- One call of LFU and of its table. -/
theorem exec_refines (h : l.Refines t) {op : AlgOp V} (hrange : CountsWithoutWrap (.lfu t) op) :
    ∃ l' t', l.exec H op = some (l', op.reply (Algorithm.lfu t)) ∧
      op.step (Algorithm.lfu t) = .lfu t' ∧ l'.Refines t' ∧
      l.RemovesLeastUsed l' (op.reply (Algorithm.lfu t)) op := by
  cases op with
  | set key value =>
      obtain ⟨l', hexec, hrefines, hremoves⟩ := set_refines H h hrange
      exact ⟨l', _, by rw [exec, hexec]; rfl, rfl, hrefines, hremoves⟩
  | get key =>
      obtain ⟨l', hexec, hrefines, hitems⟩ := get_refines H h hrange
      exact ⟨l', _, by rw [exec, hexec]; rfl, rfl, hrefines, hitems⟩
  | delete key =>
      obtain ⟨l', hexec, hrefines, hitems⟩ := delete_refines H h key
      exact ⟨l', _, by rw [exec, hexec]; rfl, rfl, hrefines, hitems⟩
  | evict =>
      obtain ⟨l', hexec, hrefines, hremoves⟩ := evict_refines H h
      exact ⟨l', _, by rw [exec, hexec]; rfl, rfl, hrefines, hremoves⟩

theorem run_refines (h : l.Refines t) {ops : List (AlgOp V)}
    (hrange : Runs.Along AlgOp.step CountsWithoutWrap (Algorithm.lfu t) ops) :
    ∃ l' t' replies, Machines.run (exec H) l ops = some (l', replies) ∧
      Machines.run AlgOp.respond (Algorithm.lfu t) ops = some (.lfu t', replies) ∧
      ops.foldl AlgOp.step (Algorithm.lfu t) = .lfu t' ∧ l'.Refines t' := by
  induction ops generalizing l t with
  | nil => exact ⟨l, t, [], rfl, rfl, rfl, h⟩
  | cons op rest ih =>
      obtain ⟨hop, hrest⟩ := hrange
      obtain ⟨l₁, t₁, hexec, hstep, h₁, -⟩ := exec_refines H h hop
      rw [hstep] at hrest
      obtain ⟨l', t', replies, hrun, hrun', hfold, h'⟩ := ih h₁ hrest
      rw [List.foldl_cons, hstep]
      have hrespond : AlgOp.respond (Algorithm.lfu t) op =
          some (Algorithm.lfu t₁, op.reply (Algorithm.lfu t)) := by
        rw [AlgOp.respond, hstep]
      exact ⟨l', t', _, Machines.run_cons hexec hrun, Machines.run_cons hrespond hrun', hfold, h'⟩

/-- The map, the heap and the indexes in the nodes agree, and there are at most `cap` nodes. -/
structure Structured (l : LFUAlgorithm V) : Prop where
  indexed : l.freqs.Indexed
  items : ∀ key p, l.items.lookup key = some p ↔ p ∈ l.freqs.nodes ∧ (l.freqs.mem p).key = key
  length_eq : l.length = l.freqs.nodes.length
  length_le : l.freqs.nodes.length ≤ l.cap

theorem Refines.structured (h : l.Refines t) : l.Structured := by
  have hle := h.length_le
  rw [h.content.length_eq] at hle
  exact ⟨h.valid.toIndexed, h.content.items, h.content.length_eq, Int.ofNat_le.mp hle⟩

/-- The nodes have the counts and the times that the table has. -/
def Records (l : LFUAlgorithm V) (t : HyperCache.LFUAlgorithm V) : Prop :=
  ∀ key, (l.items.lookup key).map (fun p => ((l.freqs.mem p).count, (l.freqs.mem p).last)) =
    (t.table.entries.lookup key).map fun node => ((node.count : Int), node.last)

theorem Refines.records (h : l.Refines t) : l.Records t := by
  intro key
  rw [h.content.lookup, Option.map_map]
  refine Option.map_congr fun p hp => ?_
  have hnonneg := h.content.count_nonneg p ((h.content.items key p).mp hp).1
  rw [Function.comp_apply, use, Int.toNat_of_nonneg hnonneg]

theorem new_refines {capacity : Int} (h : newLFUAlgorithm capacity = .ok l) :
    l.Refines { table := .new capacity.toNat } := by
  rw [newLFUAlgorithm] at h
  split at h
  · cases h
  · obtain rfl := Except.ok.inj h
    refine ⟨rfl, rfl, ⟨⟨List.nodup_nil, fun i p hp => ?_⟩, fun i j a b ha => ?_⟩, ?_⟩
    · cases hp
    · cases ha
    · constructor <;> simp [Table.new]

end LFUAlgorithm

/-- After every run whose counts stay in range LFU's map, heap and stored indexes agree, and the
key that a further call takes out is the one key used least often and, of those, longest ago. -/
theorem lfu_removes_least_used (H : Package (FrequencyHeap.interface V)) {capacity : Int}
    {l : LFUAlgorithm V} (hnew : newLFUAlgorithm capacity = .ok l) (ops : List (AlgOp V))
    (op : AlgOp V)
    (hrange : Runs.Along AlgOp.step LFUAlgorithm.CountsWithoutWrap
      (Algorithm.lfu { table := .new capacity.toNat }) (ops ++ [op])) :
    ∃ l₁ t replies l₂ r,
      Machines.run (LFUAlgorithm.exec H) l ops = some (l₁, replies) ∧
      Machines.run AlgOp.respond (Algorithm.lfu { table := .new capacity.toNat }) ops =
        some (.lfu t, replies) ∧
      l₁.Records t ∧ l₁.Structured ∧
      l₁.exec H op = some (l₂, r) ∧ l₁.RemovesLeastUsed l₂ r op ∧ l₂.Structured := by
  obtain ⟨hops, hop, -⟩ := Runs.along_append.mp hrange
  obtain ⟨l₁, t, replies, hrun, hrun', hfold, h⟩ :=
    LFUAlgorithm.run_refines H (LFUAlgorithm.new_refines hnew) hops
  rw [hfold] at hop
  obtain ⟨l₂, t₂, hexec, -, h₂, hremoves⟩ := LFUAlgorithm.exec_refines H h hop
  exact ⟨l₁, t, replies, l₂, _, hrun, hrun', h.records, h.structured, hexec, hremoves,
    h₂.structured⟩

/-- Two keys of equal count, of which the second was used longer ago. -/
def tiedOps : List (AlgOp Str) :=
  [.set [97] (some [1]), .set [98] (some [2]), .get [98], .get [97]]

theorem tiedOps_countsWithoutWrap :
    Runs.Along AlgOp.step LFUAlgorithm.CountsWithoutWrap
      (Algorithm.lfu { table := .new 2 }) (tiedOps ++ [.set [99] none]) := by
  refine ⟨?_, ?_, ?_, ?_, ?_, trivial⟩
  all_goals decide

theorem lfu_removes_least_used_tied :
    ∃ l : LFUAlgorithm Str, newLFUAlgorithm 2 = .ok l ∧
      ∃ l₁ t replies l₂ r,
        Machines.run (LFUAlgorithm.exec (Package.sorting _)) l tiedOps = some (l₁, replies) ∧
        Machines.run AlgOp.respond (Algorithm.lfu { table := .new 2 }) tiedOps =
          some (.lfu t, replies) ∧
        l₁.Records t ∧ l₁.Structured ∧
        l₁.exec (Package.sorting _) (.set [99] none) = some (l₂, r) ∧
        l₁.RemovesLeastUsed l₂ r (.set [99] none) ∧ l₂.Structured :=
  ⟨_, rfl, @lfu_removes_least_used Str (Package.sorting _) 2 _ rfl tiedOps (.set [99] none)
    tiedOps_countsWithoutWrap⟩

example : AlgOp.evict.reply (tiedOps.foldl AlgOp.step (Algorithm.lfu { table := .new 2 })) =
    .victim (some [98]) := by
  decide

end Pointers

end HyperCache
