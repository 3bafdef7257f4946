/-
The linked lists of ARC hold its directory.

One lemma for each part of the code says that it does not fail and which directory
it leaves. With the distinct keys of the directory this gives the structure of every
reachable state: lists without duplicates that share no key, exact indexes and
lengths, and a target within the capacity.
-/
import HyperCache.ArcDirectory

namespace HyperCache

open LinkedList Occurrences Pointwise

variable {V : Type}

namespace ARC

structure Represents (capacity : Nat) (a : ARC V) (d : Directory V) : Prop where
  capacity_eq : a.capacity = capacity
  residents : Pair a.nodes a.freshNode a.t1 a.t2 d.t1 d.t2
  ghosts : Pair a.ghosts a.freshGhost a.b1 a.b2 d.b1 d.b2
  length_eq : a.length = d.resident
  p_eq : a.p = d.p

variable {capacity : Nat} {a : ARC V} {d : Directory V} {key : Key} {node : Nat}

/-- The recent and the frequent side exchanged: what holds of one holds of the other. -/
def mirrored (a : ARC V) : ARC V := { a with t1 := a.t2, t2 := a.t1, b1 := a.b2, b2 := a.b1 }

theorem Represents.mirrored (h : a.Represents capacity d) :
    a.mirrored.Represents capacity d.mirrored := by
  refine ⟨h.capacity_eq, h.residents.symm, h.ghosts.symm, ?_, h.p_eq⟩
  show a.length = d.mirrored.resident
  rw [h.length_eq, Directory.resident_mirrored]

theorem Represents.t1_len (h : a.Represents capacity d) : a.t1.len = d.t1.length :=
  h.residents.len_eq

theorem Represents.t2_len (h : a.Represents capacity d) : a.t2.len = d.t2.length :=
  h.residents.symm.len_eq

theorem Represents.b1_len (h : a.Represents capacity d) : a.b1.len = d.b1.length :=
  h.ghosts.len_eq

theorem Represents.b2_len (h : a.Represents capacity d) : a.b2.len = d.b2.length :=
  h.ghosts.symm.len_eq

theorem Represents.setTarget (h : a.Represents capacity d) {p q : Int} (hp : p = q) :
    ({ a with p := p } : ARC V).Represents capacity { d with p := q } :=
  ⟨h.capacity_eq, h.residents, h.ghosts, h.length_eq, hp⟩

/-! ## Residents -/

theorem moveToT2_spec (h : a.Represents capacity d) (hkey : a.t1.idx.lookup key = some node)
    (ht2 : key ∉ d.t2.keys) (f : Option V → Option V) :
    ∃ a', a.moveToT2 key node f = some a' ∧
      a'.Represents capacity (d.promote key (f (a.nodes node).value)) ∧
      (a'.nodes node).value = f (a.nodes node).value := by
  obtain ⟨t1, nodes, hremove, hpair, hvalue⟩ := h.residents.move hkey ht2 f
  have hmem : key ∈ d.t1.keys :=
    h.residents.mem_keys.mpr (AList.lookup_isSome.mp (by rw [hkey]; rfl))
  have hlen := RecencyList.length_kerase_of_mem hmem
  have hmove : a.moveToT2 key node f = some
      { a with
        t1 := t1.erase key
        t2 := (a.t2.pushFront node nodes).1.insert key node
        nodes := (a.t2.pushFront node nodes).2 } := by
    rw [moveToT2, hremove]
    rfl
  refine ⟨_, hmove, ⟨h.capacity_eq, ?_, h.ghosts, ?_, h.p_eq⟩, hvalue⟩
  · rw [Directory.promote, List.kerase_of_notMem_keys ht2]
    exact hpair
  · have := h.length_eq
    simp only [Directory.resident, Directory.promote, List.kerase_of_notMem_keys ht2,
      List.length_cons] at this ⊢
    omega

theorem refreshInT2_spec (h : a.Represents capacity d) (hkey : a.t2.idx.lookup key = some node)
    (ht1 : key ∉ d.t1.keys) (f : Option V → Option V) :
    ∃ a', a.refreshInT2 node f = some a' ∧
      a'.Represents capacity (d.promote key (f (a.nodes node).value)) ∧
      (a'.nodes node).value = f (a.nodes node).value := by
  obtain ⟨t2, nodes, hremove, hpair, hvalue⟩ := h.residents.symm.refresh hkey f
  have hmem : key ∈ d.t2.keys :=
    h.residents.symm.mem_keys.mpr (AList.lookup_isSome.mp (by rw [hkey]; rfl))
  have hlen := RecencyList.length_kerase_of_mem hmem
  have hrefresh : a.refreshInT2 node f = some
      { a with t2 := (t2.pushFront node nodes).1, nodes := (t2.pushFront node nodes).2 } := by
    rw [refreshInT2, hremove]
    rfl
  refine ⟨_, hrefresh, ⟨h.capacity_eq, ?_, h.ghosts, ?_, h.p_eq⟩, hvalue⟩
  · rw [Directory.promote, List.kerase_of_notMem_keys ht1]
    exact hpair.symm
  · have := h.length_eq
    simp only [Directory.resident, Directory.promote, List.kerase_of_notMem_keys ht1,
      List.length_cons] at this ⊢
    omega

theorem insertT1_spec (h : a.Represents capacity d) (hkey : key ∉ d.t1.keys) (value : Option V) :
    (a.insertT1 key value).Represents capacity { d with t1 := ⟨key, value⟩ :: d.t1 } := by
  refine ⟨h.capacity_eq, h.residents.add hkey value, h.ghosts, ?_, h.p_eq⟩
  have := h.length_eq
  show a.length + 1 = _
  simp only [Directory.resident, List.length_cons] at this ⊢
  omega

theorem insertT2_spec (h : a.Represents capacity d) (hkey : key ∉ d.t2.keys) (value : Option V) :
    (a.insertT2 key value).Represents capacity { d with t2 := ⟨key, value⟩ :: d.t2 } :=
  (insertT1_spec h.mirrored hkey value).mirrored

/-! ## Victims -/

/-- On either side: `t` loses its last entry, `b` gains its key and keeps its other ghosts. -/
theorem demote_spec {t t' b b' : Indexed Key} {ts ts' : List (Σ _ : Key, Option V)}
    {bs bs' : List (Σ _ : Key, Unit)} {e : Σ _ : Key, Option V} (a : ARC V)
    (ht : Pair a.nodes a.freshNode t t' ts ts') (hb : Pair a.ghosts a.freshGhost b b' bs bs')
    (he : ts.getLast? = some e) (hkey : e.1 ∉ bs.keys) :
    ∃ t₁ b₁ nodes ghosts, a.demote t b = some (some (e.1, t₁, b₁,
        { a with nodes, ghosts, freshGhost := a.freshGhost + 1, length := a.length - 1 })) ∧
      Pair nodes a.freshNode t₁ t' ts.dropLast ts' ∧
      Pair ghosts (a.freshGhost + 1) b₁ b' (⟨e.1, ()⟩ :: bs) bs' ∧
      ∀ k ∈ bs.keys, b₁.idx.lookup k = b.idx.lookup k := by
  obtain ⟨tail, t₁, nodes, hremove, htail, hpair⟩ := ht.removeTail he
  refine ⟨_, _, nodes, _, ?_, hpair, hb.add hkey (), ?_⟩
  · rw [demote, hremove, ← htail]
    rfl
  · intro k hk
    exact AList.lookup_insert_ne fun heq => hkey (heq ▸ hk)

/-- The nodes of the ghosts of `d` are those they were. -/
def KeepsGhosts (d : Directory V) (a a' : ARC V) : Prop :=
  (∀ k ∈ d.b1.keys, a'.b1.idx.lookup k = a.b1.idx.lookup k) ∧
    ∀ k ∈ d.b2.keys, a'.b2.idx.lookup k = a.b2.idx.lookup k

theorem keepsGhosts_refl (d : Directory V) (a : ARC V) : KeepsGhosts d a a :=
  ⟨fun _ _ => rfl, fun _ _ => rfl⟩

theorem demote_nil {t t' : Indexed Key} {ts' : List (Σ _ : Key, Option V)} (a : ARC V)
    (b : Indexed Key) (ht : Pair a.nodes a.freshNode t t' [] ts') : a.demote t b = some none := by
  rw [demote, ht.removeTail_nil]
  rfl

theorem evictFromT1_spec (h : a.Represents capacity d) (hd : d.Wf capacity) :
    ∃ a', a.evictFromT1 = some (a', d.evictFromT1.2) ∧
      a'.Represents capacity d.evictFromT1.1 ∧ KeepsGhosts d a a' := by
  rw [Directory.evictFromT1]
  cases he : d.t1.getLast? with
  | none =>
      have hpair := h.residents
      rw [List.getLast?_eq_none_iff.mp he] at hpair
      exact ⟨a, by rw [evictFromT1, demote_nil a a.b1 hpair]; rfl, h, keepsGhosts_refl d a⟩
  | some e =>
      have hmem := List.mem_of_getLast? he
      obtain ⟨t1, b1, nodes, ghosts, hdemote, hres, hghosts, hkept⟩ :=
        demote_spec a h.residents h.ghosts he
          (hd.notMem_ghosts (.inl (List.mem_keys_of_mem hmem))).1
      refine ⟨_, by rw [evictFromT1, hdemote]; rfl, ?_, ?_⟩
      swap
      · exact ⟨hkept, fun _ _ => rfl⟩
      refine ⟨h.capacity_eq, hres, hghosts, ?_, h.p_eq⟩
      have hlen := h.length_eq
      have hpos := List.length_pos_of_mem hmem
      simp only [Directory.resident, List.length_dropLast] at hlen ⊢
      omega

theorem evictFromT2_eq (a : ARC V) :
    a.evictFromT2 = a.mirrored.evictFromT1.map fun r => (r.1.mirrored, r.2) := by
  rw [evictFromT2, evictFromT1, demote, demote, show a.mirrored.t1 = a.t2 from rfl,
    show a.mirrored.nodes = a.nodes from rfl]
  rcases a.t2.removeTail a.nodes with _ | _ | _
  · rfl
  · rfl
  · rfl

theorem evictFromT2_spec (h : a.Represents capacity d) (hd : d.Wf capacity) :
    ∃ a', a.evictFromT2 = some (a', d.evictFromT2.2) ∧
      a'.Represents capacity d.evictFromT2.1 ∧ KeepsGhosts d a a' := by
  obtain ⟨a', hevict, h', hkept⟩ := evictFromT1_spec h.mirrored hd.mirrored
  rw [evictFromT2_eq, Directory.evictFromT2_eq, hevict]
  exact ⟨a'.mirrored, rfl, h'.mirrored, hkept.2, hkept.1⟩

theorem fromT1_iff (h : a.Represents capacity d) (x : Key) : a.FromT1 x ↔ d.FromT1 x := by
  rw [FromT1, Directory.FromT1, h.t1_len, h.p_eq, h.ghosts.symm.mem_keys, ← AList.lookup_isSome]
  simp only [gt_iff_lt, Int.natCast_pos]

theorem replace_spec (h : a.Represents capacity d) (hd : d.Wf capacity) (x : Key) :
    ∃ a', a.replace x = some (a', (d.replace x).2) ∧
      a'.Represents capacity (d.replace x).1 ∧ KeepsGhosts d a a' := by
  rw [replace, Directory.replace]
  by_cases hside : d.FromT1 x
  · rw [if_pos hside, if_pos ((fromT1_iff h x).mpr hside)]
    exact evictFromT1_spec h hd
  · rw [if_neg hside, if_neg (mt (fromT1_iff h x).mp hside)]
    exact evictFromT2_spec h hd

theorem evict_spec (h : a.Represents capacity d) (hd : d.Wf capacity) :
    ∃ a', a.evict = some (a', (d.evict capacity).2) ∧
      a'.Represents capacity (d.evict capacity).1 := by
  have hzero : (a.capacity = 0 ∨ a.length = 0) ↔ (capacity = 0 ∨ d.resident = 0) := by
    rw [h.capacity_eq, h.length_eq]
    omega
  rw [evict, Directory.evict]
  by_cases hnone : capacity = 0 ∨ d.resident = 0
  · rw [if_pos hnone, if_pos (hzero.mpr hnone)]
    exact ⟨a, rfl, h⟩
  · rw [if_neg hnone, if_neg (mt hzero.mp hnone)]
    obtain ⟨a', hreplace, h', -⟩ := replace_spec h hd []
    refine ⟨a', ?_, h'⟩
    rw [hreplace]
    by_cases hkey : (d.replace []).2 = []
    · simp [hkey]
    · simp [hkey]

/-! ## Ghost hits -/

theorem handleGhostHit_none (h : a.Represents capacity d) (hb1 : key ∉ d.b1.keys)
    (hb2 : key ∉ d.b2.keys) (value : Option V) : a.handleGhostHit key value = some (a, false) := by
  rw [handleGhostHit, AList.lookup_eq_none.mpr (mt h.ghosts.mem_keys.mpr hb1),
    AList.lookup_eq_none.mpr (mt h.ghosts.symm.mem_keys.mpr hb2)]

theorem arcIntMax_eq (m n : Int) : arcIntMax m n = max m n := by
  rw [arcIntMax]
  omega

theorem Represents.raised_eq (h : a.Represents capacity d) : a.raised = d.raised capacity := by
  rw [raised, arcIntMax_eq, h.b1_len, h.b2_len, h.p_eq, h.capacity_eq, Directory.raised]
  split <;> omega

theorem Represents.lowered_eq (h : a.Represents capacity d) : a.lowered = d.lowered := by
  rw [lowered, arcIntMax_eq, h.b1_len, h.b2_len, h.p_eq, Directory.lowered]
  split <;> omega

theorem removeB1_spec {ghost : Nat} (h : a.Represents capacity d)
    (hkey : a.b1.idx.lookup key = some ghost) :
    ∃ b1 ghosts, a.b1.remove ghost a.ghosts = some (b1, ghosts) ∧
      ({ a with b1 := b1.erase key, ghosts } : ARC V).Represents capacity
        { d with b1 := d.b1.kerase key } := by
  obtain ⟨b1, ghosts, hremove, hpair⟩ := h.ghosts.remove hkey
  exact ⟨b1, ghosts, hremove, ⟨h.capacity_eq, h.residents, hpair, h.length_eq, h.p_eq⟩⟩

theorem removeB2_spec {ghost : Nat} (h : a.Represents capacity d)
    (hkey : a.b2.idx.lookup key = some ghost) :
    ∃ b2 ghosts, a.b2.remove ghost a.ghosts = some (b2, ghosts) ∧
      ({ a with b2 := b2.erase key, ghosts } : ARC V).Represents capacity
        { d with b2 := d.b2.kerase key } := by
  obtain ⟨b2, ghosts, hremove, h'⟩ := removeB1_spec h.mirrored hkey
  exact ⟨b2, ghosts, hremove, h'.mirrored⟩

theorem hitB1_spec (h : a.Represents capacity d) (hd : d.Wf capacity) (hkey : key ∈ d.b1.keys)
    (value : Option V) :
    ∃ a', a.handleGhostHit key value = some (a', true) ∧
      a'.Represents capacity (d.hitB1 capacity key value) := by
  obtain ⟨ghost, hghost⟩ := Option.isSome_iff_exists.mp
    (AList.lookup_isSome.mpr (h.ghosts.mem_keys.mp hkey))
  obtain ⟨a₁, hreplace, h₁, hkept⟩ := replace_spec (h.setTarget h.raised_eq) hd.raise key
  -- the node found before room was made is still the one of the key
  have hghost₁ := (hkept.1 key hkey).trans hghost
  have hb1 := h₁.ghosts.mem_keys.mpr (AList.lookup_isSome.mp (by rw [hghost₁]; rfl))
  obtain ⟨ht2, hb2⟩ := (hd.raise.replace key).notMem_of_b1 hb1
  obtain ⟨b1, ghosts, hremove, hgone⟩ := removeB1_spec h₁ hghost₁
  have hrevive := insertT2_spec hgone ht2 value
  refine ⟨({ a₁ with b1 := b1.erase key, ghosts } : ARC V).insertT2 key value, ?_, ?_⟩
  · simp only [handleGhostHit, hghost, hreplace, hremove, Option.bind_eq_bind,
      Option.bind_some]
  · rw [Directory.hitB1, Directory.hit, Directory.revive, List.kerase_of_notMem_keys hb2]
    exact hrevive

theorem hitB2_spec (h : a.Represents capacity d) (hd : d.Wf capacity) (hb1 : key ∉ d.b1.keys)
    (hkey : key ∈ d.b2.keys) (value : Option V) :
    ∃ a', a.handleGhostHit key value = some (a', true) ∧
      a'.Represents capacity (d.hitB2 key value) := by
  obtain ⟨ghost, hghost⟩ := Option.isSome_iff_exists.mp
    (AList.lookup_isSome.mpr (h.ghosts.symm.mem_keys.mp hkey))
  have hnone := AList.lookup_eq_none.mpr (mt h.ghosts.mem_keys.mpr hb1)
  obtain ⟨a₁, hreplace, h₁, hkept⟩ := replace_spec (h.setTarget h.lowered_eq) hd.lower key
  have hghost₁ := (hkept.2 key hkey).trans hghost
  have hb2 := h₁.ghosts.symm.mem_keys.mpr (AList.lookup_isSome.mp (by rw [hghost₁]; rfl))
  obtain ⟨ht2, hnot⟩ := (hd.lower.replace key).notMem_of_b2 hb2
  obtain ⟨b2, ghosts, hremove, hgone⟩ := removeB2_spec h₁ hghost₁
  have hrevive := insertT2_spec hgone ht2 value
  refine ⟨({ a₁ with b2 := b2.erase key, ghosts } : ARC V).insertT2 key value, ?_, ?_⟩
  · simp only [handleGhostHit, hnone, hghost, hreplace, hremove, Option.bind_eq_bind,
      Option.bind_some]
  · rw [Directory.hitB2, Directory.hit, Directory.revive, List.kerase_of_notMem_keys hnot]
    exact hrevive

/-! ## New keys -/

theorem forgetB1_spec (h : a.Represents capacity d) :
    ∃ a', a.forgetB1 = some a' ∧ a'.Represents capacity { d with b1 := d.b1.dropLast } := by
  rw [forgetB1]
  cases he : d.b1.getLast? with
  | none =>
      have hnil := List.getLast?_eq_none_iff.mp he
      have hpair := h.ghosts
      rw [hnil] at hpair
      refine ⟨a, by rw [hpair.removeTail_nil]; rfl, ?_⟩
      rw [hnil, List.dropLast_nil, ← hnil]
      exact h
  | some e =>
      obtain ⟨tail, b1, ghosts, hremove, htail, hpair⟩ := h.ghosts.removeTail he
      rw [← htail] at hpair
      exact ⟨{ a with b1 := b1.erase (ghosts tail).key, ghosts }, by rw [hremove]; rfl,
        ⟨h.capacity_eq, h.residents, hpair, h.length_eq, h.p_eq⟩⟩

theorem forgetB2_eq (a : ARC V) : a.forgetB2 = a.mirrored.forgetB1.map mirrored := by
  rw [forgetB2, forgetB1, show a.mirrored.b1 = a.b2 from rfl,
    show a.mirrored.ghosts = a.ghosts from rfl]
  rcases a.b2.removeTail a.ghosts with _ | _ | _
  · rfl
  · rfl
  · rfl

theorem forgetB2_spec (h : a.Represents capacity d) :
    ∃ a', a.forgetB2 = some a' ∧ a'.Represents capacity { d with b2 := d.b2.dropLast } := by
  obtain ⟨a', hforget, h'⟩ := forgetB1_spec h.mirrored
  rw [forgetB2_eq, hforget]
  exact ⟨a'.mirrored, rfl, h'.mirrored⟩

theorem trimForHistoryLimit_spec (h : a.Represents capacity d) (hd : d.Wf capacity) :
    ∃ a', a.trimForHistoryLimit = some a' ∧
      a'.Represents capacity (d.trimForHistoryLimit capacity) := by
  have hlt : a.t1.len < a.capacity ↔ d.t1.length < capacity := by
    rw [h.t1_len, h.capacity_eq]
    omega
  rw [trimForHistoryLimit, Directory.trimForHistoryLimit]
  by_cases hroom : d.t1.length < capacity
  · rw [if_pos hroom, if_pos (hlt.mpr hroom)]
    exact forgetB1_spec h
  · rw [if_neg hroom, if_neg (mt hlt.mp hroom)]
    obtain ⟨a', hevict, h', -⟩ := evictFromT1_spec h hd
    exact ⟨a', by rw [hevict]; rfl, h'⟩

theorem trimForTotalLimit_spec (h : a.Represents capacity d) (hd : d.Wf capacity) :
    ∃ a', a.trimForTotalLimit = some a' ∧
      a'.Represents capacity (d.trimForTotalLimit capacity) := by
  have htotal : a.t1.len + a.t2.len + a.b1.len + a.b2.len ≥ 2 * a.capacity ↔
      d.total ≥ 2 * capacity := by
    rw [h.t1_len, h.t2_len, h.b1_len, h.b2_len, h.capacity_eq, Directory.total]
    omega
  rw [trimForTotalLimit, Directory.trimForTotalLimit]
  by_cases hlimit : d.total ≥ 2 * capacity
  · rw [if_pos hlimit, if_pos (htotal.mpr hlimit)]
    obtain ⟨a₁, hforget, h₁⟩ := forgetB2_spec h
    obtain ⟨a', hreplace, h', -⟩ := replace_spec h₁ hd.forgetB2 []
    exact ⟨a', by rw [hforget]; simp [hreplace], h'⟩
  · rw [if_neg hlimit, if_neg (mt htotal.mp hlimit)]
    obtain ⟨a', hreplace, h', -⟩ := replace_spec h hd []
    exact ⟨a', by simp [hreplace], h'⟩

theorem ensureCapacityForNew_spec (h : a.Represents capacity d) (hd : d.Wf capacity) :
    ∃ a', a.ensureCapacityForNew = some a' ∧
      a'.Represents capacity (d.ensureCapacityForNew capacity) := by
  have hge : a.t1.len + a.b1.len ≥ a.capacity ↔ d.t1.length + d.b1.length ≥ capacity := by
    rw [h.t1_len, h.b1_len, h.capacity_eq]
    omega
  rw [ensureCapacityForNew, Directory.ensureCapacityForNew]
  by_cases hfull : d.t1.length + d.b1.length ≥ capacity
  · rw [if_pos hfull, if_pos (hge.mpr hfull)]
    exact trimForHistoryLimit_spec h hd
  · rw [if_neg hfull, if_neg (mt hge.mp hfull)]
    exact trimForTotalLimit_spec h hd

theorem insertNew_spec (h : a.Represents capacity d) (hd : d.Wf capacity)
    (hkey : d.occurs key = 0) (value : Option V) :
    ∃ a', a.insertNew key value = some a' ∧
      a'.Represents capacity (d.insertNew capacity key value) := by
  have hge : a.length ≥ a.capacity ↔ d.resident ≥ capacity := by
    rw [h.length_eq, h.capacity_eq]
    omega
  rw [insertNew, Directory.insertNew]
  by_cases hfull : d.resident ≥ capacity
  · rw [if_pos hfull, if_pos (hge.mpr hfull)]
    obtain ⟨a', hensure, h'⟩ := ensureCapacityForNew_spec h hd
    have hle := (Directory.ensureCapacityForNew_le capacity key d).1
    refine ⟨_, by rw [hensure]; rfl, insertT1_spec h' ?_ value⟩
    rw [← occurs_eq_zero]
    rw [Directory.occurs] at hle
    omega
  · rw [if_neg hfull, if_neg (mt hge.mp hfull)]
    refine ⟨_, rfl, insertT1_spec h ?_ value⟩
    rw [← occurs_eq_zero]
    rw [Directory.occurs] at hkey
    omega

/-! ## The calls -/

/-- Where the lists have a key, or that they have none. -/
theorem Represents.lookup_cases (h : a.Represents capacity d) (hd : d.Wf capacity) (key : Key) :
    (∃ node, a.t1.idx.lookup key = some node ∧ d.lookup key = some (a.nodes node).value ∧
        key ∉ d.t2.keys) ∨
      (∃ node, a.t1.idx.lookup key = none ∧ a.t2.idx.lookup key = some node ∧
        d.lookup key = some (a.nodes node).value ∧ key ∉ d.t1.keys) ∨
      a.t1.idx.lookup key = none ∧ a.t2.idx.lookup key = none ∧ d.lookup key = none := by
  have h1 := h.residents.dlookup (k := key)
  have h2 := h.residents.symm.dlookup (k := key)
  have hone := hd.distinct key
  rw [Directory.occurs] at hone
  cases ht1 : a.t1.idx.lookup key with
  | some node =>
      rw [ht1, Option.map_some] at h1
      have hpos := occurs_pos.mpr (List.dlookup_isSome.mp (by rw [h1]; rfl))
      refine .inl ⟨node, rfl, by rw [Directory.lookup, h1]; rfl, ?_⟩
      rw [← occurs_eq_zero]
      omega
  | none =>
      rw [ht1, Option.map_none] at h1
      refine .inr ?_
      cases ht2 : a.t2.idx.lookup key with
      | some node =>
          rw [ht2, Option.map_some] at h2
          exact .inl ⟨node, rfl, rfl, by rw [Directory.lookup, h1, h2]; rfl,
            List.dlookup_eq_none.mp h1⟩
      | none =>
          rw [ht2, Option.map_none] at h2
          exact .inr ⟨rfl, rfl, by rw [Directory.lookup, h1, h2]; rfl⟩

theorem get_spec (h : a.Represents capacity d) (hd : d.Wf capacity) (key : Key) :
    ∃ a', a.get key = some (a', (d.get key).2) ∧ a'.Represents capacity (d.get key).1 := by
  rw [get, Directory.get]
  rcases h.lookup_cases hd key with ⟨node, ht1, hvalue, ht2⟩ | ⟨node, hnone, ht2, hvalue, ht1⟩ |
    ⟨ht1, ht2, hnone⟩
  · obtain ⟨a', hmove, h', hsame⟩ := moveToT2_spec h ht1 ht2 id
    rw [hvalue]
    exact ⟨a', by simp [ht1, hmove, hsame], h'⟩
  · obtain ⟨a', hrefresh, h', hsame⟩ := refreshInT2_spec h ht2 ht1 id
    rw [hvalue]
    exact ⟨a', by simp [hnone, ht2, hrefresh, hsame], h'⟩
  · rw [hnone]
    exact ⟨a, by simp [ht1, ht2], h⟩

theorem set_spec (h : a.Represents capacity d) (hd : d.Wf capacity) (key : Key)
    (value : Option V) :
    ∃ a', a.set key value = some a' ∧ a'.Represents capacity (d.set capacity key value) := by
  rw [set, Directory.set, h.capacity_eq]
  by_cases hzero : capacity = 0
  · rw [if_pos hzero, if_pos hzero]
    exact ⟨a, rfl, h⟩
  · rw [if_neg hzero, if_neg hzero]
    rcases h.lookup_cases hd key with ⟨node, ht1, hvalue, ht2⟩ | ⟨node, hnone, ht2, hvalue, ht1⟩ |
      ⟨ht1, ht2, hnone⟩
    · obtain ⟨a', hmove, h', -⟩ := moveToT2_spec h ht1 ht2 fun _ => value
      rw [hvalue]
      exact ⟨a', by simp [updateIfResident, ht1, hmove], h'⟩
    · obtain ⟨a', hrefresh, h', -⟩ := refreshInT2_spec h ht2 ht1 fun _ => value
      rw [hvalue]
      exact ⟨a', by simp [updateIfResident, hnone, ht2, hrefresh], h'⟩
    · have hupdate : a.updateIfResident key value = some (a, false) := by
        simp [updateIfResident, ht1, ht2]
      rw [hnone, hupdate]
      cases hb1 : d.b1.dlookup key with
      | some u =>
          have hmem := List.dlookup_isSome.mp (by rw [hb1]; rfl)
          obtain ⟨a', hhit, h'⟩ := hitB1_spec h hd hmem value
          exact ⟨a', by simp [hhit], h'⟩
      | none =>
          have hb1' := List.dlookup_eq_none.mp hb1
          cases hb2 : d.b2.dlookup key with
          | some u =>
              have hmem := List.dlookup_isSome.mp (by rw [hb2]; rfl)
              obtain ⟨a', hhit, h'⟩ := hitB2_spec h hd hb1' hmem value
              exact ⟨a', by simp [hhit], h'⟩
          | none =>
              have hb2' := List.dlookup_eq_none.mp hb2
              have hnew : d.occurs key = 0 := by
                have hres := Directory.lookup_eq_none.mp hnone
                rw [← occurs_eq_zero] at hb1' hb2'
                rw [Directory.occurs]
                omega
              obtain ⟨a', hinsert, h'⟩ := insertNew_spec h hd hnew value
              exact ⟨a', by simp [handleGhostHit_none h hb1' hb2', hinsert], h'⟩

theorem removeT1_spec (h : a.Represents capacity d) (hkey : a.t1.idx.lookup key = some node) :
    ∃ t1 nodes, a.t1.remove node a.nodes = some (t1, nodes) ∧
      ({ a with t1 := t1.erase key, nodes, length := a.length - 1 } : ARC V).Represents capacity
        { d with t1 := d.t1.kerase key } := by
  have hmem : key ∈ d.t1.keys :=
    h.residents.mem_keys.mpr (AList.lookup_isSome.mp (by rw [hkey]; rfl))
  have hlen := RecencyList.length_kerase_of_mem hmem
  obtain ⟨t1, nodes, hremove, hpair⟩ := h.residents.remove hkey
  refine ⟨t1, nodes, hremove, ⟨h.capacity_eq, hpair, h.ghosts, ?_, h.p_eq⟩⟩
  have := h.length_eq
  simp only [Directory.resident] at this ⊢
  omega

theorem removeT2_spec (h : a.Represents capacity d) (hkey : a.t2.idx.lookup key = some node) :
    ∃ t2 nodes, a.t2.remove node a.nodes = some (t2, nodes) ∧
      ({ a with t2 := t2.erase key, nodes, length := a.length - 1 } : ARC V).Represents capacity
        { d with t2 := d.t2.kerase key } := by
  obtain ⟨t2, nodes, hremove, h'⟩ := removeT1_spec h.mirrored hkey
  exact ⟨t2, nodes, hremove, h'.mirrored⟩

/-- The key is in one list at most, so removing it there removes it everywhere. -/
theorem delete_spec (h : a.Represents capacity d) (hd : d.Wf capacity) (key : Key) :
    ∃ a', a.delete key = some a' ∧ a'.Represents capacity (d.delete key) := by
  rw [delete, Directory.delete]
  cases ht1 : a.t1.idx.lookup key with
  | some node =>
      have hmem : key ∈ d.t1.keys :=
        h.residents.mem_keys.mpr (AList.lookup_isSome.mp (by rw [ht1]; rfl))
      obtain ⟨t1, nodes, hremove, h'⟩ := removeT1_spec h ht1
      obtain ⟨h2, h3, h4⟩ := hd.only_t1 hmem
      rw [List.kerase_of_notMem_keys h2, List.kerase_of_notMem_keys h3,
        List.kerase_of_notMem_keys h4]
      exact ⟨_, by simp [hremove], h'⟩
  | none =>
      have h1 := mt h.residents.mem_keys.mp (AList.lookup_eq_none.mp ht1)
      rw [List.kerase_of_notMem_keys h1]
      cases ht2 : a.t2.idx.lookup key with
      | some node =>
          have hmem : key ∈ d.t2.keys :=
            h.residents.symm.mem_keys.mpr (AList.lookup_isSome.mp (by rw [ht2]; rfl))
          obtain ⟨t2, nodes, hremove, h'⟩ := removeT2_spec h ht2
          obtain ⟨h3, h4⟩ := hd.notMem_ghosts (.inr hmem)
          rw [List.kerase_of_notMem_keys h3, List.kerase_of_notMem_keys h4]
          exact ⟨_, by simp [hremove], h'⟩
      | none =>
          have h2 := mt h.residents.symm.mem_keys.mp (AList.lookup_eq_none.mp ht2)
          rw [List.kerase_of_notMem_keys h2]
          cases hb1 : a.b1.idx.lookup key with
          | some ghost =>
              have hmem : key ∈ d.b1.keys :=
                h.ghosts.mem_keys.mpr (AList.lookup_isSome.mp (by rw [hb1]; rfl))
              obtain ⟨b1, ghosts, hremove, h'⟩ := removeB1_spec h hb1
              rw [List.kerase_of_notMem_keys (hd.notMem_of_b1 hmem).2]
              exact ⟨_, by simp [hremove], h'⟩
          | none =>
              have h3 := mt h.ghosts.mem_keys.mp (AList.lookup_eq_none.mp hb1)
              rw [List.kerase_of_notMem_keys h3]
              cases hb2 : a.b2.idx.lookup key with
              | some ghost =>
                  obtain ⟨b2, ghosts, hremove, h'⟩ := removeB2_spec h hb2
                  exact ⟨_, by simp [hremove], h'⟩
              | none =>
                  have h4 := mt h.ghosts.symm.mem_keys.mp (AList.lookup_eq_none.mp hb2)
                  rw [List.kerase_of_notMem_keys h4]
                  exact ⟨a, rfl, h⟩

/-- A state that stands for a directory with distinct keys. -/
def Reaches (capacity : Nat) (a : ARC V) (d : Directory V) : Prop :=
  a.Represents capacity d ∧ d.Wf capacity

theorem exec_spec (h : a.Reaches capacity d) (op : AlgOp V) :
    ∃ a' d' r, a.exec op = some (a', r) ∧ d.exec capacity op = some (d', r) ∧
      a'.Reaches capacity d' := by
  obtain ⟨h, hd⟩ := h
  cases op with
  | set key value =>
      obtain ⟨a', hset, h'⟩ := set_spec h hd key value
      exact ⟨a', _, _, by simp [exec, hset], rfl, h', hd.set key value⟩
  | get key =>
      obtain ⟨a', hget, h'⟩ := get_spec h hd key
      exact ⟨a', _, _, by simp [exec, hget], rfl, h', hd.get key⟩
  | delete key =>
      obtain ⟨a', hdelete, h'⟩ := delete_spec h hd key
      exact ⟨a', _, _, by simp [exec, hdelete], rfl, h', hd.delete key⟩
  | evict =>
      obtain ⟨a', hevict, h'⟩ := evict_spec h hd
      exact ⟨a', _, _, by simp [exec, hevict], rfl, h', hd.evict⟩

theorem new_reaches {capacity : Int} (h : newARCAlgorithm capacity = .ok a) :
    a.Reaches capacity.toNat ⟨0, [], [], [], []⟩ := by
  rw [newARCAlgorithm] at h
  split at h
  · cases h
  · obtain rfl := Except.ok.inj h
    exact ⟨⟨rfl, Pair.empty, Pair.empty, rfl, rfl⟩, fun k => by simp [Directory.occurs], le_rfl,
      Int.natCast_nonneg _⟩

/-- The lists are at the nodes `t1`, `t2`, `b1` and `b2`, with their keys distinct, their
indexes and lengths exact and the target in its range. -/
structure Structured (a : ARC V) (t1 t2 b1 b2 : List Nat) : Prop where
  t1_holds : Holds a.nodes a.t1.idx a.t1.toEnds t1
  t2_holds : Holds a.nodes a.t2.idx a.t2.toEnds t2
  b1_holds : Holds a.ghosts a.b1.idx a.b1.toEnds b1
  b2_holds : Holds a.ghosts a.b2.idx a.b2.toEnds b2
  distinct : ((entries a.nodes t1).keys ++ (entries a.nodes t2).keys ++
    (entries a.ghosts b1).keys ++ (entries a.ghosts b2).keys).Nodup
  lens : a.t1.len = t1.length ∧ a.t2.len = t2.length ∧ a.b1.len = b1.length ∧
    a.b2.len = b2.length
  length_eq : a.length = t1.length + t2.length
  p_range : 0 ≤ a.p ∧ a.p ≤ a.capacity

theorem Reaches.structured (h : a.Reaches capacity d) :
    ∃ t1 t2 b1 b2, a.Structured t1 t2 b1 b2 := by
  obtain ⟨h, hd⟩ := h
  obtain ⟨t1, t2, hres, ht1, ht2⟩ := h.residents
  obtain ⟨b1, b2, hghosts, hb1, hb2⟩ := h.ghosts
  refine ⟨t1, t2, b1, b2, hres.left.toHolds, hres.right.toHolds, hghosts.left.toHolds,
    hghosts.right.toHolds, ?_, ?_, ?_, ?_⟩
  · rw [ht1, ht2, hb1, hb2, nodup_iff]
    exact hd.distinct
  · exact ⟨hres.left.len_eq, hres.right.len_eq, hghosts.left.len_eq, hghosts.right.len_eq⟩
  · rw [h.length_eq, Directory.resident, ← ht1, ← ht2, length_entries, length_entries]
    rfl
  · rw [h.p_eq, h.capacity_eq]
    exact ⟨hd.p_nonneg, hd.p_le⟩

end ARC

/-- No call of ARC fails, and every state it reaches is structured. -/
theorem arc_structured {capacity : Int} {a : ARC V} (hnew : newARCAlgorithm capacity = .ok a)
    (ops : List (AlgOp V)) :
    ∃ a' replies, Machines.run ARC.exec a ops = some (a', replies) ∧
      ∃ t1 t2 b1 b2, a'.Structured t1 t2 b1 b2 := by
  obtain ⟨a', d, replies, hrun, -, h⟩ :=
    Machines.run_sim (g := id) (fun _ _ op h => ARC.exec_spec h op) (ARC.new_reaches hnew) ops
  exact ⟨a', replies, hrun, h.structured⟩

/-- New keys, an eviction, a hit in B1 and a removal. -/
def ghostHitOps : List (AlgOp Str) :=
  [.set [97] none, .set [98] none, .set [99] none, .set [97] none, .get [99], .delete [97], .evict]

theorem arc_structured_ghostHit :
    ∃ a : ARC Str, newARCAlgorithm 2 = .ok a ∧
      ∃ a' replies, Machines.run ARC.exec a ghostHitOps = some (a', replies) ∧
        ∃ t1 t2 b1 b2, a'.Structured t1 t2 b1 b2 :=
  ⟨_, rfl, @arc_structured Str 2 _ rfl ghostHitOps⟩

end HyperCache
