/-
The routes of a write and the nodes it reaches.

`Set` either refuses a write, forwards it to the primary, or coordinates it on
the issuing node, which is then the primary or a replica promoted in its place.
`writeRoute` computes the route from the state before the call, and the spec
lemmas give the data of every node after the call on each route.
-/
import HyperCache.Cluster

namespace HyperCache

open Pointwise

/-- All nodes of the cluster see one ring. -/
def Cluster.Shares (C : Cluster) (R : Placement) : Prop :=
  ∀ n, (C.cfg n).ring = some R

theorem Cluster.uniform_shares {cfg : DistConfig} {R : Placement} (h : cfg.ring = some R) :
    (Cluster.uniform cfg).Shares R :=
  fun _ => h

/-- Two node states agree on stored data and history.  Counters and hints may
differ. -/
structure NodeState.SameData {V : Type} (a b : NodeState V) : Prop where
  shard : a.shard = b.shard
  applied : a.applied = b.applied

namespace World

variable {V : Type} (C : Cluster) (net : Net)

inductive Route where
  | refused (e : Err)
  | forward (primary : NodeID)
  | coordinate
  deriving DecidableEq, Repr

def writeRoute (n : NodeID) (item : Item V) (w : World V) : Route :=
  match item.valid with
  | some e => .refused e
  | none =>
      if (w n).draining then .refused .draining
      else
        match (C.cfg n).lookupOwners item.key with
        | [] => .refused .notOwner
        | primary :: replicas =>
            if primary = n then .coordinate
            else if !(C.cfg n).hasTransport then .refused .notOwner
            else if net.up primary then .forward primary
            else if replicas.contains n then .coordinate
            else .refused .backendNotFound

/-- The nodes a write or a delete coordinated by `sender` reaches: the sender,
and the owners that are up when it has a transport. -/
def covers (sender : NodeID) (owners : List NodeID) (m : NodeID) : Bool :=
  m == sender || ((C.cfg sender).hasTransport && (owners.contains m && net.up m))

def reached (n : NodeID) (item : Item V) (w : World V) (m : NodeID) : Bool :=
  match writeRoute C net n item w with
  | .refused _ => false
  | .forward primary => covers C net primary ((C.cfg n).lookupOwners item.key) m
  | .coordinate => covers C net n ((C.cfg n).lookupOwners item.key) m

/-- The item a `Set` leaves at the nodes it reaches. -/
def written (n : NodeID) (item : Item V) (w : World V) : Item V :=
  match writeRoute C net n item w with
  | .coordinate => stamped net n item w
  | _ => item

variable {C} {R : Placement}

theorem written_key (n : NodeID) (item : Item V) (w : World V) :
    (written C net n item w).key = item.key := by
  rw [written]
  split <;> rfl

theorem written_value (n : NodeID) (item : Item V) (w : World V) :
    (written C net n item w).value = item.value := by
  rw [written]
  split <;> rfl

theorem ownsKeyInternal_of_owner (hR : C.Shares R) {key : Key} {m : NodeID}
    (hm : m ∈ R.lookup key) : (C.cfg m).ownsKeyInternal key = true :=
  DistConfig.ownsKeyInternal_of_mem (hR m) (by rw [C.localNode_eq]; exact hm)

theorem applyForwardedSet_of_owner (hR : C.Shares R) {item : Item V} {m : NodeID}
    (hm : m ∈ R.lookup item.key) (st : NodeState V) :
    st.applyForwardedSet (C.cfg m) item = st.applySet (C.cfg m) item := by
  rw [NodeState.applyForwardedSet, DistConfig.acceptsForwarded_eq,
    ownsKeyInternal_of_owner hR hm, if_pos rfl]

theorem lookupOwners_eq (hR : C.Shares R) (n : NodeID) (key : Key) :
    (C.cfg n).lookupOwners key = R.lookup key := by
  rw [DistConfig.lookupOwners, hR n]

theorem covers_self (sender : NodeID) (owners : List NodeID) :
    covers C net sender owners sender = true := by
  simp [covers]

theorem covers_other {sender m : NodeID} {owners : List NodeID} (hm : m ≠ sender) :
    covers C net sender owners m = true ↔
      (C.cfg sender).hasTransport = true ∧ m ∈ owners ∧ net.up m = true := by
  simp [covers, hm]

/-! ## The forwarded route -/

/-- A transition at a coordinator followed by its fan-out to the replicas reaches
the nodes the coordinator covers.  A coordinator that is not the primary skips
the primary, which is down then. -/
theorem fanOut_covers {sender primary : NodeID} {replicas : List NodeID}
    (f : NodeID → NodeState V → NodeState V) (hnd : (primary :: replicas).Nodup)
    (hprim : sender = primary ∨ net.up primary = false) (w : World V) (m : NodeID) :
    (if (primary :: replicas).length ≤ 1 || !(C.cfg sender).hasTransport then
        modify w sender (f sender)
      else fanOut net f sender replicas (modify w sender (f sender))) m =
      if covers C net sender (primary :: replicas) m then f m (w m) else w m := by
  have hnd' : replicas.Nodup := (List.nodup_cons.mp hnd).2
  by_cases hms : m = sender
  · subst hms
    rw [if_pos (covers_self net m (primary :: replicas))]
    split
    · rw [modify_self]
    · rw [fanOut_apply net f m hnd', if_neg (by simp), modify_self]
  have hcov : covers C net sender (primary :: replicas) m = true ↔
      (C.cfg sender).hasTransport = true ∧ m ∈ replicas ∧ net.up m = true := by
    rw [covers_other net hms, List.mem_cons]
    refine and_congr_right fun _ => and_congr_left fun hup => ⟨fun h => ?_, Or.inr⟩
    refine h.resolve_left (fun hmp => ?_)
    rcases hprim with hsp | hdown
    · exact hms (hmp.trans hsp.symm)
    · rw [hmp, hdown] at hup
      cases hup
  by_cases hskip : ((primary :: replicas).length ≤ 1 || !(C.cfg sender).hasTransport) = true
  · have hno : ¬covers C net sender (primary :: replicas) m = true := by
      rw [hcov]
      rintro ⟨ht, hmem, -⟩
      rw [ht, Bool.not_true, Bool.or_false, decide_eq_true_eq, List.length_cons] at hskip
      have hpos := List.length_pos_of_mem hmem
      omega
    rw [if_pos hskip, if_neg hno, modify_ne _ _ hms]
  · have ht : (C.cfg sender).hasTransport = true := by
      by_contra h
      simp [h] at hskip
    rw [if_neg hskip, fanOut_apply net f sender hnd', modify_ne _ _ hms]
    simp only [hcov, ht, ne_eq, hms, not_false_eq_true, true_and]

theorem applySet_primary (hR : C.Shares R) {item : Item V} {primary : NodeID}
    {replicas : List NodeID} (howners : R.lookup item.key = primary :: replicas)
    (w : World V) (m : NodeID) :
    applySet C net primary item true w m =
      if covers C net primary (R.lookup item.key) m then (w m).applySet (C.cfg m) item
      else w m := by
  have hnd : (primary :: replicas).Nodup := howners ▸ R.nodup item.key
  have hlocal : NodeState.applySet (C.cfg primary) item =
      NodeState.applyForwardedSet (C.cfg primary) item :=
    funext fun st => (applyForwardedSet_of_owner hR (by simp [howners]) st).symm
  have hfan := fanOut_covers net (C := C)
    (fun m => NodeState.applyForwardedSet (C.cfg m) item) hnd (.inl rfl) w m
  simp only [applySet, Bool.not_true, Bool.false_eq_true, if_false, hR primary, howners,
    List.tail_cons, fanOutSet_eq, hlocal]
  rw [hfan]
  by_cases hc : covers C net primary (primary :: replicas) m = true
  · have hmem : m ∈ R.lookup item.key := by
      rw [howners]
      by_cases hmp : m = primary
      · simp [hmp]
      · exact ((covers_other net hmp).mp hc).2.1
    rw [if_pos hc, if_pos hc, applyForwardedSet_of_owner hR hmem]
  · rw [if_neg hc, if_neg hc]

/-! ## The coordinated route -/

/-- The write on the primary path is a local write with a new version, whose
replication follows. -/
theorem writeAsPrimary_fst [SizedValue V] (n : NodeID) (item : Item V)
    (owners replicas : List NodeID) (w : World V) :
    (writeAsPrimary C net n item owners replicas w).1 =
      (replicateTo C net n (stamped net n item w) replicas
        (modify (modify w n (fun st => { st with versionCounter := st.versionCounter + 1 })) n
          (NodeState.applySet (C.cfg n) (stamped net n item w)))).1 := by
  rw [writeAsPrimary]
  dsimp only
  split <;> rfl

theorem writeAsPrimary_self [SizedValue V] (n : NodeID) (item : Item V)
    (owners replicas : List NodeID) (w : World V) :
    ((writeAsPrimary C net n item owners replicas w).1 n).SameData
      ((w n).applySet (C.cfg n) (stamped net n item w)) := by
  obtain ⟨hs, h⟩ := replicateTo_self C net n (stamped net n item w) replicas
    (modify (modify w n (fun st => { st with versionCounter := st.versionCounter + 1 })) n
      (NodeState.applySet (C.cfg n) (stamped net n item w)))
  rw [writeAsPrimary_fst, h, modify_self, modify_self]
  exact ⟨rfl, rfl⟩

/-- The write on the primary path leaves the stamped item at every node the
coordinator covers. -/
theorem writeAsPrimary_data [SizedValue V] (hR : C.Shares R) {n : NodeID} {item : Item V}
    {replicas : List NodeID} (hnd : replicas.Nodup)
    (hrep : ∀ m, m ≠ n → (m ∈ replicas ↔ m ∈ R.lookup item.key)) (owners : List NodeID)
    (w : World V) (m : NodeID) :
    ((writeAsPrimary C net n item owners replicas w).1 m).SameData
      (if covers C net n (R.lookup item.key) m then
        (w m).applySet (C.cfg m) (stamped net n item w)
      else w m) := by
  by_cases hmn : m = n
  · subst hmn
    rw [if_pos (covers_self net m (R.lookup item.key))]
    exact writeAsPrimary_self net m item owners replicas w
  · have hcov : covers C net n (R.lookup item.key) m = true ↔
        (C.cfg n).hasTransport = true ∧ m ∈ R.lookup item.key ∧ net.up m = true :=
      covers_other net hmn
    rw [writeAsPrimary_fst, replicateTo_other C net n _ hnd _ hmn, modify_ne _ _ hmn,
      modify_ne _ _ hmn]
    simp only [hrep m hmn, ← hcov]
    by_cases hc : covers C net n (R.lookup item.key) m = true
    · have hmem : m ∈ R.lookup (stamped net n item w).key := (hcov.mp hc).2.1
      rw [if_pos hc, if_pos hc, applyForwardedSet_of_owner hR hmem]
      exact ⟨rfl, rfl⟩
    · rw [if_neg hc, if_neg hc]
      exact ⟨rfl, rfl⟩

/-! ## `Set` by route -/

/-- What `Set` does on each route: it changes nothing, hands the write to the
primary, or writes as the primary with a list of replicas that names every other
owner. -/
theorem set_cases [SizedValue V] (hR : C.Shares R) (n : NodeID) (item : Item V) (w : World V) :
    (∃ e, writeRoute C net n item w = .refused e ∧ set C net n item w = (w, some e)) ∨
    (∃ primary replicas, writeRoute C net n item w = .forward primary ∧
      R.lookup item.key = primary :: replicas ∧
      set C net n item w = (applySet C net primary item true w, none)) ∨
    (∃ replicas, writeRoute C net n item w = .coordinate ∧ n ∈ R.lookup item.key ∧
      replicas.Sublist (R.lookup item.key) ∧
      (∀ m, m ≠ n → (m ∈ replicas ↔ m ∈ R.lookup item.key)) ∧
      set C net n item w = writeAsPrimary C net n item (R.lookup item.key) replicas w) := by
  rw [set, writeRoute]
  cases hvalid : item.valid with
  | some e => exact .inl ⟨e, rfl, rfl⟩
  | none =>
      simp only [setImpl, lookupOwners_eq hR]
      by_cases hdrain : (w n).draining = true
      · exact .inl ⟨.draining, by simp [hdrain], by simp [hdrain]⟩
      simp only [hdrain, Bool.false_eq_true, if_false]
      cases howners : R.lookup item.key with
      | nil => exact .inl ⟨.notOwner, rfl, rfl⟩
      | cons primary replicas =>
          by_cases hpn : primary = n
          · subst hpn
            refine .inr (.inr ⟨replicas, by simp, List.mem_cons_self,
              List.sublist_cons_self _ _, fun m hm => ?_, by simp⟩)
            simp [List.mem_cons, hm]
          simp only [hpn, if_false, handleForwardPrimary]
          by_cases ht : (C.cfg n).hasTransport = true
          swap
          · exact .inl ⟨.notOwner, by simp [ht], by simp [ht]⟩
          have hmem : primary ∈ R.lookup item.key := by simp [howners]
          simp only [ht, Bool.not_true, Bool.false_eq_true, if_false, forwardSet]
          by_cases hup : net.up primary = true
          · have hacc : (C.cfg primary).acceptsForwarded item.key = true := by
              rw [DistConfig.acceptsForwarded_eq, ownsKeyInternal_of_owner hR hmem]
            refine .inr (.inl ⟨primary, replicas, by simp [hup], rfl, ?_⟩)
            simp [hup, applyForwardedSet, hacc]
          · by_cases hn : n ∈ replicas
            · have howns : (C.cfg n).ownsKeyInternal item.key = true :=
                ownsKeyInternal_of_owner hR (by simp [howners, hn])
              refine .inr (.inr ⟨primary :: replicas, by simp [hup, hn],
                List.mem_cons_of_mem _ hn, List.Sublist.refl _, fun m _ => Iff.rfl, ?_⟩)
              simp [hup, hn, howns]
            · exact .inl ⟨.backendNotFound, by simp [hup, hn], by simp [hup, hn]⟩

theorem set_data [SizedValue V] (hR : C.Shares R) (n : NodeID) (item : Item V) (w : World V)
    (m : NodeID) :
    ((set C net n item w).1 m).SameData
      (if reached C net n item w m then (w m).applySet (C.cfg m) (written C net n item w)
      else w m) := by
  obtain ⟨e, hr, hset⟩ | ⟨primary, replicas, hr, howners, hset⟩ |
    ⟨replicas, hr, -, hsub, hrep, hset⟩ := set_cases net hR n item w
  · simp only [reached, hr, hset, Bool.false_eq_true, if_false]
    exact ⟨rfl, rfl⟩
  · simp only [reached, written, hr, hset, lookupOwners_eq hR]
    rw [applySet_primary net hR howners]
    exact ⟨rfl, rfl⟩
  · simp only [reached, written, hr, hset, lookupOwners_eq hR]
    exact writeAsPrimary_data net hR (hsub.nodup (R.nodup item.key)) hrep _ w m

/-! ## The route of a delete -/

variable (C) in
/-- The node that coordinates a `Remove` of `key` issued at `n`.  A key without
owners is removed nowhere. -/
def removeSite (n : NodeID) (key : Key) (w : World V) : Except Err (Option NodeID) :=
  if (w n).draining then .error .draining
  else
    match (C.cfg n).lookupOwners key with
    | [] => .ok none
    | primary :: replicas =>
        if primary = n then .ok (some n)
        else if !(C.cfg n).hasTransport then .error .notOwner
        else if net.up primary then .ok (some primary)
        else if replicas.contains n then .ok (some n)
        else .error .backendNotFound

theorem applyRemove_covers (hR : C.Shares R) {key : Key} {sender primary : NodeID}
    {replicas : List NodeID} (howners : R.lookup key = primary :: replicas)
    (hprim : sender = primary ∨ net.up primary = false) (w : World V) (m : NodeID) :
    applyRemove C net sender key true w m =
      if covers C net sender (R.lookup key) m then (w m).applyRemove (C.cfg m) net.now key
      else w m := by
  have hnd : (primary :: replicas).Nodup := howners ▸ R.nodup key
  have hfan := fanOut_covers net (C := C)
    (fun m => NodeState.applyRemove (C.cfg m) net.now key) hnd hprim w m
  simp only [applyRemove, Bool.not_true, Bool.false_eq_true, if_false, hR sender, howners,
    List.tail_cons, fanOutRemove_eq]
  exact hfan

/-- A `Remove` of one key fails, finds no owner, or is applied on the nodes its
coordinator covers. -/
theorem remove_cases (hR : C.Shares R) (n : NodeID) (key : Key) (w : World V) :
    (∃ e, removeSite C net n key w = .error e ∧ remove C net n [key] w = (w, some e)) ∨
    (removeSite C net n key w = .ok none ∧ remove C net n [key] w = (w, none)) ∨
    (∃ s, removeSite C net n key w = .ok (some s) ∧ (remove C net n [key] w).2 = none ∧
      ∀ m, (remove C net n [key] w).1 m =
        if covers C net s (R.lookup key) m then (w m).applyRemove (C.cfg m) net.now key
        else w m) := by
  rw [remove, removeSite]
  by_cases hdrain : (w n).draining = true
  · exact .inl ⟨.draining, by simp [hdrain], by simp [hdrain]⟩
  simp only [hdrain, Bool.false_eq_true, if_false, removeKeys, removeKey, lookupOwners_eq hR]
  cases howners : R.lookup key with
  | nil => exact .inr (.inl ⟨rfl, rfl⟩)
  | cons primary replicas =>
      by_cases hpn : primary = n
      · subst hpn
        refine .inr (.inr ⟨primary, by simp, by simp, fun m => ?_⟩)
        simpa [howners] using applyRemove_covers net hR howners (.inl rfl) w m
      simp only [hpn, if_false]
      by_cases ht : (C.cfg n).hasTransport = true
      swap
      · exact .inl ⟨.notOwner, by simp [ht], by simp [ht]⟩
      simp only [ht, Bool.not_true, Bool.false_eq_true, if_false, forwardOrPromoteRemove,
        forwardRemove]
      by_cases hup : net.up primary = true
      · refine .inr (.inr ⟨primary, by simp [hup], by simp [hup], fun m => ?_⟩)
        simpa [howners, hup] using applyRemove_covers net hR howners (.inl rfl) w m
      · by_cases hn : n ∈ replicas
        · have howns : (C.cfg n).ownsKeyInternal key = true :=
            ownsKeyInternal_of_owner hR (by simp [howners, hn])
          refine .inr (.inr ⟨n, by simp [hup, hn], by simp [hup, hn, howns], fun m => ?_⟩)
          simpa [howners, hup, hn, howns] using
            applyRemove_covers net hR howners (.inr (Bool.eq_false_of_not_eq_true hup)) w m
        · exact .inl ⟨.backendNotFound, by simp [hup, hn], by simp [hup, hn]⟩

/-! ## Acknowledgements -/

def holds [DecidableEq V] (key : Key) (value : Option V) (st : NodeState V) : Bool :=
  match st.shard.items.get key with
  | some it => decide (it.value = value)
  | none => false

theorem holds_congr [DecidableEq V] {a b : NodeState V} (h : a.SameData b) (key : Key)
    (value : Option V) : holds key value a = holds key value b := by
  rw [holds, holds, h.shard]

theorem holds_applySet [DecidableEq V] (cfg : DistConfig) (item : Item V) (st : NodeState V) :
    holds item.key item.value (st.applySet cfg item) = true := by
  rw [holds, NodeState.applySet_shard, DistShard.applySet_items, ConcurrentMap.get_set_self]
  exact decide_eq_true rfl

/-- Counting one member and the others that pass a test never exceeds the count
of members that are that one or pass it. -/
theorem one_add_countP_le {n : NodeID} {q : NodeID → Bool} {owners : List NodeID}
    (hn : n ∈ owners) :
    1 + owners.countP (fun m => m != n && q m) ≤ owners.countP (fun m => m == n || q m) := by
  induction owners with
  | nil => exact absurd hn List.not_mem_nil
  | cons a rest ih =>
      rw [List.countP_cons, List.countP_cons]
      by_cases ha : a = n
      · subst ha
        have hle : rest.countP (fun m => m != a && q m) ≤
            rest.countP (fun m => m == a || q m) :=
          List.countP_mono_left (by intro m _ hm; simp_all)
        simp only [bne_self_eq_false, Bool.false_and, Bool.false_eq_true, if_false,
          beq_self_eq_true, Bool.true_or, if_true]
        omega
      · have hrest := ih ((List.mem_cons.mp hn).resolve_left (Ne.symm ha))
        by_cases hq : q a = true
        · simp [ha, hq]
          omega
        · simp [ha, hq]
          omega

theorem acks_le_covered [SizedValue V] {key : Key} {n : NodeID} {replicas : List NodeID}
    (hn : n ∈ R.lookup key) (hsub : replicas.Sublist (R.lookup key)) (item : Item V)
    (w : World V) :
    1 + (replicateTo C net n item replicas w).2 ≤
      (R.lookup key).countP (covers C net n (R.lookup key)) := by
  have hcount : (R.lookup key).countP (covers C net n (R.lookup key)) =
      (R.lookup key).countP
        (fun m => m == n || ((C.cfg n).hasTransport && net.up m)) := by
    refine List.countP_congr (fun m hm => ?_)
    simp [covers, hm]
  have hacks : (fun oid => (C.cfg n).hasTransport && (oid != n && net.up oid)) =
      fun m => m != n && ((C.cfg n).hasTransport && net.up m) := by
    funext m
    cases (C.cfg n).hasTransport <;> simp
  rw [replicateTo_acks, hacks, hcount]
  exact (Nat.add_le_add_left (hsub.countP_le) 1).trans (one_add_countP_le hn)

theorem requiredAcks_le_covered [SizedValue V] (hR : C.Shares R) {n : NodeID} {item : Item V}
    {w : World V} (hr : writeRoute C net n item w = .coordinate)
    (hnil : (set C net n item w).2 = none) :
    requiredAcks (R.lookup item.key).length (C.cfg n).writeConsistency ≤
      (R.lookup item.key).countP (covers C net n (R.lookup item.key)) := by
  obtain ⟨e, hr', -⟩ | ⟨primary, replicas, hr', -, -⟩ | ⟨replicas, -, hn, hsub, -, hset⟩ :=
    set_cases net hR n item w
  · rw [hr] at hr'
    cases hr'
  · rw [hr] at hr'
    cases hr'
  · rw [hset, writeAsPrimary] at hnil
    dsimp only at hnil
    split at hnil
    · cases hnil
    · exact (Nat.le_of_not_lt ‹_›).trans (acks_le_covered net hn hsub _ _)

/-- A `Set` that returns nil has the value at the required number of owners,
except on the forwarded route, where the issuer counts nothing: there it does
exactly when the primary's own fan-out, with the owners that held the value
before, makes up the number. -/
theorem set_acks_iff [SizedValue V] [DecidableEq V] (hR : C.Shares R) (n : NodeID)
    (item : Item V) (w : World V) :
    ((set C net n item w).2 = none →
      requiredAcks (R.lookup item.key).length (C.cfg n).writeConsistency ≤
        (R.lookup item.key).countP
          (fun m => holds item.key item.value ((set C net n item w).1 m))) ↔
    ∀ primary, writeRoute C net n item w = .forward primary →
      requiredAcks (R.lookup item.key).length (C.cfg n).writeConsistency ≤
        (R.lookup item.key).countP
          (fun m => covers C net primary (R.lookup item.key) m ||
            holds item.key item.value (w m)) := by
  have hdata := set_data net hR n item w
  obtain ⟨e, hr, hset⟩ | ⟨primary, replicas, hr, -, hset⟩ | ⟨replicas, hr, -⟩ :=
    set_cases net hR n item w
  · simp [hr, hset]
  · have hcount : (fun m => holds item.key item.value ((set C net n item w).1 m)) =
        fun m => covers C net primary (R.lookup item.key) m ||
          holds item.key item.value (w m) := by
      funext m
      have hm := hdata m
      simp only [reached, written, hr, lookupOwners_eq hR] at hm
      rw [holds_congr hm]
      by_cases hc : covers C net primary (R.lookup item.key) m = true
      · rw [if_pos hc, holds_applySet, hc, Bool.true_or]
      · rw [if_neg hc, Bool.eq_false_of_not_eq_true hc, Bool.false_or]
    rw [hcount, hr, hset]
    simp
  · have hother : ∀ primary, writeRoute C net n item w ≠ .forward primary := by
      intro primary h
      rw [hr] at h
      cases h
    refine ⟨fun _ primary h => absurd h (hother primary), fun _ hnil => ?_⟩
    have hcovered : (R.lookup item.key).countP (covers C net n (R.lookup item.key)) ≤
        (R.lookup item.key).countP
          (fun m => holds item.key item.value ((set C net n item w).1 m)) := by
      refine List.countP_mono_left (fun m _ hc => ?_)
      have hm := hdata m
      simp only [reached, written, hr, lookupOwners_eq hR] at hm
      rw [holds_congr hm, if_pos hc]
      exact holds_applySet (C.cfg m) (stamped net n item w) (w m)
    exact (requiredAcks_le_covered net hR hr hnil).trans hcovered

/-- Three owners `a`, `b` and `c` for every key. -/
def threeOwners : Placement :=
  .fixed [[97], [98], [99]] (by decide)

def quorumCluster : Cluster :=
  .uniform { localNode := [], ring := some threeOwners, readConsistency := .quorum }

def allUp : Net := { up := fun _ => true, now := 0 }

def sampleItem : Item Str := { key := [107], value := some [1] }

/-- With all owners up, a write forwarded by the non-owner `d` meets its
quorum. -/
theorem set_acks_of_all_up :
    quorumCluster.Shares threeOwners ∧
      ((set quorumCluster ⟨fun _ => true, 0, id, .refl⟩ [100] sampleItem fresh).2 = none →
        requiredAcks (threeOwners.lookup sampleItem.key).length
            (quorumCluster.cfg [100]).writeConsistency ≤
          (threeOwners.lookup sampleItem.key).countP (fun m => holds sampleItem.key
            sampleItem.value
            ((set quorumCluster ⟨fun _ => true, 0, id, .refl⟩ [100] sampleItem fresh).1 m))) := by
  have hshare : quorumCluster.Shares threeOwners := Cluster.uniform_shares rfl
  refine ⟨hshare, (set_acks_iff _ hshare [100] _ fresh).mpr (fun primary h => ?_)⟩
  have hroute : writeRoute quorumCluster ⟨fun _ => true, 0, id, .refl⟩ [100] sampleItem fresh =
      .forward [97] := by decide
  rw [hroute, Route.forward.injEq] at h
  subst h
  decide

/-- With only the primary up, a write forwarded by the non-owner `d` returns nil
and is held by one owner, where `QUORUM` asks for two. -/
theorem set_acks_forwarded_short :
    quorumCluster.Shares threeOwners ∧
      (set quorumCluster ⟨(· == [97]), 0, id, .refl⟩ [100] sampleItem fresh).2 = none ∧
      ¬requiredAcks (threeOwners.lookup sampleItem.key).length
          (quorumCluster.cfg [100]).writeConsistency ≤
        (threeOwners.lookup sampleItem.key).countP (fun m => holds sampleItem.key
          sampleItem.value
          ((set quorumCluster ⟨(· == [97]), 0, id, .refl⟩ [100] sampleItem fresh).1 m)) :=
  ⟨Cluster.uniform_shares rfl, by decide, by decide⟩

/-! ## What a `Remove` leaves at the owners -/

theorem lookup_eq_nil_of_removeSite (hR : C.Shares R) {n : NodeID} {key : Key} {w : World V}
    (h : removeSite C net n key w = .ok none) : R.lookup key = [] := by
  rw [removeSite, lookupOwners_eq hR] at h
  cases howners : R.lookup key with
  | nil => rfl
  | cons primary replicas =>
      rw [howners] at h
      dsimp only at h
      split at h
      · cases h
      · split at h
        · cases h
        · split at h
          · cases h
          · split at h
            · cases h
            · split at h <;> cases h

theorem removed_applyRemove (cfg : DistConfig) (now : Time) (key : Key) (st : NodeState V) :
    (st.applyRemove cfg now key).shard.items.get key = none ∧
      ∃ tomb, (st.applyRemove cfg now key).shard.tombs.lookup key = some tomb := by
  rw [NodeState.applyRemove_items]
  exact ⟨ConcurrentMap.get_remove_self _ key, _, AList.lookup_insert _⟩

/-- A `Remove` that returns nil has deleted the key at every owner that is up: the primary
fans out to all replicas, and a replica that stands in for the primary leaves out only the
primary, which is down. -/
theorem remove_reaches_owners (hR : C.Shares R) (ht : ∀ n, (C.cfg n).hasTransport = true)
    {n : NodeID} {key : Key} {w : World V} (hnil : (remove C net n [key] w).2 = none)
    {m : NodeID} (hm : m ∈ R.lookup key) (hup : net.up m = true) :
    ((remove C net n [key] w).1 m).shard.items.get key = none ∧
      ∃ tomb, ((remove C net n [key] w).1 m).shard.tombs.lookup key = some tomb := by
  rcases remove_cases net hR n key w with ⟨e, -, hfail⟩ | ⟨hnone, -⟩ | ⟨site, -, -, hdata⟩
  · rw [hfail] at hnil
    cases hnil
  · rw [lookup_eq_nil_of_removeSite net hR hnone] at hm
    exact absurd hm List.not_mem_nil
  · have hcovered : covers C net site (R.lookup key) m = true := by
      by_cases hsite : m = site
      · rw [hsite]
        exact covers_self net site _
      · exact (covers_other net hsite).mpr ⟨ht site, hm, hup⟩
    rw [hdata m, if_pos hcovered]
    exact removed_applyRemove (C.cfg m) net.now key (w m)

/-- With the primary `a` down, the replica `b` promotes itself and deletes the copy of `c`. -/
theorem remove_reaches_owners_promoted :
    let net : Net := ⟨fun n => n != [97], 0, id, .refl⟩
    let w : World Str := fun m =>
      { shard := DistShard.empty.applySet (quorumCluster.cfg m) sampleItem }
    (remove quorumCluster net [98] [[107]] w).2 = none ∧
      (w [99]).shard.items.get [107] = some sampleItem ∧
      ((remove quorumCluster net [98] [[107]] w).1 [99]).shard.items.get [107] = none ∧
      ∃ tomb, ((remove quorumCluster net [98] [[107]] w).1 [99]).shard.tombs.lookup [107] =
        some tomb := by
  intro net w
  have hnil : (remove quorumCluster net [98] [[107]] w).2 = none := by decide
  have hm : [99] ∈ threeOwners.lookup [107] := by decide
  exact ⟨hnil, by decide, remove_reaches_owners net (Cluster.uniform_shares rfl) (fun _ => rfl)
    hnil hm (by decide)⟩

end World

end HyperCache
