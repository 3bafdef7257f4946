/-
Gossip: exchanging membership snapshots.

A node pushes its membership list to a peer, over the wire or directly when both
run in one process.  The receiver takes over a record of another node when it knows
none or one of lower incarnation.  A claim about the receiver itself, suspect or dead
at an incarnation not below its own, makes it refute: it raises its own incarnation by
one and calls itself alive.

The record of the local node in the membership is the local node itself, through a
shared pointer, so `Peer` keeps the two equal.
-/
import HyperCache.Lib.LastWriter
import HyperCache.Membership

namespace HyperCache

open LastWriter

variable {sum64 : List UInt8 → UInt64}

/-! ## The wire -/

/-- `NodeState.String`. -/
def Node.State.string : Node.State → String
  | .alive => "alive"
  | .suspect => "suspect"
  | .dead => "dead"

structure GossipMember where
  id : Str
  address : Str
  state : String
  incarnation : UInt64

def nodesToGossipMembers (nodes : List Node) : List GossipMember :=
  nodes.map (fun n => ⟨n.id, n.address, n.state.string, n.incarnation⟩)

/-- An unknown state reads as alive. -/
def parseGossipState : String → Node.State
  | "suspect" => .suspect
  | "dead" => .dead
  | _ => .alive

def gossipMembersToNodes (now : Time) (members : List GossipMember) : List Node :=
  members.map (fun m => ⟨m.id, m.address, parseGossipState m.state, m.incarnation, now⟩)

theorem parseGossipState_string (s : Node.State) : parseGossipState s.string = s := by
  cases s <;> rfl

theorem gossipMembersToNodes_nodesToGossipMembers (now : Time) (nodes : List Node) :
    gossipMembersToNodes now (nodesToGossipMembers nodes) =
      nodes.map (fun n => { n with lastSeen := now }) := by
  rw [gossipMembersToNodes, nodesToGossipMembers, List.map_map]
  apply List.map_congr_left
  intro n _
  simp [parseGossipState_string]

/-! ## Accepting a snapshot -/

/-- The part of a `DistMemory` that gossip reads and writes. -/
structure Peer where
  localNode : Node
  membership : Membership
  shared : ∀ n, membership.nodes.get localNode.id = some n → n = localNode

namespace Peer

def record (p : Peer) (id : NodeID) : Option Node := p.membership.nodes.get id

/-- What a peer believes about a node. -/
def view (p : Peer) (id : NodeID) : Option (Node.State × UInt64) :=
  (p.record id).map (fun n => (n.state, n.incarnation))

/-- `membership.Refute` of the local node. -/
def refute (now : Time) (p : Peer) : Peer where
  localNode := ((p.membership.refute now p.localNode.id).2.nodes.get p.localNode.id).getD
    p.localNode
  membership := (p.membership.refute now p.localNode.id).2
  shared := by
    intro n hn
    rw [Keyed.Store.key_getD (p.membership.refute now p.localNode.id).2.nodes p.localNode] at hn
    rw [hn]
    rfl

def refuteIfSuspected (now : Time) (claim : Node) (p : Peer) : Peer :=
  if claim.state = .alive then p
  else if claim.incarnation < p.localNode.incarnation then p
  else p.refute now

/-- `membership.Upsert` of another node's record. -/
def upsert (sum64 : List UInt8 → UInt64) (rt : Runtime) (node : Node) (p : Peer)
    (h : node.id ≠ p.localNode.id) : Peer where
  localNode := p.localNode
  membership := p.membership.upsert sum64 rt node
  shared := by
    intro n hn
    rw [Membership.upsert_get, if_neg (Ne.symm h)] at hn
    exact p.shared n hn

/-- One round of the loop in `acceptGossip`.  The inner loop over `List` finds the one
record with the identifier, if there is one. -/
def acceptNode (sum64 : List UInt8 → UInt64) (rt : Runtime) (p : Peer) (node : Node) : Peer :=
  if h : node.id = p.localNode.id then p.refuteIfSuspected rt.now node
  else
    match p.record node.id with
    | some cur => if node.incarnation > cur.incarnation then p.upsert sum64 rt node h else p
    | none => p.upsert sum64 rt node h

def acceptGossip (sum64 : List UInt8 → UInt64) (rt : Runtime) (nodes : List Node) (p : Peer) :
    Peer :=
  nodes.foldl (acceptNode sum64 rt) p

/-! ## What a snapshot does to one record -/

theorem refute_localNode_id (now : Time) (p : Peer) :
    (p.refute now).localNode.id = p.localNode.id :=
  Keyed.Store.key_getD _ _

theorem refuteIfSuspected_localNode_id (now : Time) (claim : Node) (p : Peer) :
    (p.refuteIfSuspected now claim).localNode.id = p.localNode.id := by
  unfold refuteIfSuspected
  split
  · rfl
  · split
    · rfl
    · exact refute_localNode_id now p

theorem acceptNode_localNode_id (rt : Runtime) (p : Peer) (node : Node) :
    (p.acceptNode sum64 rt node).localNode.id = p.localNode.id := by
  unfold acceptNode
  split
  · exact refuteIfSuspected_localNode_id _ _ _
  · split
    · split <;> rfl
    · rfl

theorem refuteIfSuspected_record_ne (now : Time) (claim : Node) (p : Peer) {id : NodeID}
    (h : id ≠ p.localNode.id) : (p.refuteIfSuspected now claim).record id = p.record id := by
  unfold refuteIfSuspected
  split
  · rfl
  · split
    · rfl
    · show (p.membership.refute now p.localNode.id).2.nodes.get id = _
      rw [Membership.refute_get, if_neg h]
      rfl

/-- A record other than the receiver's own keeps the greater incarnation, and so does the
receiver's own when the snapshot is not about it. -/
theorem acceptNode_record (rt : Runtime) (p : Peer) (node : Node) {id : NodeID}
    (h : node.id ≠ p.localNode.id ∨ id ≠ p.localNode.id) :
    (p.acceptNode sum64 rt node).record id =
      if node.id = id then
        keepGreater Node.incarnation (p.record id) { node with lastSeen := rt.now }
      else p.record id := by
  unfold acceptNode
  split
  case isTrue hself =>
    have hid : id ≠ p.localNode.id := h.resolve_left (not_not.mpr hself)
    have hne : node.id ≠ id := fun heq => hid (heq ▸ hself)
    rw [refuteIfSuspected_record_ne _ _ _ hid, if_neg hne]
  case isFalse hother =>
    have hupsert : (p.upsert sum64 rt node hother).record id =
        if id = node.id then some { node with lastSeen := rt.now } else p.record id :=
      Membership.upsert_get _ _ _ _ _
    by_cases hid : node.id = id
    · subst hid
      rw [if_pos rfl] at hupsert ⊢
      split
      case h_1 cur hcur =>
        rw [hcur]
        by_cases hlt : node.incarnation > cur.incarnation
        · rw [if_pos hlt, hupsert]
          exact (if_pos hlt).symm
        · rw [if_neg hlt, hcur]
          exact (if_neg hlt).symm
      case h_2 hnone =>
        rw [hupsert, hnone]
        rfl
    · rw [if_neg (Ne.symm hid)] at hupsert
      rw [if_neg hid]
      split
      · split
        · exact hupsert
        · rfl
      · exact hupsert


theorem acceptGossip_localNode_id (rt : Runtime) (nodes : List Node) (p : Peer) :
    (p.acceptGossip sum64 rt nodes).localNode.id = p.localNode.id := by
  induction nodes generalizing p with
  | nil => rfl
  | cons node rest ih =>
      rw [acceptGossip, List.foldl_cons]
      exact (ih _).trans (acceptNode_localNode_id rt p node)

theorem acceptGossip_record (rt : Runtime) (nodes : List Node) (p : Peer) {id : NodeID}
    (h : (∀ n ∈ nodes, n.id ≠ p.localNode.id) ∨ id ≠ p.localNode.id) :
    (p.acceptGossip sum64 rt nodes).record id =
      ((nodes.filter (fun n => n.id = id)).map (fun n => { n with lastSeen := rt.now })).foldl
        (keepGreater Node.incarnation) (p.record id) := by
  induction nodes generalizing p with
  | nil => rfl
  | cons node rest ih =>
      have hnode : node.id ≠ p.localNode.id ∨ id ≠ p.localNode.id :=
        h.imp_left (fun hall => hall node List.mem_cons_self)
      have hrest : (∀ n ∈ rest, n.id ≠ (p.acceptNode sum64 rt node).localNode.id) ∨
          id ≠ (p.acceptNode sum64 rt node).localNode.id := by
        rw [acceptNode_localNode_id]
        exact h.imp_left (fun hall n hn => hall n (List.mem_cons_of_mem _ hn))
      rw [acceptGossip, List.foldl_cons]
      refine (ih _ hrest).trans ?_
      rw [acceptNode_record rt p node hnode]
      by_cases hid : node.id = id
      · rw [if_pos hid, List.filter_cons_of_pos (by simpa using hid), List.map_cons,
          List.foldl_cons]
      · rw [if_neg hid, List.filter_cons_of_neg (by simpa using hid)]

/-- What `runGossipTick` hands to the receiver: the snapshot itself in one process, and
what its wire form reads as otherwise. -/
def delivered (inProcess : Bool) (now : Time) (snapshot : List Node) : List Node :=
  if inProcess then snapshot else gossipMembersToNodes now (nodesToGossipMembers snapshot)

/-- The wire loses nothing that the receiver looks at. -/
theorem acceptGossip_delivered (inProcess : Bool) (now : Time) (rt : Runtime)
    (snapshot : List Node) (p : Peer) :
    p.acceptGossip sum64 rt (delivered inProcess now snapshot) =
      p.acceptGossip sum64 rt snapshot := by
  cases inProcess with
  | true => rfl
  | false =>
      show p.acceptGossip sum64 rt (gossipMembersToNodes now (nodesToGossipMembers snapshot)) = _
      rw [gossipMembersToNodes_nodesToGossipMembers, acceptGossip, List.foldl_map]
      rfl

/-! ## Refuting a claim -/

/-- The node's own record after it refuted a claim. -/
theorem refuteIfSuspected_record_self {now : Time} {claim : Node} {g : Peer}
    (hstate : claim.state ≠ .alive) (hge : g.localNode.incarnation ≤ claim.incarnation) :
    (g.refuteIfSuspected now claim).record g.localNode.id =
      (g.record g.localNode.id).map (fun n =>
        { n with incarnation := n.incarnation + 1, state := .alive, lastSeen := now }) := by
  rw [refuteIfSuspected, if_neg hstate, if_neg (not_lt.mpr hge)]
  show (g.membership.refute now g.localNode.id).2.nodes.get g.localNode.id = _
  rw [Membership.refute_get, if_pos rfl]
  rfl

/-- A peer that holds a claim against the node takes its refutation over exactly when the
claim stands at the node's own incarnation: the node answers with its own incarnation plus
one, whatever the incarnation of the claim.  The node also has to be in its own membership,
and its incarnation must not wrap. -/
theorem refutation_accepted_iff (g p : Peer) (claim : Node) (now : Time) (rt : Runtime)
    (inProcess : Bool) (snapshot : List Node) (hstate : claim.state ≠ .alive)
    (hge : g.localNode.incarnation ≤ claim.incarnation)
    (hpeer : p.localNode.id ≠ g.localNode.id)
    (hclaim : p.view g.localNode.id = some (claim.state, claim.incarnation))
    (hsnapshot : snapshot.Perm (g.refuteIfSuspected now claim).membership.list) :
    ((p.acceptGossip sum64 rt (delivered inProcess now snapshot)).record
        g.localNode.id).map Node.state = some .alive ↔
      (g.record g.localNode.id).isSome ∧ claim.incarnation = g.localNode.incarnation ∧
        g.localNode.incarnation + 1 ≠ 0 := by
  obtain ⟨held, hheld, hview⟩ := Option.map_eq_some_iff.mp hclaim
  obtain ⟨hheldState, hheldInc⟩ := Prod.mk.inj hview
  have hfilter : (snapshot.filter (fun n => n.id = g.localNode.id)).Perm
      ((g.refuteIfSuspected now claim).record g.localNode.id).toList :=
    (hsnapshot.filter _).trans (List.Perm.of_eq (Keyed.Store.filter_values _ _))
  rw [refuteIfSuspected_record_self hstate hge] at hfilter
  rw [acceptGossip_delivered, acceptGossip_record rt snapshot p (Or.inr (Ne.symm hpeer)), hheld]
  cases hown : g.record g.localNode.id with
  | none =>
      rw [hown] at hfilter
      rw [List.perm_nil.mp hfilter]
      simp [hheldState, hstate]
  | some own =>
      have hown' : own = g.localNode := g.shared own hown
      subst hown'
      rw [hown] at hfilter
      rw [List.perm_singleton.mp hfilter]
      -- One record arrives, and it replaces the held one when its incarnation is greater.
      show (keepGreater Node.incarnation (some held) _).map Node.state = some .alive ↔ _
      have hlt : held.incarnation < g.localNode.incarnation + 1 ↔
          claim.incarnation = g.localNode.incarnation ∧ g.localNode.incarnation + 1 ≠ 0 := by
        rw [hheldInc, UInt64.lt_add_one_iff_machine]
        exact and_congr_left' ⟨fun hle => le_antisymm hle hge, fun heq => heq.le⟩
      rw [keepGreater]
      by_cases hnew : held.incarnation < g.localNode.incarnation + 1
      · rw [if_pos hnew]
        simpa using hlt.mp hnew
      · rw [if_neg hnew]
        simp only [Option.map_some, hheldState, Option.some.injEq, hstate, false_iff,
          Option.isSome_some, true_and]
        exact fun h => hnew (hlt.mpr h)

/-- A node that knows only itself, as `initStandaloneMembership` leaves it without seeds. -/
def standalone (sum64 : List UInt8 → UInt64) (rt : Runtime) (n : Node) : Peer where
  localNode := { n with lastSeen := rt.now }
  membership := (Membership.new 1 defaultVirtualNodes (by decide)).upsert sum64 rt n
  shared := by
    intro n' hn'
    rw [Membership.upsert_get, if_pos rfl] at hn'
    exact (Option.some.inj hn').symm

/-- A node, and a claim against it that a second node believes. -/
def suspected : Peer := standalone (fun _ => 0) {} { id := [97] }

def suspicion (incarnation : UInt64) : Node :=
  { id := [97], state := .suspect, incarnation := incarnation }

def suspecting (incarnation : UInt64) : Peer :=
  (standalone (fun _ => 0) {} { id := [98] }).upsert (fun _ => 0) {} (suspicion incarnation)
    (show ([97] : NodeID) ≠ [98] by decide)

theorem refutation_accepted_at_own_incarnation :
    (((suspecting 1).acceptGossip (fun _ => 0) {} (delivered false 0
      (suspected.refuteIfSuspected 0 (suspicion 1)).membership.list)).record
        suspected.localNode.id).map Node.state = some .alive :=
  (refutation_accepted_iff suspected (suspecting 1) (suspicion 1) 0 {} false _ (by decide)
    (by decide) (by decide) (by decide) (List.Perm.refl _)).mpr (by decide)

/-- Against a claim at incarnation 5 a node at incarnation 1 publishes incarnation 2, and
the peer goes on suspecting it. -/
theorem refutation_ignored_above_own_incarnation :
    (suspected.refuteIfSuspected 0 (suspicion 5)).localNode.incarnation = 2 ∧
      (((suspecting 5).acceptGossip (fun _ => 0) {} (delivered false 0
        (suspected.refuteIfSuspected 0 (suspicion 5)).membership.list)).record
          suspected.localNode.id).map Node.state = some .suspect := by
  decide

/-! ## The order in which snapshots arrive -/

def acceptAll (sum64 : List UInt8 → UInt64) (deliveries : List (Runtime × List Node)) (p : Peer) :
    Peer :=
  deliveries.foldl (fun p d => p.acceptGossip sum64 d.1 d.2) p

/-- What the snapshots say about one node, in order. -/
def claimsAbout (id : NodeID) (snapshots : List (List Node)) : List (Node.State × UInt64) :=
  (snapshots.flatten.filter (fun n => n.id = id)).map (fun n => (n.state, n.incarnation))

theorem acceptGossip_view (rt : Runtime) (nodes : List Node) (p : Peer)
    (h : ∀ n ∈ nodes, n.id ≠ p.localNode.id) (id : NodeID) :
    (p.acceptGossip sum64 rt nodes).view id =
      (claimsAbout id [nodes]).foldl (keepGreater Prod.snd) (p.view id) := by
  rw [view, acceptGossip_record rt nodes p (Or.inl h),
    map_foldl_keepGreater Node.incarnation (fun n => (n.state, n.incarnation)) Prod.snd
      (fun _ => rfl), List.map_map, claimsAbout, List.flatten_singleton]
  rfl

theorem claimsAbout_cons (id : NodeID) (s : List Node) (rest : List (List Node)) :
    claimsAbout id (s :: rest) = claimsAbout id [s] ++ claimsAbout id rest := by
  simp [claimsAbout]

theorem claimsAbout_perm {l l' : List (List Node)} (h : l.Perm l') (id : NodeID) :
    (claimsAbout id l).Perm (claimsAbout id l') :=
  (h.flatten.filter _).map _

theorem mem_claimsAbout {id : NodeID} {snapshots : List (List Node)}
    {c : Node.State × UInt64} :
    c ∈ claimsAbout id snapshots ↔
      ∃ s ∈ snapshots, ∃ n ∈ s, n.id = id ∧ (n.state, n.incarnation) = c := by
  simp [claimsAbout, and_assoc]

theorem acceptAll_view (deliveries : List (Runtime × List Node)) (p : Peer)
    (h : ∀ d ∈ deliveries, ∀ n ∈ d.2, n.id ≠ p.localNode.id) (id : NodeID) :
    (p.acceptAll sum64 deliveries).view id =
      (claimsAbout id (deliveries.map Prod.snd)).foldl (keepGreater Prod.snd) (p.view id) := by
  induction deliveries generalizing p with
  | nil => rfl
  | cons d rest ih =>
      obtain ⟨hd, hrest⟩ := List.forall_mem_cons.mp h
      rw [List.map_cons, claimsAbout_cons, List.foldl_append,
        ← acceptGossip_view d.1 d.2 p hd]
      refine ih (p.acceptGossip sum64 d.1 d.2) ?_
      rw [acceptGossip_localNode_id]
      exact hrest

/-- The claims of greatest incarnation about the node, where the receiver knows only a
lower one, all name one state. -/
def Undisputed (p : Peer) (snapshots : List (List Node)) (id : NodeID) : Prop :=
  ∀ c ∈ claimsAbout id snapshots, ∀ c' ∈ claimsAbout id snapshots, c.2 = c'.2 →
    (∀ d ∈ claimsAbout id snapshots, d.2 ≤ c.2) →
    (∀ d, p.view id = some d → d.2 < c.2) → c.1 = c'.1

/-- A snapshot that lists every node once and carries a claim of greatest incarnation
decides when it comes first. -/
theorem exists_view_of_first (sum64 : List UInt8 → UInt64) {p : Peer}
    {snapshots : List (List Node)} {s : List Node} {c : Node.State × UInt64} {id : NodeID}
    (hother : ∀ s ∈ snapshots, ∀ n ∈ s, n.id ≠ p.localNode.id) (hs : s ∈ snapshots)
    (honce : (s.map Node.id).Nodup) (hc : c ∈ claimsAbout id [s])
    (hmax : ∀ d ∈ claimsAbout id snapshots, d.2 ≤ c.2)
    (habove : ∀ d, p.view id = some d → d.2 < c.2) :
    ∃ σ : List (Runtime × List Node), (σ.map Prod.snd).Perm snapshots ∧
      (p.acceptAll sum64 σ).view id = some c := by
  have hperm : snapshots.Perm (s :: snapshots.erase s) := List.perm_cons_erase hs
  have hsnd : ((s :: snapshots.erase s).map (Prod.mk ({} : Runtime))).map Prod.snd =
      s :: snapshots.erase s := by
    rw [List.map_map]
    exact List.map_id _
  obtain ⟨n, hn, rfl, rfl⟩ : ∃ n ∈ s, n.id = id ∧ (n.state, n.incarnation) = c := by
    simpa [mem_claimsAbout] using hc
  have hfirst : claimsAbout n.id [s] = [(n.state, n.incarnation)] := by
    rw [claimsAbout, List.flatten_singleton, Keyed.filter_key_eq_singleton honce hn]
    rfl
  refine ⟨(s :: snapshots.erase s).map (Prod.mk {}), (List.Perm.of_eq hsnd).trans hperm.symm, ?_⟩
  rw [acceptAll_view]
  · rw [hsnd, claimsAbout_cons, hfirst]
    refine foldl_keepGreater_cons_of_lt Prod.snd habove (fun d hd => hmax d ?_)
    rw [(claimsAbout_perm hperm n.id).mem_iff, claimsAbout_cons]
    exact List.mem_append_right _ hd
  · intro d hd
    obtain ⟨x, hx, rfl⟩ := List.mem_map.mp hd
    exact hother x (hperm.mem_iff.mpr hx)

/-- Whatever the order in which a receiver accepts snapshots about other nodes, it ends with
the same incarnations, and with the same state of every node about which the claims of
greatest incarnation are undisputed.  Where each snapshot lists a node once, a disputed node
does depend on the order. -/
theorem acceptAll_order (p : Peer) (snapshots : List (List Node))
    (hother : ∀ s ∈ snapshots, ∀ n ∈ s, n.id ≠ p.localNode.id) (id : NodeID) :
    (∀ σ τ : List (Runtime × List Node), (σ.map Prod.snd).Perm snapshots →
      (τ.map Prod.snd).Perm snapshots →
        ((p.acceptAll sum64 σ).view id).map Prod.snd =
            ((p.acceptAll sum64 τ).view id).map Prod.snd ∧
          (p.Undisputed snapshots id →
            (p.acceptAll sum64 σ).view id = (p.acceptAll sum64 τ).view id)) ∧
    ((∀ s ∈ snapshots, (s.map Node.id).Nodup) →
      (∀ σ τ : List (Runtime × List Node), (σ.map Prod.snd).Perm snapshots →
        (τ.map Prod.snd).Perm snapshots →
          (p.acceptAll sum64 σ).view id = (p.acceptAll sum64 τ).view id) →
      p.Undisputed snapshots id) := by
  refine ⟨fun σ τ hσ hτ => ?_, fun honce hall c hc c' hc' hrank hmax habove => ?_⟩
  · have hrun : ∀ ρ : List (Runtime × List Node), (ρ.map Prod.snd).Perm snapshots →
        (p.acceptAll sum64 ρ).view id =
          (claimsAbout id (ρ.map Prod.snd)).foldl (keepGreater Prod.snd) (p.view id) := by
      intro ρ hρ
      refine acceptAll_view ρ p (fun d hd => ?_) id
      exact hother d.2 (hρ.mem_iff.mp (List.mem_map_of_mem hd))
    have hperm : (claimsAbout id (σ.map Prod.snd)).Perm (claimsAbout id (τ.map Prod.snd)) :=
      claimsAbout_perm (hσ.trans hτ.symm) id
    have hmem : ∀ d, d ∈ claimsAbout id (σ.map Prod.snd) ↔ d ∈ claimsAbout id snapshots :=
      fun d => (claimsAbout_perm hσ id).mem_iff
    rw [hrun σ hσ, hrun τ hτ]
    refine ⟨foldl_keepGreater_rank_perm Prod.snd hperm _, fun hundisputed => ?_⟩
    apply foldl_keepGreater_perm Prod.snd hperm
    intro a ha b hb hab hmax habove
    refine Prod.ext (hundisputed a ((hmem a).mp ha) b ((hmem b).mp hb) hab ?_ habove) hab
    exact fun d hd => hmax d ((hmem d).mpr hd)
  · obtain ⟨s, hs, hcs⟩ : ∃ s ∈ snapshots, c ∈ claimsAbout id [s] := by
      simpa [mem_claimsAbout] using hc
    obtain ⟨s', hs', hcs'⟩ : ∃ s ∈ snapshots, c' ∈ claimsAbout id [s] := by
      simpa [mem_claimsAbout] using hc'
    obtain ⟨σ, hσ, hview⟩ :=
      exists_view_of_first sum64 hother hs (honce s hs) hcs hmax habove
    rw [hrank] at hmax habove
    obtain ⟨τ, hτ, hview'⟩ :=
      exists_view_of_first sum64 hother hs' (honce s' hs') hcs' hmax habove
    have heq := hall σ τ hσ hτ
    rw [hview, hview', Option.some.injEq] at heq
    rw [heq]

/-- Two snapshots about one node, at the same incarnation unless `tie` is false. -/
def twoClaims (tie : Bool) : List (List Node) :=
  [[{ id := [97], state := .suspect, incarnation := 5 }],
    [{ id := [97], state := .alive, incarnation := if tie then 5 else 6 }]]

theorem twoClaims_about_other (tie : Bool) :
    ∀ s ∈ twoClaims tie, ∀ n ∈ s, n.id ≠ (standalone (fun _ => 0) {} { id := [98] }).localNode.id
    := by
  cases tie <;> decide

theorem acceptAll_order_distinct_incarnations :
    ((standalone (fun _ => 0) {} { id := [98] }).acceptAll (fun _ => 0)
        ((twoClaims false).map (Prod.mk {}))).view [97] =
      ((standalone (fun _ => 0) {} { id := [98] }).acceptAll (fun _ => 0)
        ((twoClaims false).reverse.map (Prod.mk {}))).view [97] := by
  refine ((acceptAll_order _ (twoClaims false) (twoClaims_about_other false) [97]).1
    ((twoClaims false).map (Prod.mk {})) ((twoClaims false).reverse.map (Prod.mk {}))
    (List.Perm.refl _) (List.reverse_perm (twoClaims false))).2 ?_
  unfold Undisputed
  decide

/-- At equal incarnations the first claim to arrive stays. -/
theorem acceptAll_order_matters :
    ((standalone (fun _ => 0) {} { id := [98] }).acceptAll (fun _ => 0)
        ((twoClaims true).map (Prod.mk {}))).view [97] = some (.suspect, 5) ∧
      ((standalone (fun _ => 0) {} { id := [98] }).acceptAll (fun _ => 0)
        ((twoClaims true).reverse.map (Prod.mk {}))).view [97] = some (.alive, 5) := by
  decide

end Peer

end HyperCache
