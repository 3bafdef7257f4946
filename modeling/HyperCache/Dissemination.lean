/-
How a record spreads through gossip.

On a tick a node draws one of the other members and pushes its whole membership to it.  A
claim about a node `x` that no other claim about `x` reaches in incarnation is taken over by
every node it is pushed to and pushed on from there.  `informed` lists the nodes it has come
to.  None of them loses it again, so nodes that are all informed agree about `x`.

The node `x` itself may take part.  It listens to claims about itself only to refute them,
and against lower incarnations it has nothing to refute: this is how a refutation spreads.
-/
import HyperCache.Gossip
import HyperCache.Lib.Pointwise

namespace HyperCache

open LastWriter Keyed Pointwise

/-- What the runtime decides for one tick of `gossipLoop` at `src`: the orders of the two
listings, the draw among the candidates, the peers the transport reaches, and the runtime of
the receiver.  A draw out of range is one that failed. -/
structure GossipTick where
  src : NodeID
  listed : VisitOrder Node := .asStored _
  draw : Nat
  up : NodeID → Bool := fun _ => true
  inProcess : Bool := false
  snapshot : VisitOrder Node := .asStored _
  receivedAt : Time := 0
  runtime : Runtime := {}

namespace GossipTick

/-- The member that `runGossipTick` draws. -/
def target (t : GossipTick) (p : Peer) : Option NodeID :=
  let peers := t.listed.arrange p.membership.list
  if peers.length ≤ 1 then none
  else ((peers.filter (fun n => n.id ≠ p.localNode.id))[t.draw]?).map Node.id

/-- The receiver of the tick, if its push arrives. -/
def receiver (t : GossipTick) (peers : NodeID → Peer) : Option NodeID :=
  (t.target (peers t.src)).filter (fun dst => t.up dst)

/-- `runGossipTick` at the sender and `acceptGossip` at the receiver. -/
def run (sum64 : List UInt8 → UInt64) (peers : NodeID → Peer) (t : GossipTick) :
    NodeID → Peer :=
  match t.receiver peers with
  | none => peers
  | some dst =>
      modify peers dst (fun p => p.acceptGossip sum64 t.runtime
        (Peer.delivered t.inProcess t.receivedAt
          (t.snapshot.arrange (peers t.src).membership.list)))

/-- The nodes a record known at `origins` has come to. -/
def informed (sum64 : List UInt8 → UInt64) :
    (NodeID → Peer) → List GossipTick → List NodeID → List NodeID
  | _, [], origins => origins
  | peers, t :: rest, origins =>
      informed sum64 (run sum64 peers t) rest
        (if t.src ∈ origins then origins ++ (t.receiver peers).toList else origins)

end GossipTick

namespace Peer

variable {sum64 : List UInt8 → UInt64} {x : NodeID} {c : Node.State × UInt64}

/-! ## One receiver -/

/-- A claim about `x` that `c` outranks, or `c` itself. -/
def Yields (c d : Node.State × UInt64) : Prop := d.2 < c.2 ∨ d = c

theorem Yields.le {d : Node.State × UInt64} (h : Yields c d) : d.2 ≤ c.2 := by
  rcases h with h | rfl
  · exact h.le
  · exact le_rfl

/-- What a peer knows about `x` yields to `c`, and `x` itself, where it takes part, is alive at
that incarnation and says so. -/
structure Open (x : NodeID) (c : Node.State × UInt64) (p : Peer) : Prop where
  known : ∀ d, p.view x = some d → Yields c d
  own : p.localNode.id = x → c.1 = .alive ∧ p.view x = some c

theorem Open.incarnation {p : Peer} (hp : p.Open x c) (hself : p.localNode.id = x) :
    p.localNode.incarnation = c.2 := by
  obtain ⟨n, hn, rfl⟩ := Option.map_eq_some_iff.mp (hp.own hself).2
  rw [← hself] at hn
  rw [p.shared n hn]

/-- A node has nothing to refute in a claim that yields to its own record. -/
theorem acceptNode_of_yields {p : Peer} (rt : Runtime) {node : Node} (hp : p.Open x c)
    (hself : p.localNode.id = x) (hid : node.id = x)
    (hnode : Yields c (node.state, node.incarnation)) : p.acceptNode sum64 rt node = p := by
  rw [acceptNode, dif_pos (hid.trans hself.symm), refuteIfSuspected]
  split
  · rfl
  · rename_i hstate
    refine if_pos ?_
    rw [hp.incarnation hself]
    refine hnode.resolve_right (fun heq => hstate ?_)
    rw [← (hp.own hself).1, ← heq]

theorem acceptGossip_self {p : Peer} (rt : Runtime) {nodes : List Node} (hp : p.Open x c)
    (hself : p.localNode.id = x)
    (hnodes : ∀ n ∈ nodes, n.id = x → Yields c (n.state, n.incarnation)) :
    (p.acceptGossip sum64 rt nodes).view x = p.view x := by
  induction nodes generalizing p with
  | nil => rfl
  | cons node rest ih =>
      obtain ⟨hnode, hrest⟩ := List.forall_mem_cons.mp hnodes
      show ((p.acceptNode sum64 rt node).acceptGossip sum64 rt rest).view x = p.view x
      by_cases hid : node.id = x
      · rw [acceptNode_of_yields rt hp hself hid (hnode hid)]
        exact ih hp hself hrest
      · have hlocal : (p.acceptNode sum64 rt node).localNode.id = p.localNode.id :=
          acceptNode_localNode_id rt p node
        have hview : (p.acceptNode sum64 rt node).view x = p.view x := by
          rw [view, acceptNode_record rt p node (.inl (fun h => hid (h.trans hself))), if_neg hid]
          rfl
        have hopen : (p.acceptNode sum64 rt node).Open x c :=
          ⟨fun d hd => hp.known d (hview ▸ hd), fun h => hview ▸ hp.own (hlocal ▸ h)⟩
        rw [ih hopen (hlocal.trans hself) hrest, hview]

/-- A node other than `x` keeps the greatest claim it has seen. -/
theorem acceptGossip_other (p : Peer) (rt : Runtime) (nodes : List Node)
    (hother : p.localNode.id ≠ x) :
    (p.acceptGossip sum64 rt nodes).view x =
      (claimsAbout x [nodes]).foldl (keepGreater Prod.snd) (p.view x) := by
  rw [view, acceptGossip_record rt nodes p (.inr (Ne.symm hother)),
    map_foldl_keepGreater Node.incarnation (fun n => (n.state, n.incarnation)) Prod.snd
      (fun _ => rfl), List.map_map, claimsAbout, List.flatten_singleton]
  rfl

theorem yields_of_mem_claimsAbout {nodes : List Node} {d : Node.State × UInt64}
    (hnodes : ∀ n ∈ nodes, n.id = x → Yields c (n.state, n.incarnation))
    (hd : d ∈ claimsAbout x [nodes]) : Yields c d := by
  obtain ⟨s, hs, n, hn, hid, rfl⟩ := mem_claimsAbout.mp hd
  rw [List.mem_singleton.mp hs] at hn
  exact hnodes n hn hid

variable (sum64) in
/-- After a snapshot whose claims yield to `c`, so does what the receiver knows, and it knows
`c` if it did or if the snapshot says so. -/
theorem acceptGossip_open {p : Peer} (rt : Runtime) {nodes : List Node} (hp : p.Open x c)
    (hnodes : ∀ n ∈ nodes, n.id = x → Yields c (n.state, n.incarnation)) :
    (p.acceptGossip sum64 rt nodes).Open x c ∧
      (p.view x = some c ∨ c ∈ claimsAbout x [nodes] →
        (p.acceptGossip sum64 rt nodes).view x = some c) := by
  have hid : (p.acceptGossip sum64 rt nodes).localNode.id = p.localNode.id :=
    acceptGossip_localNode_id rt nodes p
  by_cases hself : p.localNode.id = x
  · have hview : (p.acceptGossip sum64 rt nodes).view x = p.view x :=
      acceptGossip_self rt hp hself hnodes
    refine ⟨⟨fun d hd => hp.known d (hview ▸ hd), fun _ => hview ▸ hp.own hself⟩, fun _ => ?_⟩
    exact hview.trans (hp.own hself).2
  · have hview : (p.acceptGossip sum64 rt nodes).view x =
        (claimsAbout x [nodes]).foldl (keepGreater Prod.snd) (p.view x) :=
      acceptGossip_other p rt nodes hself
    refine ⟨⟨fun d hd => ?_, fun h => absurd (hid ▸ h) hself⟩, fun hknown => ?_⟩
    · rw [hview] at hd
      obtain ⟨hfrom | hfrom, -, -⟩ := foldl_keepGreater_spec Prod.snd hd
      · exact hp.known d hfrom
      · exact yields_of_mem_claimsAbout hnodes hfrom
    · rw [hview]
      rcases hknown with hknown | hmem
      · rw [hknown]
        exact foldl_keepGreater_of_le Prod.snd
          (fun d hd => (yields_of_mem_claimsAbout hnodes hd).le)
      · cases hfold : (claimsAbout x [nodes]).foldl (keepGreater Prod.snd) (p.view x) with
        | none =>
            rw [(foldl_keepGreater_eq_none Prod.snd hfold).2] at hmem
            cases hmem
        | some d =>
            obtain ⟨hfrom, -, hmax⟩ := foldl_keepGreater_spec Prod.snd hfold
            have hyields : Yields c d := hfrom.elim (hp.known d)
              (yields_of_mem_claimsAbout hnodes)
            exact congrArg some (hyields.resolve_left (not_lt.mpr (hmax c hmem)))

/-! ## One tick -/

theorem view_of_mem_list {p : Peer} {n : Node} (hn : n ∈ p.membership.list) :
    p.view n.id = some (n.state, n.incarnation) := by
  rw [view, record, Store.mem_values.mp hn]
  rfl

theorem mem_claimsAbout_arrange {p : Peer} (order : VisitOrder Node) (hview : p.view x = some c) :
    c ∈ claimsAbout x [order.arrange p.membership.list] := by
  obtain ⟨n, hn, rfl⟩ := Option.map_eq_some_iff.mp hview
  obtain rfl : n.id = x := Store.key_of_get hn
  exact mem_claimsAbout.mpr ⟨_, List.mem_singleton.mpr rfl, n,
    (order.perm _).mem_iff.mpr (Store.mem_values.mpr hn), rfl, rfl⟩

end Peer

namespace GossipTick

variable {sum64 : List UInt8 → UInt64} {x : NodeID} {c : Node.State × UInt64}

variable (sum64) in
/-- A tick leaves every peer open to `c`, takes `c` from nobody, and brings it from an informed
sender to the receiver. -/
theorem run_open {peers : NodeID → Peer} (h : ∀ m, (peers m).Open x c) (t : GossipTick) :
    (∀ m, (run sum64 peers t m).Open x c) ∧
      ∀ m, (peers m).view x = some c ∨
          (t.receiver peers = some m ∧ (peers t.src).view x = some c) →
        (run sum64 peers t m).view x = some c := by
  rw [run]
  cases hdst : t.receiver peers with
  | none =>
      exact ⟨h, fun m hm => hm.resolve_right (fun hno => by cases hno.1)⟩
  | some dst =>
      have hnodes : ∀ n ∈ t.snapshot.arrange (peers t.src).membership.list, n.id = x →
          Peer.Yields c (n.state, n.incarnation) := by
        rintro n hn rfl
        exact (h t.src).known _ (Peer.view_of_mem_list ((t.snapshot.perm _).mem_iff.mp hn))
      have hstep (m : NodeID) := Peer.acceptGossip_open sum64 t.runtime (h m) hnodes
      refine ⟨fun m => ?_, fun m hm => ?_⟩
      · dsimp only
        rw [modify_apply, Peer.acceptGossip_delivered]
        split
        · exact (hstep m).1
        · exact h m
      · dsimp only
        rw [modify_apply, Peer.acceptGossip_delivered]
        split
        · refine (hstep m).2 (hm.imp_right (fun hsrc => ?_))
          exact Peer.mem_claimsAbout_arrange t.snapshot hsrc.2
        · rename_i hne
          exact hm.resolve_right (fun hsrc => hne (Option.some.inj hsrc.1).symm)

/-! ## Any number of ticks -/

/-- A claim about `x` to which everything known about `x` yields, and which `x` makes itself if it
takes part, is known, after any sequence of ticks, at every node it was pushed to along the ticks
from a node that knew it. -/
theorem gossip_spreads {peers : NodeID → Peer} (h : ∀ m, (peers m).Open x c)
    (ticks : List GossipTick) {origins : List NodeID}
    (horigins : ∀ m ∈ origins, (peers m).view x = some c) :
    ∀ m ∈ informed sum64 peers ticks origins,
      (ticks.foldl (run sum64) peers m).view x = some c := by
  induction ticks generalizing peers origins with
  | nil => exact horigins
  | cons t rest ih =>
      obtain ⟨hopen, hview⟩ := run_open sum64 h t
      refine ih hopen (fun m hm => hview m ?_)
      split at hm
      · rename_i hsrc
        rcases List.mem_append.mp hm with hm | hm
        · exact .inl (horigins m hm)
        · exact .inr ⟨Option.mem_toList.mp hm, horigins t.src hsrc⟩
      · exact .inl (horigins m hm)

/-- A peer alone in its view, which then upserts the records of other nodes. -/
def knowing (self : Node) (others : List Node) : Peer :=
  others.foldl (fun p m =>
      if h : m.id ≠ p.localNode.id then p.upsert (fun _ => 0) {} m h else p)
    (Peer.standalone (fun _ => 0) {} self)

/-- The node `a` has refuted a suspicion and is alive at incarnation 2.  It knows `b`, and `b`
knows `c`.  Both still suspect `a` at incarnation 1. -/
def refuted : NodeID → Peer := fun n =>
  if n = [97] then knowing { id := [97], incarnation := 2 } [{ id := [98] }]
  else if n = [98] then knowing { id := [98] } [{ id := [99] }, Peer.suspicion 1]
  else knowing { id := [99] } [Peer.suspicion 1]

theorem open_refuted (m : NodeID) : (refuted m).Open [97] (.alive, 2) := by
  have hopen : ∀ p : Peer, p.localNode.id ≠ [97] → p.view [97] = some (.suspect, 1) →
      p.Open [97] (.alive, 2) := by
    intro p hid hview
    refine ⟨fun d hd => .inl ?_, fun h => absurd h hid⟩
    rw [← Option.some.inj (hview.symm.trans hd)]
    decide
  unfold refuted
  split
  · exact ⟨fun d hd => .inr (Option.some.inj hd).symm, fun _ => ⟨rfl, by decide⟩⟩
  · split
    · exact hopen _ (by decide) (by decide)
    · exact hopen _ (by decide) (by decide)

/-- A push from `a` to `b` and one from `b` to `c` clear the suspicion everywhere. -/
theorem gossip_spreads_refutation :
    let ticks : List GossipTick := [{ src := [97], draw := 0 }, { src := [98], draw := 1 }]
    informed (fun _ => 0) refuted ticks [[97]] = [[97], [98], [99]] ∧
      ∀ m ∈ informed (fun _ => 0) refuted ticks [[97]],
        (ticks.foldl (run (fun _ => 0)) refuted m).view [97] = some (.alive, 2) := by
  intro ticks
  refine ⟨by decide, gossip_spreads open_refuted ticks (fun m hm => ?_)⟩
  rw [List.mem_singleton.mp hm]
  decide

end GossipTick

end HyperCache
