/-
One pass over a node's hints as the node sees it.

`World.replayHints` runs a pass against the other nodes of a cluster.  Here the replies
to the single `ForwardSet` calls are arbitrary, and a history variable lists the calls.
The source filters each queue in place, over the array it is iterating.
-/
import HyperCache.Lib.InPlace
import HyperCache.Lib.Keyed
import HyperCache.Replay

namespace HyperCache

open InPlace Keyed Pointwise

/-- Whether the `ForwardSet` for the hint at an index of a peer's queue succeeds. -/
abbrev Deliveries := NodeID → Nat → Bool

abbrev HintQueue (V : Type) := Sigma fun _ : NodeID => List (HintedEntry V)

/-- `attempts` lists the `ForwardSet` calls made, each with the peer, the hint and the
hint's index in the peer's queue. -/
structure HintPass (V : Type) where
  hints : HintStore V
  attempts : List (NodeID × HintedEntry V × Nat) := []

namespace HintPass

variable {V : Type}

/-- `processHint`.  The result says whether the hint leaves the queue. -/
def processHint (now : Time) (transport : Option Deliveries) (peer : NodeID) (i : Nat)
    (entry : HintedEntry V) (p : HintPass V) : HintPass V × Bool :=
  if now > entry.expire then ({ p with hints := p.hints.noteExpired entry }, true)
  else
    match transport with
    | none => (p, false)
    | some delivers =>
        let p := { p with attempts := p.attempts ++ [(peer, entry, i)] }
        if delivers peer i then ({ p with hints := p.hints.noteReplayed entry }, true)
        else (p, false)

/-- The body of the inner loop of `replayHints`. -/
def visitHint (now : Time) (transport : Option Deliveries) (peer : NodeID) (i : Nat)
    (entry : HintedEntry V) (p : HintPass V) : HintPass V × Bool :=
  match processHint now transport peer i entry p with
  | (p, true) => ({ p with hints := p.hints.adjustHintAccounting (-1) (-entry.size) }, true)
  | (p, false) => (p, false)

/-- The body of the outer loop. -/
def replayQueue (now : Time) (transport : Option Deliveries) (p : HintPass V)
    (q : HintQueue V) : HintPass V :=
  let (out, p) := filterInPlace (visitHint now transport q.1) q.2 p
  { p with hints := p.hints.storeQueue q.1 out }

def replayHints (now : Time) (transport : Option Deliveries) (order : VisitOrder (HintQueue V))
    (hs : HintStore V) : HintPass V :=
  match transport with
  | none => { hints := hs }
  | some delivers =>
      (order.arrange hs.queues.entries).foldl (replayQueue now (some delivers)) { hints := hs }

/-- The calls made to one peer. -/
def attemptsTo (peer : NodeID) (p : HintPass V) : List (HintedEntry V × Nat) :=
  p.attempts.filterMap (fun a => if a.1 = peer then some a.2 else none)

/-! ## What happens to one hint -/

def live (now : Time) (e : HintedEntry V × Nat) : Bool := decide (now ≤ e.1.expire)

def undelivered (now : Time) (delivers : Deliveries) (peer : NodeID)
    (e : HintedEntry V × Nat) : Bool :=
  live now e && !delivers peer e.2

/-- A hint leaves with one of the two counters raised and its share taken off the
accounting, or stays and changes nothing. -/
def settle (now : Time) (entry : HintedEntry V) (hs : HintStore V) : HintStore V :=
  (if now > entry.expire then hs.noteExpired entry else hs.noteReplayed entry).adjustHintAccounting
    (-1) (-entry.size)

theorem visitHint_eq (now : Time) (delivers : Deliveries) (peer : NodeID) (i : Nat)
    (entry : HintedEntry V) (p : HintPass V) :
    visitHint now (some delivers) peer i entry p =
      ({ hints := if undelivered now delivers peer (entry, i) then p.hints
          else settle now entry p.hints
         attempts := p.attempts ++ if live now (entry, i) then [(peer, entry, i)] else [] },
        !undelivered now delivers peer (entry, i)) := by
  by_cases hexp : now > entry.expire
  · have hlive : ¬ now ≤ entry.expire := not_le.mpr hexp
    simp [visitHint, processHint, undelivered, live, settle, hexp, hlive]
  · have hlive : now ≤ entry.expire := not_lt.mp hexp
    have hnot : ¬ entry.expire < now := hexp
    cases hd : delivers peer i <;>
      simp [visitHint, processHint, undelivered, live, settle, hlive, hnot, hd]

theorem settle_queues (now : Time) (entry : HintedEntry V) (hs : HintStore V) :
    (settle now entry hs).queues = hs.queues := by
  unfold settle
  split <;> rfl

theorem foldl_settle_queues (now : Time) (left : List (HintedEntry V)) (hs : HintStore V) :
    (left.foldl (fun hs entry => settle now entry hs) hs).queues = hs.queues := by
  induction left generalizing hs with
  | nil => rfl
  | cons entry rest ih => exact (ih _).trans (settle_queues now entry hs)

/-! ## One queue -/

section

variable (now : Time) (delivers : Deliveries) (peer : NodeID)

theorem sift_cons (i : Nat) (entry : HintedEntry V) (rest : List (HintedEntry V))
    (p : HintPass V) :
    sift (visitHint now (some delivers) peer) i (entry :: rest) p =
      let p' := (visitHint now (some delivers) peer i entry p).1
      let later := sift (visitHint now (some delivers) peer) (i + 1) rest p'
      if undelivered now delivers peer (entry, i) then (entry :: later.1, later.2) else later := by
  rw [sift, visitHint_eq]
  cases undelivered now delivers peer (entry, i) <;> rfl

theorem sift_kept (queue : List (HintedEntry V)) (i : Nat) (p : HintPass V) :
    (sift (visitHint now (some delivers) peer) i queue p).1 =
      ((queue.zipIdx i).filter (undelivered now delivers peer)).map Prod.fst := by
  induction queue generalizing i p with
  | nil => rfl
  | cons entry rest ih =>
      rw [sift_cons, List.zipIdx_cons, List.filter_cons]
      dsimp only
      split
      · rw [List.map_cons, ih]
      · exact ih _ _

theorem sift_attempts (queue : List (HintedEntry V)) (i : Nat) (p : HintPass V) :
    (sift (visitHint now (some delivers) peer) i queue p).2.attempts =
      p.attempts ++ ((queue.zipIdx i).filter (live now)).map (fun e => (peer, e)) := by
  induction queue generalizing i p with
  | nil => simp [sift]
  | cons entry rest ih =>
      have hlater : (sift (visitHint now (some delivers) peer) i (entry :: rest) p).2.attempts =
          (sift (visitHint now (some delivers) peer) (i + 1) rest
            (visitHint now (some delivers) peer i entry p).1).2.attempts := by
        rw [sift_cons]
        dsimp only
        split <;> rfl
      rw [hlater, ih, visitHint_eq, List.zipIdx_cons, List.filter_cons]
      cases live now (entry, i) <;> simp

/-- The hints that leave are settled one after the other. -/
theorem sift_hints (queue : List (HintedEntry V)) (i : Nat) (p : HintPass V) :
    (sift (visitHint now (some delivers) peer) i queue p).2.hints =
      (((queue.zipIdx i).filter (fun e => !undelivered now delivers peer e)).map Prod.fst).foldl
        (fun hs entry => settle now entry hs) p.hints := by
  induction queue generalizing i p with
  | nil => rfl
  | cons entry rest ih =>
      rw [sift_cons, visitHint_eq, List.zipIdx_cons, List.filter_cons]
      cases undelivered now delivers peer (entry, i) with
      | true => exact ih _ _
      | false => exact ih _ _

theorem sift_queues (queue : List (HintedEntry V)) (i : Nat) (p : HintPass V) :
    (sift (visitHint now (some delivers) peer) i queue p).2.hints.queues = p.hints.queues := by
  rw [sift_hints]
  exact foldl_settle_queues now _ p.hints

end

theorem lookup_storeQueue (hs : HintStore V) (peer k : NodeID) (out : List (HintedEntry V)) :
    (hs.storeQueue peer out).queues.lookup k =
      if k = peer then (if out.isEmpty then none else some out) else hs.queues.lookup k := by
  rw [HintStore.storeQueue]
  dsimp only
  by_cases hk : k = peer
  · subst hk
    rw [if_pos rfl]
    split
    · exact AList.lookup_erase _ _
    · exact AList.lookup_insert _
  · rw [if_neg hk]
    split
    · exact AList.lookup_erase_ne hk
    · exact AList.lookup_insert_ne hk

theorem attemptsTo_of_eq_append {p p' : HintPass V} {peer : NodeID}
    {calls : List (HintedEntry V × Nat)}
    (h : p'.attempts = p.attempts ++ calls.map (fun e => (peer, e))) (k : NodeID) :
    p'.attemptsTo k = if k = peer then p.attemptsTo k ++ calls else p.attemptsTo k := by
  rw [attemptsTo, attemptsTo, h, List.filterMap_append, List.filterMap_map]
  by_cases hk : k = peer
  · subst hk
    simp
  · have hne : peer ≠ k := fun heq => hk heq.symm
    simp [hk, hne]

/-- What a pass leaves of a queue. -/
def remaining (now : Time) (delivers : Deliveries) (peer : NodeID)
    (queue : List (HintedEntry V)) : List (HintedEntry V) :=
  (queue.zipIdx.filter (undelivered now delivers peer)).map Prod.fst

/-- A node's entry in the map and the calls made to it, which the visits of the other
nodes leave alone. -/
def seen (p : HintPass V) (peer : NodeID) :
    Option (List (HintedEntry V)) × List (HintedEntry V × Nat) :=
  (p.hints.queues.lookup peer, p.attemptsTo peer)

/-- The visit of a node as it is seen there. -/
def visited (now : Time) (delivers : Deliveries) (peer : NodeID) (queue : List (HintedEntry V))
    (s : Option (List (HintedEntry V)) × List (HintedEntry V × Nat)) :
    Option (List (HintedEntry V)) × List (HintedEntry V × Nat) :=
  (if (remaining now delivers peer queue).isEmpty then none
    else some (remaining now delivers peer queue),
    s.2 ++ queue.zipIdx.filter (live now))

theorem seen_replayQueue (now : Time) (delivers : Deliveries) (p : HintPass V)
    (q : HintQueue V) (k : NodeID) :
    (replayQueue now (some delivers) p q).seen k =
      if k = q.1 then visited now delivers k q.2 (p.seen k) else p.seen k := by
  have hlookup : (replayQueue now (some delivers) p q).hints.queues.lookup k =
      if k = q.1 then (if (remaining now delivers q.1 q.2).isEmpty then none
        else some (remaining now delivers q.1 q.2)) else p.hints.queues.lookup k := by
    rw [replayQueue, filterInPlace_eq]
    dsimp only
    rw [lookup_storeQueue, sift_queues, sift_kept]
    rfl
  have hattempts : (replayQueue now (some delivers) p q).attemptsTo k =
      if k = q.1 then p.attemptsTo k ++ q.2.zipIdx.filter (live now) else p.attemptsTo k := by
    refine attemptsTo_of_eq_append ?_ k
    rw [replayQueue, filterInPlace_eq]
    exact sift_attempts now delivers q.1 q.2 0 p
  rw [seen, hlookup, hattempts, seen]
  by_cases hk : k = q.1
  · subst hk
    simp only [if_true, visited]
  · simp only [hk, if_false]

/-! ## A whole pass -/

theorem nodupKeys_arrange (order : VisitOrder (HintQueue V)) (hs : HintStore V) :
    (order.arrange hs.queues.entries).NodupKeys :=
  (List.perm_nodupKeys (order.perm _)).mpr hs.queues.nodupKeys

theorem dlookup_arrange (order : VisitOrder (HintQueue V)) (hs : HintStore V) (peer : NodeID) :
    (order.arrange hs.queues.entries).dlookup peer = hs.queues.lookup peer :=
  List.perm_dlookup peer (nodupKeys_arrange order hs) (order.perm _)

theorem seen_replayHints (now : Time) (delivers : Deliveries) (order : VisitOrder (HintQueue V))
    (hs : HintStore V) (peer : NodeID) :
    (replayHints now (some delivers) order hs).seen peer =
      visited now delivers peer (hs.queue peer) (none, []) := by
  have h := Keyed.foldl_visit_apply (g := visited now delivers) (seen_replayQueue now delivers)
    (nodupKeys_arrange order hs) { hints := hs } peer
  rw [dlookup_arrange] at h
  rw [replayHints, h, HintStore.queue]
  cases hq : hs.queues.lookup peer with
  | none => simp [seen, hq, visited, remaining, attemptsTo]
  | some queue => rfl

theorem lookup_replayHints (now : Time) (delivers : Deliveries)
    (order : VisitOrder (HintQueue V)) (hs : HintStore V) (peer : NodeID) :
    (replayHints now (some delivers) order hs).hints.queues.lookup peer =
      if (remaining now delivers peer (hs.queue peer)).isEmpty then none
      else some (remaining now delivers peer (hs.queue peer)) :=
  congrArg Prod.fst (seen_replayHints now delivers order hs peer)

theorem queue_replayHints (now : Time) (delivers : Deliveries) (order : VisitOrder (HintQueue V))
    (hs : HintStore V) (peer : NodeID) :
    (replayHints now (some delivers) order hs).hints.queue peer =
      remaining now delivers peer (hs.queue peer) := by
  rw [HintStore.queue, lookup_replayHints]
  split
  case isTrue hempty => exact (List.isEmpty_iff.mp hempty).symm
  case isFalse => rfl

/-- After a pass with a transport a node's queue holds exactly the unexpired hints whose
delivery failed, in their order.  The calls to the node were one for each unexpired hint,
in queue order, and none for an expired one.  A node has an entry exactly when its queue
is not empty. -/
theorem replayHints_pass (now : Time) (delivers : Deliveries) (order : VisitOrder (HintQueue V))
    (hs : HintStore V) (peer : NodeID) :
    let p := replayHints now (some delivers) order hs
    p.hints.queue peer =
        ((hs.queue peer).zipIdx.filter
          (fun e => decide (now ≤ e.1.expire) && !delivers peer e.2)).map Prod.fst ∧
      p.attemptsTo peer = (hs.queue peer).zipIdx.filter (fun e => decide (now ≤ e.1.expire)) ∧
      (peer ∈ p.hints.queues ↔ p.hints.queue peer ≠ []) := by
  intro p
  have hqueue : p.hints.queue peer = remaining now delivers peer (hs.queue peer) :=
    queue_replayHints now delivers order hs peer
  have hcalls := congrArg Prod.snd (seen_replayHints now delivers order hs peer)
  refine ⟨hqueue, hcalls, ?_⟩
  rw [← AList.lookup_isSome, lookup_replayHints, hqueue]
  split
  case isTrue hempty => simp [List.isEmpty_iff.mp hempty]
  case isFalse hne => simpa [List.isEmpty_iff] using hne

end HintPass

/-! ## The pass against a cluster -/

namespace World

variable {V : Type} (C : Cluster) (net : Net)

theorem hints_forwardReplica (dst : NodeID) (item : Item V) (w : World V) (m : NodeID) :
    ((forwardReplica C net dst item w).1 m).hints = (w m).hints := by
  rw [forwardReplica]
  split
  · show (modify w dst _ m).hints = _
    rw [modify_apply]
    split
    · rw [NodeState.applyForwardedSet]
      split <;> rfl
    · rfl
  · rfl

theorem hints_modifyHints (n : NodeID) (f : HintStore V → HintStore V) (w : World V) :
    (modifyHints n f w n).hints = f (w n).hints := by
  rw [modifyHints, modify_self]

/-- What a peer that is reached or not answers to every call. -/
def deliveries : Deliveries := fun peer _ => net.up peer

theorem hints_processHint {n : NodeID} (ht : (C.cfg n).hasTransport = true) (peer : NodeID)
    (entry : HintedEntry V) (i : Nat) {w : World V} {p : HintPass V}
    (hp : p.hints = (w n).hints) :
    let r := processHint C net n peer entry w
    let r' := HintPass.processHint net.now (some (deliveries net)) peer i entry p
    (r.1 n).hints = r'.1.hints ∧ r.2 = r'.2 := by
  have hforward := hints_forwardReplica C net peer entry.item w n
  unfold processHint HintPass.processHint
  split
  · exact ⟨by rw [hints_modifyHints, hp], rfl⟩
  · rw [forwardReplica] at hforward ⊢
    cases hup : net.up peer with
    | false => simp [ht, deliveries, hup, hp]
    | true =>
        simp only [hup, if_true] at hforward
        simp [ht, deliveries, hup, hp, hints_modifyHints, hforward]

theorem hints_replayQueue {n : NodeID} (ht : (C.cfg n).hasTransport = true) (peer : NodeID)
    (queue : List (HintedEntry V)) (i : Nat) {w : World V} {p : HintPass V}
    (hp : p.hints = (w n).hints) :
    let r := replayQueue C net n peer queue w
    let r' := sift (HintPass.visitHint net.now (some (deliveries net)) peer) i queue p
    (r.1 n).hints = r'.2.hints ∧ r.2 = r'.1 := by
  induction queue generalizing i w p with
  | nil => exact ⟨hp.symm, rfl⟩
  | cons entry rest ih =>
      obtain ⟨hhints, hleft⟩ := hints_processHint C net ht peer entry i hp
      rw [replayQueue, sift, HintPass.visitHint]
      revert hhints hleft
      rcases processHint C net n peer entry w with ⟨w', left⟩
      rcases HintPass.processHint net.now (some (deliveries net)) peer i entry p with ⟨p', left'⟩
      rintro hhints (rfl : left = left')
      cases left with
      | true => exact ih (i + 1) (by rw [hints_modifyHints, hhints])
      | false =>
          obtain ⟨hlater, hout⟩ := ih (i + 1) hhints.symm
          exact ⟨hlater, congrArg (entry :: ·) hout⟩

theorem hints_foldl_replayQueue {n : NodeID} (ht : (C.cfg n).hasTransport = true)
    (queues : List (HintQueue V)) {w : World V} {p : HintPass V} (hp : p.hints = (w n).hints) :
    (queues.foldl
        (fun w q =>
          let (w, out) := replayQueue C net n q.1 q.2 w
          modifyHints n (·.storeQueue q.1 out) w) w n).hints =
      (queues.foldl (HintPass.replayQueue net.now (some (deliveries net))) p).hints := by
  induction queues generalizing w p with
  | nil => exact hp.symm
  | cons q rest ih =>
      obtain ⟨hhints, hout⟩ := hints_replayQueue C net ht q.1 q.2 0 hp
      rw [List.foldl_cons, List.foldl_cons]
      refine ih ?_
      rw [HintPass.replayQueue, filterInPlace_eq]
      dsimp only
      rw [hints_modifyHints, hhints, hout]

/-- Against a cluster, a node's hints change as in a pass whose calls succeed exactly
for the peers that are up. -/
theorem hints_replayHints (n : NodeID) (w : World V) :
    (replayHints C net n w n).hints =
      (HintPass.replayHints net.now
        (if (C.cfg n).hasTransport then some (deliveries net) else none) (.asStored _)
        (w n).hints).hints := by
  rw [replayHints]
  cases ht : (C.cfg n).hasTransport with
  | false => rfl
  | true => exact hints_foldl_replayQueue C net ht _ rfl

end World

end HyperCache
