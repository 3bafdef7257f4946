/-
The transport interface, its two implementations and the wrapper that injects
faults.

`DistTransport` is the interface.  The in-process transport calls the receiving
node directly and the HTTP transport goes through the node's server.  What the
receiver does is the same in both, and a forwarded call with `replicate = true`
makes it call on with its own transport, so the implementations are given by a
`Receiver`.  The inner calls ask for no replication, and `leaf` is the receiver
they meet.

`Stored` is what the transport slot of a node holds.  The code can ask a stored
transport for its concrete type, and an interface value does not tell: functions
that only use the methods take a `DistTransport`.

A rate of the source is a float.  Here it is a rational between zero and one, as
`SetDropRate` and `SetLatency` leave it.
-/
import HyperCache.AntiEntropy
import HyperCache.Gossip
import HyperCache.HTTPTransport

namespace HyperCache

open Pointwise

variable {V : Type}

/-! ## Injected faults -/

/-- What a call through a transport fails with. -/
inductive CallErr where
  | node (err : Err)
  | http (err : HTTPErr)
  | badPattern
  | chaosDrop
  deriving DecidableEq, Repr

/-- `errors.Is(err, ErrBackendNotFound)`. -/
def CallErr.isBackendNotFound : CallErr → Bool
  | .node .backendNotFound => true
  | .http .backendNotFound => true
  | _ => false

/-- A probability as the setters of `Chaos` clamp it. -/
structure Rate where
  value : Rat
  nonneg : 0 ≤ value
  le_one : value ≤ 1

def Rate.clamp (p : Rat) : Rate where
  value := if p < 0 then 0 else if p > 1 then 1 else p
  nonneg := by
    split
    · exact Rat.le_refl
    · split
      · decide
      · exact Rat.not_lt.mp ‹_›
  le_one := by
    split
    · decide
    · split
      · exact Rat.le_refl
      · exact Rat.not_lt.mp ‹_›

/-- `NewChaos` injects nothing.  `rolls` is the sequence of numbers its generator gives. -/
structure Chaos where
  dropRate : Rate := .clamp 0
  latencyNs : Int := 0
  latencyRate : Rate := .clamp 0
  rolls : Nat → Rat := fun _ => 0

/-- What a `Chaos` has counted so far, and how long it made calls sleep. -/
structure ChaosLog where
  rolled : Nat := 0
  drops : Nat := 0
  latencies : Nat := 0
  slept : Int := 0

namespace Chaos

def setDropRate (p : Rat) (c : Chaos) : Chaos := { c with dropRate := .clamp p }

def setLatency (d : Duration) (rate : Rat) (c : Chaos) : Chaos :=
  { c with latencyNs := d, latencyRate := .clamp rate }

def maybeDrop (c : Chaos) (l : ChaosLog) : ChaosLog × Option CallErr :=
  if c.dropRate.value ≤ 0 then (l, none)
  else if c.rolls l.rolled < c.dropRate.value then
    ({ l with rolled := l.rolled + 1, drops := l.drops + 1 }, some .chaosDrop)
  else ({ l with rolled := l.rolled + 1 }, none)

def maybeLatency (c : Chaos) (l : ChaosLog) : ChaosLog :=
  if c.latencyRate.value ≤ 0 then l
  else if c.latencyNs ≤ 0 then l
  else if c.rolls l.rolled < c.latencyRate.value then
    { l with
      rolled := l.rolled + 1
      latencies := l.latencies + 1
      slept := l.slept + c.latencyNs }
  else { l with rolled := l.rolled + 1 }

def applyFault (c : Chaos) (l : ChaosLog) : ChaosLog × Option CallErr :=
  match c.maybeDrop l with
  | (l, some e) => (l, some e)
  | (l, none) => (c.maybeLatency l, none)

/-- Both rates are zero. -/
def Idle (c : Chaos) : Prop := c.dropRate.value = 0 ∧ c.latencyRate.value = 0

theorem applyFault_of_idle {c : Chaos} (h : c.Idle) (l : ChaosLog) :
    c.applyFault l = (l, none) := by
  have hdrop : c.maybeDrop l = (l, none) := if_pos (h.1 ▸ Rat.le_refl)
  have hlatency : c.maybeLatency l = l := if_pos (h.2 ▸ Rat.le_refl)
  rw [applyFault, hdrop]
  dsimp only
  rw [hlatency]

end Chaos

/-! ## The interface -/

/-- The nodes, what they believe about each other, and the logs of the fault injectors. -/
structure Running (V : Type) where
  nodes : World V
  peers : NodeID → Peer
  logs : Nat → ChaosLog

namespace Running

def modify (s : Running V) (n : NodeID) (f : NodeState V → NodeState V) : Running V :=
  { s with nodes := Pointwise.modify s.nodes n f }

def modifyPeer (s : Running V) (n : NodeID) (f : Peer → Peer) : Running V :=
  { s with peers := Pointwise.modify s.peers n f }

end Running

abbrev Request (V α : Type) := Running V → Running V × Except CallErr α

/-- `DistTransport`. -/
structure DistTransport (V : Type) where
  forwardSet : NodeID → Item V → Bool → Request V Unit
  forwardGet : NodeID → Key → Request V (Option (Item V))
  forwardRemove : NodeID → Key → Bool → Request V Unit
  health : NodeID → Request V Unit
  indirectHealth : NodeID → NodeID → Request V Unit
  gossip : NodeID → List GossipMember → Request V Unit
  fetchMerkle : NodeID → Request V MerkleTree
  listKeys : NodeID → Str → Request V (List Key)

/-- What a node does with a call that reaches it: a set, a remove, and a probe of another
node on behalf of the caller. -/
structure Receiver (V : Type) where
  applyForwardedSet : NodeID → Item V → Bool → Running V → Running V
  applyRemove : NodeID → Key → Bool → Running V → Running V
  probe : NodeID → NodeID → Request V Unit

/-- The request behind the wrapper of the fault injector number `i`. -/
def Chaos.wrap {α : Type} (c : Chaos) (i : Nat) (r : Request V α) : Request V α := fun s =>
  match c.applyFault (s.logs i) with
  | (l, some e) => ({ s with logs := Function.update s.logs i l }, .error e)
  | (l, none) => r { s with logs := Function.update s.logs i l }

/-- Every method of `chaosTransport` applies the fault and then calls the inner method. -/
def chaosTransport (c : Chaos) (i : Nat) (inner : DistTransport V) : DistTransport V where
  forwardSet dst item replicate := c.wrap i (inner.forwardSet dst item replicate)
  forwardGet dst key := c.wrap i (inner.forwardGet dst key)
  forwardRemove dst key replicate := c.wrap i (inner.forwardRemove dst key replicate)
  health dst := c.wrap i (inner.health dst)
  indirectHealth relay target := c.wrap i (inner.indirectHealth relay target)
  gossip dst members := c.wrap i (inner.gossip dst members)
  fetchMerkle dst := c.wrap i (inner.fetchMerkle dst)
  listKeys dst pattern := c.wrap i (inner.listKeys dst pattern)

theorem Chaos.wrap_of_idle {α : Type} {c : Chaos} (h : c.Idle) (i : Nat) (r : Request V α) :
    c.wrap i r = r := by
  funext s
  rw [wrap, applyFault_of_idle h]
  dsimp only
  rw [Function.update_eq_self]

theorem chaosTransport_of_idle {c : Chaos} (h : c.Idle) (i : Nat) (t : DistTransport V) :
    chaosTransport c i t = t := by
  simp only [chaosTransport, Chaos.wrap_of_idle h]

/-! ## Listing keys -/

/-- The bytes `*`, `?` and `[`. -/
def keyGlobMetacharacters : List UInt8 := [42, 63, 91]

/-- `buildKeyMatcher`, which fails on a malformed glob.  `glob` is `path.Match`. -/
def buildKeyMatcher (glob : Str → Key → Option Bool) (pattern : Str) : Option (Key → Bool) :=
  if pattern = [] then some (fun _ => true)
  else if !pattern.any keyGlobMetacharacters.contains then
    some (fun k => pattern.isPrefixOf k)
  else
    match glob pattern [] with
    | none => none
    | some _ => some (fun k => (glob pattern k).getD false)

/-- `keysPageResp`, with no cursor for the empty one. -/
structure KeysPage where
  keys : List Key
  nextCursor : Option Nat
  truncated : Bool := false

def collectShardKeys (shard : List Key) (limit : Nat) (matcher : Key → Bool) :
    List Key × Bool :=
  let out := shard.filter matcher
  if limit > 0 ∧ out.length > limit then (out.take limit, true) else (out, false)

/-- `handleKeys`.  A shard is the list of its keys, and there is none where the pointer is
nil. -/
def handleKeys (shards : List (Option (List Key))) (matcher : Key → Bool) (limit : Nat)
    (cursor : Option Nat) : KeysPage :=
  let index := cursor.getD 0
  match shards[index]? with
  | none => { keys := [], nextCursor := none }
  | some none => { keys := [], nextCursor := some (index + 1) }
  | some (some shard) =>
      let (keys, truncated) := collectShardKeys shard limit matcher
      { keys := keys
        nextCursor :=
          if truncated then some index
          else if index + 1 < shards.length then some (index + 1)
          else none
        truncated := truncated }

/-- The loop of `DistHTTPTransport.ListKeys`, over the pages it is served. -/
def walkKeys (page : Option Nat → KeysPage) : Nat → Option Nat → List Key → List Key
  | 0, _, all => all
  | rounds + 1, cursor, all =>
      let p := page cursor
      match p.nextCursor with
      | none => all ++ p.keys
      | some next =>
          if cursor = some next then all ++ p.keys
          else walkKeys page rounds (some next) (all ++ p.keys)

def safetyLimit : Nat := 1024

theorem mem_of_mem_collectShardKeys {shard : List Key} {limit : Nat} {matcher : Key → Bool}
    {key : Key} (h : key ∈ (collectShardKeys shard limit matcher).1) : key ∈ shard := by
  unfold collectShardKeys at h
  dsimp only at h
  split at h
  · exact List.mem_of_mem_filter (List.mem_of_mem_take h)
  · exact List.mem_of_mem_filter h

theorem mem_of_mem_handleKeys {shards : List (Option (List Key))} {matcher : Key → Bool}
    {limit : Nat} {cursor : Option Nat} {key : Key}
    (h : key ∈ (handleKeys shards matcher limit cursor).keys) :
    key ∈ shards.flatMap (·.getD []) := by
  unfold handleKeys at h
  dsimp only at h
  split at h
  · exact absurd h List.not_mem_nil
  · exact absurd h List.not_mem_nil
  · rename_i shard hshard
    exact List.mem_flatMap.mpr
      ⟨some shard, List.mem_of_getElem? hshard, mem_of_mem_collectShardKeys h⟩

/-- A walk lists what it started with and keys of pages. -/
theorem mem_of_mem_walkKeys {page : Option Nat → KeysPage} {P : Key → Prop}
    (hpage : ∀ cursor, ∀ key ∈ (page cursor).keys, P key) {rounds : Nat} {cursor : Option Nat}
    {all : List Key} (hall : ∀ key ∈ all, P key) :
    ∀ key ∈ walkKeys page rounds cursor all, P key := by
  induction rounds generalizing cursor all with
  | zero => exact hall
  | succ rounds ih =>
      have happend : ∀ key ∈ all ++ (page cursor).keys, P key := fun key hkey =>
        (List.mem_append.mp hkey).elim (hall key) (hpage cursor key)
      rw [walkKeys]
      split
      · exact happend
      · split
        · exact happend
        · exact ih happend

/-! ## Implementations -/

/-- A transport without a wrapper. -/
inductive Wire where
  | inProcess
  | http
  deriving DecidableEq, Repr

/-- The transport slot of a node, with wrappers by the number of their fault injector. -/
inductive Stored where
  | bare (wire : Wire)
  | chaos (i : Nat) (inner : Stored)
  deriving DecidableEq, Repr

def newChaosTransport (inner : Stored) : Option Nat → Stored
  | none => inner
  | some i => .chaos i inner

/-- `storeTransport` on a node with the given `Chaos`. -/
def storeTransport (chaos : Option Nat) : Stored → Stored
  | .chaos i inner => .chaos i inner
  | .bare wire => newChaosTransport (.bare wire) chaos

/-- What does not change while an operation runs.  `shards` tells how a node's keys are spread
over its shards, and in which order a listing meets them. -/
structure Deployment (V : Type) where
  cluster : Cluster
  net : Net
  wire : NodeID → Wire
  codec : Codec V
  injector : Nat → Chaos
  sum64 : List UInt8 → UInt64
  sum256 : List UInt8 → List UInt8
  order : SyncOrder
  runtime : Runtime
  glob : Str → Key → Option Bool
  listKeysMax : NodeID → Nat
  shards : NodeID → DistShard V → List (Option (List Key))
  shards_perm : ∀ m sh, ((shards m sh).flatMap (·.getD [])).Perm sh.items.keys

namespace Deployment

variable (D : Deployment V)

/-! ### In-process -/

def inProcessHealth (dst : NodeID) : Request V Unit := fun s =>
  if D.net.up dst then (s, .ok ()) else (s, .error (.node .backendNotFound))

def acceptGossip (dst : NodeID) (nodes : List Node) (s : Running V) : Running V :=
  s.modifyPeer dst (Peer.acceptGossip D.sum64 D.runtime nodes)

def merkleTree (n : NodeID) (s : Running V) : MerkleTree :=
  (s.nodes n).shard.buildMerkleTree D.sum256 (D.cluster.cfg n) D.order.remoteTree

/-- `InProcessTransport`. -/
def inProcessTransport (r : Receiver V) : DistTransport V where
  forwardSet dst item replicate s :=
    if D.net.up dst then (r.applyForwardedSet dst item replicate s, .ok ())
    else (s, .error (.node .backendNotFound))
  forwardGet dst key s :=
    if D.net.up dst then (s, .ok ((s.nodes dst).shard.items.get key))
    else (s, .error (.node .backendNotFound))
  forwardRemove dst key replicate s :=
    if D.net.up dst then (r.applyRemove dst key replicate s, .ok ())
    else (s, .error (.node .backendNotFound))
  health := D.inProcessHealth
  indirectHealth relay target s :=
    if D.net.up relay then
      if (D.cluster.cfg relay).hasTransport then r.probe relay target s
      else (s, .error (.node .noTransport))
    else (s, .error (.node .backendNotFound))
  gossip dst members s :=
    if D.net.up dst then
      (D.acceptGossip dst (gossipMembersToNodes D.net.now members) s, .ok ())
    else (s, .error (.node .backendNotFound))
  fetchMerkle dst s :=
    if D.net.up dst then (s, .ok (D.merkleTree dst s))
    else (s, .error (.node .backendNotFound))
  listKeys dst pattern s :=
    if D.net.up dst then
      match buildKeyMatcher D.glob pattern with
      | none => (s, .error .badPattern)
      | some matcher =>
          (s, .ok (((D.shards dst (s.nodes dst).shard).flatMap (·.getD [])).filter matcher))
    else (s, .error (.node .backendNotFound))

/-! ### HTTP -/

/-- `GET /health`, which answers 503 on a node that drains. -/
def httpHealth (dst : NodeID) : Request V Unit := fun s =>
  if D.net.up dst then
    if (s.nodes dst).draining then (s, .error (.http (.status 503))) else (s, .ok ())
  else (s, .error (.http .unreachable))

/-- The key listing of a node as it reads behind JSON. -/
def listKeysHTTP (dst : NodeID) (matcher : Key → Bool) (s : Running V) : List Key :=
  (walkKeys (handleKeys (D.shards dst (s.nodes dst).shard) matcher 0) safetyLimit none []).map
    D.codec.text

/-- `DistHTTPTransport`.  A probe that fails at the relay comes back as a status. -/
def distHTTPTransport (r : Receiver V) : DistTransport V where
  forwardSet dst item replicate s :=
    if D.net.up dst then
      match SetRequest.unmarshal D.codec ((SetRequest.ofItem item replicate).marshal D.codec) with
      | none => (s, .error (.http (.status 400)))
      | some req =>
          (r.applyForwardedSet dst (req.item D.net.now) req.replicate s, .ok ())
    else (s, .error (.http .unreachable))
  forwardGet dst key s :=
    (s, (forwardGetHTTP D.codec D.cluster D.net dst key s.nodes).mapError .http)
  forwardRemove dst key replicate s :=
    if D.net.up dst then
      if key = [] then (s, .error (.http (.status 400)))
      else (r.applyRemove dst key replicate s, .ok ())
    else (s, .error (.http .unreachable))
  health := D.httpHealth
  indirectHealth relay target s :=
    if D.net.up relay then
      if target = [] then (s, .error (.http (.status 400)))
      else if !(D.cluster.cfg relay).hasTransport then (s, .error (.http (.status 503)))
      else
        match r.probe relay target s with
        | (s, .ok ()) => (s, .ok ())
        | (s, .error e) =>
            (s, .error (.http (if e.isBackendNotFound then .backendNotFound else .status 502)))
    else (s, .error (.http .unreachable))
  gossip dst members s :=
    if D.net.up dst then
      let read := members.map (fun m =>
        { m with id := D.codec.text m.id, address := D.codec.text m.address })
      (D.acceptGossip dst (gossipMembersToNodes D.net.now read) s, .ok ())
    else (s, .error (.http .unreachable))
  fetchMerkle dst s :=
    if D.net.up dst then (s, .ok (D.merkleTree dst s)) else (s, .error (.http .unreachable))
  listKeys dst pattern s :=
    if D.net.up dst then
      match buildKeyMatcher D.glob pattern with
      | none => (s, .error (.http (.status 400)))
      | some matcher => (s, .ok (D.listKeysHTTP dst matcher s))
    else (s, .error (.http .unreachable))

/-! ### What a slot holds -/

def wired (r : Receiver V) : Wire → DistTransport V
  | .inProcess => D.inProcessTransport r
  | .http => D.distHTTPTransport r

/-- The stored transport as an interface value. -/
def transport (r : Receiver V) : Stored → DistTransport V
  | .bare wire => D.wired r wire
  | .chaos i inner => chaosTransport (D.injector i) i (transport r inner)

/-- `Health` of a stored transport. -/
def health : Stored → NodeID → Request V Unit
  | .bare .inProcess => D.inProcessHealth
  | .bare .http => D.httpHealth
  | .chaos i inner => fun dst => (D.injector i).wrap i (health inner dst)

/-- The transport slots when the nodes run with the given fault injectors. -/
def stored (chaos : NodeID → Option Nat) (n : NodeID) : Stored :=
  storeTransport (chaos n) (.bare (D.wire n))

/-! ### Receivers -/

section

variable (t : DistTransport V)

/-- The replication loop of `applySet`, whose errors are ignored. -/
def fanOutSet (n : NodeID) (item : Item V) (replicas : List NodeID) (s : Running V) :
    Running V :=
  replicas.foldl (fun s oid => if oid = n then s else (t.forwardSet oid item false s).1) s

def applySet (n : NodeID) (item : Item V) (replicate : Bool) (s : Running V) : Running V :=
  let s := s.modify n (NodeState.applySet (D.cluster.cfg n) item)
  if !replicate then s
  else
    match (D.cluster.cfg n).ring with
    | none => s
    | some ring =>
        let owners := ring.lookup item.key
        if owners.length ≤ 1 || !(D.cluster.cfg n).hasTransport then s
        else fanOutSet t n item owners.tail s

/-- The replication loop of `applyRemove`, whose errors are ignored. -/
def fanOutRemove (n : NodeID) (key : Key) (replicas : List NodeID) (s : Running V) :
    Running V :=
  replicas.foldl (fun s oid => if oid = n then s else (t.forwardRemove oid key false s).1) s

def applyRemove (n : NodeID) (key : Key) (replicate : Bool) (s : Running V) : Running V :=
  let s := s.modify n (NodeState.applyRemove (D.cluster.cfg n) D.net.now key)
  if !replicate then s
  else
    match (D.cluster.cfg n).ring with
    | none => s
    | some ring =>
        let owners := ring.lookup key
        if owners.length ≤ 1 || !(D.cluster.cfg n).hasTransport then s
        else fanOutRemove t n key owners.tail s

end

/-- A node that gets a call without replication. -/
def leaf (slots : NodeID → Stored) : Receiver V where
  applyForwardedSet n item _ s := s.modify n (NodeState.applyForwardedSet (D.cluster.cfg n) item)
  applyRemove n key _ s := s.modify n (NodeState.applyRemove (D.cluster.cfg n) D.net.now key)
  probe relay := D.health (slots relay)

/-- A node that gets a call and replicates it through its own transport if asked to. -/
def receiver (slots : NodeID → Stored) : Receiver V where
  applyForwardedSet n item replicate s :=
    if (D.cluster.cfg n).acceptsForwarded item.key then
      D.applySet (D.transport (D.leaf slots) (slots n)) n item replicate s
    else s
  applyRemove n := D.applyRemove (D.transport (D.leaf slots) (slots n)) n
  probe relay := D.health (slots relay)

/-- The transport of node `n`. -/
def transportOf (slots : NodeID → Stored) (n : NodeID) : DistTransport V :=
  D.transport (D.receiver slots) (slots n)

/-! ## Injectors that are idle

At zero rates a wrapper is the transport it wraps, as an interface value. -/

section

variable {D} {chaos : NodeID → Option Nat}

theorem transport_stored (hidle : ∀ m i, chaos m = some i → (D.injector i).Idle)
    (r : Receiver V) (n : NodeID) :
    D.transport r (D.stored chaos n) = D.wired r (D.wire n) := by
  cases hc : chaos n with
  | none =>
      rw [stored, hc]
      rfl
  | some i =>
      rw [stored, hc]
      exact chaosTransport_of_idle (hidle n i hc) i _

theorem health_stored (hidle : ∀ m i, chaos m = some i → (D.injector i).Idle) (n : NodeID) :
    D.health (D.stored chaos n) = D.health (.bare (D.wire n)) := by
  cases hc : chaos n with
  | none =>
      rw [stored, hc]
      rfl
  | some i =>
      rw [stored, hc]
      funext dst
      exact Chaos.wrap_of_idle (hidle n i hc) i _

theorem leaf_stored (hidle : ∀ m i, chaos m = some i → (D.injector i).Idle) :
    D.leaf (D.stored chaos) = D.leaf (D.stored fun _ => none) := by
  unfold leaf
  simp only [health_stored hidle]
  rfl

theorem receiver_stored (hidle : ∀ m i, chaos m = some i → (D.injector i).Idle) :
    D.receiver (D.stored chaos) = D.receiver (D.stored fun _ => none) := by
  unfold receiver
  simp only [health_stored hidle, transport_stored hidle, leaf_stored hidle]
  rfl

/-- A node with an idle injector has the transport of a node without one. -/
theorem transportOf_stored (hidle : ∀ m i, chaos m = some i → (D.injector i).Idle)
    (n : NodeID) :
    D.transportOf (D.stored chaos) n = D.transportOf (D.stored fun _ => none) n := by
  unfold transportOf
  rw [receiver_stored hidle, transport_stored hidle]
  rfl

end

end Deployment

end HyperCache
