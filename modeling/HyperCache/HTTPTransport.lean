/-
The HTTP transport: what a set and a get carry over the wire.

A forwarded set sends the expiration as `expiration_ms`, in whole milliseconds.  The
reply to a get is the stored item itself under its Go field names, so its expiration
is in nanoseconds, while the reader of the reply takes the number for milliseconds.

The JSON library and the HTTP server are third-party code.  `Codec` is what the library
does to strings, times and values, and a request or a reply is the JSON tree the bytes
stand for.  `HTTPLimits` has the length of those bytes, which the server checks.
-/
import HyperCache.Lib.Json
import HyperCache.Write

namespace HyperCache

open Encoding

variable {V : Type}

/-- The JSON library.  `text` is what a Go string reads as once it went through JSON,
which is the string itself where it is valid UTF-8.  `ofAny` decodes into an interface
and `ofRaw` keeps the document as a `json.RawMessage`. -/
structure Codec (V : Type) where
  text : Str → Str
  formatTime : Time → Str
  encode : V → Json
  ofAny : Json → Option V
  ofRaw : Json → V

namespace Codec

/-- The library encodes and decodes faithfully. -/
structure Faithful (J : Codec V) : Prop where
  text_eq : ∀ s, J.text s = s
  encode_ofRaw : ∀ j, J.encode (J.ofRaw j) = j

def string (J : Codec V) (s : Str) : Json := .str (J.text s)

def value (J : Codec V) : Option V → Json
  | none => .null
  | some v => J.encode v

end Codec

/-- One millisecond, in nanoseconds. -/
def millisecond : Int := 1000000

/-- `Duration.Milliseconds`. -/
def Duration.milliseconds (d : Int) : Int := d.tdiv millisecond

/-- `time.Duration(ms) * time.Millisecond`, which wraps. -/
def Duration.ofMilliseconds (ms : Int) : Int := Int.bmod (ms * millisecond) 0x10000000000000000

/-- The values of Go's `int64`. -/
def Int64Range (n : Int) : Prop := -0x8000000000000000 ≤ n ∧ n ≤ 0x7fffffffffffffff

/-! ## Forwarding a set -/

/-- `httpSetRequest`. -/
structure SetRequest (V : Type) where
  key : Str
  value : Option V
  expiration : Int
  version : UInt64
  origin : Str
  replicate : Bool

namespace SetRequest

/-- The request `ForwardSet` sends. -/
def ofItem (item : Item V) (replicate : Bool) : SetRequest V :=
  ⟨item.key, item.value, Duration.milliseconds item.expiration, item.version, item.origin,
    replicate⟩

def marshal (J : Codec V) (r : SetRequest V) : Json :=
  .obj [("key", J.string r.key), ("value", J.value r.value), ("expiration_ms", .num r.expiration),
    ("version", .num r.version.toNat), ("origin", J.string r.origin),
    ("replicate", .bool r.replicate)]

def unmarshal (J : Codec V) : Json → Option (SetRequest V)
  | .obj ms => do
      let key ← Json.readString (Json.field "key" ms)
      let expiration ← Json.readInt64 (Json.field "expiration_ms" ms)
      let version ← Json.readUint64 (Json.field "version" ms)
      let origin ← Json.readString (Json.field "origin" ms)
      let replicate ← Json.readBool (Json.field "replicate" ms)
      some ⟨key, (Json.field "value" ms).bind J.ofAny, expiration, version, origin, replicate⟩
  | .null => some ⟨[], none, 0, 0, [], false⟩
  | _ => none

/-- The item `handleSet` builds from a request. -/
def item (now : Time) (r : SetRequest V) : Item V :=
  { key := r.key, value := r.value, expiration := Duration.ofMilliseconds r.expiration,
    version := r.version, origin := r.origin, lastUpdated := now, lastAccess := now }

theorem unmarshal_marshal (J : Codec V) (r : SetRequest V) (h : Int64Range r.expiration) :
    unmarshal J (marshal J r) =
      some { r with
        key := J.text r.key, value := J.ofAny (J.value r.value), origin := J.text r.origin } := by
  have hexp : Json.readInt64 (some (.num r.expiration)) = some r.expiration :=
    Json.readInt64_num h
  have hver : Json.readUint64 (some (.num r.version.toNat)) = some r.version :=
    Json.readUint64_num r.version
  simp only [marshal, unmarshal]
  simp [Json.field, Json.equalFold, Codec.string, Json.readString, Json.readBool, hexp, hver]

end SetRequest

/-- What a forwarded call fails with. -/
inductive HTTPErr where
  | unreachable
  | backendNotFound
  | status (code : Nat)
  | decode
  deriving DecidableEq, Repr

/-- The limits on the requests to the nodes.  `size` is the number of bytes that the server
holds against the limit for a body, once `maybeGzip` has had it. -/
structure HTTPLimits where
  bodyLimit : NodeID → Int
  size : Json → Nat

namespace HTTPLimits

def defaultDistHTTPBodyLimit : Int := 16 * 1024 * 1024

/-- `withDefaults`, and the test the server makes before it calls a handler. -/
def tooLarge (L : HTTPLimits) (n : NodeID) (body : Json) : Bool :=
  (L.size body : Int) > if L.bodyLimit n ≤ 0 then defaultDistHTTPBodyLimit else L.bodyLimit n

end HTTPLimits

section

variable (J : Codec V) (L : HTTPLimits) (C : Cluster) (net : Net)

/-- `handleSet`: the body of the reply, or the status it is refused with. -/
def handleSet (n : NodeID) (body : Json) (w : World V) : World V × Except Nat Json :=
  match SetRequest.unmarshal J body with
  | none => (w, .error 400)
  | some req =>
      (World.applyForwardedSet C net n (req.item net.now) req.replicate w, .ok (.obj []))

/-- The route of `handleSet`.  A body over the limit is answered with 413, and the handler does
not see it. -/
def serveSet (n : NodeID) (body : Json) (w : World V) : World V × Except Nat Json :=
  if L.tooLarge n body then (w, .error 413) else handleSet J C net n body w

/-- `DistHTTPTransport.ForwardSet`. -/
def forwardSetHTTP (dst : NodeID) (item : Item V) (replicate : Bool) (w : World V) :
    World V × Option HTTPErr :=
  if net.up dst then
    match serveSet J L C net dst ((SetRequest.ofItem item replicate).marshal J) w with
    | (w, .ok _) => (w, none)
    | (w, .error code) =>
        (w, if code = 404 then some .backendNotFound
          else if code ≥ 300 then some (.status code) else none)
  else (w, some .unreachable)

/-- The item as the receiver of a forwarded set rebuilds it. -/
def carried (item : Item V) : Item V :=
  { key := J.text item.key, value := J.ofAny (J.value item.value),
    expiration := Duration.ofMilliseconds (Duration.milliseconds item.expiration),
    version := item.version, origin := J.text item.origin,
    lastUpdated := net.now, lastAccess := net.now }

end

/-- `int64` division cuts toward zero. -/
theorem milliseconds_eq (d : Int) :
    Duration.milliseconds d = if 0 ≤ d then d / millisecond else -(-d / millisecond) := by
  unfold Duration.milliseconds
  split
  case isTrue h => exact Int.tdiv_eq_ediv_of_nonneg h
  case isFalse h =>
    have hneg : 0 ≤ -d := by omega
    rw [← Int.tdiv_eq_ediv_of_nonneg hneg, Int.neg_tdiv, Int.neg_neg]

theorem int64Range_milliseconds {d : Int} (h : Int64Range d) :
    Int64Range (Duration.milliseconds d) := by
  unfold Int64Range at h ⊢
  rw [milliseconds_eq]
  unfold millisecond
  split <;> omega

/-- The product of `handleSet` does not wrap: it cuts the expiration down to whole
milliseconds. -/
theorem ofMilliseconds_milliseconds {d : Int} (h : Int64Range d) :
    Duration.ofMilliseconds (Duration.milliseconds d) =
      Duration.milliseconds d * millisecond := by
  unfold Int64Range at h
  have hms := milliseconds_eq d
  unfold Duration.ofMilliseconds
  unfold millisecond at hms ⊢
  apply Int.bmod_eq_of_le
  · split at hms <;> omega
  · split at hms <;> omega

theorem ofMilliseconds_milliseconds_eq_iff {d : Int} (h : Int64Range d) :
    Duration.ofMilliseconds (Duration.milliseconds d) = d ↔ millisecond ∣ d := by
  rw [ofMilliseconds_milliseconds h]
  constructor
  · intro heq
    exact ⟨_, heq.symm.trans (Int.mul_comm _ _)⟩
  · exact Int.tdiv_mul_cancel

theorem forwardSetHTTP_of_up (J : Codec V) (L : HTTPLimits) (C : Cluster) {net : Net}
    {dst : NodeID} (item : Item V) (replicate : Bool) (w : World V) (hup : net.up dst = true)
    (h : Int64Range item.expiration) :
    forwardSetHTTP J L C net dst item replicate w =
      if L.tooLarge dst ((SetRequest.ofItem item replicate).marshal J) then
        (w, some (.status 413))
      else (World.applyForwardedSet C net dst (carried J net item) replicate w, none) := by
  have hreq := SetRequest.unmarshal_marshal J (SetRequest.ofItem item replicate)
    (int64Range_milliseconds h)
  rw [forwardSetHTTP, if_pos hup, serveSet]
  by_cases hlarge : L.tooLarge dst ((SetRequest.ofItem item replicate).marshal J) = true
  · rw [if_pos hlarge, if_pos hlarge]
    rfl
  · rw [if_neg hlarge, if_neg hlarge, handleSet, hreq]
    rfl

/-- The fields of a stored item that travel between nodes. -/
def DistShard.view (sh : DistShard V) (key : Key) : Option (Key × UInt64 × Str × Duration) :=
  (sh.items.get key).map (fun it => (it.key, it.version, it.origin, it.expiration))

theorem DistShard.view_applyForwardedSet (cfg : DistConfig) (item : Item V) (sh : DistShard V)
    (key : Key) :
    (sh.applyForwardedSet cfg item).view key =
      if cfg.acceptsForwarded item.key = true ∧ key = item.key then
        some (item.key, item.version, item.origin, item.expiration)
      else sh.view key := by
  unfold applyForwardedSet
  by_cases haccept : cfg.acceptsForwarded item.key = true
  · rw [if_pos haccept, view, applySet_items, ConcurrentMap.get_set]
    by_cases hk : key = item.key
    · rw [if_pos hk, if_pos ⟨haccept, hk⟩]
      rfl
    · rw [if_neg hk, if_neg (fun h => hk h.2)]
      rfl
  · rw [if_neg haccept, if_neg (fun h => haccept h.1)]

/-- The receiver refuses the write, or holds what it stores. -/
def DistShard.Settles (cfg : DistConfig) (item : Item V) (sh : DistShard V) : Prop :=
  cfg.acceptsForwarded item.key = true →
    sh.view item.key = some (item.key, item.version, item.origin, item.expiration)

/-- When a set forwarded over HTTP stores what it stores in one process.  The request has to
fit the limit of the receiver, key and origin have to survive as JSON text and the expiration
has to be a whole number of milliseconds, unless the receiver refuses the write.  A request
that does not fit is lost, and a key that does not survive arrives as another key; then the
receiver must refuse or already hold what only one of the transports would store. -/
def ForwardsAlike (J : Codec V) (net : Net) (tooLarge : Bool) (cfg : DistConfig) (item : Item V)
    (sh : DistShard V) : Prop :=
  if tooLarge then sh.Settles cfg item
  else if J.text item.key = item.key then
    cfg.acceptsForwarded item.key = true →
      J.text item.origin = item.origin ∧ millisecond ∣ item.expiration
  else sh.Settles cfg item ∧ sh.Settles cfg (carried J net item)

section

variable (J : Codec V) (net : Net) (cfg : DistConfig) (item : Item V) (sh : DistShard V)

/-- Only the in-process transport stores anything. -/
theorem view_lost_iff :
    (∀ key, sh.view key = (sh.applyForwardedSet cfg item).view key) ↔ sh.Settles cfg item := by
  simp only [DistShard.view_applyForwardedSet]
  constructor
  · intro h haccept
    have hself := h item.key
    rwa [if_pos ⟨haccept, rfl⟩] at hself
  · intro h key
    split
    · rename_i hk
      rw [hk.2, h hk.1]
    · rfl

/-- The copies meet under one key, and the receiver takes both or neither. -/
theorem view_carried_iff_of_text (htext : J.text item.key = item.key)
    (hexp : Int64Range item.expiration) :
    (∀ key, (sh.applyForwardedSet cfg (carried J net item)).view key =
        (sh.applyForwardedSet cfg item).view key) ↔
      (cfg.acceptsForwarded item.key = true →
        J.text item.origin = item.origin ∧ millisecond ∣ item.expiration) := by
  have hkey : (carried J net item).key = item.key := htext
  simp only [DistShard.view_applyForwardedSet, hkey]
  constructor
  · intro h haccept
    have hself := h item.key
    rw [if_pos ⟨haccept, rfl⟩, if_pos ⟨haccept, rfl⟩] at hself
    simp only [Option.some.injEq, Prod.mk.injEq] at hself
    exact ⟨hself.2.2.1, (ofMilliseconds_milliseconds_eq_iff hexp).mp hself.2.2.2⟩
  · intro h key
    by_cases hk : cfg.acceptsForwarded item.key = true ∧ key = item.key
    · obtain ⟨horigin, hdvd⟩ := h hk.1
      have hms : (carried J net item).expiration = item.expiration :=
        (ofMilliseconds_milliseconds_eq_iff hexp).mpr hdvd
      have horigin' : (carried J net item).origin = item.origin := horigin
      rw [if_pos hk, if_pos hk, hms, horigin']
      rfl
    · rw [if_neg hk, if_neg hk]

/-- The copies go to different keys, and each has to be there already where it is taken. -/
theorem view_carried_iff_of_ne (htext : J.text item.key ≠ item.key) :
    (∀ key, (sh.applyForwardedSet cfg (carried J net item)).view key =
        (sh.applyForwardedSet cfg item).view key) ↔
      sh.Settles cfg item ∧ sh.Settles cfg (carried J net item) := by
  have hkey : (carried J net item).key = J.text item.key := rfl
  simp only [DistShard.view_applyForwardedSet, hkey]
  constructor
  · intro h
    refine ⟨fun haccept => ?_, fun haccept => ?_⟩
    · have hself := h item.key
      rwa [if_neg (fun hc => htext hc.2.symm), if_pos ⟨haccept, rfl⟩] at hself
    · have hself := h (J.text item.key)
      rw [if_pos ⟨haccept, rfl⟩, if_neg (fun hc => htext hc.2)] at hself
      exact hself.symm
  · rintro ⟨hown, hother⟩ key
    by_cases hk : cfg.acceptsForwarded item.key = true ∧ key = item.key
    · obtain ⟨haccept, rfl⟩ := hk
      rw [if_neg (fun hc => htext hc.2.symm), if_pos ⟨haccept, rfl⟩]
      exact hown haccept
    · rw [if_neg hk]
      by_cases hk' : cfg.acceptsForwarded (J.text item.key) = true ∧ key = J.text item.key
      · obtain ⟨haccept, rfl⟩ := hk'
        rw [if_pos ⟨haccept, rfl⟩]
        exact (hother haccept).symm
      · rw [if_neg hk']

end

/-- A set forwarded over HTTP leaves the receiver with the keys, versions, origins and
expirations that the in-process transport leaves it with exactly when `ForwardsAlike`. -/
theorem forwardSetHTTP_view_iff (J : Codec V) (L : HTTPLimits) (C : Cluster) (net : Net)
    (dst : NodeID) (item : Item V) (replicate : Bool) (w : World V) (hup : net.up dst = true)
    (hexp : Int64Range item.expiration) :
    (∀ key, ((forwardSetHTTP J L C net dst item replicate w).1 dst).shard.view key =
        ((World.forwardSet C net dst item replicate w).1 dst).shard.view key) ↔
      ForwardsAlike J net (L.tooLarge dst ((SetRequest.ofItem item replicate).marshal J))
        (C.cfg dst) item (w dst).shard := by
  have hlocal : ∀ key, ((World.forwardSet C net dst item replicate w).1 dst).shard.view key =
      ((w dst).shard.applyForwardedSet (C.cfg dst) item).view key := by
    intro key
    rw [World.forwardSet, if_pos hup]
    show (World.applyForwardedSet C net dst item replicate w dst).shard.view key = _
    rw [World.applyForwardedSet_self, NodeState.applyForwardedSet_shard]
  simp only [hlocal, forwardSetHTTP_of_up J L C item replicate w hup hexp]
  unfold ForwardsAlike
  split
  · exact view_lost_iff (C.cfg dst) item _
  · have hhttp : ∀ key,
        (World.applyForwardedSet C net dst (carried J net item) replicate w dst).shard.view key =
          ((w dst).shard.applyForwardedSet (C.cfg dst) (carried J net item)).view key := by
      intro key
      rw [World.applyForwardedSet_self, NodeState.applyForwardedSet_shard]
    simp only [hhttp]
    split
    case isTrue htext => exact view_carried_iff_of_text J net (C.cfg dst) item _ htext hexp
    case isFalse htext => exact view_carried_iff_of_ne J net (C.cfg dst) item _ htext

/-- A library that keeps every string, with JSON documents for values. -/
def plainCodec : Codec Json where
  text := fun s => s
  formatTime := fun _ => []
  encode := fun j => j
  ofAny := fun
    | .null => none
    | j => some j
  ofRaw := fun j => j

/-- Servers with the default limit, and requests of a hundred bytes. -/
def defaultLimits : HTTPLimits := ⟨fun _ => 0, fun _ => 100⟩

/-- A string value under the key `k`, with the given lifetime. -/
def lasting (expiration : Duration) : Item Json :=
  { key := [107], value := some (.str [1]), expiration := expiration, version := 3 }

theorem forwardSetHTTP_view_two_milliseconds :
    Int64Range (lasting 2000000).expiration ∧
      ∀ key, ((forwardSetHTTP plainCodec defaultLimits World.quorumCluster World.allUp [97]
          (lasting 2000000) false World.fresh).1 [97]).shard.view key =
        ((World.forwardSet World.quorumCluster World.allUp [97] (lasting 2000000) false
          World.fresh).1 [97]).shard.view key := by
  have hrange : Int64Range (lasting 2000000).expiration := by
    unfold Int64Range
    decide
  refine ⟨hrange, (forwardSetHTTP_view_iff plainCodec defaultLimits World.quorumCluster
    World.allUp [97] (lasting 2000000) false World.fresh rfl hrange).mpr ?_⟩
  exact fun _ => ⟨rfl, by decide⟩

/-- Half a millisecond is cut to nothing, and the item never expires at the receiver. -/
theorem forwardSetHTTP_half_millisecond :
    ((forwardSetHTTP plainCodec defaultLimits World.quorumCluster World.allUp [97]
        (lasting 500000) false World.fresh).1 [97]).shard.view [107] = some ([107], 3, [], 0) ∧
      ((World.forwardSet World.quorumCluster World.allUp [97] (lasting 500000) false
        World.fresh).1 [97]).shard.view [107] = some ([107], 3, [], 500000) := by
  decide

/-! ## Reading an item -/

section

variable (J : Codec V) (C : Cluster) (net : Net)

/-- The stored item as `fctx.JSON` writes it: the Go struct has no field tags. -/
def Item.marshal (it : Item V) : Json :=
  .obj [("Key", J.string it.key), ("Value", J.value it.value),
    ("LastAccess", .str (J.formatTime it.lastAccess)),
    ("LastUpdated", .str (J.formatTime it.lastUpdated)), ("Size", .num it.size),
    ("Expiration", .num it.expiration), ("AccessCount", .num it.accessCount.toNat),
    ("Version", .num it.version.toNat), ("Origin", J.string it.origin)]

/-- `handleGet`: the body of the reply, or the status it is refused with. -/
def handleGet (n : NodeID) (key : Key) (w : World V) : Except Nat Json :=
  if key = [] then .error 400
  else if (C.cfg n).lookupOwners key = [] then .error 404
  else
    match (w n).shard.items.get key with
    | some it => .ok (.obj [("found", .bool true), ("item", it.marshal J)])
    | none => .ok (.obj [("found", .bool false)])

/-- The item `decodeGetBody` reads through its mirror of the struct. -/
def unmarshalMirror (now : Time) : Json → Option (Item V)
  | .obj ms => do
      let key ← Json.readString (Json.field "key" ms)
      let expiration ← Json.readInt64 (Json.field "expiration" ms)
      let version ← Json.readUint64 (Json.field "version" ms)
      let origin ← Json.readString (Json.field "origin" ms)
      some {
        key := key, value := (Json.field "value" ms).map J.ofRaw,
        expiration := Duration.ofMilliseconds expiration, version := version, origin := origin,
        lastUpdated := now, lastAccess := now }
  | .null => some { key := [], value := none, lastUpdated := now, lastAccess := now }
  | _ => none

/-- `decodeGetBody`: `none` when the body does not decode. -/
def decodeGetBody (now : Time) : Json → Option (Option (Item V))
  | .obj ms => do
      let found ← Json.readBool (Json.member "found" ms)
      if !found then some none
      else
        match Json.member "item" ms with
        | some ib => (unmarshalMirror J now ib).map some
        | none => some (some { key := [], value := none })
  | .null => some none
  | _ => none

/-- `DistHTTPTransport.ForwardGet`. -/
def forwardGetHTTP (dst : NodeID) (key : Key) (w : World V) :
    Except HTTPErr (Option (Item V)) :=
  if net.up dst then
    match handleGet J C dst key w with
    | .error code => .error (if code = 404 then .backendNotFound else .status code)
    | .ok body =>
        match decodeGetBody J net.now body with
        | some reply => .ok reply
        | none => .error .decode
  else .error .unreachable

/-- The item as the reader of a reply rebuilds it. -/
def fetched (it : Item V) : Item V :=
  { key := J.text it.key, value := some (J.ofRaw (J.value it.value)),
    expiration := Duration.ofMilliseconds it.expiration, version := it.version,
    origin := J.text it.origin, lastUpdated := net.now, lastAccess := net.now }

theorem unmarshalMirror_marshal (it : Item V) (h : Int64Range it.expiration) :
    unmarshalMirror J net.now (it.marshal J) = some (fetched J net it) := by
  have hexp : Json.readInt64 (some (.num it.expiration)) = some it.expiration :=
    Json.readInt64_num h
  have hver : Json.readUint64 (some (.num it.version.toNat)) = some it.version :=
    Json.readUint64_num it.version
  simp only [Item.marshal, unmarshalMirror]
  simp [Json.field, Json.equalFold, Codec.string, Json.readString, hexp, hver, fetched]

theorem decodeGetBody_marshal (it : Item V) (h : Int64Range it.expiration) :
    decodeGetBody J net.now (.obj [("found", .bool true), ("item", it.marshal J)]) =
      some (some (fetched J net it)) := by
  rw [decodeGetBody]
  simp [Json.member, Json.readBool, unmarshalMirror_marshal J net it h]

variable {J C net}

theorem unmarshalMirror_key {now : Time} {it got : Item V}
    (h : unmarshalMirror J now (it.marshal J) = some got) : got.key = J.text it.key := by
  simp only [Item.marshal, unmarshalMirror] at h
  simp [Json.field, Json.equalFold, Codec.string, Json.readString] at h
  obtain ⟨expiration, -, hversion⟩ := Option.bind_eq_some_iff.mp h
  obtain ⟨version, -, hgot⟩ := Option.bind_eq_some_iff.mp hversion
  rw [← Option.some.inj hgot]

/-- Whatever else a reply reads as, the node stores the key, and the key of the reply is the
key asked for, behind JSON. -/
theorem forwardGetHTTP_hit {dst : NodeID} {key : Key} {w : World V} {got : Item V}
    (h : forwardGetHTTP J C net dst key w = .ok (some got)) :
    (w dst).shard.items.get key ≠ none ∧ got.key = J.text key := by
  have hbody : ∀ it : Item V,
      decodeGetBody J net.now (.obj [("found", .bool true), ("item", it.marshal J)]) =
        (unmarshalMirror J net.now (it.marshal J)).map some := by
    intro it
    rw [decodeGetBody]
    simp [Json.member, Json.readBool]
  unfold forwardGetHTTP handleGet at h
  split at h
  case isFalse => cases h
  by_cases hempty : key = []
  · rw [if_pos hempty] at h
    cases h
  rw [if_neg hempty] at h
  by_cases howners : (C.cfg dst).lookupOwners key = []
  · rw [if_pos howners] at h
    cases h
  rw [if_neg howners] at h
  cases hget : (w dst).shard.items.get key with
  | none =>
      rw [hget] at h
      cases h
  | some it =>
      rw [hget] at h
      dsimp only at h
      rw [hbody] at h
      cases hmirror : unmarshalMirror J net.now (it.marshal J) with
      | none =>
          rw [hmirror] at h
          cases h
      | some mirrored =>
          rw [hmirror] at h
          cases h
          refine ⟨Option.some_ne_none it, ?_⟩
          rw [unmarshalMirror_key hmirror, ConcurrentMap.key_of_get hget]

theorem forwardGetHTTP_of_stored {dst : NodeID} {w : World V} {it : Item V}
    (hup : net.up dst = true) (hkey : it.key ≠ [])
    (howners : (C.cfg dst).lookupOwners it.key ≠ [])
    (hstored : (w dst).shard.items.get it.key = some it) (h : Int64Range it.expiration) :
    forwardGetHTTP J C net dst it.key w = .ok (some (fetched J net it)) := by
  rw [forwardGetHTTP, if_pos hup, handleGet, if_neg hkey, if_neg howners, hstored]
  dsimp only
  rw [decodeGetBody_marshal J net it h]

/-- Nanoseconds read as milliseconds stand for the same lifetime only when there is none. -/
theorem ofMilliseconds_eq_self_iff {d : Int} (h : Int64Range d) :
    Duration.ofMilliseconds d = d ↔ d = 0 := by
  unfold Int64Range at h
  unfold Duration.ofMilliseconds millisecond
  constructor
  · intro heq
    have hmod : Int.bmod (d * 1000000) 0x10000000000000000 % 18446744073709551616 =
        d * 1000000 % 18446744073709551616 := Int.bmod_emod
    rw [heq, Int.emod_eq_emod_iff_emod_sub_eq_zero] at hmod
    have hsub : d - d * 1000000 = d * -999999 := by
      clear hmod
      omega
    rw [hsub] at hmod
    -- The modulus is prime to 999999, and no other multiple of it is in range.
    obtain ⟨c, hc⟩ := Int.dvd_of_dvd_mul_left_of_gcd_one (Int.dvd_of_emod_eq_zero hmod) rfl
    clear hmod heq hsub
    omega
  · rintro rfl
    rfl

end

/-- A get over HTTP returns the owner's item, with its key, value, version, origin and
expiration, exactly when the item never expires.  A `Set` never stores the empty key, which
the handler refuses. -/
theorem forwardGetHTTP_same_iff {J : Codec V} (hJ : J.Faithful) (C : Cluster) (net : Net)
    {dst : NodeID} {w : World V} (it : Item V) (hup : net.up dst = true)
    (howner : dst ∈ (C.cfg dst).lookupOwners it.key)
    (hstored : (w dst).shard.items.get it.key = some it) (hexp : Int64Range it.expiration) :
    (∃ got, forwardGetHTTP J C net dst it.key w = .ok (some got) ∧ got.key = it.key ∧
        J.value got.value = J.value it.value ∧ got.version = it.version ∧
        got.origin = it.origin ∧ got.expiration = it.expiration) ↔
      it.key ≠ [] ∧ it.expiration = 0 := by
  have howners : (C.cfg dst).lookupOwners it.key ≠ [] := List.ne_nil_of_mem howner
  constructor
  · rintro ⟨got, hgot, -, -, -, -, hsame⟩
    have hkey : it.key ≠ [] := by
      intro hempty
      rw [forwardGetHTTP, if_pos hup, handleGet, if_pos hempty] at hgot
      cases hgot
    rw [forwardGetHTTP_of_stored hup hkey howners hstored hexp] at hgot
    cases hgot
    exact ⟨hkey, (ofMilliseconds_eq_self_iff hexp).mp hsame⟩
  · rintro ⟨hkey, hzero⟩
    refine ⟨_, forwardGetHTTP_of_stored hup hkey howners hstored hexp, hJ.text_eq _, ?_, rfl,
      hJ.text_eq _, (ofMilliseconds_eq_self_iff hexp).mpr hzero⟩
    exact hJ.encode_ofRaw _

theorem plainCodec_faithful : plainCodec.Faithful :=
  ⟨fun _ => rfl, fun _ => rfl⟩

/-- A node that stores one item. -/
def storing (expiration : Duration) : World Json := fun _ =>
  { shard := { (DistShard.empty : DistShard Json) with
      items := ConcurrentMap.empty.set (lasting expiration) } }

theorem forwardGetHTTP_same_without_expiration :
    ∃ got, forwardGetHTTP plainCodec World.quorumCluster World.allUp [97] [107] (storing 0) =
        .ok (some got) ∧ got.key = [107] ∧
      plainCodec.value got.value = plainCodec.value (lasting 0).value ∧ got.version = 3 ∧
      got.origin = [] ∧ got.expiration = 0 := by
  refine (forwardGetHTTP_same_iff plainCodec_faithful World.quorumCluster World.allUp
    (lasting 0) rfl (by decide) rfl ?_).mpr (by decide)
  unfold Int64Range
  decide

/-- An item that lives a second is read back as one that lives a million seconds. -/
theorem forwardGetHTTP_second :
    ((forwardGetHTTP plainCodec World.quorumCluster World.allUp [97] [107]
        (storing 1000000000)).toOption.join.map Item.expiration) = some 1000000000000000 := by
  decide

end HyperCache
