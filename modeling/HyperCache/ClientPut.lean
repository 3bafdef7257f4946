/-
The two ways a client stores an entry, from its call to the cache of the server.

`Client.Set` writes the time to live into the query as a duration text.  `Client.BatchSet`
writes it into the body as a number of milliseconds.  Both handlers end in a `Set` of the
server's cache, and `SetCall` is what they hand to it.

The router and the JSON library are third-party code, and `Server` is what the handlers
use of them.
-/
import HyperCache.ClientValue
import HyperCache.FrontEnd
import HyperCache.Lib.DurationText
import HyperCache.Lib.QueryString

namespace HyperCache

open Encoding

/-! ## The client -/

namespace Client

/-- `/v1/cache/`. -/
def cachePath : Str := [47, 118, 49, 47, 99, 97, 99, 104, 101, 47]

/-- The name `ttl` of the query argument. -/
def ttlArg : Str := [116, 116, 108]

/-- The target of the request `Client.Set` sends.  The body is the value. -/
def setTarget (key : Key) (ttl : Duration) : Str :=
  let path := cachePath ++ QueryString.escapeSegment key
  if ttl > 0 then path ++ 63 :: (ttlArg ++ 61 :: DurationText.format ttl) else path

structure BatchSetItem where
  key : Key
  value : Str
  ttl : Duration

end Client

/-- `batchPutItemWire` of the client and `batchPutItem` of the server. -/
structure BatchPutItem where
  key : Str
  value : Str
  valueEncoding : Str
  ttlMs : Int

namespace BatchPutItem

/-- The encoding `base64`. -/
def base64Encoding : Str := [98, 97, 115, 101, 54, 52]

/-- The item `Client.BatchSet` sends. -/
def ofItem (it : Client.BatchSetItem) : BatchPutItem :=
  { key := it.key
    value := Base64.encode it.value
    valueEncoding := base64Encoding
    ttlMs := if it.ttl > 0 then Duration.milliseconds it.ttl else 0 }

def marshal (text : Str → Str) (w : BatchPutItem) : Json :=
  .obj ([("key", .str (text w.key)), ("value", .str (text w.value))] ++
    (if w.valueEncoding = [] then [] else [("value_encoding", .str (text w.valueEncoding))]) ++
    (if w.ttlMs = 0 then [] else [("ttl_ms", .num w.ttlMs)]))

def unmarshal : Json → Option BatchPutItem
  | .obj ms => do
      let key ← Json.readString (Json.field "key" ms)
      let value ← Json.readString (Json.field "value" ms)
      let valueEncoding ← Json.readString (Json.field "value_encoding" ms)
      let ttlMs ← Json.readInt64 (Json.field "ttl_ms" ms)
      some ⟨key, value, valueEncoding, ttlMs⟩
  | .null => some ⟨[], [], [], 0⟩
  | _ => none

end BatchPutItem

namespace BatchPutRequest

/-- The body `Client.BatchSet` sends. -/
def marshal (text : Str → Str) (items : List BatchPutItem) : Json :=
  .obj [("items", .arr (items.map (BatchPutItem.marshal text)))]

def unmarshal : Json → Option (List BatchPutItem)
  | .obj ms =>
      match Json.field "items" ms with
      | none => some []
      | some .null => some []
      | some (.arr elems) => elems.mapM BatchPutItem.unmarshal
      | some _ => none
  | .null => some []
  | _ => none

end BatchPutRequest

/-! ## The server -/

inductive ErrCode where
  | badRequest
  | notFound
  | draining
  | internal

/-- `errorResponse` with its status. -/
structure ErrorResponse where
  status : Nat
  code : ErrCode
  error : String

/-- What the handlers use of libraries.  `param` is the key the router takes from the target of
a PUT, and nothing when its path has another shape.  `query` is the value of an argument of the
target, empty when there is none.  `text` is what a Go string reads as once it went through
JSON. -/
structure Server where
  param : Str → Option Str
  query : Str → Str → Str
  reads : QueryString.Reads param query
  float : DurationText.Scaling
  text : Str → Str
  text_ascii : ∀ s : Str, (∀ c ∈ s, c < 0x80) → text s = s
  durationError : Str → String
  base64Error : Str → String
  jsonError : String

/-- The arguments of a `Set` of the cache. -/
structure SetCall where
  key : Key
  value : Str
  ttl : Duration

structure BatchPutResult where
  key : Key
  stored : Bool
  error : String := ""
  code : Option ErrCode := none

namespace Server

variable (srv : Server)

/-- `handlePut` up to the call of `Set`.  Nothing is returned when no route takes the path. -/
def putCall (target body : Str) : Option (Except ErrorResponse SetCall) := do
  let key ← srv.param target
  if key = [] then some (.error ⟨400, .badRequest, "missing key in path"⟩)
  else
    let raw := srv.query Client.ttlArg target
    if raw = [] then some (.ok ⟨key, body, 0⟩)
    else
      match DurationText.parse srv.float raw with
      | none =>
          some (.error ⟨400, .badRequest, "invalid ttl: " ++ srv.durationError raw⟩)
      | some ttl => some (.ok ⟨key, body, ttl⟩)

def decodeBatchPutValue (item : BatchPutItem) : Except String Str :=
  if item.valueEncoding ≠ BatchPutItem.base64Encoding then .ok item.value
  else
    match Base64.decode item.value with
    | none => .error ("invalid base64 value: " ++ srv.base64Error item.value)
    | some decoded => .ok decoded

/-- `applyBatchPutItem` up to the call of `Set`. -/
def batchPutCall (item : BatchPutItem) : Except BatchPutResult SetCall :=
  if item.key = [] then
    .error { key := item.key, stored := false, error := "missing key", code := some .badRequest }
  else
    match srv.decodeBatchPutValue item with
    | .error e =>
        .error { key := item.key, stored := false, error := e, code := some .badRequest }
    | .ok value => .ok ⟨item.key, value, Duration.ofMilliseconds item.ttlMs⟩

/-- The calls of `handleBatchPut`, in the order of the items. -/
def batchPutCalls (body : Json) : Except ErrorResponse (List (Except BatchPutResult SetCall)) :=
  match BatchPutRequest.unmarshal body with
  | none => .error ⟨400, .badRequest, "invalid JSON: " ++ srv.jsonError⟩
  | some items => .ok (items.map srv.batchPutCall)

end Server

/-! ## The item the server makes -/

/-- The item `Set` builds from its arguments. -/
def SetCall.item (now : Time) (size : Int) (call : SetCall) : Item Value :=
  { key := call.key, value := some (.bytes call.value), expiration := call.ttl, lastAccess := now,
    size }

/-! ## The route of a set -/

theorem inPath_cachePath (key : Key) :
    ∀ c ∈ Client.cachePath ++ QueryString.escapeSegment key, QueryString.inPath c = true := by
  intro c hc
  rcases List.mem_append.1 hc with hc | hc
  · have hpath : Client.cachePath.all QueryString.inPath = true := rfl
    exact List.all_eq_true.1 hpath c hc
  · exact QueryString.inPath_escapeSegment key c hc

theorem plain_of_inText {c : UInt8} (h : DurationText.inText c = true) :
    QueryString.plain c = true := by
  simp only [QueryString.plain, Bool.and_eq_true, bne_iff_ne, ne_eq]
  refine ⟨⟨⟨?_, ?_⟩, ?_⟩, ?_⟩
  all_goals
    rintro rfl
    exact absurd h (by decide)

theorem plain_format {ttl : Int} (hpos : 0 < ttl) :
    ∀ c ∈ DurationText.format ttl, QueryString.plain c = true := by
  intro c hc
  rw [DurationText.format, if_neg (by omega)] at hc
  exact plain_of_inText (DurationText.inText_fmtMagnitude _ c hc)

theorem format_ne_nil {ttl : Int} (hpos : 0 < ttl) : DurationText.format ttl ≠ [] := by
  rw [DurationText.format, if_neg (by omega)]
  obtain ⟨n, s, htext⟩ := DurationText.fmtMagnitude_eq_append ttl.natAbs
  rw [htext]
  exact DurationText.append_ne_nil n s

namespace Server

variable (srv : Server) {ttl : Duration}

/-- The time to live arrives as it was given. -/
theorem putCall_setTarget (key : Key) (value : Str) (hpos : 0 < ttl) (hrange : Int64Range ttl) :
    srv.putCall (Client.setTarget key ttl) value =
      (srv.param (Client.cachePath ++ QueryString.escapeSegment key)).map fun k =>
        if k = [] then .error ⟨400, .badRequest, "missing key in path"⟩
        else .ok ⟨k, value, ttl⟩ := by
  have hpath := inPath_cachePath key
  have hquery := srv.reads.query_single _ Client.ttlArg (DurationText.format ttl) hpath
    (by simp [Client.ttlArg, QueryString.plain]) (plain_format hpos)
  have hparse : DurationText.parse srv.float (DurationText.format ttl) = some ttl := by
    apply DurationText.parse_format
    · exact hrange.1
    · exact Int.lt_of_le_of_lt hrange.2 (by decide)
  rw [putCall, Client.setTarget]
  simp only [if_pos hpos, srv.reads.route_append _ _ hpath, hquery, hparse,
    if_neg (format_ne_nil hpos)]
  cases srv.param (Client.cachePath ++ QueryString.escapeSegment key) with
  | none => rfl
  | some k =>
      by_cases hk : k = []
      · simp [hk]
      · simp [hk]

/-! ## The route of a batch -/

/-- An item as the server reads it. -/
def received (it : Client.BatchSetItem) : BatchPutItem :=
  { BatchPutItem.ofItem it with key := srv.text it.key }

theorem int64Range_ttlMs {it : Client.BatchSetItem} (h : Int64Range it.ttl) :
    Int64Range (BatchPutItem.ofItem it).ttlMs := by
  show Int64Range (if it.ttl > 0 then Duration.milliseconds it.ttl else 0)
  by_cases hpos : it.ttl > 0
  · rw [if_pos hpos]
    exact int64Range_milliseconds h
  · rw [if_neg hpos]
    unfold Int64Range
    omega

theorem unmarshal_marshal_ofItem {it : Client.BatchSetItem} (h : Int64Range it.ttl) :
    BatchPutItem.unmarshal ((BatchPutItem.ofItem it).marshal srv.text) =
      some (srv.received it) := by
  have hvalue : srv.text (Base64.encode it.value) = Base64.encode it.value :=
    srv.text_ascii _ fun c hc => (Base64.printable_encode it.value c hc).1
  have hencoding : srv.text BatchPutItem.base64Encoding = BatchPutItem.base64Encoding :=
    srv.text_ascii _ (by simp [BatchPutItem.base64Encoding])
  have hread := Json.readInt64_num (int64Range_ttlMs h)
  have hne : BatchPutItem.base64Encoding ≠ [] := by decide
  rw [BatchPutItem.marshal, received]
  by_cases hms : (BatchPutItem.ofItem it).ttlMs = 0
  · simp only [BatchPutItem.ofItem] at hms ⊢
    simp [BatchPutItem.unmarshal, hms, hne, Json.field, Json.equalFold, Json.readString, hvalue,
      hencoding, Json.readInt64]
  · simp only [BatchPutItem.ofItem] at hms hread ⊢
    simp [BatchPutItem.unmarshal, hms, hne, Json.field, Json.equalFold, Json.readString, hvalue,
      hencoding, hread]

theorem batchPutCalls_marshal {items : List Client.BatchSetItem}
    (hrange : ∀ it ∈ items, Int64Range it.ttl) :
    srv.batchPutCalls (BatchPutRequest.marshal srv.text (items.map BatchPutItem.ofItem)) =
      .ok (items.map fun it => srv.batchPutCall (srv.received it)) := by
  have hall : ((items.map BatchPutItem.ofItem).map (BatchPutItem.marshal srv.text)).mapM
      BatchPutItem.unmarshal = some (items.map srv.received) := by
    induction items with
    | nil => rfl
    | cons it items ih =>
        have hit := srv.unmarshal_marshal_ofItem (hrange it List.mem_cons_self)
        have hrest := ih fun it' h => hrange it' (List.mem_cons_of_mem it h)
        simp only [List.map_cons, List.mapM_cons, hit, hrest]
        rfl
  have hbody : BatchPutRequest.unmarshal (BatchPutRequest.marshal srv.text
      (items.map BatchPutItem.ofItem)) = some (items.map srv.received) := by
    simp only [BatchPutRequest.marshal, BatchPutRequest.unmarshal]
    simp only [Json.field, Json.equalFold, List.reverse_singleton, List.find?_cons,
      beq_self_eq_true, Option.map_some]
    exact hall
  rw [batchPutCalls, hbody]
  simp

/-- The time to live arrives in whole milliseconds. -/
theorem batchPutCall_received {it : Client.BatchSetItem} (hpos : 0 < it.ttl)
    (hrange : Int64Range it.ttl) :
    srv.batchPutCall (srv.received it) =
      if srv.text it.key = [] then
        .error { key := [], stored := false, error := "missing key", code := some .badRequest }
      else .ok ⟨srv.text it.key, it.value, Duration.milliseconds it.ttl * millisecond⟩ := by
  have hms : (srv.received it).ttlMs = Duration.milliseconds it.ttl := if_pos hpos
  have hvalue : srv.decodeBatchPutValue (srv.received it) = .ok it.value := by
    show (if BatchPutItem.base64Encoding ≠ BatchPutItem.base64Encoding then _ else
      match Base64.decode (Base64.encode it.value) with
      | none => _
      | some decoded => _) = _
    rw [if_neg (fun h => h rfl), Base64.decode_encode]
  rw [batchPutCall, hvalue, hms, ofMilliseconds_milliseconds hrange]
  by_cases hkey : srv.text it.key = []
  · have hkey' : (srv.received it).key = [] := hkey
    rw [if_pos hkey, if_pos hkey', hkey']
  · have hkey' : (srv.received it).key ≠ [] := hkey
    rw [if_neg hkey, if_neg hkey']
    rfl

theorem putCall_ok {key : Key} {value : Str} {c : SetCall} (hpos : 0 < ttl)
    (hrange : Int64Range ttl) (h : srv.putCall (Client.setTarget key ttl) value = some (.ok c)) :
    c.value = value ∧ c.ttl = ttl := by
  rw [srv.putCall_setTarget key value hpos hrange, Option.map_eq_some_iff] at h
  obtain ⟨k, -, hk⟩ := h
  by_cases hne : k = []
  · rw [if_pos hne] at hk
    cases hk
  · rw [if_neg hne] at hk
    cases hk
    exact ⟨rfl, rfl⟩

theorem batchPutCall_ok {it : Client.BatchSetItem} {c : SetCall} (hpos : 0 < it.ttl)
    (hrange : Int64Range it.ttl) (h : srv.batchPutCall (srv.received it) = .ok c) :
    c.value = it.value ∧ c.ttl = Duration.milliseconds it.ttl * millisecond := by
  rw [srv.batchPutCall_received hpos hrange] at h
  by_cases hne : srv.text it.key = []
  · rw [if_pos hne] at h
    cases h
  · rw [if_neg hne] at h
    cases h
    exact ⟨rfl, rfl⟩

end Server

theorem milliseconds_mul_eq_iff {ttl : Int} (hpos : 0 < ttl) :
    Duration.milliseconds ttl * millisecond = ttl ↔ millisecond ∣ ttl := by
  rw [milliseconds_eq, if_pos (by omega)]
  unfold millisecond
  omega

/-- Stored through `BatchSet`, an entry expires as it does stored through `Set` exactly when the
time to live is a whole number of milliseconds.  The other entries of the batch do not matter. -/
theorem batchSet_expiration_iff (srv : Server) {items : List Client.BatchSetItem}
    (hrange : ∀ it ∈ items, Int64Range it.ttl) {j : Nat} {key : Key} {value : Str}
    {ttl : Duration} (hitem : items[j]? = some ⟨key, value, ttl⟩) (hpos : 0 < ttl) :
    ∃ calls,
      srv.batchPutCalls (BatchPutRequest.marshal srv.text (items.map BatchPutItem.ofItem)) =
        .ok calls ∧
      (∀ k, srv.param (Client.cachePath ++ QueryString.escapeSegment key) = some k → k ≠ [] →
        srv.text key ≠ [] →
          (∃ c₁, srv.putCall (Client.setTarget key ttl) value = some (.ok c₁)) ∧
            ∃ c₂, calls[j]? = some (.ok c₂)) ∧
      ∀ c₁ c₂, srv.putCall (Client.setTarget key ttl) value = some (.ok c₁) →
        calls[j]? = some (.ok c₂) → c₁.value = value ∧ c₂.value = value ∧
          ∀ now₁ now₂ size, (((c₂.item now₂ size).expiration = (c₁.item now₁ size).expiration ∧
            0 < (c₂.item now₂ size).expiration) ↔ millisecond ∣ ttl) := by
  have hmem : (⟨key, value, ttl⟩ : Client.BatchSetItem) ∈ items := List.mem_of_getElem? hitem
  refine ⟨_, srv.batchPutCalls_marshal hrange, ?_, ?_⟩
  · intro k hk hne htext
    refine ⟨⟨⟨k, value, ttl⟩, ?_⟩,
      ⟨⟨srv.text key, value, Duration.milliseconds ttl * millisecond⟩, ?_⟩⟩
    · rw [srv.putCall_setTarget key value hpos (hrange _ hmem), hk, Option.map_some, if_neg hne]
    · rw [List.getElem?_map, hitem, Option.map_some,
        @Server.batchPutCall_received srv ⟨key, value, ttl⟩ hpos (hrange _ hmem), if_neg htext]
  · intro c₁ c₂ h₁ h₂
    rw [List.getElem?_map, hitem, Option.map_some, Option.some_inj] at h₂
    have hc₁ := srv.putCall_ok hpos (hrange _ hmem) h₁
    have hc₂ := srv.batchPutCall_ok hpos (hrange _ hmem) h₂
    refine ⟨hc₁.1, hc₂.1, ?_⟩
    intro now₁ now₂ size
    show (c₂.ttl = c₁.ttl ∧ 0 < c₂.ttl) ↔ millisecond ∣ ttl
    rw [hc₁.2, hc₂.2, ← milliseconds_mul_eq_iff hpos]
    constructor
    · intro h
      exact h.1
    · intro h
      exact ⟨h, by rw [h]; exact hpos⟩

/-- A server whose router hands over the rest of the path as it is. -/
def plainServer : Server where
  param target := some ((target.takeWhile (· != 63)).drop 10)
  query name target := (target.dropWhile (· != 63)).drop (name.length + 2)
  reads := QueryString.reads_split fun path => some (path.drop 10)
  float := .floor
  text s := s
  text_ascii := fun _ _ => rfl
  durationError := fun _ => ""
  base64Error := fun _ => ""
  jsonError := ""

theorem batchSet_expiration_iff_second :
    ∃ calls c₁ c₂,
      plainServer.batchPutCalls (BatchPutRequest.marshal plainServer.text
        (([⟨[97], [1], 1000000000⟩] : List Client.BatchSetItem).map BatchPutItem.ofItem)) =
          .ok calls ∧
      plainServer.putCall (Client.setTarget [97] 1000000000) [1] = some (.ok c₁) ∧
      calls[0]? = some (.ok c₂) ∧
      (c₂.item 0 0).expiration = (c₁.item 0 0).expiration := by
  obtain ⟨calls, hcalls, hserved, hsame⟩ := @batchSet_expiration_iff plainServer
    [⟨[97], [1], 1000000000⟩] (by simp [Int64Range]) 0 [97] [1] 1000000000 rfl (by decide)
  obtain ⟨⟨c₁, h₁⟩, c₂, h₂⟩ := hserved [97] rfl (by decide) (by decide)
  refine ⟨calls, c₁, c₂, hcalls, h₁, h₂, ?_⟩
  exact (((hsame c₁ c₂ h₁ h₂).2.2 0 0 0).2 (by decide)).1

/-- Half a millisecond through a batch never expires, and a millisecond and a half loses the
half. -/
theorem batchSet_drops_half_millisecond :
    ∃ calls c₁ c₂ d₁ d₂,
      plainServer.batchPutCalls (BatchPutRequest.marshal plainServer.text
        (([⟨[97], [1], 500000⟩, ⟨[98], [1], 1500000⟩] :
          List Client.BatchSetItem).map BatchPutItem.ofItem)) = .ok calls ∧
      plainServer.putCall (Client.setTarget [97] 500000) [1] = some (.ok c₁) ∧
      plainServer.putCall (Client.setTarget [98] 1500000) [1] = some (.ok d₁) ∧
      calls = [.ok c₂, .ok d₂] ∧
      (c₁.item 0 0).expiration = 500000 ∧ (c₂.item 0 0).expiration = 0 ∧
      (d₁.item 0 0).expiration = 1500000 ∧ (d₂.item 0 0).expiration = 1000000 := by
  have hrange : ∀ it ∈ ([⟨[97], [1], 500000⟩, ⟨[98], [1], 1500000⟩] : List Client.BatchSetItem),
      Int64Range it.ttl := by simp [Int64Range]
  refine ⟨_, ⟨[97], [1], 500000⟩, ⟨[97], [1], 0⟩, ⟨[98], [1], 1500000⟩, ⟨[98], [1], 1000000⟩,
    plainServer.batchPutCalls_marshal hrange, ?_, ?_, ?_, rfl, rfl, rfl, rfl⟩
  · exact plainServer.putCall_setTarget [97] [1] (by decide) (by simp [Int64Range])
  · exact plainServer.putCall_setTarget [98] [1] (by decide) (by simp [Int64Range])
  · rfl

end HyperCache
