/-
The Redis backend over the keyspace of its server.

An item is a hash under its key, with the serialized item and the text of its
expiration, and the key is tracked in a set of its own.  A `Set` or a `Remove` is one
transaction.  The time to live of a key is state of the server, and a write without an
expiration leaves it alone.  The server and the connection are a `Keyspace.Service`, of
which only what is documented is used.
-/
import Mathlib.Data.Set.Card
import HyperCache.Backend
import HyperCache.Lib.DurationText
import HyperCache.Lib.Keyspace
import HyperCache.Lib.Runs

namespace HyperCache

variable {V σ E : Type}

/-- The serializer of the backend.  A value may have no encoding. -/
structure Serializer (V : Type) where
  marshal : Item V → Option Str
  unmarshal : Str → Option (Item V)

inductive RedisErr (E : Type) where
  | invalid (err : Err)
  | marshal
  | wrapped (err : E) (msg : String)
  | filter (err : Err)
  deriving DecidableEq, Repr

/-- `Redis` without its client: the name of the set of keys and the serializer. -/
structure Redis (V : Type) where
  keysSetName : Str
  serializer : Serializer V

namespace Redis

/-- The field `data`. -/
def dataField : Str := [100, 97, 116, 97]

/-- The field `expiration`. -/
def expirationField : Str := [101, 120, 112, 105, 114, 97, 116, 105, 111, 110]

section

variable (rb : Redis V)

/-- The commands `redisSet` queues. -/
def setCmds (item : Item V) (data : Str) : List (Keyspace.Command Str) :=
  [.hset item.key [(dataField, data), (expirationField, DurationText.format item.expiration)],
    .sadd rb.keysSetName item.key] ++
  (if item.expiration > 0 then [.expire item.key item.expiration] else [])

variable (c : Keyspace.Service σ E Str)

/-- `redisSet`. -/
def set (item : Item V) (s : σ) : σ × Option (RedisErr E) :=
  match item.valid with
  | some e => (s, some (.invalid e))
  | none =>
      match rb.serializer.marshal item with
      | none => (s, some .marshal)
      | some data =>
          let (s, err) := c.exec (rb.setCmds item data) s
          (s, err.map (.wrapped · "failed to execute redis pipeline"))

/-- `redisRemove`. -/
def remove (keys : List Key) (s : σ) : σ × Option (RedisErr E) :=
  let (s, err) := c.exec [.srem rb.keysSetName keys, .del keys] s
  (s, err.map (.wrapped · "executing pipeline"))

def clear (s : σ) : σ × Option (RedisErr E) :=
  let (s, err) := c.flushdb s
  (s, err.map (.wrapped · "flushing database"))

/-- `Count`, which takes an error for an empty database. -/
def count (s : σ) : Nat :=
  match c.dbsize s with
  | .ok n => n
  | .error _ => 0

def get (key : Key) (s : σ) : σ × Option (Item V) :=
  match c.sismember rb.keysSetName key s with
  | (s, .error _) => (s, none)
  | (s, .ok false) => (s, none)
  | (s, .ok true) =>
      match c.hget key dataField s with
      | (s, .error _) => (s, none)
      | (s, .ok none) => (s, none)
      | (s, .ok (some data)) => (s, rb.serializer.unmarshal data)

end

/-- Calls of the backend, and whatever else happens to the server: time passes, keys expire or
are reclaimed, the connection comes and goes. -/
inductive Op (V σ : Type) where
  | set (item : Item V)
  | remove (keys : List Key)
  | clear
  | get (key : Key)
  | other (change : σ → σ)

def step (rb : Redis V) (c : Keyspace.Service σ E Str) (s : σ) : Op V σ → σ
  | .set item => (rb.set c item s).1
  | .remove keys => (rb.remove c keys s).1
  | .clear => (clear c s).1
  | .get key => (rb.get c key s).1
  | .other change => change s

/-! ## The time to live after a set -/

variable (rb : Redis V) {c : Keyspace.Service σ E Str}

/-- The time to live in milliseconds is that of the duration to the second, or there is none. -/
def Corresponds (d : Duration) (ttl : Option Int) : Prop :=
  if d > 0 then ∃ ms, ttl = some ms ∧ (ms * 1000000 - d).natAbs < 1000000000 else ttl = none

/-- A set that succeeds executes its commands. -/
theorem executes_set (hc : c.Documented) {item : Item V} {s : σ}
    (h : (rb.set c item s).2 = none) :
    ∃ data, c.Executes (rb.setCmds item data) s (rb.set c item s).1 := by
  rw [set] at h ⊢
  cases hvalid : item.valid with
  | some e =>
      rw [hvalid] at h
      cases h
  | none =>
      rw [hvalid] at h
      cases hdata : rb.serializer.marshal item with
      | none =>
          rw [hdata] at h
          cases h
      | some data =>
          rw [hdata] at h
          exact ⟨data, hc.exec (Option.map_eq_none_iff.mp h)⟩

/-- A set without an expiration leaves the key the time to live it had before. -/
theorem corresponds_set_iff (hc : c.Documented) {item : Item V} {s : σ}
    (h : (rb.set c item s).2 = none) :
    Corresponds item.expiration (c.pttl (rb.set c item s).1 item.key) ↔
      item.expiration > 0 ∨ c.pttl s item.key = none := by
  obtain ⟨data, hhset, hsadd, hexpire⟩ := rb.executes_set hc h
  obtain ⟨⟨hash, hhash⟩, hkept⟩ := hc.hset hhset
  -- the key of the item is not the set of keys, which now would hold a hash
  have hne : item.key ≠ rb.keysSetName := by
    intro heq
    refine hc.sadd_hash (h := hash) ?_ hsadd
    rw [← heq]
    exact hhash
  obtain ⟨hcontent, hpttl⟩ := hc.sadd_other hne hsadd
  rw [hhash] at hcontent
  rw [hkept] at hpttl
  rw [Corresponds]
  by_cases hexp : item.expiration > 0
  · rw [if_pos hexp] at hexpire
    obtain ⟨hok, hlast⟩ := hexpire
    rw [if_pos hexp, hlast]
    exact iff_of_true (hc.expire hcontent hexp hok) (Or.inl hexp)
  · rw [if_neg hexp] at hexpire
    rw [if_neg hexp, hexpire, hpttl]
    exact ⟨Or.inr, fun hor => hor.resolve_left hexp⟩

end Redis

open Runs

/-- In every run, with whatever other calls and expirations in between, every `Set` that
succeeds leaves the time to live its expiration asks for, exactly when every such `Set` without
an expiration finds its key without a running time to live. -/
theorem redis_ttl_iff {c : Keyspace.Service σ E Str} (hc : c.Documented) (rb : Redis V) (s : σ)
    (ops : List (Redis.Op V σ)) :
    Along (rb.step c) (fun s op => ∀ item, op = .set item → (rb.set c item s).2 = none →
        Redis.Corresponds item.expiration (c.pttl (rb.step c s op) item.key)) s ops ↔
      Along (rb.step c) (fun s op => ∀ item, op = .set item → (rb.set c item s).2 = none →
        item.expiration > 0 ∨ c.pttl s item.key = none) s ops := by
  refine along_congr (I := fun _ => True) (fun _ _ _ => trivial) ?_ trivial ops
  intro s op _
  constructor
  · rintro h item rfl hok
    exact (rb.corresponds_set_iff hc hok).mp (h item rfl hok)
  · rintro h item rfl hok
    exact (rb.corresponds_set_iff hc hok).mpr (h item rfl hok)

namespace Redis

/-- A backend that stores nothing but the value, for items under the key `a`. -/
def plainRedis : Redis Str where
  keysSetName := [114]
  serializer :=
    { marshal := fun item => item.value
      unmarshal := fun data => some { key := [97], value := some data } }

def expiring : Item Str := { key := [97], value := some [1], expiration := 5000000000 }

def persistent : Item Str := { key := [97], value := some [2] }

/-- The server the examples run on. -/
def server : Keyspace.Service (Keyspace.Database Str) Keyspace.Error Str :=
  Keyspace.Database.service

end Redis

/-- A write without an expiration that comes after the key has expired. -/
theorem redis_ttl_iff_expired :
    Along (Redis.plainRedis.step Redis.server)
      (fun s op => ∀ item, op = .set item → (Redis.plainRedis.set Redis.server item s).2 = none →
        Redis.Corresponds item.expiration
          (Redis.server.pttl (Redis.plainRedis.step Redis.server s op) item.key)) ⟨0, ∅⟩
      [.set Redis.expiring, .other (·.elapse 6000), .set Redis.persistent] := by
  refine (redis_ttl_iff Keyspace.Database.documented Redis.plainRedis ⟨0, ∅⟩ _).mpr
    ⟨?_, ?_, ?_, trivial⟩
  · rintro item ⟨⟩ -
    exact Or.inl (by decide)
  · intro item h
    cases h
  · rintro item ⟨⟩ -
    exact Or.inr (by decide)

/-- The second write asks for no expiration, and the key still goes away after five seconds. -/
theorem redis_set_keeps_ttl :
    let s := (Redis.plainRedis.set Redis.server Redis.expiring ⟨0, ∅⟩).1
    (Redis.plainRedis.set Redis.server Redis.persistent s).2 = none ∧
      Redis.persistent.expiration = 0 ∧
      Redis.server.pttl (Redis.plainRedis.set Redis.server Redis.persistent s).1 [97] =
        some 5000 := by
  decide

/-! ## Counting -/

namespace Redis

variable (rb : Redis V) {c : Keyspace.Service σ E Str}

/-- The keys for which `Get` would return an item. -/
def gettable (c : Keyspace.Service σ E Str) (s : σ) : Set Key := {key | (rb.get c key s).2.isSome}

/-- A key is returned from a hash of its own, and only while the set of keys exists. -/
theorem mem_of_gettable (hc : c.Documented) {key : Key} {s : σ} (h : key ∈ rb.gettable c s) :
    key ∈ c.keys s ∧ rb.keysSetName ∈ c.keys s ∧ key ≠ rb.keysSetName := by
  obtain ⟨item, hitem⟩ := Option.isSome_iff_exists.mp h
  have hmember := @hc.sismember s rb.keysSetName key
  rw [get] at hitem
  rcases hreply : c.sismember rb.keysSetName key s with ⟨s', e | b⟩
  · rw [hreply] at hitem
    cases hitem
  rw [hreply] at hitem hmember
  obtain ⟨hsame, hset⟩ := hmember rfl
  cases b with
  | false => cases hitem
  | true =>
      obtain ⟨ms, hms⟩ := hset rfl
      have hhash : ∀ {v}, (c.hget key dataField s').2 = .ok (some v) →
          ∃ hash, c.content s' key = some (.hash hash) := hc.hget
      rcases hdata : c.hget key dataField s' with ⟨s'', e | _ | data⟩
      · simp only [hdata] at hitem
        cases hitem
      · simp only [hdata] at hitem
        cases hitem
      · rw [hdata] at hhash
        obtain ⟨hash, hhash⟩ := hhash rfl
        rw [hsame] at hhash
        refine ⟨hc.live hhash, hc.live hms, ?_⟩
        rintro rfl
        rw [hhash] at hms
        cases hms

theorem finite_gettable (hc : c.Documented) (s : σ) : (rb.gettable c s).Finite :=
  (c.keys s).finite_toSet.subset fun _ h => (rb.mem_of_gettable hc h).1

/-- The set of keys is counted and never returned. -/
theorem ncard_gettable_lt (hc : c.Documented) {s : σ} (h : c.keys s ≠ ∅) :
    (rb.gettable c s).ncard < (c.keys s).card := by
  rw [← Set.ncard_coe_finset]
  refine Set.ncard_lt_ncard ⟨fun key hkey => (rb.mem_of_gettable hc hkey).1, fun hsup => ?_⟩
    (Finset.finite_toSet _)
  obtain ⟨key, hkey⟩ := Finset.nonempty_iff_ne_empty.mpr h
  have hname := (rb.mem_of_gettable hc (hsup hkey)).2.1
  exact (rb.mem_of_gettable hc (hsup hname)).2.2 rfl

end Redis

/-- After every run of calls and expirations a `Count` that is answered is the number of keys
`Get` returns an item for exactly when the database holds nothing at all. -/
theorem redis_count_iff {c : Keyspace.Service σ E Str} (hc : c.Documented) (rb : Redis V) (s₀ : σ)
    (ops : List (Redis.Op V σ)) (hreply : (c.dbsize (ops.foldl (rb.step c) s₀)).isOk = true) :
    let s := ops.foldl (rb.step c) s₀
    (rb.gettable c s).Finite ∧
      (Redis.count c s = (rb.gettable c s).ncard ↔ c.keys s = ∅) := by
  intro s
  refine ⟨rb.finite_gettable hc s, ?_⟩
  have hcount : Redis.count c s = (c.keys s).card := by
    rw [Redis.count]
    cases hsize : c.dbsize s with
    | error e =>
        have hfailed : (c.dbsize s).isOk = true := hreply
        rw [hsize] at hfailed
        cases hfailed
    | ok n => exact hc.dbsize hsize
  rw [hcount]
  constructor
  · intro h
    by_contra hne
    exact absurd h.symm (rb.ncard_gettable_lt hc hne).ne
  · intro h
    have hnone : rb.gettable c s = ∅ := by
      refine Set.eq_empty_of_forall_notMem fun key hkey => ?_
      have hmem := (rb.mem_of_gettable hc hkey).1
      rw [h] at hmem
      exact absurd hmem (Finset.notMem_empty key)
    rw [hnone, h, Set.ncard_empty, Finset.card_empty]

/-- A key that is set and removed leaves nothing behind. -/
theorem redis_count_iff_removed :
    let s := [Redis.Op.set Redis.persistent, .remove [[97]]].foldl
      (Redis.plainRedis.step Redis.server) ⟨0, ∅⟩
    Redis.count Redis.server s = (Redis.plainRedis.gettable Redis.server s).ncard :=
  (redis_count_iff (c := Redis.server) Keyspace.Database.documented Redis.plainRedis ⟨0, ∅⟩
    [.set Redis.persistent, .remove [[97]]] rfl).2.mpr (by decide)

/-- After one set, with room for one item, two are counted. -/
theorem redis_counts_set_of_keys :
    let s := [Redis.Op.set Redis.persistent].foldl (Redis.plainRedis.step Redis.server) ⟨0, ∅⟩
    (Redis.plainRedis.set Redis.server Redis.persistent ⟨0, ∅⟩).2 = none ∧
      Redis.count Redis.server s = 2 ∧
      Redis.plainRedis.gettable Redis.server s = {[97]} := by
  intro s
  refine ⟨by decide, by decide, ?_⟩
  ext key
  constructor
  · intro hkey
    obtain ⟨hmem, -, hne⟩ :=
      Redis.plainRedis.mem_of_gettable (c := Redis.server) Keyspace.Database.documented hkey
    have hkeys : Redis.server.keys s = {[114], [97]} := by decide
    rw [hkeys, Finset.mem_insert, Finset.mem_singleton] at hmem
    exact hmem.resolve_left hne
  · rintro rfl
    show (Redis.plainRedis.get Redis.server [97] s).2.isSome = true
    decide

end HyperCache
