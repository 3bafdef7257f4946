/-
A server of hashes and sets whose keys can expire, as Redis documents it.

`Service` is the server as a client reaches it.  Its commands are parameters, any of
them can fail, and `Documented` says what is known of those that do not.  Its state is
seen through three questions: which keys there are, what a live key holds, and how long
it has left.

`Database` is such a server with a connection that never fails.  An expired key stays
in it until it is written; commands do not see it, but it still counts.
-/
import Mathlib.Data.Finset.Card
import Mathlib.Data.List.AList
import Mathlib.Data.List.Dedup

namespace Keyspace

/-! ## The service -/

structure Members (B : Type) where
  list : List B
  nodup : list.Nodup

inductive Content (B : Type) where
  | hash (fields : AList fun _ : B => B)
  | set (members : Members B)

/-- The commands that change a database.  A duration is in nanoseconds. -/
inductive Command (B : Type) where
  | hset (key : B) (fields : List (B × B))
  | sadd (key member : B)
  | srem (key : B) (members : List B)
  | del (keys : List B)
  | expire (key : B) (duration : Int)

/-- A server with the connection to it.  `run` is one command at the server, `exec` a
transaction. -/
structure Service (σ E B : Type) where
  keys : σ → Finset B
  content : σ → B → Option (Content B)
  pttl : σ → B → Option Int
  run : Command B → σ → σ × Option E
  exec : List (Command B) → σ → σ × Option E
  flushdb : σ → σ × Option E
  dbsize : σ → Except E Nat
  sismember : B → B → σ → σ × Except E Bool
  hget : B → B → σ → σ × Except E (Option B)
  smembers : B → σ → σ × Except E (List B)
  hgetalls : List B → σ → σ × Except E (List (AList fun _ : B => B))

namespace Service

variable {σ E B : Type}

/-- The commands succeed one after the other. -/
def Executes (c : Service σ E B) : List (Command B) → σ → σ → Prop
  | [], s, s' => s' = s
  | cmd :: cmds, s, s' => (c.run cmd s).2 = none ∧ c.Executes cmds (c.run cmd s).1 s'

/-- What the documentation says of a command that answers without an error.  Only `expire`
changes a time to live, which it gives in milliseconds and to the second. -/
structure Documented (c : Service σ E B) : Prop where
  live : ∀ {s k v}, c.content s k = some v → k ∈ c.keys s
  exec : ∀ {cmds s}, (c.exec cmds s).2 = none → c.Executes cmds s (c.exec cmds s).1
  hset : ∀ {s k fields}, (c.run (.hset k fields) s).2 = none →
    (∃ h, c.content (c.run (.hset k fields) s).1 k = some (.hash h)) ∧
      c.pttl (c.run (.hset k fields) s).1 k = c.pttl s k
  sadd_hash : ∀ {s k h m}, c.content s k = some (.hash h) → (c.run (.sadd k m) s).2 ≠ none
  sadd_other : ∀ {s k j m}, j ≠ k → (c.run (.sadd k m) s).2 = none →
    c.content (c.run (.sadd k m) s).1 j = c.content s j ∧
      c.pttl (c.run (.sadd k m) s).1 j = c.pttl s j
  expire : ∀ {s k v d}, c.content s k = some v → 0 < d → (c.run (.expire k d) s).2 = none →
    ∃ ms, c.pttl (c.run (.expire k d) s).1 k = some ms ∧ (ms * 1000000 - d).natAbs < 1000000000
  dbsize : ∀ {s n}, c.dbsize s = .ok n → n = (c.keys s).card
  sismember : ∀ {s k m b}, (c.sismember k m s).2 = .ok b →
    c.content (c.sismember k m s).1 = c.content s ∧
      (b = true → ∃ ms, c.content s k = some (.set ms))
  hget : ∀ {s k field v}, (c.hget k field s).2 = .ok (some v) →
    ∃ h, c.content s k = some (.hash h)
  smembers : ∀ {s k ms}, (c.smembers k s).2 = .ok ms →
    c.content (c.smembers k s).1 = c.content s ∧
      (c.content s k = none ∧ ms = [] ∨ ∃ set, c.content s k = some (.set set) ∧ ms.Perm set.list)
  hgetalls : ∀ {s ks hs}, (c.hgetalls ks s).2 = .ok hs → List.Forall₂ (fun k h =>
    c.content s k = none ∧ h = ∅ ∨ c.content s k = some (.hash h)) ks hs

end Service

variable {B : Type} [DecidableEq B]

/-! ## A database -/

namespace Members

def add (m : B) (s : Members B) : Members B := ⟨s.list.insert m, s.nodup.insert⟩

def remove (ms : List B) (s : Members B) : Members B :=
  ⟨s.list.filter (fun m => !ms.contains m), s.nodup.filter _⟩

end Members

/-- The deadline is in milliseconds. -/
structure Entry (B : Type) where
  content : Content B
  deadline : Option Int

def Entry.expired (now : Int) (e : Entry B) : Bool := e.deadline.any fun d => decide (d < now)

structure Database (B : Type) [DecidableEq B] where
  now : Int
  entries : AList fun _ : B => Entry B

/-- What a command fails with on a key of the other type. -/
inductive Error where
  | wrongType
  deriving DecidableEq, Repr

namespace Database

def find (db : Database B) (k : B) : Option (Entry B) :=
  (db.entries.lookup k).filter fun e => !e.expired db.now

def store (k : B) (e : Entry B) (db : Database B) : Database B :=
  { db with entries := db.entries.insert k e }

def erase (k : B) (db : Database B) : Database B := { db with entries := db.entries.erase k }

def assign (fields : List (B × B)) (h : AList fun _ : B => B) : AList fun _ : B => B :=
  fields.foldl (fun h f => h.insert f.1 f.2) h

def hset (k : B) (fields : List (B × B)) (db : Database B) : Database B × Option Error :=
  match db.find k with
  | none => (db.store k ⟨.hash (assign fields ∅), none⟩, none)
  | some ⟨.hash h, deadline⟩ => (db.store k ⟨.hash (assign fields h), deadline⟩, none)
  | some ⟨.set _, _⟩ => (db, some .wrongType)

def sadd (k m : B) (db : Database B) : Database B × Option Error :=
  match db.find k with
  | none => (db.store k ⟨.set ⟨[m], List.nodup_singleton m⟩, none⟩, none)
  | some ⟨.set s, deadline⟩ => (db.store k ⟨.set (s.add m), deadline⟩, none)
  | some ⟨.hash _, _⟩ => (db, some .wrongType)

def srem (k : B) (ms : List B) (db : Database B) : Database B × Option Error :=
  match db.find k with
  | none => (db, none)
  | some ⟨.set s, deadline⟩ =>
      if (s.remove ms).list = [] then (db.erase k, none)
      else (db.store k ⟨.set (s.remove ms), deadline⟩, none)
  | some ⟨.hash _, _⟩ => (db, some .wrongType)

/-- The whole seconds of a duration, and one for less. -/
def seconds (d : Int) : Int := if 0 < d ∧ d < 1000000000 then 1 else d.tdiv 1000000000

/-- A time that is not in the future removes the key. -/
def expire (k : B) (d : Int) (db : Database B) : Database B × Option Error :=
  match db.find k with
  | none => (db, none)
  | some e =>
      if seconds d ≤ 0 then (db.erase k, none)
      else (db.store k { e with deadline := some (db.now + seconds d * 1000) }, none)

def run : Command B → Database B → Database B × Option Error
  | .hset k fields => hset k fields
  | .sadd k m => sadd k m
  | .srem k ms => srem k ms
  | .del ks => fun db => (ks.foldl (fun db k => db.erase k) db, none)
  | .expire k d => expire k d

/-- A transaction executes every command and answers with the first error. -/
def exec : List (Command B) → Database B → Database B × Option Error
  | [], db => (db, none)
  | cmd :: cmds, db =>
      ((exec cmds (run cmd db).1).1, (run cmd db).2.or (exec cmds (run cmd db).1).2)

def content (db : Database B) (k : B) : Option (Content B) := (db.find k).map Entry.content

/-- The milliseconds left, and nothing for a missing key and for one without a deadline. -/
def pttl (db : Database B) (k : B) : Option Int :=
  ((db.find k).bind Entry.deadline).map (· - db.now)

/-- The set of a key, empty when the key is missing. -/
def setOf (db : Database B) (k : B) : Except Error (Members B) :=
  match db.content k with
  | none => .ok ⟨[], List.nodup_nil⟩
  | some (.set s) => .ok s
  | some (.hash _) => .error .wrongType

/-- The hash of a key, empty when the key is missing. -/
def hashOf (db : Database B) (k : B) : Except Error (AList fun _ : B => B) :=
  match db.content k with
  | none => .ok ∅
  | some (.hash h) => .ok h
  | some (.set _) => .error .wrongType

def elapse (ms : Nat) (db : Database B) : Database B := { db with now := db.now + ms }

def service : Service (Database B) Error B where
  keys db := db.entries.keys.toFinset
  content := content
  pttl := pttl
  run := run
  exec := exec
  flushdb db := ({ db with entries := ∅ }, none)
  dbsize db := .ok db.entries.keys.length
  sismember k m db := (db, (db.setOf k).map (·.list.contains m))
  hget k field db := (db, (db.hashOf k).map (·.lookup field))
  smembers k db := (db, (db.setOf k).map Members.list)
  hgetalls ks db := (db, ks.mapM db.hashOf)

/-! ## It does what is documented -/

theorem find_store_self {k : B} {e : Entry B} {db : Database B} (h : e.expired db.now = false) :
    (db.store k e).find k = some e := by
  simp [find, store, h]

theorem find_store_ne {k j : B} (h : j ≠ k) (e : Entry B) (db : Database B) :
    (db.store k e).find j = db.find j := by
  simp [find, store, h]

theorem expired_of_find {k : B} {e : Entry B} {db : Database B} (h : db.find k = some e) :
    e.expired db.now = false := by
  rw [find, Option.filter_eq_some_iff] at h
  simpa using h.2

theorem mem_of_find {k : B} {e : Entry B} {db : Database B} (h : db.find k = some e) :
    k ∈ db.entries.keys := by
  rw [find, Option.filter_eq_some_iff] at h
  rw [← AList.mem_keys, ← AList.lookup_isSome, h.1]
  rfl

theorem content_eq_some {k : B} {v : Content B} {db : Database B} :
    db.content k = some v ↔ ∃ due, db.find k = some ⟨v, due⟩ := by
  rw [content, Option.map_eq_some_iff]
  constructor
  · rintro ⟨e, he, rfl⟩
    exact ⟨e.deadline, he⟩
  · rintro ⟨due, hdue⟩
    exact ⟨_, hdue, rfl⟩

/-- A write to a hash that succeeds keeps the deadline. -/
theorem hset_spec {k : B} {fields : List (B × B)} {db : Database B}
    (h : (db.hset k fields).2 = none) :
    (∃ hash, (db.hset k fields).1.content k = some (.hash hash)) ∧
      (db.hset k fields).1.pttl k = db.pttl k := by
  rw [hset, pttl, pttl] at *
  cases hfind : db.find k with
  | none =>
      have hstored : (db.store k ⟨.hash (assign fields ∅), none⟩).find k = some _ :=
        find_store_self rfl
      exact ⟨⟨_, content_eq_some.mpr ⟨_, hstored⟩⟩, by rw [hstored]; rfl⟩
  | some e =>
      obtain ⟨content, due⟩ := e
      have hlive := expired_of_find hfind
      rw [hfind] at h
      cases content with
      | set s => cases h
      | hash fs =>
          have hstored : (db.store k ⟨.hash (assign fields fs), due⟩).find k = some _ :=
            find_store_self hlive
          exact ⟨⟨_, content_eq_some.mpr ⟨_, hstored⟩⟩, by rw [hstored]; rfl⟩

theorem sadd_hash {k m : B} {db : Database B} {hash : AList fun _ : B => B}
    (h : db.content k = some (.hash hash)) : (db.sadd k m).2 ≠ none := by
  obtain ⟨due, hfind⟩ := content_eq_some.mp h
  rw [sadd, hfind]
  exact Option.some_ne_none _

theorem sadd_other {k j : B} (hne : j ≠ k) (m : B) (db : Database B) :
    (db.sadd k m).1.content j = db.content j ∧ (db.sadd k m).1.pttl j = db.pttl j := by
  have hsame : (db.sadd k m).1.now = db.now ∧ (db.sadd k m).1.find j = db.find j := by
    rw [sadd]
    cases db.find k with
    | none => exact ⟨rfl, find_store_ne hne _ db⟩
    | some e =>
        obtain ⟨content, due⟩ := e
        cases content with
        | hash fs => exact ⟨rfl, rfl⟩
        | set s => exact ⟨rfl, find_store_ne hne _ db⟩
  rw [content, pttl, hsame.1, hsame.2]
  exact ⟨rfl, rfl⟩

theorem seconds_near {d : Int} (h : 0 < d) :
    0 < seconds d ∧ (seconds d * 1000 * 1000000 - d).natAbs < 1000000000 := by
  rw [seconds]
  split
  · omega
  · rw [Int.tdiv_eq_ediv_of_nonneg (Int.le_of_lt h)]
    omega

theorem expire_spec {k : B} {v : Content B} {d : Int} {db : Database B}
    (h : db.content k = some v) (hpos : 0 < d) :
    ∃ ms, (db.expire k d).1.pttl k = some ms ∧ (ms * 1000000 - d).natAbs < 1000000000 := by
  obtain ⟨due, hfind⟩ := content_eq_some.mp h
  obtain ⟨hsec, hnear⟩ := seconds_near hpos
  have hlive : (⟨v, some (db.now + seconds d * 1000)⟩ : Entry B).expired db.now = false := by
    show decide (db.now + seconds d * 1000 < db.now) = false
    rw [decide_eq_false_iff_not]
    omega
  refine ⟨seconds d * 1000, ?_, hnear⟩
  rw [expire, hfind]
  simp only [if_neg (Int.not_le.mpr hsec)]
  rw [pttl, find_store_self hlive]
  show some (db.now + seconds d * 1000 - db.now) = _
  rw [Int.add_comm, Int.add_sub_cancel]

theorem exec_spec {cmds : List (Command B)} {db : Database B} (h : (db.exec cmds).2 = none) :
    service.Executes cmds db (db.exec cmds).1 := by
  induction cmds generalizing db with
  | nil => rfl
  | cons cmd cmds ih =>
      obtain ⟨hfirst, hrest⟩ := Option.or_eq_none_iff.mp h
      exact ⟨hfirst, ih hrest⟩

theorem of_setOf {k : B} {set : Members B} {db : Database B} (h : db.setOf k = .ok set) :
    db.content k = none ∧ set.list = [] ∨ db.content k = some (.set set) := by
  rw [setOf] at h
  split at h
  case h_1 hnone =>
    cases h
    exact Or.inl ⟨hnone, rfl⟩
  case h_2 hset =>
    cases h
    exact Or.inr hset
  case h_3 => cases h

theorem of_hashOf {k : B} {hash : AList fun _ : B => B} {db : Database B}
    (h : db.hashOf k = .ok hash) :
    db.content k = none ∧ hash = ∅ ∨ db.content k = some (.hash hash) := by
  rw [hashOf] at h
  split at h
  case h_1 hnone =>
    cases h
    exact Or.inl ⟨hnone, rfl⟩
  case h_2 hhash =>
    cases h
    exact Or.inr hhash
  case h_3 => cases h

theorem of_map_ok {X Y : Type} {x : Except Error X} {f : X → Y} {y : Y} (h : x.map f = .ok y) :
    ∃ a, x = .ok a ∧ f a = y := by
  cases x with
  | error e => cases h
  | ok a => exact ⟨a, rfl, Except.ok.inj h⟩

theorem sismember_spec {k m : B} {b : Bool} {db : Database B}
    (h : (db.setOf k).map (·.list.contains m) = .ok b) (hb : b = true) :
    ∃ set, db.content k = some (.set set) := by
  obtain ⟨set, hset, hmem⟩ := of_map_ok h
  rcases of_setOf hset with ⟨-, hnil⟩ | hcontent
  · rw [hnil, hb] at hmem
    cases hmem
  · exact ⟨set, hcontent⟩

theorem smembers_spec {k : B} {ms : List B} {db : Database B}
    (h : (db.setOf k).map Members.list = .ok ms) :
    db.content k = none ∧ ms = [] ∨
      ∃ set, db.content k = some (.set set) ∧ ms.Perm set.list := by
  obtain ⟨set, hset, rfl⟩ := of_map_ok h
  exact (of_setOf hset).imp_right fun hcontent => ⟨set, hcontent, .refl _⟩

theorem hget_spec {k field v : B} {db : Database B}
    (h : (db.hashOf k).map (·.lookup field) = .ok (some v)) :
    ∃ hash, db.content k = some (.hash hash) := by
  obtain ⟨hash, hhash, hfield⟩ := of_map_ok h
  rcases of_hashOf hhash with ⟨-, rfl⟩ | hcontent
  · cases hfield
  · exact ⟨hash, hcontent⟩

theorem hgetalls_spec {ks : List B} {hs : List (AList fun _ : B => B)} {db : Database B}
    (h : ks.mapM db.hashOf = .ok hs) : List.Forall₂ (fun k h =>
      db.content k = none ∧ h = ∅ ∨ db.content k = some (.hash h)) ks hs := by
  induction ks generalizing hs with
  | nil =>
      cases h
      exact .nil
  | cons k ks ih =>
      rw [List.mapM_cons] at h
      cases hfirst : db.hashOf k with
      | error e =>
          rw [hfirst] at h
          cases h
      | ok hash =>
          cases hrest : ks.mapM db.hashOf with
          | error e =>
              rw [hfirst, hrest] at h
              cases h
          | ok rest =>
              rw [hfirst, hrest] at h
              cases h
              exact .cons (of_hashOf hfirst) (ih hrest)

theorem documented : (service : Service (Database B) Error B).Documented where
  live := by
    intro db k v h
    obtain ⟨due, hfind⟩ := content_eq_some.mp h
    exact List.mem_toFinset.mpr (mem_of_find hfind)
  exec := exec_spec
  hset := hset_spec
  sadd_hash := sadd_hash
  sadd_other := fun hne _ => sadd_other hne _ _
  expire := fun h hpos _ => expire_spec h hpos
  dbsize := by
    intro db n h
    rw [← Except.ok.inj h]
    exact (List.toFinset_card_of_nodup db.entries.keys_nodup).symm
  sismember := fun h => ⟨rfl, sismember_spec h⟩
  hget := hget_spec
  smembers := fun h => ⟨rfl, smembers_spec h⟩
  hgetalls := hgetalls_spec

end Database

end Keyspace
