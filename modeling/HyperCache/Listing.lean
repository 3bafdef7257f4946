/-
`List` of the in-memory and of the Redis backend, through the same filters.

The in-memory backend stops at the first filter that fails.  `redisList` goes on with no
items, and of the errors it keeps only what the last filter returns.  `Satisfies` is what
a listing is asked for: the items that pass every predicate, in the order of the last
sort, turned around by every descending order after it.
-/
import HyperCache.Expiration
import HyperCache.Redis

namespace HyperCache

open Sorting

variable {V σ E : Type}

/-! ## Listing -/

namespace Filter

/-- The filter loop of `redisList`. -/
def applyEach (s : ItemSorts V) (filters : List (Filter V)) (items : List (Item V)) :
    List (Item V) × Option Err :=
  filters.foldl (fun (items, _) f =>
    match f.applyFilter s items with
    | .ok out => (out, none)
    | .error e => ([], some e)) (items, none)

end Filter

namespace Redis

variable (rb : Redis V)

/-- What a fetched hash decodes to.  Without the field the serializer gets an empty text. -/
def decode (fields : AList fun _ : Str => Str) : Option (Item V) :=
  rb.serializer.unmarshal ((fields.lookup dataField).getD [])

variable (c : Keyspace.Service σ E Str)

/-- `redisList`. -/
def list (sorts : ItemSorts V) (filters : List (Filter V)) (s : σ) :
    σ × List (Item V) × Option (RedisErr E) :=
  match c.smembers rb.keysSetName s with
  | (s, .error e) => (s, [], some (.wrapped e "failed to get keys from redis"))
  | (s, .ok keys) =>
      match c.hgetalls keys s with
      | (s, .error e) =>
          (s, [], some (.wrapped e "failed to execute redis pipeline while listing"))
      | (s, .ok hashes) =>
          let (items, err) := Filter.applyEach sorts filters (hashes.filterMap rb.decode)
          (s, items, err.map .filter)

/-- The server answers the two requests of a listing. -/
def Answers (s : σ) : Prop :=
  ∃ keys hashes, (c.smembers rb.keysSetName s).2 = .ok keys ∧
    (c.hgetalls keys (c.smembers rb.keysSetName s).1).2 = .ok hashes

def trackedKeys (s : σ) : List Key :=
  match c.content s rb.keysSetName with
  | some (.set keys) => keys.list
  | _ => []

/-- The item stored under a key, if it decodes. -/
def item (s : σ) (key : Key) : Option (Item V) :=
  match c.content s key with
  | some (.hash fields) => rb.decode fields
  | _ => none

/-- The tracked keys hold these items, and every one of them decodes. -/
def Holds (s : σ) (items : List (Item V)) : Prop :=
  (rb.trackedKeys c s).map (rb.item c s) = items.map some

end Redis

/-! ## What a listing is asked for -/

namespace Filter

def knownField (field : String) : Bool :=
  field == "Key" || field == "LastAccess" || field == "AccessCount" || field == "Expiration"

/-- The order a sort by the field puts items in. -/
def fieldLe : String → Item V → Item V → Prop
  | "Key", a, b => a.key ≤ b.key
  | "LastAccess", a, b => a.lastAccess ≤ b.lastAccess
  | "AccessCount", a, b => a.accessCount ≤ b.accessCount
  | "Expiration", a, b => a.expiration ≤ b.expiration
  | _, _, _ => True

def valid : Filter V → Bool
  | .sortBy field => knownField field
  | _ => true

/-- The field a list is sorted by and whether it is descending, after one more filter. -/
def arrange (order : Option (String × Bool)) : Filter V → Option (String × Bool)
  | .sortBy field => some (field, false)
  | .sortOrder ascending => order.map fun o => (o.1, if ascending then o.2 else !o.2)
  | .filterFunc _ => order

def Arranged (items : List (Item V)) : Option (String × Bool) → Prop
  | none => True
  | some (field, false) => items.Pairwise (fieldLe field)
  | some (field, true) => items.Pairwise (fun a b => fieldLe field b a)

/-- The listing has the items that pass the filters, in the order they ask for. -/
def Satisfies (filters : List (Filter V)) (items out : List (Item V)) : Prop :=
  out.Perm (items.filter fun it => filters.all (·.passes it)) ∧
    Arranged out (filters.foldl arrange none)

theorem byField_isSome (s : ItemSorts V) (field : String) :
    (s.byField field).isSome = knownField field := by
  unfold ItemSorts.byField knownField
  split
  · rfl
  · rfl
  · rfl
  · rfl
  · rename_i hkey haccess hcount hexp
    simp only [Option.isSome_none, Bool.false_eq, Bool.or_eq_false_iff, beq_eq_false_iff_ne]
    exact ⟨⟨⟨hkey, haccess⟩, hcount⟩, hexp⟩

theorem byField_sorted {s : ItemSorts V} {field : String}
    {sort : List (Item V) → List (Item V)} (h : s.byField field = some sort)
    (items : List (Item V)) : (sort items).Pairwise (fieldLe field) := by
  unfold ItemSorts.byField at h
  split at h <;> cases h
  · exact s.key.sorted items
  · exact s.lastAccess.sorted items
  · exact s.accessCount.sorted items
  · exact s.expiration.sorted items

theorem applyFilter_ok (s : ItemSorts V) (items : List (Item V)) {f : Filter V}
    (h : f.valid = true) : ∃ out, f.applyFilter s items = .ok out := by
  cases f with
  | sortBy field =>
      change knownField field = true at h
      rw [← byField_isSome s, Option.isSome_iff_exists] at h
      obtain ⟨sort, hsort⟩ := h
      exact ⟨sort items, by rw [applyFilter, hsort]⟩
  | sortOrder ascending => exact ⟨_, rfl⟩
  | filterFunc fn => exact ⟨_, rfl⟩

theorem applyFilter_error (s : ItemSorts V) (items : List (Item V)) {f : Filter V}
    (h : f.valid = false) : ∃ e, f.applyFilter s items = .error e := by
  cases f with
  | sortBy field =>
      change knownField field = false at h
      rw [← byField_isSome s, Option.isSome_eq_false_iff, Option.isNone_iff_eq_none] at h
      exact ⟨.invalidSortField field, by rw [applyFilter, h]⟩
  | sortOrder ascending => cases h
  | filterFunc fn => cases h

theorem Arranged.reverse {items : List (Item V)} {order : Option (String × Bool)}
    (h : Arranged items order) :
    Arranged items.reverse (order.map fun o => (o.1, !o.2)) := by
  cases order with
  | none => trivial
  | some o =>
      obtain ⟨field, descending⟩ := o
      cases descending with
      | false => exact List.pairwise_reverse.2 h
      | true => exact List.pairwise_reverse.2 h

theorem Arranged.filter {items : List (Item V)} {order : Option (String × Bool)}
    (h : Arranged items order) (fn : Item V → Bool) : Arranged (items.filter fn) order := by
  cases order with
  | none => trivial
  | some o =>
      obtain ⟨field, descending⟩ := o
      cases descending with
      | false => exact List.Pairwise.filter fn h
      | true => exact List.Pairwise.filter fn h

/-- One filter brings a list into the order it asks for. -/
theorem arranged_applyFilter {s : ItemSorts V} {items out : List (Item V)}
    {order : Option (String × Bool)} {f : Filter V} (hitems : Arranged items order)
    (h : f.applyFilter s items = .ok out) : Arranged out (arrange order f) := by
  cases f with
  | sortBy field =>
      rw [applyFilter] at h
      cases hsort : s.byField field with
      | none =>
          rw [hsort] at h
          cases h
      | some sort =>
          rw [hsort] at h
          cases h
          exact byField_sorted hsort items
  | sortOrder ascending =>
      cases h
      cases ascending with
      | false => exact hitems.reverse
      | true =>
          show Arranged items (order.map id)
          rw [Option.map_id]
          exact hitems
  | filterFunc fn =>
      cases h
      exact hitems.filter fn

theorem arranged_applyAll {s : ItemSorts V} {filters : List (Filter V)}
    {items out : List (Item V)} {order : Option (String × Bool)} (hitems : Arranged items order)
    (h : applyAll s filters items = .ok out) : Arranged out (filters.foldl arrange order) := by
  induction filters generalizing items order with
  | nil =>
      cases h
      exact hitems
  | cons f rest ih =>
      rw [applyAll] at h
      cases hf : f.applyFilter s items with
      | error e =>
          rw [hf] at h
          cases h
      | ok kept =>
          rw [hf] at h
          exact ih (arranged_applyFilter hitems hf) h

theorem satisfies_applyAll {s : ItemSorts V} {filters : List (Filter V)}
    {items out : List (Item V)} (h : applyAll s filters items = .ok out) :
    Satisfies filters items out :=
  ⟨applyAll_perm h, arranged_applyAll trivial h⟩

theorem Satisfies.of_perm {filters : List (Filter V)} {items items' out : List (Item V)}
    (h : Satisfies filters items out) (hperm : items.Perm items') :
    Satisfies filters items' out :=
  ⟨h.1.trans (hperm.filter _), h.2⟩

/-! ## Where the two loops fail -/

theorem applyAll_ok (s : ItemSorts V) {filters : List (Filter V)}
    (h : ∀ f ∈ filters, f.valid = true) (items : List (Item V)) :
    ∃ out, applyAll s filters items = .ok out ∧ applyEach s filters items = (out, none) := by
  induction filters generalizing items with
  | nil => exact ⟨items, rfl, rfl⟩
  | cons f rest ih =>
      obtain ⟨kept, hkept⟩ := applyFilter_ok s items (h f List.mem_cons_self)
      obtain ⟨out, hall, heach⟩ := ih (fun g hg => h g (List.mem_cons_of_mem f hg)) kept
      refine ⟨out, ?_, ?_⟩
      · rw [applyAll, hkept]
        exact hall
      · rw [applyEach, List.foldl_cons]
        simp only [hkept]
        exact heach

theorem applyAll_error (s : ItemSorts V) {filters : List (Filter V)} {f : Filter V}
    (hf : f ∈ filters) (h : f.valid = false) (items : List (Item V)) :
    ∃ e, applyAll s filters items = .error e := by
  induction filters generalizing items with
  | nil => cases hf
  | cons g rest ih =>
      rw [applyAll]
      cases hg : g.applyFilter s items with
      | error e => exact ⟨e, rfl⟩
      | ok kept =>
          rcases List.mem_cons.1 hf with rfl | hf
          · obtain ⟨e, he⟩ := applyFilter_error s items h
            rw [he] at hg
            cases hg
          · exact ih hf kept

/-- Of the errors only that of the last filter is left. -/
theorem applyEach_error_iff (s : ItemSorts V) (filters : List (Filter V))
    (items : List (Item V)) :
    (applyEach s filters items).2.isSome ↔ ∃ f ∈ filters.getLast?, f.valid = false := by
  rcases List.eq_nil_or_concat filters with rfl | ⟨front, last, rfl⟩
  · simp [applyEach]
  · rw [List.concat_eq_append, applyEach, List.foldl_append, List.getLast?_concat]
    simp only [List.foldl_cons, List.foldl_nil, Option.mem_some_iff, exists_eq_left']
    cases hlast : last.valid with
    | true =>
        obtain ⟨out, hout⟩ := applyFilter_ok s (applyEach s front items).1 hlast
        rw [applyEach] at hout
        simp [hout]
    | false =>
        obtain ⟨e, he⟩ := applyFilter_error s (applyEach s front items).1 hlast
        rw [applyEach] at he
        simp [he]

end Filter

/-! ## The two listings -/

namespace Redis

variable (rb : Redis V)

variable {c : Keyspace.Service σ E Str}

theorem filterMap_decode {s : σ} {keys : List Key} {hashes : List (AList fun _ : Str => Str)}
    (hstored : ∀ k ∈ keys, rb.item c s k ≠ none)
    (h : List.Forall₂ (fun k h => c.content s k = none ∧ h = ∅ ∨
      c.content s k = some (.hash h)) keys hashes) :
    hashes.filterMap rb.decode = keys.filterMap (rb.item c s) := by
  induction h with
  | nil => rfl
  | @cons k h keys hashes hone _ ih =>
      have hitem : rb.item c s k = rb.decode h := by
        have hk := hstored k List.mem_cons_self
        rw [item] at hk ⊢
        rcases hone with ⟨hnone, -⟩ | hhash
        · rw [hnone] at hk
          exact absurd rfl hk
        · rw [hhash]
      rw [List.filterMap_cons, List.filterMap_cons, hitem,
        ih fun k' hk' => hstored k' (List.mem_cons_of_mem k hk')]

/-- A listing that is answered is the filter loop over the stored items. -/
theorem list_eq (hc : c.Documented) (sorts : ItemSorts V) (filters : List (Filter V)) {s : σ}
    (hreply : rb.Answers c s) {items : List (Item V)} (h : rb.Holds c s items) :
    ∃ items', items'.Perm items ∧ (rb.list c sorts filters s).2 =
      ((Filter.applyEach sorts filters items').1,
        (Filter.applyEach sorts filters items').2.map .filter) := by
  obtain ⟨keys, hashes, hmembers, hfetch⟩ := hreply
  obtain ⟨hsame, hkeys⟩ := hc.smembers hmembers
  have hperm : keys.Perm (rb.trackedKeys c s) := by
    rw [trackedKeys]
    rcases hkeys with ⟨hnone, rfl⟩ | ⟨set, hset, hperm⟩
    · rw [hnone]
    · rw [hset]
      exact hperm
  have hstored : ∀ k ∈ keys, rb.item c s k ≠ none := by
    intro k hk hnone
    have hmem := List.mem_map_of_mem (f := rb.item c s) (hperm.mem_iff.mp hk)
    rw [h, hnone] at hmem
    obtain ⟨it, -, hit⟩ := List.mem_map.mp hmem
    cases hit
  have hhashes := hc.hgetalls hfetch
  rw [hsame] at hhashes
  refine ⟨keys.filterMap (rb.item c s), ?_, ?_⟩
  · have hall : (rb.trackedKeys c s).filterMap (rb.item c s) = items := by
      have hid : (rb.trackedKeys c s).filterMap (rb.item c s) =
          ((rb.trackedKeys c s).map (rb.item c s)).filterMap id := by
        rw [List.filterMap_map]
        rfl
      rw [hid, h, List.filterMap_map]
      simp
    rw [← hall]
    exact hperm.filterMap _
  · rw [← rb.filterMap_decode hstored hhashes, list]
    rcases hs : c.smembers rb.keysSetName s with ⟨s', reply⟩
    rw [hs] at hmembers hfetch
    obtain rfl : reply = .ok keys := hmembers
    dsimp only at hfetch ⊢
    rcases hs' : c.hgetalls keys s' with ⟨s'', reply⟩
    rw [hs'] at hfetch
    obtain rfl : reply = .ok hashes := hfetch
    rfl

end Redis

/-- The two outcomes of a listing of the same items agree. -/
def ListingsAgree (filters : List (Filter V)) (items : List (Item V)) :
    Except Err (List (Item V)) → List (Item V) × Option (RedisErr E) → Prop
  | .error _, (_, some _) => True
  | .ok out₁, (out₂, none) =>
      out₁.Perm out₂ ∧ Filter.Satisfies filters items out₁ ∧ Filter.Satisfies filters items out₂
  | _, _ => False

theorem listingsAgree_error {filters : List (Filter V)} {items out : List (Item V)} {e : Err}
    {err : Option (RedisErr E)} :
    ListingsAgree filters items (.error e) (out, err) ↔ err.isSome := by
  cases err with
  | none => exact iff_of_false id Bool.false_ne_true
  | some err => exact iff_of_true trivial rfl

/-- Over the same items, for every list of filters and however equal items are ordered, the
outcomes agree exactly when no filter sorts by an unknown field or the last one does. -/
theorem listings_agree_iff {c : Keyspace.Service σ E Str} (hc : c.Documented) (rb : Redis V)
    (b : InMemory V) {s : σ} {items : List (Item V)} (hstored : rb.Holds c s items)
    (hsame : b.items.all.Perm items) (hreply : rb.Answers c s) (s₁ s₂ : ItemSorts V)
    (filters : List (Filter V)) :
    ListingsAgree filters items ((Backend.inMemory b).list s₁ filters)
        (rb.list c s₂ filters s).2 ↔
      (∀ f ∈ filters, f.valid = true) ∨ ∃ f ∈ filters.getLast?, f.valid = false := by
  obtain ⟨items', hperm, hlist⟩ := rb.list_eq hc s₂ filters hreply hstored
  rw [hlist]
  show ListingsAgree filters items (Filter.applyAll s₁ filters b.items.all) _ ↔ _
  by_cases hall : ∀ f ∈ filters, f.valid = true
  · obtain ⟨out₁, h₁, -⟩ := Filter.applyAll_ok s₁ hall b.items.all
    obtain ⟨out₂, h₂, heach⟩ := Filter.applyAll_ok s₂ hall items'
    have hsat₁ := (Filter.satisfies_applyAll h₁).of_perm hsame
    have hsat₂ := (Filter.satisfies_applyAll h₂).of_perm hperm
    rw [h₁, heach]
    exact iff_of_true ⟨hsat₁.1.trans hsat₂.1.symm, hsat₁, hsat₂⟩ (Or.inl hall)
  · obtain ⟨f, hf, hinvalid⟩ : ∃ f ∈ filters, f.valid = false := by simpa using hall
    obtain ⟨e, he⟩ := Filter.applyAll_error s₁ hf hinvalid b.items.all
    rw [he, listingsAgree_error, Option.isSome_map, Filter.applyEach_error_iff]
    exact ⟨Or.inr, fun h => h.resolve_left hall⟩

/-- Items in descending order of their keys, from both backends. -/
theorem listings_agree_iff_descending :
    ListingsAgree [.sortBy "Key", .sortOrder false] [Redis.persistent]
      ((Backend.inMemory ⟨ConcurrentMap.empty.set Redis.persistent⟩).list Cache.insertionSorts
        [.sortBy "Key", .sortOrder false])
      (Redis.plainRedis.list Redis.server Cache.insertionSorts [.sortBy "Key", .sortOrder false]
        (Redis.plainRedis.set Redis.server Redis.persistent ⟨0, ∅⟩).1).2 :=
  (listings_agree_iff (c := Redis.server) Keyspace.Database.documented Redis.plainRedis
    ⟨ConcurrentMap.empty.set Redis.persistent⟩
    (show Redis.plainRedis.Holds Redis.server
      (Redis.plainRedis.set Redis.server Redis.persistent ⟨0, ∅⟩).1 [Redis.persistent] from rfl)
    (List.Perm.of_eq rfl) ⟨_, _, rfl, rfl⟩ Cache.insertionSorts Cache.insertionSorts
    [.sortBy "Key", .sortOrder false]).2 (Or.inl (by decide))

/-- A sort by an unknown field before another filter: an error in memory, and from Redis an
empty list without one. -/
theorem redis_list_hides_error :
    let s := (Redis.plainRedis.set Redis.server Redis.persistent ⟨0, ∅⟩).1
    let b : InMemory Str := ⟨ConcurrentMap.empty.set Redis.persistent⟩
    let filters : List (Filter Str) := [.sortBy "Size", .sortOrder true]
    (Backend.inMemory b).list Cache.insertionSorts filters = .error (.invalidSortField "Size") ∧
      (Redis.plainRedis.list Redis.server Cache.insertionSorts [] s).2 =
        ([Redis.persistent], none) ∧
      (Redis.plainRedis.list Redis.server Cache.insertionSorts filters s).2 = ([], none) :=
  ⟨rfl, rfl, rfl⟩

end HyperCache
