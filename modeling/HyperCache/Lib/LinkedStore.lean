/-
A store of entries in linked cells: list, map, pool and memory together.

`Stores s l` says that the store holds the entries `l`, front to back. Each
operation is given once here, as one step on all four parts, with the entries it
leaves.
-/
import HyperCache.Lib.LinkedMap

open Pointwise (modify modify_self modify_ne)

namespace LinkedList

variable {κ β : Type} [DecidableEq κ]

structure Store (κ β : Type) [DecidableEq κ] extends Ends where
  items : AList fun _ : κ => Nat
  pool : Pool
  mem : Memory κ β

namespace Store

/-- The cells `ps` are the list of the store, and none of them is in its pool. -/
structure At (s : Store κ β) (ps : List Nat) : Prop
    extends Holds s.mem s.items s.toEnds ps where
  apart : s.pool.Apart ps

def Stores (s : Store κ β) (l : List (Σ _ : κ, β)) : Prop := ∃ ps, s.At ps ∧ entries s.mem ps = l

/-- The cell `p` leaves list and map, is overwritten and goes back to the pool. -/
def discard (blank : Cell κ β) (p : Nat) (s : Store κ β) : Store κ β where
  toEnds := s.toEnds.drop s.mem p
  items := s.items.erase (s.mem p).key
  pool := s.pool.put p
  mem := modify (unlink p s.mem) p fun _ => blank

/-- The cell `p` goes to the front. -/
def promote (p : Nat) (s : Store κ β) : Store κ β :=
  { s with
    toEnds := ⟨some p, (s.toEnds.drop s.mem p).tail.or (some p)⟩
    mem := pushFront (s.toEnds.drop s.mem p).head p (unlink p s.mem) }

def update (p : Nat) (f : β → β) (s : Store κ β) : Store κ β :=
  { s with mem := setValue p f s.mem }

/-- A cell from the pool goes to the front with a new key. -/
def add (pick : Option Nat) (k : κ) (b : β) (s : Store κ β) : Store κ β :=
  let (p, pool) := s.pool.get pick
  { toEnds := ⟨some p, s.tail.or (some p)⟩
    items := s.items.insert k p
    pool := pool
    mem := pushFront s.head p (modify s.mem p fun _ => ⟨k, b, none, none⟩) }

section Reading

variable {s : Store κ β} {l : List (Σ _ : κ, β)} {k : κ} {p : Nat}

theorem Stores.nodupKeys (h : s.Stores l) : l.NodupKeys := by
  obtain ⟨ps, hat, rfl⟩ := h
  exact hat.nodupKeys

theorem Stores.mem_keys (h : s.Stores l) : k ∈ l.keys ↔ k ∈ s.items := by
  obtain ⟨ps, hat, rfl⟩ := h
  exact hat.mem_keys

theorem Stores.dlookup (h : s.Stores l) :
    l.dlookup k = (s.items.lookup k).map fun p => (s.mem p).value := by
  obtain ⟨ps, hat, rfl⟩ := h
  exact hat.dlookup

theorem Stores.length_keys (h : s.Stores l) : s.items.keys.length = l.length := by
  obtain ⟨ps, hat, rfl⟩ := h
  rw [hat.length_keys, length_entries]

theorem Stores.tail (h : s.Stores l) : s.tail.map (fun p => entry (s.mem p)) = l.getLast? := by
  obtain ⟨ps, hat, rfl⟩ := h
  rw [hat.tail, entries, List.getLast?_map]

end Reading

section Operations

variable {s : Store κ β} {ps : List Nat} {l : List (Σ _ : κ, β)} {k : κ} {p : Nat}

theorem stores_empty (mem : Memory κ β) :
    Stores { toEnds := ⟨none, none⟩, items := ∅, pool := ⟨[], 0⟩, mem := mem } [] :=
  ⟨[], ⟨holds_nil, List.nodup_nil, by simp, by simp⟩, rfl⟩

theorem discard_mem_ne (blank : Cell κ β) {q : Nat} (hq : q ≠ p) :
    (s.discard blank p).mem q = unlink p s.mem q :=
  modify_ne (unlink p s.mem) (fun _ => blank) hq

theorem At.discard (h : s.At ps) (hp : p ∈ ps) (blank : Cell κ β) :
    (s.discard blank p).At (ps.erase p) ∧
      entries (s.discard blank p).mem (ps.erase p) = (entries s.mem ps).kerase (s.mem p).key := by
  have hne : ∀ q ∈ ps.erase p, q ≠ p := fun q hq => (h.nodup.mem_erase_iff.mp hq).1
  refine ⟨⟨(h.toHolds.remove hp).frame ?_, h.apart.put h.nodup hp⟩, ?_⟩
  · intro q hq
    exact discard_mem_ne blank (hne q hq)
  · rw [h.toHolds.kerase hp]
    refine entries_congr ?_
    intro q hq
    rw [discard_mem_ne blank (hne q hq), entry, unlink_key, unlink_value]
    rfl

theorem Stores.discard (h : s.Stores l) (hk : s.items.lookup k = some p) (blank : Cell κ β) :
    (s.discard blank p).Stores (l.kerase k) := by
  obtain ⟨ps, hat, rfl⟩ := h
  obtain ⟨hp, rfl⟩ := (hat.index k p).mp hk
  exact ⟨ps.erase p, hat.discard hp blank⟩

theorem Stores.discard_tail (h : s.Stores l) (hp : s.tail = some p) (blank : Cell κ β) :
    (s.discard blank p).Stores l.dropLast := by
  obtain ⟨ps, hat, rfl⟩ := h
  have hlast : ps.getLast? = some p := by rw [← hat.tail, hp]
  have hmem : p ∈ ps := List.mem_of_getLast? hlast
  obtain ⟨hat', hentries⟩ := hat.discard hmem blank
  have herase : ps.erase p = ps.dropLast := by
    obtain ⟨qs, rfl⟩ := List.getLast?_eq_some_iff.mp hlast
    rw [hat.toIsList.erase_eq, List.append_nil, List.dropLast_concat]
  refine ⟨ps.erase p, hat', ?_⟩
  rw [hentries, hat.toHolds.kerase hmem, herase, entries, entries, List.map_dropLast]

theorem At.promote (h : s.At ps) (hp : p ∈ ps) (f : β → β) :
    ((s.update p f).promote p).At (p :: ps.erase p) ∧
      entries ((s.update p f).promote p).mem (p :: ps.erase p) =
        ⟨(s.mem p).key, f (s.mem p).value⟩ :: (entries s.mem ps).kerase (s.mem p).key := by
  have hperm : p :: ps.erase p ⊆ ps := List.cons_subset.mpr ⟨hp, List.erase_subset⟩
  refine ⟨⟨(h.toHolds.setValue f).moveToFront hp, h.apart.mono hperm⟩, ?_⟩
  rw [h.toHolds.kerase hp, entries_cons]
  congr 1
  · simp [Store.promote, update, entry]
  · refine entries_congr ?_
    intro q hq
    have hne : q ≠ p := (h.nodup.mem_erase_iff.mp hq).1
    simp [Store.promote, update, entry, hne]

theorem Stores.promote (h : s.Stores l) (hk : s.items.lookup k = some p) (f : β → β) :
    ((s.update p f).promote p).Stores (⟨k, f (s.mem p).value⟩ :: l.kerase k) := by
  obtain ⟨ps, hat, rfl⟩ := h
  obtain ⟨hp, rfl⟩ := (hat.index k p).mp hk
  exact ⟨p :: ps.erase p, hat.promote hp f⟩

/-- At the head there is nothing to move. -/
theorem Stores.update_head (h : s.Stores l) (hk : s.items.lookup k = some p)
    (hhead : s.head = some p) (f : β → β) :
    (s.update p f).Stores (⟨k, f (s.mem p).value⟩ :: l.kerase k) := by
  obtain ⟨ps, hat, rfl⟩ := h
  obtain ⟨hp, rfl⟩ := (hat.index k p).mp hk
  refine ⟨ps, ⟨hat.toHolds.setValue f, hat.apart⟩, ?_⟩
  rw [hat.toHolds.kerase hp]
  rw [hat.head] at hhead
  obtain ⟨qs, rfl⟩ := List.head?_eq_some_iff.mp hhead
  have hnot : p ∉ qs := (List.nodup_cons.mp hat.nodup).1
  rw [List.erase_cons_head, entries_cons]
  congr 1
  · simp [update, entry]
  · refine entries_congr ?_
    intro q hq
    have hne : q ≠ p := fun h => hnot (h ▸ hq)
    simp [update, entry, hne]

theorem Stores.add (h : s.Stores l) (hk : k ∉ s.items) (pick : Option Nat) (b : β) :
    (s.add pick k b).Stores (⟨k, b⟩ :: l) := by
  obtain ⟨ps, hat, rfl⟩ := h
  obtain ⟨hp, hapart⟩ := hat.apart.get pick
  rw [Store.add]
  rcases hget : s.pool.get pick with ⟨p, pool⟩
  rw [hget] at hp hapart
  have hne : ∀ q ∈ ps, q ≠ p := fun q hq h => hp (h ▸ hq)
  have hframe : Holds (modify s.mem p fun _ => ⟨k, b, none, none⟩) s.items s.toEnds ps :=
    hat.toHolds.frame fun q hq => modify_ne s.mem _ (hne q hq)
  have hins := hframe.insert hp (by rw [modify_self]; exact hk)
  rw [modify_self] at hins
  refine ⟨p :: ps, ⟨hins, hapart⟩, ?_⟩
  rw [entries_cons]
  congr 1
  · simp [entry]
  · refine entries_congr ?_
    intro q hq
    simp [entry, modify_ne _ _ (hne q hq)]

end Operations

end Store

end LinkedList
