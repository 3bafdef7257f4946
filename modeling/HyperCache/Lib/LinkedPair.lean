/-
Two indexed linked lists in one memory.

Cells move from one list to the other, are dropped from their list, or are new. An
operation writes to the cells of one list only, so the other keeps its entries.
Cells are not reused: those of both lists lie below the first fresh address.
-/
import HyperCache.Lib.LinkedMap

open Pointwise (modify modify_self modify_ne)

namespace LinkedList

variable {κ β : Type} [DecidableEq κ]

/-- A list with its length and its map. -/
structure Indexed (κ : Type) [DecidableEq κ] extends Ends where
  len : Int
  idx : AList fun _ : κ => Nat

namespace Indexed

def empty : Indexed κ where
  head := none
  tail := none
  len := 0
  idx := ∅

def pushFront (node : Nat) (x : Indexed κ) (mem : Memory κ β) : Indexed κ × Memory κ β :=
  ({ x with head := some node, tail := x.tail.or (some node), len := x.len + 1 },
    LinkedList.pushFront x.head node mem)

def remove (node : Nat) (x : Indexed κ) (mem : Memory κ β) : Option (Indexed κ × Memory κ β) := do
  let (ends, mem) ← LinkedList.remove node x.toEnds mem
  some ({ x with toEnds := ends, len := x.len - 1 }, mem)

/-- The cell removed with the list and the memory after, or nil for an empty list. -/
def removeTail (x : Indexed κ) (mem : Memory κ β) :
    Option (Option (Nat × Indexed κ × Memory κ β)) :=
  match x.tail with
  | none => some none
  | some t => do
      let (x, mem) ← x.remove t mem
      some (some (t, x, mem))

def erase (k : κ) (x : Indexed κ) : Indexed κ := { x with idx := x.idx.erase k }

def insert (k : κ) (node : Nat) (x : Indexed κ) : Indexed κ := { x with idx := x.idx.insert k node }

structure At (x : Indexed κ) (mem : Memory κ β) (ps : List Nat) : Prop
    extends Holds mem x.idx x.toEnds ps where
  len_eq : x.len = ps.length

variable {x : Indexed κ} {mem mem' : Memory κ β} {ps : List Nat} {p : Nat}

theorem at_empty : (empty : Indexed κ).At mem [] := ⟨holds_nil, rfl⟩

theorem At.frame (h : x.At mem ps) (hmem : ∀ p ∈ ps, mem' p = mem p) : x.At mem' ps :=
  ⟨h.toHolds.frame hmem, h.len_eq⟩

theorem At.remove_eq (h : x.At mem ps) (hp : p ∈ ps) :
    x.remove p mem =
      some ({ x with toEnds := x.toEnds.drop mem p, len := x.len - 1 }, unlink p mem) := by
  rw [remove, h.toIsList.remove_eq hp]
  rfl

theorem At.length_erase (h : x.At mem ps) (hp : p ∈ ps) : x.len - 1 = (ps.erase p).length := by
  have hpos := List.length_pos_of_mem hp
  rw [List.length_erase_of_mem hp, h.len_eq]
  omega

end Indexed

/-- Lists at the cells `ps` and `qs`, apart from each other. -/
structure PairAt (mem : Memory κ β) (fresh : Nat) (x y : Indexed κ) (ps qs : List Nat) :
    Prop where
  left : x.At mem ps
  right : y.At mem qs
  disjoint : ps.Disjoint qs
  left_lt : ∀ p ∈ ps, p < fresh
  right_lt : ∀ q ∈ qs, q < fresh

namespace PairAt

variable {mem mem' : Memory κ β} {fresh : Nat} {x x' y : Indexed κ} {ps ps' qs : List Nat} {p : Nat}

theorem symm (h : PairAt mem fresh x y ps qs) : PairAt mem fresh y x qs ps :=
  ⟨h.right, h.left, fun _ hq hp => h.disjoint hp hq, h.right_lt, h.left_lt⟩

/-- One list changes and keeps off the cells of the other. -/
theorem replace_left (h : PairAt mem fresh x y ps qs) (hx : x'.At mem' ps')
    (hdisj : ps'.Disjoint qs) (hlt : ∀ p ∈ ps', p < fresh) (hmem : ∀ q ∈ qs, mem' q = mem q) :
    PairAt mem' fresh x' y ps' qs :=
  ⟨hx, h.right.frame hmem, hdisj, hlt, h.right_lt⟩

theorem notMem_right (h : PairAt mem fresh x y ps qs) {q : Nat} (hq : q ∈ qs) : q ∉ ps :=
  fun hp => h.disjoint hp hq

theorem unlink_right (h : PairAt mem fresh x y ps qs) (hp : p ∈ ps) {q : Nat} (hq : q ∈ qs) :
    unlink p mem q = mem q :=
  h.left.toIsList.unlink_of_notMem hp (h.notMem_right hq)

theorem remove (h : PairAt mem fresh x y ps qs) (hp : p ∈ ps) :
    PairAt (unlink p mem) fresh
      ({ x with toEnds := x.toEnds.drop mem p, len := x.len - 1 }.erase (mem p).key) y
      (ps.erase p) qs := by
  refine h.replace_left ⟨h.left.toHolds.remove hp, h.left.length_erase hp⟩ ?_ ?_ ?_
  · exact fun q hq => h.disjoint (List.mem_of_mem_erase hq)
  · exact fun q hq => h.left_lt q (List.mem_of_mem_erase hq)
  · exact fun q hq => h.unlink_right hp hq

theorem setValue (h : PairAt mem fresh x y ps qs) (hp : p ∈ ps) (f : β → β) :
    PairAt (setValue p f mem) fresh x y ps qs := by
  refine h.replace_left ⟨h.left.toHolds.setValue f, h.left.len_eq⟩ h.disjoint h.left_lt ?_
  exact fun q hq => modify_ne mem _ fun heq => h.disjoint (heq ▸ hp) hq

/-- A cell of neither list goes to the front of the first. -/
theorem push (h : PairAt mem fresh x y ps qs) (hp : p ∉ ps) (hq : p ∉ qs) (hlt : p < fresh)
    (hk : (mem p).key ∉ x.idx) :
    PairAt (x.pushFront p mem).2 fresh ((x.pushFront p mem).1.insert (mem p).key p) y
      (p :: ps) qs := by
  refine h.replace_left ⟨h.left.toHolds.insert hp hk, ?_⟩ ?_ ?_ ?_
  · show x.len + 1 = ((p :: ps).length : Int)
    rw [h.left.len_eq, List.length_cons]
    rfl
  · intro q hqs hqq
    rcases List.mem_cons.mp hqs with rfl | hqs
    · exact hq hqq
    · exact h.disjoint hqs hqq
  · intro q hqs
    rcases List.mem_cons.mp hqs with rfl | hqs
    · exact hlt
    · exact h.left_lt q hqs
  · intro q hqq
    exact h.left.toIsList.pushFront_of_notMem (fun heq => hq (heq ▸ hqq)) (h.notMem_right hqq)

theorem moveToFront (h : PairAt mem fresh x y ps qs) (hp : p ∈ ps) :
    PairAt (LinkedList.pushFront (x.toEnds.drop mem p).head p (unlink p mem)) fresh
      { x with
        toEnds := ⟨some p, (x.toEnds.drop mem p).tail.or (some p)⟩, len := x.len - 1 + 1 } y
      (p :: ps.erase p) qs := by
  have hsub : p :: ps.erase p ⊆ ps := List.cons_subset.mpr ⟨hp, List.erase_subset⟩
  have hlist := h.left.toIsList.unlink hp
  refine h.replace_left ⟨h.left.toHolds.moveToFront hp, ?_⟩ ?_ ?_ ?_
  · show x.len - 1 + 1 = ((p :: ps.erase p).length : Int)
    rw [h.left.length_erase hp, List.length_cons]
    rfl
  · exact fun q hq => h.disjoint (hsub hq)
  · exact fun q hq => h.left_lt q (hsub hq)
  · intro q hq
    have hne : q ≠ p := fun heq => h.disjoint (heq ▸ hp) hq
    rw [hlist.pushFront_of_notMem hne fun hmem => h.disjoint (List.mem_of_mem_erase hmem) hq]
    exact h.unlink_right hp hq

end PairAt

/-- Two lists with their entries. -/
def Pair (mem : Memory κ β) (fresh : Nat) (x y : Indexed κ) (xs ys : List (Σ _ : κ, β)) : Prop :=
  ∃ ps qs, PairAt mem fresh x y ps qs ∧ entries mem ps = xs ∧ entries mem qs = ys

namespace Pair

variable {mem : Memory κ β} {fresh : Nat} {x y : Indexed κ} {xs ys : List (Σ _ : κ, β)} {k : κ}
  {p : Nat}

theorem symm (h : Pair mem fresh x y xs ys) : Pair mem fresh y x ys xs := by
  obtain ⟨ps, qs, h, hxs, hys⟩ := h
  exact ⟨qs, ps, h.symm, hys, hxs⟩

theorem empty : Pair mem fresh Indexed.empty Indexed.empty [] [] :=
  ⟨[], [], ⟨Indexed.at_empty, Indexed.at_empty, List.disjoint_nil_left _, by simp, by simp⟩,
    rfl, rfl⟩

theorem len_eq (h : Pair mem fresh x y xs ys) : x.len = xs.length := by
  obtain ⟨ps, qs, h, rfl, -⟩ := h
  rw [h.left.len_eq, length_entries]

theorem dlookup (h : Pair mem fresh x y xs ys) :
    xs.dlookup k = (x.idx.lookup k).map fun p => (mem p).value := by
  obtain ⟨ps, qs, h, rfl, -⟩ := h
  exact h.left.toHolds.dlookup

theorem mem_keys (h : Pair mem fresh x y xs ys) : k ∈ xs.keys ↔ k ∈ x.idx := by
  obtain ⟨ps, qs, h, rfl, -⟩ := h
  exact h.left.toHolds.mem_keys

theorem remove (h : Pair mem fresh x y xs ys) (hk : x.idx.lookup k = some p) :
    ∃ x' mem', x.remove p mem = some (x', mem') ∧
      Pair mem' fresh (x'.erase k) y (xs.kerase k) ys := by
  obtain ⟨ps, qs, h, rfl, rfl⟩ := h
  obtain ⟨hp, rfl⟩ := (h.left.index k p).mp hk
  refine ⟨_, _, h.left.remove_eq hp, ps.erase p, qs, h.remove hp, ?_, ?_⟩
  · rw [h.left.toHolds.kerase hp]
    exact entries_congr fun q _ => by simp [entry]
  · exact entries_congr fun q _ => by simp [entry]

theorem removeTail_nil (h : Pair mem fresh x y [] ys) : x.removeTail mem = some none := by
  obtain ⟨ps, qs, h, hps, -⟩ := h
  have hnil : ps = [] := List.map_eq_nil_iff.mp hps
  have htail := h.left.tail
  rw [hnil, List.getLast?_nil] at htail
  rw [Indexed.removeTail, htail]

theorem removeTail (h : Pair mem fresh x y xs ys) {e : Σ _ : κ, β} (he : xs.getLast? = some e) :
    ∃ p x' mem', x.removeTail mem = some (some (p, x', mem')) ∧ (mem' p).key = e.1 ∧
      Pair mem' fresh (x'.erase e.1) y xs.dropLast ys := by
  obtain ⟨ps, qs, hat, rfl, rfl⟩ := h
  rw [entries, List.getLast?_map] at he
  obtain ⟨p, hlast, rfl⟩ := Option.map_eq_some_iff.mp he
  have hp : p ∈ ps := List.mem_of_getLast? hlast
  have hk : x.idx.lookup (mem p).key = some p := (hat.left.index _ p).mpr ⟨hp, rfl⟩
  obtain ⟨x', mem', hremove, hpair⟩ := remove ⟨ps, qs, hat, rfl, rfl⟩ hk
  have hmem' : mem' = unlink p mem := by
    rw [hat.left.remove_eq hp, Option.some.injEq, Prod.mk.injEq] at hremove
    exact hremove.2.symm
  have hdrop : (entries mem ps).kerase (mem p).key = (entries mem ps).dropLast := by
    obtain ⟨qs, rfl⟩ := List.getLast?_eq_some_iff.mp hlast
    rw [hat.left.toHolds.kerase hp, hat.left.toIsList.erase_eq, List.append_nil, entries_append]
    exact (List.dropLast_concat ..).symm
  rw [hdrop] at hpair
  refine ⟨p, x', mem', ?_, ?_, hpair⟩
  · rw [Indexed.removeTail, hat.left.tail, hlast]
    simp [hremove]
  · rw [hmem', unlink_key]
    rfl

/-- A new cell goes to the front of a list. -/
theorem add (h : Pair mem fresh x y xs ys) (hk : k ∉ xs.keys) (b : β) :
    Pair (x.pushFront fresh (modify mem fresh fun _ => ⟨k, b, none, none⟩)).2 (fresh + 1)
      ((x.pushFront fresh (modify mem fresh fun _ => ⟨k, b, none, none⟩)).1.insert k fresh) y
      (⟨k, b⟩ :: xs) ys := by
  have hidx := mt h.mem_keys.mpr hk
  obtain ⟨ps, qs, h, rfl, rfl⟩ := h
  have hps : ∀ p ∈ ps, p ≠ fresh := fun p hp => Nat.ne_of_lt (h.left_lt p hp)
  have hqs : ∀ q ∈ qs, q ≠ fresh := fun q hq => Nat.ne_of_lt (h.right_lt q hq)
  have hat : PairAt (modify mem fresh fun _ => ⟨k, b, none, none⟩) (fresh + 1) x y ps qs :=
    ⟨h.left.frame fun p hp => modify_ne mem _ (hps p hp),
      h.right.frame fun q hq => modify_ne mem _ (hqs q hq), h.disjoint,
      fun p hp => Nat.lt_succ_of_lt (h.left_lt p hp),
      fun q hq => Nat.lt_succ_of_lt (h.right_lt q hq)⟩
  have hpush := hat.push (p := fresh) (fun hp => hps fresh hp rfl) (fun hq => hqs fresh hq rfl)
    (Nat.lt_succ_self fresh) (by rw [modify_self]; exact hidx)
  rw [modify_self] at hpush
  refine ⟨fresh :: ps, qs, hpush, ?_, ?_⟩
  · rw [entries_cons]
    congr 1
    · simp [Indexed.pushFront, entry]
    · exact entries_congr fun p hp => by simp [Indexed.pushFront, entry, modify_ne, hps p hp]
  · exact entries_congr fun q hq => by simp [Indexed.pushFront, entry, modify_ne, hqs q hq]

/-- Other cells keep their entries when a cell goes to a front with another value. -/
theorem entries_relinked (z : Indexed κ) (f : β → β) {ps : List Nat} (hp : p ∉ ps) :
    entries (z.pushFront p (unlink p (setValue p f mem))).2 ps = entries mem ps := by
  refine entries_congr ?_
  intro q hq
  have hne : q ≠ p := fun heq => hp (heq ▸ hq)
  simp [Indexed.pushFront, entry, hne]

/-- A cell, with its value changed, goes from one list to the front of the other. -/
theorem move (h : Pair mem fresh x y xs ys) (hk : x.idx.lookup k = some p) (hy : k ∉ ys.keys)
    (f : β → β) :
    ∃ x' mem', x.remove p (setValue p f mem) = some (x', mem') ∧
      Pair (y.pushFront p mem').2 fresh (x'.erase k) ((y.pushFront p mem').1.insert k p)
        (xs.kerase k) (⟨k, f (mem p).value⟩ :: ys) ∧
      ((y.pushFront p mem').2 p).value = f (mem p).value := by
  have hidx := mt h.symm.mem_keys.mpr hy
  obtain ⟨ps, qs, h, rfl, rfl⟩ := h
  obtain ⟨hp, rfl⟩ := (h.left.index k p).mp hk
  have hset := h.setValue hp f
  have hremoved := hset.remove hp
  rw [setValue_key] at hremoved
  have hpush := hremoved.symm.push (p := p) (fun hq => h.disjoint hp hq)
    h.left.nodup.not_mem_erase (h.left_lt p hp) (by rw [unlink_key, setValue_key]; exact hidx)
  rw [unlink_key, setValue_key] at hpush
  refine ⟨_, _, hset.left.remove_eq hp, ⟨ps.erase p, p :: qs, hpush.symm, ?_, ?_⟩, ?_⟩
  · rw [h.left.toHolds.kerase hp]
    exact entries_relinked _ f h.left.nodup.not_mem_erase
  · rw [entries_cons]
    congr 1
    · simp [Indexed.pushFront, entry]
    · exact entries_relinked _ f (fun hq => h.disjoint hp hq)
  · simp [Indexed.pushFront]

/-- A cell, with its value changed, goes to the front of its list. -/
theorem refresh (h : Pair mem fresh x y xs ys) (hk : x.idx.lookup k = some p) (f : β → β) :
    ∃ x' mem', x.remove p (setValue p f mem) = some (x', mem') ∧
      Pair (x'.pushFront p mem').2 fresh (x'.pushFront p mem').1 y
        (⟨k, f (mem p).value⟩ :: xs.kerase k) ys ∧
      ((x'.pushFront p mem').2 p).value = f (mem p).value := by
  obtain ⟨ps, qs, h, rfl, rfl⟩ := h
  obtain ⟨hp, rfl⟩ := (h.left.index k p).mp hk
  have hset := h.setValue hp f
  refine ⟨_, _, hset.left.remove_eq hp, ⟨p :: ps.erase p, qs, hset.moveToFront hp, ?_, ?_⟩, ?_⟩
  · rw [h.left.toHolds.kerase hp, entries_cons]
    congr 1
    · simp [Indexed.pushFront, entry]
    · exact entries_relinked _ f h.left.nodup.not_mem_erase
  · exact entries_relinked _ f (fun hq => h.disjoint hp hq)
  · simp [Indexed.pushFront]

end Pair

end LinkedList
