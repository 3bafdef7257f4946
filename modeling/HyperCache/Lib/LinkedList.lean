/-
Doubly linked lists in memory.

Memory gives each address a cell with a key, a value and two links. `IsList mem
ends ps` says that the cells at the addresses `ps` form one list, first to last,
with `ends` at its two ends. Taking a cell out and pushing one to the front are
given as memory transformers; each comes with the list it leaves and with the
cells it leaves alone.
-/
import Mathlib.Data.List.Nodup
import HyperCache.Lib.Pointwise

open Pointwise (modify modify_apply)

namespace LinkedList

@[ext] structure Cell (κ β : Type) where
  key : κ
  value : β
  prev : Option Nat
  next : Option Nat

abbrev Memory (κ β : Type) := Nat → Cell κ β

@[ext] structure Ends where
  head : Option Nat
  tail : Option Nat

variable {κ β : Type}

section Writes

def setPrev (p : Nat) (link : Option Nat) (mem : Memory κ β) : Memory κ β :=
  modify mem p fun c => { c with prev := link }

def setNext (p : Nat) (link : Option Nat) (mem : Memory κ β) : Memory κ β :=
  modify mem p fun c => { c with next := link }

def setValue (p : Nat) (f : β → β) (mem : Memory κ β) : Memory κ β :=
  modify mem p fun c => { c with value := f c.value }

theorem setPrev_same {p : Nat} {link : Option Nat} {mem : Memory κ β} (h : (mem p).prev = link) :
    setPrev p link mem = mem := by
  subst h
  exact Pointwise.modify_id mem p

theorem setNext_same {p : Nat} {link : Option Nat} {mem : Memory κ β} (h : (mem p).next = link) :
    setNext p link mem = mem := by
  subst h
  exact Pointwise.modify_id mem p

/-- The write behind a check that the address is not nil. -/
def linkPrev : Option Nat → Option Nat → Memory κ β → Memory κ β
  | none, _, mem => mem
  | some p, link, mem => setPrev p link mem

def linkNext : Option Nat → Option Nat → Memory κ β → Memory κ β
  | none, _, mem => mem
  | some p, link, mem => setNext p link mem

variable (p q : Nat) (o link : Option Nat) (f : β → β) (mem : Memory κ β)

@[simp] theorem setPrev_prev :
    (setPrev p link mem q).prev = if q = p then link else (mem q).prev := by
  rw [setPrev, modify_apply]
  split <;> rfl

@[simp] theorem setPrev_next : (setPrev p link mem q).next = (mem q).next := by
  rw [setPrev, modify_apply]
  split <;> rfl

@[simp] theorem setPrev_key : (setPrev p link mem q).key = (mem q).key := by
  rw [setPrev, modify_apply]
  split <;> rfl

@[simp] theorem setPrev_value : (setPrev p link mem q).value = (mem q).value := by
  rw [setPrev, modify_apply]
  split <;> rfl

@[simp] theorem setNext_next :
    (setNext p link mem q).next = if q = p then link else (mem q).next := by
  rw [setNext, modify_apply]
  split <;> rfl

@[simp] theorem setNext_prev : (setNext p link mem q).prev = (mem q).prev := by
  rw [setNext, modify_apply]
  split <;> rfl

@[simp] theorem setNext_key : (setNext p link mem q).key = (mem q).key := by
  rw [setNext, modify_apply]
  split <;> rfl

@[simp] theorem setNext_value : (setNext p link mem q).value = (mem q).value := by
  rw [setNext, modify_apply]
  split <;> rfl

@[simp] theorem setValue_value :
    (setValue p f mem q).value = if q = p then f (mem q).value else (mem q).value := by
  rw [setValue, modify_apply]
  split <;> rfl

@[simp] theorem setValue_prev : (setValue p f mem q).prev = (mem q).prev := by
  rw [setValue, modify_apply]
  split <;> rfl

@[simp] theorem setValue_next : (setValue p f mem q).next = (mem q).next := by
  rw [setValue, modify_apply]
  split <;> rfl

@[simp] theorem setValue_key : (setValue p f mem q).key = (mem q).key := by
  rw [setValue, modify_apply]
  split <;> rfl

@[simp] theorem linkPrev_prev :
    (linkPrev o link mem q).prev = if o = some q then link else (mem q).prev := by
  cases o with
  | none => simp [linkPrev]
  | some r => simp [linkPrev, eq_comm]

@[simp] theorem linkPrev_next : (linkPrev o link mem q).next = (mem q).next := by
  cases o <;> simp [linkPrev]

@[simp] theorem linkPrev_key : (linkPrev o link mem q).key = (mem q).key := by
  cases o <;> simp [linkPrev]

@[simp] theorem linkPrev_value : (linkPrev o link mem q).value = (mem q).value := by
  cases o <;> simp [linkPrev]

@[simp] theorem linkNext_next :
    (linkNext o link mem q).next = if o = some q then link else (mem q).next := by
  cases o with
  | none => simp [linkNext]
  | some r => simp [linkNext, eq_comm]

@[simp] theorem linkNext_prev : (linkNext o link mem q).prev = (mem q).prev := by
  cases o <;> simp [linkNext]

@[simp] theorem linkNext_key : (linkNext o link mem q).key = (mem q).key := by
  cases o <;> simp [linkNext]

@[simp] theorem linkNext_value : (linkNext o link mem q).value = (mem q).value := by
  cases o <;> simp [linkNext]

end Writes

section Segments

/-- The cells `ps` are chained in this order, between the links `before` and `after`. -/
def Seg (mem : Memory κ β) : Option Nat → List Nat → Option Nat → Prop
  | _, [], _ => True
  | before, p :: rest, after =>
      (mem p).prev = before ∧ (mem p).next = rest.head?.or after ∧ Seg mem (some p) rest after

variable {mem mem' : Memory κ β} {before after : Option Nat} {ps : List Nat}

theorem seg_append (l r : List Nat) :
    Seg mem before (l ++ r) after ↔
      Seg mem before l (r.head?.or after) ∧ Seg mem (l.getLast?.or before) r after := by
  induction l generalizing before with
  | nil => simp [Seg]
  | cons p rest ih =>
      have hlast : (p :: rest).getLast?.or before = rest.getLast?.or (some p) := by
        cases rest <;> simp [List.getLast?_cons]
      simp only [List.cons_append, Seg, ih, hlast, List.head?_append, Option.or_assoc, and_assoc]

/-- Only the outer link of the first cell is moved to `before'`. -/
theorem Seg.change_before {before' : Option Nat} (h : Seg mem before ps after) (hnd : ps.Nodup)
    (hnext : ∀ p ∈ ps, (mem' p).next = (mem p).next)
    (hprev : ∀ p ∈ ps, (mem' p).prev = if ps.head? = some p then before' else (mem p).prev) :
    Seg mem' before' ps after := by
  induction ps generalizing before before' with
  | nil => trivial
  | cons p rest ih =>
      obtain ⟨hp, hrest⟩ := List.nodup_cons.mp hnd
      obtain ⟨-, hn, hseg⟩ := h
      refine ⟨?_, ?_, ih hseg hrest ?_ ?_⟩
      · rw [hprev p List.mem_cons_self]
        simp
      · rw [hnext p List.mem_cons_self, hn]
      · intro q hq
        exact hnext q (List.mem_cons_of_mem p hq)
      · intro q hq
        have hpq : p ≠ q := fun h => hp (h ▸ hq)
        rw [hprev q (List.mem_cons_of_mem p hq)]
        simp only [List.head?_cons, Option.some.injEq, hpq, if_false]
        split
        · -- the link of the next cell back to `p` is the one it had
          cases rest with
          | nil => simp at hq
          | cons r rs =>
              have hr : r = q := by simpa using ‹(r :: rs).head? = some q›
              rw [← hr]
              exact hseg.1
        · rfl

/-- Only the outer link of the last cell is moved to `after'`. -/
theorem Seg.change_after {after' : Option Nat} (h : Seg mem before ps after) (hnd : ps.Nodup)
    (hprev : ∀ p ∈ ps, (mem' p).prev = (mem p).prev)
    (hnext : ∀ p ∈ ps, (mem' p).next = if ps.getLast? = some p then after' else (mem p).next) :
    Seg mem' before ps after' := by
  induction ps generalizing before with
  | nil => trivial
  | cons p rest ih =>
      obtain ⟨hp, hrest⟩ := List.nodup_cons.mp hnd
      obtain ⟨hb, hn, hseg⟩ := h
      refine ⟨?_, ?_, ih hseg hrest ?_ ?_⟩
      · rw [hprev p List.mem_cons_self, hb]
      · rw [hnext p List.mem_cons_self, hn]
        cases rest with
        | nil => simp
        | cons r rs =>
            have hne : (r :: rs).getLast? ≠ some p := fun h => hp (List.mem_of_getLast? h)
            simp [List.getLast?_cons_cons, hne]
      · intro q hq
        exact hprev q (List.mem_cons_of_mem p hq)
      · intro q hq
        rw [hnext q (List.mem_cons_of_mem p hq)]
        cases rest with
        | nil => simp at hq
        | cons r rs => rw [List.getLast?_cons_cons]

theorem Seg.frame (h : Seg mem before ps after)
    (hprev : ∀ p ∈ ps, (mem' p).prev = (mem p).prev)
    (hnext : ∀ p ∈ ps, (mem' p).next = (mem p).next) : Seg mem' before ps after := by
  induction ps generalizing before with
  | nil => trivial
  | cons p rest ih =>
      obtain ⟨hb, hn, hseg⟩ := h
      refine ⟨?_, ?_, ih hseg ?_ ?_⟩
      · rw [hprev p List.mem_cons_self, hb]
      · rw [hnext p List.mem_cons_self, hn]
      · intro q hq
        exact hprev q (List.mem_cons_of_mem p hq)
      · intro q hq
        exact hnext q (List.mem_cons_of_mem p hq)

end Segments

section Lists

structure IsList (mem : Memory κ β) (ends : Ends) (ps : List Nat) : Prop where
  nodup : ps.Nodup
  head : ends.head = ps.head?
  tail : ends.tail = ps.getLast?
  seg : Seg mem none ps none

variable {mem mem' : Memory κ β} {ends : Ends} {ps l r : List Nat} {p q : Nat}

theorem isList_nil : IsList mem ⟨none, none⟩ [] := ⟨List.nodup_nil, rfl, rfl, trivial⟩

theorem IsList.frame (h : IsList mem ends ps)
    (hprev : ∀ p ∈ ps, (mem' p).prev = (mem p).prev)
    (hnext : ∀ p ∈ ps, (mem' p).next = (mem p).next) : IsList mem' ends ps :=
  ⟨h.nodup, h.head, h.tail, h.seg.frame hprev hnext⟩

theorem IsList.prev_eq (h : IsList mem ends (l ++ p :: r)) : (mem p).prev = l.getLast? := by
  have hseg := ((seg_append l (p :: r)).mp h.seg).2
  simpa [Seg] using hseg.1

theorem IsList.next_eq (h : IsList mem ends (l ++ p :: r)) : (mem p).next = r.head? := by
  have hseg := ((seg_append l (p :: r)).mp h.seg).2
  simpa [Seg] using hseg.2.1

theorem IsList.prev_of_head (h : IsList mem ends ps) (hp : ends.head = some p) :
    (mem p).prev = none := by
  rw [h.head] at hp
  obtain ⟨qs, rfl⟩ := List.head?_eq_some_iff.mp hp
  exact h.seg.1

theorem IsList.next_of_tail (h : IsList mem ends ps) (hp : ends.tail = some p) :
    (mem p).next = none := by
  rw [h.tail] at hp
  obtain ⟨qs, rfl⟩ := List.getLast?_eq_some_iff.mp hp
  exact h.next_eq

theorem IsList.prev_ne_self (h : IsList mem ends ps) (hp : p ∈ ps) : (mem p).prev ≠ some p := by
  obtain ⟨l, r, rfl⟩ := List.append_of_mem hp
  rw [h.prev_eq]
  intro hlast
  obtain ⟨-, -, hdisj⟩ := List.nodup_append'.mp h.nodup
  exact hdisj (List.mem_of_getLast? hlast) List.mem_cons_self

/-- The neighbours of a cell are linked to each other and its own links are cleared. -/
def unlink (p : Nat) (mem : Memory κ β) : Memory κ β :=
  setNext p none (setPrev p none
    (linkPrev (mem p).next (mem p).prev (linkNext (mem p).prev (mem p).next mem)))

@[simp] theorem unlink_key : (unlink p mem q).key = (mem q).key := by simp [unlink]

@[simp] theorem unlink_value : (unlink p mem q).value = (mem q).value := by simp [unlink]

/-- Outside its list nothing is touched. -/
theorem IsList.unlink_of_notMem (h : IsList mem ends ps) (hp : p ∈ ps) (hq : q ∉ ps) :
    unlink p mem q = mem q := by
  obtain ⟨l, r, rfl⟩ := List.append_of_mem hp
  have hpq : q ≠ p := fun h => hq (h ▸ hp)
  have hprev : (mem p).prev ≠ some q := by
    rw [h.prev_eq]
    intro hlast
    exact hq (List.mem_append_left _ (List.mem_of_getLast? hlast))
  have hnext : (mem p).next ≠ some q := by
    rw [h.next_eq]
    intro hhead
    exact hq (List.mem_append_right _ (List.mem_cons_of_mem p (List.mem_of_head? hhead)))
  ext1 <;> simp [unlink, hpq, hprev, hnext]

/-- The ends of a list once its cell `p` is out. -/
def Ends.drop (mem : Memory κ β) (p : Nat) (ends : Ends) : Ends where
  head := if ends.head = some p then (mem p).next else ends.head
  tail := if ends.tail = some p then (mem p).prev else ends.tail

theorem IsList.ends_drop (h : IsList mem ends (l ++ p :: r)) :
    ends.drop mem p = ⟨(l ++ r).head?, (l ++ r).getLast?⟩ := by
  obtain ⟨-, hpr, hdisj⟩ := List.nodup_append'.mp h.nodup
  have hr : p ∉ r := (List.nodup_cons.mp hpr).1
  ext1
  · rw [Ends.drop, h.next_eq, h.head]
    cases l with
    | nil => simp
    | cons a l' =>
        have hap : a ≠ p := fun h => hdisj List.mem_cons_self (h ▸ List.mem_cons_self)
        simp [hap]
  · rw [Ends.drop, h.prev_eq, h.tail]
    cases r with
    | nil => simp
    | cons b r' =>
        have hlast : (b :: r').getLast? ≠ some p := fun h => hr (List.mem_of_getLast? h)
        rw [List.getLast?_append_cons, List.getLast?_append_cons, List.getLast?_cons_cons,
          if_neg hlast]

theorem IsList.erase_eq (h : IsList mem ends (l ++ p :: r)) : (l ++ p :: r).erase p = l ++ r := by
  obtain ⟨-, -, hdisj⟩ := List.nodup_append'.mp h.nodup
  have hl : p ∉ l := fun hp => hdisj hp List.mem_cons_self
  rw [List.erase_append_right _ hl, List.erase_cons_head]

theorem IsList.unlink (h : IsList mem ends ps) (hmem : p ∈ ps) :
    IsList (unlink p mem) (ends.drop mem p) (ps.erase p) := by
  obtain ⟨l, r, rfl⟩ := List.append_of_mem hmem
  rw [h.ends_drop, h.erase_eq]
  obtain ⟨hl, hpr, hdisj⟩ := List.nodup_append'.mp h.nodup
  obtain ⟨hp, hr⟩ := List.nodup_cons.mp hpr
  have hprev := h.prev_eq
  have hnext := h.next_eq
  obtain ⟨hsl, hsr⟩ := (seg_append l (p :: r)).mp h.seg
  have hmid : ∀ q ∈ l, q ∉ r := fun q hq hqr => hdisj hq (List.mem_cons_of_mem p hqr)
  have hpl : ∀ q ∈ l, q ≠ p := fun q hq hqp => hdisj hq (hqp ▸ List.mem_cons_self)
  have hpr : ∀ q ∈ r, q ≠ p := fun q hq hqp => hp (hqp ▸ hq)
  refine ⟨?_, rfl, rfl, (seg_append l r).mpr
    ⟨hsl.change_after hl ?_ ?_, hsr.2.2.change_before hr ?_ ?_⟩⟩
  · exact List.nodup_append'.mpr ⟨hl, hr, fun q hq hqr => hmid q hq hqr⟩
  · intro q hq
    have : r.head? ≠ some q := fun h => hmid q hq (List.mem_of_head? h)
    simp [LinkedList.unlink, hpl q hq, hprev, hnext, this]
  · intro q hq
    simp [LinkedList.unlink, hpl q hq, hprev, hnext]
  · intro q hq
    have : l.getLast? ≠ some q := fun h => hmid q (List.mem_of_getLast? h) hq
    simp [LinkedList.unlink, hpr q hq, hprev, hnext, this]
  · intro q hq
    simp [LinkedList.unlink, hpr q hq, hprev, hnext]

/--
Removal by the position of the cell. Three of its writes go through a link that is not
checked; a nil link there is a failure.
-/
def remove (node : Nat) (ends : Ends) (mem : Memory κ β) : Option (Ends × Memory κ β) := do
  let (ends, mem) ←
    if ends.head = ends.tail then
      some (⟨none, none⟩, mem)
    else if ends.head = some node then do
      let q ← (mem node).next
      some (⟨some q, ends.tail⟩, setPrev q none mem)
    else if ends.tail = some node then do
      let q ← (mem node).prev
      some (⟨ends.head, some q⟩, setNext q none mem)
    else do
      let q ← (mem node).prev
      let mem := setNext q (mem node).next mem
      let r ← (mem node).next
      some (ends, setPrev r (mem node).prev mem)
  some (ends, setNext node none (setPrev node none mem))

/-- On a cell of its list the removal does not fail. -/
theorem IsList.remove_eq (h : IsList mem ends ps) (hmem : p ∈ ps) :
    remove p ends mem = some (ends.drop mem p, LinkedList.unlink p mem) := by
  obtain ⟨l, r, rfl⟩ := List.append_of_mem hmem
  rw [h.ends_drop]
  have hprev := h.prev_eq
  have hnext := h.next_eq
  have hhead := h.head
  have htail := h.tail
  obtain ⟨-, hpr, hdisj⟩ := List.nodup_append'.mp h.nodup
  have hpl : p ∉ l := fun hp => hdisj hp List.mem_cons_self
  have hr : p ∉ r := (List.nodup_cons.mp hpr).1
  have hlast : r.getLast? ≠ some p := fun h => hr (List.mem_of_getLast? h)
  cases l with
  | nil =>
      cases r with
      | nil => simp [remove, LinkedList.unlink, linkPrev, linkNext, hhead, htail, hprev, hnext]
      | cons b r' =>
          have hne : some p ≠ (b :: r').getLast? := hlast.symm
          simp [remove, LinkedList.unlink, linkPrev, linkNext, hhead, htail, hprev, hnext, hne]
  | cons a l' =>
      obtain ⟨z, hz⟩ := Option.ne_none_iff_exists'.mp
        (show (a :: l').getLast? ≠ none by simp)
      have hap : a ≠ p := fun h => hpl (h ▸ List.mem_cons_self)
      rw [hz] at hprev
      cases r with
      | nil =>
          have htail : ends.tail = some p := by rw [htail, List.getLast?_concat]
          simp [remove, LinkedList.unlink, linkPrev, linkNext, hhead, htail, hprev, hnext, hap, hz]
      | cons b r' =>
          have hlr : (a :: (l' ++ b :: r')).getLast? = (b :: r').getLast? :=
            List.getLast?_append_cons (a :: l') b r'
          have htail : ends.tail = (b :: r').getLast? := by
            rw [htail, List.getLast?_append_cons, List.getLast?_cons_cons]
          have hne : some a ≠ (b :: r').getLast? := by
            intro h
            exact hdisj List.mem_cons_self (List.mem_cons_of_mem p (List.mem_of_getLast? h.symm))
          simp [remove, LinkedList.unlink, linkPrev, linkNext, hhead, htail, hprev, hnext, hap,
            hne, hlast, hlr, Ends.ext_iff]

/-- The cell `p` becomes the head; `head` is the head before. -/
def pushFront (head : Option Nat) (p : Nat) (mem : Memory κ β) : Memory κ β :=
  linkPrev head (some p) (setNext p head (setPrev p none mem))

/-- The links that `unlink` clears are written again. -/
theorem pushFront_unlink (head : Option Nat) (p : Nat) (mem : Memory κ β) :
    pushFront head p (unlink p mem) = linkPrev head (some p) (setNext p head (setPrev p none
      (linkPrev (mem p).next (mem p).prev (linkNext (mem p).prev (mem p).next mem)))) := by
  rw [pushFront, unlink]
  congr 1
  funext q
  by_cases hq : q = p
  · subst hq
    ext1 <;> simp
  · ext1 <;> simp [hq]

@[simp] theorem pushFront_key {head : Option Nat} :
    (pushFront head p mem q).key = (mem q).key := by simp [pushFront]

@[simp] theorem pushFront_value {head : Option Nat} :
    (pushFront head p mem q).value = (mem q).value := by simp [pushFront]

theorem IsList.pushFront_of_notMem (h : IsList mem ends ps) (hp : q ≠ p) (hq : q ∉ ps) :
    pushFront ends.head p mem q = mem q := by
  have hhead : ends.head ≠ some q := by
    rw [h.head]
    exact fun hh => hq (List.mem_of_head? hh)
  ext1 <;> simp [pushFront, hp, hhead]

theorem IsList.pushFront (h : IsList mem ends ps) (hp : p ∉ ps) :
    IsList (pushFront ends.head p mem) ⟨some p, ends.tail.or (some p)⟩ (p :: ps) := by
  have hne : ∀ q ∈ ps, q ≠ p := fun q hq hqp => hp (hqp ▸ hq)
  have hhead : ps.head? ≠ some p := fun hh => hp (List.mem_of_head? hh)
  refine ⟨List.nodup_cons.mpr ⟨hp, h.nodup⟩, rfl, ?_, ?_, ?_, h.seg.change_before h.nodup ?_ ?_⟩
  · rw [h.tail, List.getLast?_cons]
    cases ps.getLast? <;> rfl
  · simp [LinkedList.pushFront, h.head, hhead]
  · simp [LinkedList.pushFront, h.head]
  · intro q hq
    simp [LinkedList.pushFront, hne q hq]
  · intro q hq
    simp [LinkedList.pushFront, hne q hq, h.head]

end Lists

end LinkedList
