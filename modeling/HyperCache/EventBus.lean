/-
The event bus, under every interleaving of its callers.

`Publish` holds the read lock while it numbers its event and visits the subscribers,
and a subscriber is entered and deleted under the write lock.  What happens under the
write lock is one step here, taken when no `Publish` holds the lock.  The channel of
a subscriber is closed after that, by the one call that runs inside the subscriber's
`once`.  An event is its version.
-/
import HyperCache.Lib.Interleaving
import HyperCache.Lib.Keyed
import HyperCache.Lib.Pointwise
import HyperCache.Lib.Tally

namespace HyperCache

open Interleaving Keyed Pointwise Tally

def subscriberBufferSize : Nat := 16

/-- The channel of a subscriber, with what was received from it. -/
structure EventChan where
  queue : List UInt64 := []
  received : List UInt64 := []
  closed : Bool := false

/-- How far a subscriber has come, with the id that its `Subscribe` took. -/
inductive Subscription where
  | absent
  | registered (id : UInt64)
  /-- A call is inside `once.Do`. -/
  | unsubscribing (id : UInt64)
  | closing
  | closed

/-- Where a goroutine is in `Publish`, with the version of its event and the subscribers it has
still to visit. -/
inductive PublishPc (S : Type) where
  | idle
  | reading
  | visiting (version : UInt64) (todo : List S)

/-- The bus, its subscribers and its publishers.  `calls` notes for every `Publish` how many
subscribers it found. -/
structure Bus (S P : Type) where
  readers : Nat := 0
  subscribers : AList (fun _ : UInt64 => S) := ∅
  nextID : UInt64 := 0
  version : UInt64 := 0
  dropped : UInt64 := 0
  subscription : S → Subscription := fun _ => .absent
  canceled : S → Bool := fun _ => false
  chan : S → EventChan := fun _ => {}
  publisher : P → PublishPc S := fun _ => .idle
  calls : List Nat := []
  panicked : Bool := false

namespace Bus

variable {S P : Type} [DecidableEq S] [DecidableEq P]

inductive Act (S P : Type) where
  | subscribe (s : S)
  /-- Somebody calls the function that `Subscribe` returned. -/
  | unsubscribe (s : S)
  /-- The context of a subscriber is canceled. -/
  | cancel (s : S)
  /-- The goroutine that waits for the context goes on. -/
  | reap (s : S)
  | remove (s : S)
  | close (s : S)
  /-- A step of `Publish` outside its loop. -/
  | publish (p : P)
  /-- A turn of the loop, which takes the subscribers in any order. -/
  | visit (p : P) (s : S)
  | receive (s : S)

def setSubscription (s : S) (pc : Subscription) (b : Bus S P) : Bus S P :=
  { b with subscription := Function.update b.subscription s pc }

def setPublisher (p : P) (pc : PublishPc S) (b : Bus S P) : Bus S P :=
  { b with publisher := Function.update b.publisher p pc }

def setChan (s : S) (c : EventChan) (b : Bus S P) : Bus S P :=
  { b with chan := Function.update b.chan s c }

def subscribe (s : S) (b : Bus S P) : Option (Bus S P) :=
  match b.subscription s with
  | .absent =>
      if b.readers = 0 then
        some (setSubscription s (.registered b.nextID)
          { b with subscribers := b.subscribers.insert b.nextID s, nextID := b.nextID + 1 })
      else none
  | _ => none

/-- Only the first call gets into `once.Do`. -/
def unsub (s : S) (b : Bus S P) : Option (Bus S P) :=
  match b.subscription s with
  | .absent => none
  | .registered id => some (b.setSubscription s (.unsubscribing id))
  | _ => some b

def remove (s : S) (b : Bus S P) : Option (Bus S P) :=
  match b.subscription s with
  | .unsubscribing id =>
      if b.readers = 0 then
        some (setSubscription s .closing { b with subscribers := b.subscribers.erase id })
      else none
  | _ => none

def close (s : S) (b : Bus S P) : Option (Bus S P) :=
  match b.subscription s with
  | .closing =>
      if (b.chan s).closed then some { b with panicked := true }
      else some (setSubscription s .closed (b.setChan s { b.chan s with closed := true }))
  | _ => none

def publish (p : P) (b : Bus S P) : Option (Bus S P) :=
  match b.publisher p with
  | .idle => some (setPublisher p .reading { b with readers := b.readers + 1 })
  | .reading =>
      some (setPublisher p (.visiting (b.version + 1) (elems b.subscribers))
        { b with
          version := b.version + 1
          calls := b.calls ++ [(elems b.subscribers).length] })
  | .visiting _ [] => some (setPublisher p .idle { b with readers := b.readers - 1 })
  | .visiting _ (_ :: _) => none

def visit (p : P) (s : S) (b : Bus S P) : Option (Bus S P) :=
  match b.publisher p with
  | .visiting version todo =>
      if todo.contains s then
        if (b.chan s).closed then some { b with panicked := true }
        else if (b.chan s).queue.length < subscriberBufferSize then
          some (setPublisher p (.visiting version (todo.erase s))
            (b.setChan s { b.chan s with queue := (b.chan s).queue ++ [version] }))
        else
          some (setPublisher p (.visiting version (todo.erase s))
            { b with dropped := b.dropped + 1 })
      else none
  | _ => none

def receive (s : S) (b : Bus S P) : Option (Bus S P) :=
  match (b.chan s).queue with
  | version :: rest =>
      some (b.setChan s
        { b.chan s with queue := rest, received := (b.chan s).received ++ [version] })
  | [] => none

/-- A bus that has panicked takes no more steps. -/
def step (b : Bus S P) : Act S P → Option (Bus S P)
  | .subscribe s => if b.panicked then none else b.subscribe s
  | .unsubscribe s => if b.panicked then none else b.unsub s
  | .cancel s =>
      if b.panicked then none else some { b with canceled := Function.update b.canceled s true }
  | .reap s => if b.panicked ∨ b.canceled s = false then none else b.unsub s
  | .remove s => if b.panicked then none else b.remove s
  | .close s => if b.panicked then none else b.close s
  | .publish p => if b.panicked then none else b.publish p
  | .visit p s => if b.panicked then none else b.visit p s
  | .receive s => if b.panicked then none else b.receive s

/-- The steps that do not panic. -/
inductive Moves (b : Bus S P) : Act S P → Bus S P → Prop where
  | subscribe {s : S} (hpc : b.subscription s = .absent) (hfree : b.readers = 0) :
      Moves b (.subscribe s) (setSubscription s (.registered b.nextID)
        { b with subscribers := b.subscribers.insert b.nextID s, nextID := b.nextID + 1 })
  | enter {a : Act S P} {s : S} {id : UInt64} (hpc : b.subscription s = .registered id) :
      Moves b a (b.setSubscription s (.unsubscribing id))
  | ignore {a : Act S P} : Moves b a b
  | cancel {s : S} : Moves b (.cancel s) { b with canceled := Function.update b.canceled s true }
  | remove {s : S} {id : UInt64} (hpc : b.subscription s = .unsubscribing id)
      (hfree : b.readers = 0) :
      Moves b (.remove s)
        (setSubscription s .closing { b with subscribers := b.subscribers.erase id })
  | close {s : S} (hpc : b.subscription s = .closing) (hopen : (b.chan s).closed = false) :
      Moves b (.close s) (setSubscription s .closed (b.setChan s { b.chan s with closed := true }))
  | rlock {p : P} (hpc : b.publisher p = .idle) :
      Moves b (.publish p) (setPublisher p .reading { b with readers := b.readers + 1 })
  | stamp {p : P} (hpc : b.publisher p = .reading) :
      Moves b (.publish p) (setPublisher p (.visiting (b.version + 1) (elems b.subscribers))
        { b with
          version := b.version + 1
          calls := b.calls ++ [(elems b.subscribers).length] })
  | runlock {p : P} {version : UInt64} (hpc : b.publisher p = .visiting version []) :
      Moves b (.publish p) (setPublisher p .idle { b with readers := b.readers - 1 })
  | send {p : P} {s : S} {version : UInt64} {todo : List S}
      (hpc : b.publisher p = .visiting version todo) (hs : s ∈ todo)
      (hroom : (b.chan s).queue.length < subscriberBufferSize) :
      Moves b (.visit p s) (setPublisher p (.visiting version (todo.erase s))
        (b.setChan s { b.chan s with queue := (b.chan s).queue ++ [version] }))
  | drop {p : P} {s : S} {version : UInt64} {todo : List S}
      (hpc : b.publisher p = .visiting version todo) (hs : s ∈ todo) :
      Moves b (.visit p s) (setPublisher p (.visiting version (todo.erase s))
        { b with dropped := b.dropped + 1 })
  | receive {s : S} {version : UInt64} {rest : List UInt64}
      (hqueue : (b.chan s).queue = version :: rest) :
      Moves b (.receive s) (b.setChan s
        { b.chan s with queue := rest, received := (b.chan s).received ++ [version] })

theorem moves_unsub {b b' : Bus S P} {a : Act S P} {s : S} (h : b.unsub s = some b') :
    Moves b a b' := by
  rw [unsub] at h
  split at h
  · cases h
  case h_2 id hpc =>
    cases h
    exact .enter hpc
  · cases h
    exact .ignore

end Bus

namespace PublishPc

variable {S : Type}

/-- Holds the read lock. -/
@[simp] def reads : PublishPc S → Nat
  | .idle => 0
  | .reading | .visiting _ _ => 1

@[simp] def unvisited : PublishPc S → Nat
  | .idle | .reading => 0
  | .visiting _ todo => todo.length

end PublishPc

namespace Bus

/-! ## No panic -/

section

variable {S P : Type} [Fintype P] {b b' : Bus S P}

/-- A subscriber in the map has not been unsubscribed, and one that is closed has.  A `Publish`
visits subscribers in the map only. -/
structure Inv (b : Bus S P) : Prop where
  panicked : b.panicked = false
  readers : b.readers = count PublishPc.reads b.publisher
  live : ∀ id s, b.subscribers.lookup id = some s →
    b.subscription s = .registered id ∨ b.subscription s = .unsubscribing id
  nodup : (elems b.subscribers).Nodup
  closes : ∀ s, (b.chan s).closed = true → b.subscription s = .closed
  todo : ∀ p version todo, b.publisher p = .visiting version todo →
    todo.Sublist (elems b.subscribers)

theorem inv_new : Inv ({} : Bus S P) where
  panicked := rfl
  readers := (count_eq_zero.mpr fun _ => rfl).symm
  live := fun id s h => by
    rw [AList.lookup_empty] at h
    cases h
  nodup := List.nodup_nil
  closes := nofun
  todo := nofun

theorem Inv.idle_of_free (h : Inv b) (hfree : b.readers = 0) (p : P) : b.publisher p = .idle := by
  have hreads := count_eq_zero.mp (h.readers.symm.trans hfree) p
  generalize b.publisher p = pc at hreads
  cases pc with
  | idle => rfl
  | reading => cases hreads
  | visiting version todo => cases hreads

theorem Inv.open_of_todo (h : Inv b) {p : P} {version : UInt64} {todo : List S} {s : S}
    (hpc : b.publisher p = .visiting version todo) (hs : s ∈ todo) : (b.chan s).closed = false := by
  obtain ⟨id, hid⟩ := mem_elems.mp ((h.todo p version todo hpc).subset hs)
  refine Bool.eq_false_iff.mpr (fun hclosed => ?_)
  rcases h.live id s hid with hlive | hlive <;>
  · rw [h.closes s hclosed] at hlive
    cases hlive

theorem Inv.setPublisher [DecidableEq P] (h : Inv b) {p : P} {old new : PublishPc S}
    (hpc : b.publisher p = old) {readers : Nat}
    (hreaders : readers + old.reads = b.readers + new.reads)
    (hnew : ∀ version todo, new = .visiting version todo → todo.Sublist (elems b.subscribers))
    {version dropped : UInt64} {calls : List Nat} :
    Inv (setPublisher p new { b with readers, version, dropped, calls }) where
  panicked := h.panicked
  readers := by
    have hmove := count_move PublishPc.reads hpc new
    have hold := h.readers
    show readers = count PublishPc.reads (Function.update b.publisher p new)
    omega
  live := h.live
  nodup := h.nodup
  closes := h.closes
  todo := by
    intro q v todo hq
    rcases update_cases hq with ⟨-, heq⟩ | ⟨-, hold⟩
    · exact hnew v todo heq
    · exact h.todo q v todo hold

/-- Under the write lock nobody visits anything. -/
theorem Inv.todo_of_free (h : Inv b) (hfree : b.readers = 0)
    (subscribers : AList fun _ : UInt64 => S) (p : P) (version : UInt64) (todo : List S)
    (hpc : b.publisher p = .visiting version todo) : todo.Sublist (elems subscribers) := by
  rw [h.idle_of_free hfree p] at hpc
  cases hpc

variable [DecidableEq S]

/-- A subscriber takes a step, and the map has no other subscribers than before. -/
theorem Inv.setSubscription (h : Inv b) {s : S} {pc : Subscription}
    {subscribers : AList fun _ : UInt64 => S} {nextID : UInt64}
    (hclosed : b.subscription s ≠ .closed)
    (hlive : ∀ id s', subscribers.lookup id = some s' →
      s' = s ∧ (pc = .registered id ∨ pc = .unsubscribing id) ∨
        s' ≠ s ∧ b.subscribers.lookup id = some s')
    (hnodup : (elems subscribers).Nodup)
    (htodo : ∀ p version todo, b.publisher p = .visiting version todo →
      todo.Sublist (elems subscribers)) :
    Inv (setSubscription s pc { b with subscribers, nextID }) where
  panicked := h.panicked
  readers := h.readers
  live := by
    intro id s' hs'
    show Function.update b.subscription s pc s' = _ ∨ Function.update b.subscription s pc s' = _
    rcases hlive id s' hs' with ⟨rfl, hpc⟩ | ⟨hne, hold⟩
    · rw [Function.update_self]
      exact hpc
    · rw [Function.update_of_ne hne]
      exact h.live id s' hold
  nodup := hnodup
  closes := by
    intro s' hs'
    have hne : s' ≠ s := by
      rintro rfl
      exact hclosed (h.closes s' hs')
    exact (Function.update_of_ne hne _ _).trans (h.closes s' hs')
  todo := htodo

theorem Inv.setChan (h : Inv b) {s : S} {c : EventChan} (hc : c.closed = (b.chan s).closed) :
    Inv (b.setChan s c) where
  panicked := h.panicked
  readers := h.readers
  live := h.live
  nodup := h.nodup
  closes := by
    intro s' hs'
    refine h.closes s' ?_
    change (Function.update b.chan s c s').closed = true at hs'
    by_cases hne : s' = s
    · subst hne
      rw [Function.update_self] at hs'
      exact hc.symm.trans hs'
    · rw [Function.update_of_ne hne] at hs'
      exact hs'
  todo := h.todo

theorem Inv.subscribe (h : Inv b) {s : S} (hpc : b.subscription s = .absent)
    (hfree : b.readers = 0) :
    Inv (Bus.setSubscription s (.registered b.nextID)
      { b with subscribers := b.subscribers.insert b.nextID s, nextID := b.nextID + 1 }) := by
  have hnew : ∀ id, b.subscribers.lookup id ≠ some s := by
    intro id hid
    rcases h.live id s hid with hlive | hlive <;>
    · rw [hpc] at hlive
      cases hlive
  apply h.setSubscription
  · rw [hpc]
    nofun
  · intro id s' hs'
    by_cases hid : id = b.nextID
    · subst hid
      rw [AList.lookup_insert, Option.some.injEq] at hs'
      exact Or.inl ⟨hs'.symm, Or.inl rfl⟩
    · rw [AList.lookup_insert_ne hid] at hs'
      refine Or.inr ⟨fun heq => ?_, hs'⟩
      subst heq
      exact hnew id hs'
  · have hsub := elems_erase_sublist b.subscribers b.nextID
    rw [elems_insert]
    refine List.nodup_cons.mpr ⟨fun hmem => ?_, h.nodup.sublist hsub⟩
    obtain ⟨id, hid⟩ := mem_elems.mp (hsub.subset hmem)
    exact hnew id hid
  · exact h.todo_of_free hfree _

theorem Inv.enter (h : Inv b) {s : S} {id : UInt64} (hpc : b.subscription s = .registered id) :
    Inv (b.setSubscription s (.unsubscribing id)) := by
  refine h.setSubscription (by rw [hpc]; nofun) (fun id' s' hs' => ?_) h.nodup h.todo
  by_cases hne : s' = s
  · subst hne
    rcases h.live id' s' hs' with hlive | hlive <;> rw [hpc] at hlive <;> cases hlive
    exact Or.inl ⟨rfl, Or.inr rfl⟩
  · exact Or.inr ⟨hne, hs'⟩

theorem Inv.remove (h : Inv b) {s : S} {id : UInt64}
    (hpc : b.subscription s = .unsubscribing id) (hfree : b.readers = 0) :
    Inv (Bus.setSubscription s .closing { b with subscribers := b.subscribers.erase id }) := by
  apply h.setSubscription
  · rw [hpc]
    nofun
  · intro id' s' hs'
    have hid : id' ≠ id := by
      intro heq
      subst heq
      rw [AList.lookup_erase] at hs'
      cases hs'
    rw [AList.lookup_erase_ne hid] at hs'
    refine Or.inr ⟨fun heq => ?_, hs'⟩
    subst heq
    rcases h.live id' s' hs' with hlive | hlive <;> rw [hpc] at hlive <;> cases hlive
    exact hid rfl
  · exact h.nodup.sublist (elems_erase_sublist _ _)
  · exact h.todo_of_free hfree _

theorem Inv.close (h : Inv b) {s : S} (hpc : b.subscription s = .closing) :
    Inv (Bus.setSubscription s .closed (b.setChan s { b.chan s with closed := true })) where
  panicked := h.panicked
  readers := h.readers
  live := by
    intro id s' hs'
    have hne : s' ≠ s := by
      intro heq
      subst heq
      rcases h.live id s' hs' with hlive | hlive <;> rw [hpc] at hlive <;> cases hlive
    show Function.update b.subscription s .closed s' = _ ∨
      Function.update b.subscription s .closed s' = _
    rw [Function.update_of_ne hne]
    exact h.live id s' hs'
  nodup := h.nodup
  closes := by
    intro s' hs'
    show Function.update b.subscription s .closed s' = .closed
    change (Function.update b.chan s { b.chan s with closed := true } s').closed = true at hs'
    by_cases hne : s' = s
    · subst hne
      exact Function.update_self _ _ _
    · rw [Function.update_of_ne hne] at hs' ⊢
      exact h.closes s' hs'
  todo := h.todo

variable [DecidableEq P]

theorem moves_visit (h : Inv b) {p : P} {s : S} (hstep : b.visit p s = some b') :
    Moves b (.visit p s) b' := by
  rw [visit] at hstep
  split at hstep
  case h_1 version todo hpc =>
    split at hstep
    case isTrue hs =>
      have hs' : s ∈ todo := List.contains_iff_mem.mp hs
      rw [h.open_of_todo hpc hs', if_neg nofun] at hstep
      split at hstep
      case isTrue hroom =>
        cases hstep
        exact .send hpc hs' hroom
      · cases hstep
        exact .drop hpc hs'
    · cases hstep
  · cases hstep

theorem moves_of_step {a : Act S P} (h : Inv b) (hstep : step b a = some b') : Moves b a b' := by
  have hgo : ¬b.panicked = true := Bool.eq_false_iff.mp h.panicked
  cases a with
  | subscribe s =>
      rw [step, if_neg hgo, subscribe] at hstep
      split at hstep
      case h_1 hpc =>
        split at hstep
        case isTrue hfree =>
          cases hstep
          exact .subscribe hpc hfree
        · cases hstep
      · cases hstep
  | unsubscribe s =>
      rw [step, if_neg hgo] at hstep
      exact moves_unsub hstep
  | cancel s =>
      rw [step, if_neg hgo] at hstep
      cases hstep
      exact .cancel
  | reap s =>
      rw [step] at hstep
      split at hstep
      · cases hstep
      · exact moves_unsub hstep
  | remove s =>
      rw [step, if_neg hgo, remove] at hstep
      split at hstep
      case h_1 id hpc =>
        split at hstep
        case isTrue hfree =>
          cases hstep
          exact .remove hpc hfree
        · cases hstep
      · cases hstep
  | close s =>
      rw [step, if_neg hgo, close] at hstep
      split at hstep
      case h_1 hpc =>
        have hopen : (b.chan s).closed = false := by
          refine Bool.eq_false_iff.mpr (fun hclosed => ?_)
          rw [h.closes s hclosed] at hpc
          cases hpc
        rw [hopen] at hstep
        cases hstep
        exact .close hpc hopen
      · cases hstep
  | publish p =>
      rw [step, if_neg hgo, publish] at hstep
      split at hstep
      case h_1 hpc =>
        cases hstep
        exact .rlock hpc
      case h_2 hpc =>
        cases hstep
        exact .stamp hpc
      case h_3 version hpc =>
        cases hstep
        exact .runlock hpc
      · cases hstep
  | visit p s =>
      rw [step, if_neg hgo] at hstep
      exact moves_visit h hstep
  | receive s =>
      rw [step, if_neg hgo, receive] at hstep
      split at hstep
      case h_1 version rest hqueue =>
        cases hstep
        exact .receive hqueue
      · cases hstep

theorem Inv.moves {a : Act S P} (h : Inv b) (hm : Moves b a b') : Inv b' := by
  cases hm with
  | subscribe hpc hfree => exact h.subscribe hpc hfree
  | enter hpc => exact h.enter hpc
  | ignore => exact h
  | cancel => exact ⟨h.panicked, h.readers, h.live, h.nodup, h.closes, h.todo⟩
  | remove hpc hfree => exact h.remove hpc hfree
  | close hpc hopen => exact h.close hpc
  | rlock hpc =>
      refine h.setPublisher hpc (by rfl) (fun version todo heq => ?_)
      cases heq
  | stamp hpc =>
      refine h.setPublisher hpc (by rfl) (fun version todo heq => ?_)
      cases heq
      exact List.Sublist.refl _
  | @runlock p version hpc =>
      have hone := le_count PublishPc.reads b.publisher p
      have hreaders := h.readers
      rw [hpc] at hone
      change 1 ≤ _ at hone
      refine h.setPublisher hpc ?_ (fun version todo heq => ?_)
      · show b.readers - 1 + 1 = b.readers + 0
        omega
      · cases heq
  | @send p s version todo hpc _ _ =>
      have hchan : Inv (b.setChan s { b.chan s with queue := (b.chan s).queue ++ [version] }) :=
        h.setChan rfl
      refine hchan.setPublisher hpc (by rfl) (fun version todo heq => ?_)
      cases heq
      exact (List.erase_sublist).trans (h.todo _ _ _ hpc)
  | drop hpc _ =>
      refine h.setPublisher hpc (by rfl) (fun version todo heq => ?_)
      cases heq
      exact (List.erase_sublist).trans (h.todo _ _ _ hpc)
  | receive _ => exact h.setChan rfl

end

end Bus

end HyperCache
