/-
What becomes of published events.

Every `Publish` visits each subscriber that it found in the map once, and either sends
or counts a drop, so that sends and drops add up to the visits.  The counter of drops
has 64 bits.

A `Publish` has its version before it visits anyone, and two calls can hold the read
lock together.  The later one may then be the first at a subscriber, whose versions go
down.  If no call sends past an older one, they go up.
-/
import Mathlib.Algebra.GroupWithZero.Nat
import HyperCache.EventBus

namespace HyperCache

open Interleaving Keyed Pointwise Tally

/-- What was sent on a channel, in order. -/
def EventChan.log (c : EventChan) : List UInt64 := c.received ++ c.queue

theorem EventChan.log_send (c : EventChan) (version : UInt64) :
    EventChan.log { c with queue := c.queue ++ [version] } = c.log ++ [version] :=
  (List.append_assoc _ _ _).symm

theorem EventChan.log_receive {c : EventChan} {version : UInt64} {rest : List UInt64}
    (h : c.queue = version :: rest) :
    EventChan.log { c with queue := rest, received := c.received ++ [version] } = c.log := by
  rw [EventChan.log, EventChan.log, h, List.append_assoc]
  rfl

namespace PublishPc

variable {S : Type}

def isReading : PublishPc S → Bool
  | .reading => true
  | _ => false

/-- The version that a call has still to bring to a subscriber. -/
def versionFor [DecidableEq S] (s : S) : PublishPc S → Option UInt64
  | .visiting version todo => if todo.contains s then some version else none
  | _ => none

theorem versionFor_visiting [DecidableEq S] {s : S} {version : UInt64} {todo : List S}
    (hs : s ∈ todo) : version ∈ (visiting version todo).versionFor s :=
  if_pos (List.contains_iff_mem.mpr hs)

end PublishPc

namespace Bus

/-! ## Sent and dropped -/

section

variable {S P : Type} [Fintype S] [Fintype P] {b b' : Bus S P}

/-- The events sent so far. -/
def sent (b : Bus S P) : Nat := count (fun c : EventChan => c.log.length) b.chan

/-- The visits still to be made by the calls in progress. -/
def unvisited (b : Bus S P) : Nat := count PublishPc.unvisited b.publisher

/-- Every visit made has sent or dropped its event. -/
def Accounted (b : Bus S P) : Prop :=
  ∃ drops, b.sent + drops + b.unvisited = b.calls.sum ∧ b.dropped = UInt64.ofNat drops

theorem accounted_new : Accounted ({} : Bus S P) := by
  have hsent : ({} : Bus S P).sent = 0 := count_eq_zero.mpr fun _ => rfl
  have hunvisited : ({} : Bus S P).unvisited = 0 := count_eq_zero.mpr fun _ => rfl
  refine ⟨0, ?_, rfl⟩
  rw [hsent, hunvisited]
  rfl

variable [DecidableEq S] [DecidableEq P]

omit [Fintype S] in
/-- A turn of the loop of `Publish` leaves one visit less. -/
theorem unvisited_visit {p : P} {s : S} {version : UInt64} {todo : List S}
    (hpc : b.publisher p = .visiting version todo) (hs : s ∈ todo) :
    count PublishPc.unvisited
      (Function.update b.publisher p (.visiting version (todo.erase s))) + 1 = b.unvisited := by
  have hmove : count PublishPc.unvisited
      (Function.update b.publisher p (.visiting version (todo.erase s))) + todo.length =
        b.unvisited + (todo.erase s).length := count_move _ hpc _
  have hpos := List.length_pos_of_mem hs
  rw [List.length_erase_of_mem hs] at hmove
  omega

theorem Accounted.moves {a : Act S P} (h : Accounted b) (hm : Moves b a b') : Accounted b' := by
  obtain ⟨drops, hsum, hdropped⟩ := h
  have hlog : ∀ s (c : EventChan), count (fun c : EventChan => c.log.length)
      (Function.update b.chan s c) + (b.chan s).log.length = b.sent + c.log.length :=
    fun s c => count_update _ b.chan s c
  cases hm with
  | @close s hpc hopen =>
      refine ⟨drops, ?_, hdropped⟩
      have hsame : count (fun c : EventChan => c.log.length)
          (Function.update b.chan s { b.chan s with closed := true }) = b.sent :=
        Nat.add_right_cancel (hlog s _)
      exact (congrArg (· + drops + b.unvisited) hsame).trans hsum
  | @rlock p hpc =>
      have hmove : count PublishPc.unvisited (Function.update b.publisher p .reading) + 0 =
          b.unvisited + 0 := count_move _ hpc _
      exact ⟨drops, (congrArg (b.sent + drops + ·) hmove).trans hsum, hdropped⟩
  | @stamp p hpc =>
      have hmove : count PublishPc.unvisited (Function.update b.publisher p
          (.visiting (b.version + 1) (elems b.subscribers))) + 0 =
            b.unvisited + (elems b.subscribers).length := count_move _ hpc _
      refine ⟨drops, ?_, hdropped⟩
      show b.sent + drops + count PublishPc.unvisited (Function.update b.publisher p
        (.visiting (b.version + 1) (elems b.subscribers))) =
          (b.calls ++ [(elems b.subscribers).length]).sum
      rw [List.sum_append, List.sum_singleton]
      omega
  | @runlock p version hpc =>
      have hmove : count PublishPc.unvisited (Function.update b.publisher p .idle) + 0 =
          b.unvisited + 0 := count_move _ hpc _
      exact ⟨drops, (congrArg (b.sent + drops + ·) hmove).trans hsum, hdropped⟩
  | @send p s version todo hpc hs _ =>
      have hleft := unvisited_visit hpc hs
      have hsend := hlog s { b.chan s with queue := (b.chan s).queue ++ [version] }
      rw [EventChan.log_send, List.length_append, List.length_singleton] at hsend
      refine ⟨drops, ?_, hdropped⟩
      show count (fun c : EventChan => c.log.length) (Function.update b.chan s
          { b.chan s with queue := (b.chan s).queue ++ [version] }) + drops +
        count PublishPc.unvisited
          (Function.update b.publisher p (.visiting version (todo.erase s))) = b.calls.sum
      omega
  | @drop p s version todo hpc hs =>
      have hleft := unvisited_visit hpc hs
      refine ⟨drops + 1, ?_, ?_⟩
      · show b.sent + (drops + 1) + count PublishPc.unvisited
          (Function.update b.publisher p (.visiting version (todo.erase s))) = b.calls.sum
        omega
      · show b.dropped + 1 = UInt64.ofNat (drops + 1)
        rw [UInt64.ofNat_add, hdropped]
        rfl
  | @receive s version rest hqueue =>
      have hreceive := hlog s
        { b.chan s with queue := rest, received := (b.chan s).received ++ [version] }
      rw [EventChan.log_receive hqueue] at hreceive
      refine ⟨drops, ?_, hdropped⟩
      show count (fun c : EventChan => c.log.length) (Function.update b.chan s
        { b.chan s with queue := rest, received := (b.chan s).received ++ [version] }) + drops +
          b.unvisited = b.calls.sum
      omega
  | _ => exact ⟨drops, hsum, hdropped⟩

/-- In every interleaving nothing panics, so no closed channel is sent on or closed again, and the
counter of drops is, in 64 bits, what the subscribers that the calls of `Publish` found come to
less the events sent and the visits not yet made. -/
theorem publish_accounted {acts : List (Act S P)} (hrun : run step {} acts = some b) :
    b.panicked = false ∧ b.sent + b.unvisited ≤ b.calls.sum ∧
      b.dropped = UInt64.ofNat (b.calls.sum - (b.sent + b.unvisited)) := by
  obtain ⟨hinv, drops, hsum, hdropped⟩ :=
    run_invariant (I := fun b : Bus S P => Inv b ∧ Accounted b)
      (fun h hstep => ⟨h.1.moves (moves_of_step h.1 hstep),
        h.2.moves (moves_of_step h.1 hstep)⟩) ⟨inv_new, accounted_new⟩ hrun
  refine ⟨hinv.panicked, by omega, ?_⟩
  have hdrops : b.calls.sum - (b.sent + b.unvisited) = drops := by omega
  rw [hdrops]
  exact hdropped

end

/-- A subscriber leaves after one event, twice over and with its context canceled. -/
def leaving : List (Act (Fin 1) (Fin 1)) :=
  [.subscribe 0, .publish 0, .publish 0, .visit 0 0, .publish 0, .unsubscribe 0, .cancel 0,
    .remove 0, .reap 0, .close 0, .unsubscribe 0, .publish 0, .publish 0, .publish 0]

theorem publish_accounted_leaving :
    ∃ b, run step {} leaving = some b ∧ b.panicked = false ∧ b.calls = [1, 0] ∧ b.sent = 1 ∧
      b.dropped = 0 := by
  have hrun : ∃ b, run step {} leaving = some b ∧ b.calls = [1, 0] ∧ b.sent = 1 ∧
      b.unvisited = 0 := ⟨_, rfl, rfl, rfl, rfl⟩
  obtain ⟨b, hb, hcalls, hsent, hunvisited⟩ := hrun
  obtain ⟨hpanicked, -, hdropped⟩ := publish_accounted hb
  rw [hcalls, hsent, hunvisited] at hdropped
  exact ⟨b, hb, hpanicked, hcalls, hsent, hdropped⟩

/-- One subscriber that never receives, and `n` drops. -/
structure Full (n : Nat) (b : Bus Unit Unit) : Prop where
  panicked : b.panicked = false
  publisher : b.publisher () = .idle
  subscribers : elems b.subscribers = [()]
  closed : (b.chan ()).closed = false
  queue : (b.chan ()).queue.length = subscriberBufferSize
  received : (b.chan ()).received = []
  dropped : b.dropped = UInt64.ofNat n
  calls : b.calls.sum = subscriberBufferSize + n

def publishOnce : List (Act Unit Unit) := [.publish (), .publish (), .visit () (), .publish ()]

theorem Full.publishOnce {n : Nat} {b : Bus Unit Unit} (h : Full n b) :
    ∃ b', run step b publishOnce = some b' ∧ Full (n + 1) b' := by
  refine ⟨{ b with
    version := b.version + 1
    dropped := b.dropped + 1
    calls := b.calls ++ [1]
    publisher := Function.update b.publisher () .idle }, ?_, ?_⟩
  · simp [Bus.publishOnce, run, step, publish, visit, setPublisher, h.panicked, h.publisher,
      h.subscribers, h.closed, h.queue]
  · refine ⟨h.panicked, rfl, h.subscribers, h.closed, h.queue, h.received, ?_, ?_⟩
    · show b.dropped + 1 = UInt64.ofNat (n + 1)
      rw [UInt64.ofNat_add, h.dropped]
      rfl
    · show (b.calls ++ [1]).sum = _
      rw [List.sum_append, h.calls]
      rfl

theorem exists_full (n : Nat) :
    ∃ (acts : List (Act Unit Unit)) (b : Bus Unit Unit), run step {} acts = some b ∧ Full n b := by
  induction n with
  | zero =>
      exact ⟨.subscribe () :: (List.replicate subscriberBufferSize publishOnce).flatten, _, rfl,
        rfl, rfl, rfl, rfl, rfl, rfl, rfl, rfl⟩
  | succ n ih =>
      obtain ⟨acts, b, hrun, hfull⟩ := ih
      obtain ⟨b', hrun', hfull'⟩ := hfull.publishOnce
      refine ⟨acts ++ publishOnce, b', ?_, hfull'⟩
      rw [run_append, hrun]
      exact hrun'

/-- After `2 ^ 64` drops the counter is at zero again. -/
theorem dropped_wraps :
    ∃ (acts : List (Act Unit Unit)) (b : Bus Unit Unit), run step {} acts = some b ∧
      b.publisher () = .idle ∧ b.sent + b.dropped.toNat ≠ b.calls.sum := by
  obtain ⟨acts, b, hrun, hfull⟩ := exists_full 0x10000000000000000
  have hsent : b.sent = subscriberBufferSize := by
    show (b.chan ()).log.length + 0 = subscriberBufferSize
    rw [EventChan.log, hfull.received, List.nil_append, hfull.queue, Nat.add_zero]
  refine ⟨acts, b, hrun, hfull.publisher, ?_⟩
  rw [hsent, hfull.dropped, hfull.calls]
  decide

/-! ## The order of versions -/

section

variable {S P : Type} {b b' : Bus S P}

/-- A version is taken while the counter does not wrap.  An event is sent to a subscriber only
when every other call that has still to visit it has a later version. -/
def InOrder [DecidableEq S] (b : Bus S P) : Act S P → Prop
  | .publish p => (b.publisher p).isReading → b.version.toNat + 1 < 0x10000000000000000
  | .visit p s => (b.chan s).queue.length < subscriberBufferSize →
      ∀ version ∈ (b.publisher p).versionFor s, ∀ q, q ≠ p →
        ∀ later ∈ (b.publisher q).versionFor s, version < later
  | _ => True

-- The instances over versions are named: another one would go through all of them.
instance [DecidableEq S] [DecidableEq P] [Fintype P] (b : Bus S P) :
    ∀ a, Decidable (b.InOrder a)
  | .publish _ => inferInstanceAs (Decidable (_ → _))
  | .visit p s =>
      haveI (version : UInt64) (q : P) :
          Decidable (∀ later ∈ (b.publisher q).versionFor s, version < later) :=
        Option.decidableForallMem _
      haveI : Decidable (∀ version ∈ (b.publisher p).versionFor s, ∀ q, q ≠ p →
          ∀ later ∈ (b.publisher q).versionFor s, version < later) :=
        Option.decidableForallMem _
      inferInstanceAs (Decidable (_ → _))
  | .subscribe _ | .unsubscribe _ | .cancel _ | .reap _ | .remove _ | .close _ | .receive _ =>
      isTrue trivial

/-- The versions sent to a subscriber go up, and those on their way to it are later. -/
structure Ordered (b : Bus S P) : Prop where
  log : ∀ s, (b.chan s).log.Pairwise (· < ·)
  sent : ∀ s, ∀ v ∈ (b.chan s).log, v ≤ b.version
  stamped : ∀ p version todo, b.publisher p = .visiting version todo → version ≤ b.version
  later : ∀ p version todo, b.publisher p = .visiting version todo →
    ∀ s ∈ todo, ∀ v ∈ (b.chan s).log, v < version

theorem ordered_new : Ordered ({} : Bus S P) where
  log := fun _ => List.Pairwise.nil
  sent := fun _ _ hv => absurd hv List.not_mem_nil
  stamped := nofun
  later := nofun

theorem lt_version_add_one {version : UInt64} (h : version.toNat + 1 < 0x10000000000000000) :
    version < version + 1 := by
  rw [UInt64.lt_iff_toNat_lt, UInt64.toNat_add]
  show version.toNat < (version.toNat + 1) % 0x10000000000000000
  rw [Nat.mod_eq_of_lt h]
  exact Nat.lt_succ_self _

theorem Ordered.setPublisher [DecidableEq P] (h : Ordered b) {p : P} {new : PublishPc S}
    {readers : Nat} {dropped : UInt64} {calls : List Nat} {version : UInt64}
    (hversion : b.version ≤ version)
    (hnew : ∀ v todo, new = .visiting v todo →
      v ≤ version ∧ ∀ s ∈ todo, ∀ u ∈ (b.chan s).log, u < v) :
    Ordered (setPublisher p new { b with readers, version, dropped, calls }) := by
  refine ⟨h.log, fun s v hv => UInt64.le_trans (h.sent s v hv) hversion, ?_, ?_⟩
  · intro q v todo hq
    rcases update_cases hq with ⟨-, heq⟩ | ⟨-, hold⟩
    · exact (hnew v todo heq).1
    · exact UInt64.le_trans (h.stamped q v todo hold) hversion
  · intro q v todo hq
    rcases update_cases hq with ⟨-, heq⟩ | ⟨-, hold⟩
    · exact (hnew v todo heq).2
    · exact h.later q v todo hold

/-- A channel changes and its log does not. -/
theorem Ordered.setChan [DecidableEq S] (h : Ordered b) {s : S} {c : EventChan}
    (hc : c.log = (b.chan s).log) :
    Ordered (b.setChan s c) := by
  have hlog : ∀ s', (Function.update b.chan s c s').log = (b.chan s').log := by
    intro s'
    by_cases hne : s' = s
    · subst hne
      rw [Function.update_self, hc]
    · rw [Function.update_of_ne hne]
  refine ⟨fun s' => ?_, fun s' v hv => ?_, h.stamped, fun p version todo hpc s' hs' v hv => ?_⟩
  · show (Function.update b.chan s c s').log.Pairwise _
    rw [hlog s']
    exact h.log s'
  · exact h.sent s' v (hlog s' ▸ hv)
  · exact h.later p version todo hpc s' hs' v (hlog s' ▸ hv)

theorem mem_log_send [DecidableEq S] {s s' : S} {version v : UInt64}
    (hv : v ∈ (Function.update b.chan s
      { b.chan s with queue := (b.chan s).queue ++ [version] } s').log) :
    v ∈ (b.chan s').log ∨ s' = s ∧ v = version := by
  by_cases hne : s' = s
  · subst hne
    rw [Function.update_self, EventChan.log_send] at hv
    rcases List.mem_append.mp hv with hold | hnew
    · exact Or.inl hold
    · exact Or.inr ⟨rfl, List.mem_singleton.mp hnew⟩
  · rw [Function.update_of_ne hne] at hv
    exact Or.inl hv

variable [DecidableEq S] [DecidableEq P]

/-- A call visits a subscriber, which it has before it once. -/
theorem Ordered.send (h : Ordered b) {p : P} {s : S} {version : UInt64} {todo : List S}
    (hpc : b.publisher p = .visiting version todo) (hs : s ∈ todo) (hnodup : todo.Nodup)
    (hlast : ∀ q later rest, q ≠ p → b.publisher q = .visiting later rest → s ∈ rest →
      version < later) :
    Ordered (Bus.setPublisher p (.visiting version (todo.erase s))
      (b.setChan s { b.chan s with queue := (b.chan s).queue ++ [version] })) := by
  constructor
  case log =>
    intro s'
    show (Function.update b.chan s _ s').log.Pairwise _
    by_cases hne : s' = s
    · subst hne
      rw [Function.update_self, EventChan.log_send]
      refine List.pairwise_append.mpr ⟨h.log s', List.pairwise_singleton _ _, ?_⟩
      intro u hu v hv
      rw [List.mem_singleton.mp hv]
      exact h.later p version todo hpc s' hs u hu
    · rw [Function.update_of_ne hne]
      exact h.log s'
  case sent =>
    intro s' v hv
    rcases mem_log_send hv with hold | ⟨-, rfl⟩
    · exact h.sent s' v hold
    · exact h.stamped p v todo hpc
  case stamped =>
    intro q v rest hq
    rcases update_cases hq with ⟨-, heq⟩ | ⟨-, hq⟩
    · cases heq
      exact h.stamped p version todo hpc
    · exact h.stamped q v rest hq
  case later =>
    intro q v rest hq s' hs' u hu
    rcases update_cases hq with ⟨-, heq⟩ | ⟨hne, hq⟩
    · cases heq
      have hother : s' ≠ s := (hnodup.mem_erase_iff.mp hs').1
      rcases mem_log_send hu with hold | ⟨heq, -⟩
      · exact h.later p version todo hpc s' (List.mem_of_mem_erase hs') u hold
      · exact absurd heq hother
    · rcases mem_log_send hu with hold | ⟨rfl, rfl⟩
      · exact h.later q v rest hq s' hs' u hold
      · exact hlast q v rest hne hq hs'

variable [Fintype P]

theorem Ordered.moves {a : Act S P} (hinv : Inv b) (h : Ordered b) (horder : b.InOrder a)
    (hm : Moves b a b') : Ordered b' := by
  cases hm with
  | @close s hpc hopen =>
      have hchan : Ordered (b.setChan s { b.chan s with closed := true }) := h.setChan rfl
      exact ⟨hchan.log, hchan.sent, hchan.stamped, hchan.later⟩
  | rlock hpc =>
      refine h.setPublisher (UInt64.le_refl _) (fun v todo heq => ?_)
      cases heq
  | stamp hpc =>
      have hlt := lt_version_add_one (horder (by rw [hpc]; rfl))
      refine h.setPublisher (UInt64.le_of_lt hlt) (fun v todo heq => ?_)
      cases heq
      exact ⟨UInt64.le_refl _, fun s _ u hu => UInt64.lt_of_le_of_lt (h.sent s u hu) hlt⟩
  | runlock hpc =>
      refine h.setPublisher (UInt64.le_refl _) (fun v todo heq => ?_)
      cases heq
  | send hpc hs hroom =>
      have hnodup := hinv.nodup.sublist (hinv.todo _ _ _ hpc)
      refine h.send hpc hs hnodup (fun q later rest hne hq hrest => ?_)
      refine horder hroom _ ?_ q hne later ?_
      · rw [hpc]
        exact PublishPc.versionFor_visiting hs
      · rw [hq]
        exact PublishPc.versionFor_visiting hrest
  | drop hpc hs =>
      refine h.setPublisher (UInt64.le_refl _) (fun v todo heq => ?_)
      cases heq
      exact ⟨h.stamped _ _ _ hpc,
        fun s' hs' => h.later _ _ _ hpc s' (List.mem_of_mem_erase hs')⟩
  | receive hqueue => exact h.setChan (EventChan.log_receive hqueue)
  | _ => exact ⟨h.log, h.sent, h.stamped, h.later⟩

/-- In every run in which the counter does not wrap and no event is sent past an older one, the
versions a subscriber receives go up. -/
theorem received_increasing {acts : List (Act S P)} (hrun : run step {} acts = some b)
    (horder : Always step InOrder {} acts) (s : S) : (b.chan s).received.Pairwise (· < ·) := by
  have hordered := (run_always (I := fun b : Bus S P => Inv b ∧ Ordered b)
    (fun h hq hstep => ⟨h.1.moves (moves_of_step h.1 hstep),
      h.2.moves h.1 hq (moves_of_step h.1 hstep)⟩) ⟨inv_new, ordered_new⟩ horder hrun).2
  exact (hordered.log s).sublist (List.sublist_append_left _ _)

end

/-- The second call starts while the first still holds the lock. -/
def inTurn : List (Act (Fin 1) (Fin 2)) :=
  [.subscribe 0, .publish 0, .publish 0, .visit 0 0, .publish 1, .publish 1, .visit 1 0,
    .receive 0, .receive 0]

theorem received_increasing_in_turn :
    ∃ b, run step {} inTurn = some b ∧ (b.chan 0).received = [1, 2] ∧
      (b.chan 0).received.Pairwise (· < ·) := by
  have hrun : ∃ b, run step {} inTurn = some b ∧ (b.chan 0).received = [1, 2] := ⟨_, rfl, rfl⟩
  obtain ⟨b, hb, hreceived⟩ := hrun
  exact ⟨b, hb, hreceived, received_increasing hb (by decide) 0⟩

/-- The second call is the first at the subscriber. -/
def overtaking : List (Act (Fin 1) (Fin 2)) :=
  [.subscribe 0, .publish 0, .publish 0, .publish 1, .publish 1, .visit 1 0, .visit 0 0,
    .receive 0, .receive 0]

theorem received_overtaken :
    ∃ b, run step {} overtaking = some b ∧ ¬(b.chan 0).received.Pairwise (· < ·) := by
  have hrun : ∃ b, run step {} overtaking = some b ∧ (b.chan 0).received = [2, 1] :=
    ⟨_, rfl, rfl⟩
  obtain ⟨b, hb, hreceived⟩ := hrun
  refine ⟨b, hb, ?_⟩
  rw [hreceived]
  decide

end Bus

end HyperCache
