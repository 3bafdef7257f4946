/-
The trigger of the expiration loop.

A trigger call raises a flag and, if it was down, puts a signal into a channel.  The
expiration goroutine takes the signal, runs a pass, lowers the flag and then empties
the channel.  At most one signal is under way: in the hand of the call that raised
the flag, in the channel, or with the goroutine.  A call may raise the flag again
between lowering and emptying.  If its signal is then thrown away, the flag stays up
for good and no further call sends anything.
-/
import HyperCache.Lib.Interleaving

namespace HyperCache

open Interleaving

/-- The buffer `initExpirationTrigger` gives the channel. -/
def initExpirationTrigger (capacity expirationTriggerBufSize : Int) : Nat :=
  let buf := if expirationTriggerBufSize > 0 then expirationTriggerBufSize else capacity.tdiv 2
  if buf < 1 then 1 else buf.toNat

namespace Trigger

/-- Where a goroutine is in `execTriggerExpiration`, without a debounce interval. -/
inductive Caller where
  | idle
  | sending

/-- Where the expiration goroutine is in `handleExpirationSelect`. -/
inductive Handler where
  | selecting
  | handling
  | draining
  | stopped

/-- The flag, the signals in the channel, and where everyone is. -/
structure State where
  pending : Bool := false
  queued : Nat := 0
  callers : Nat → Caller := fun _ => .idle
  handler : Handler := .selecting

inductive Act where
  /-- A call swaps the flag, and returns if it was up. -/
  | swap (g : Nat)
  /-- It sends a signal, or drops it if the channel is full. -/
  | send (g : Nat)
  /-- The goroutine takes a tick or an eviction trigger. -/
  | other
  | receive
  /-- It has run the pass and lowers the flag. -/
  | clear
  | drain
  /-- It finds the channel empty. -/
  | drained
  | stop

def step (buffer : Nat) (s : State) : Act → Option State
  | .swap g =>
      match s.callers g with
      | .sending => none
      | .idle =>
          if s.pending then some s
          else some { s with pending := true, callers := Function.update s.callers g .sending }
  | .send g =>
      match s.callers g with
      | .idle => none
      | .sending =>
          some { s with
            queued := if s.queued < buffer then s.queued + 1 else s.queued
            callers := Function.update s.callers g .idle }
  | .other =>
      match s.handler with
      | .selecting => some s
      | _ => none
  | .receive =>
      match s.handler, s.queued with
      | .selecting, n + 1 => some { s with queued := n, handler := .handling }
      | _, _ => none
  | .clear =>
      match s.handler with
      | .handling => some { s with pending := false, handler := .draining }
      | _ => none
  | .drain =>
      match s.handler, s.queued with
      | .draining, n + 1 => some { s with queued := n }
      | _, _ => none
  | .drained =>
      match s.handler, s.queued with
      | .draining, 0 => some { s with handler := .selecting }
      | _, _ => none
  | .stop =>
      match s.handler with
      | .selecting => some { s with handler := .stopped }
      | _ => none

/-- No call and no handling of a signal is in progress. -/
structure Quiet (s : State) : Prop where
  callers : ∀ g, s.callers g = .idle
  handler : s.handler = .selecting ∨ s.handler = .stopped

/-- Where a signal can be. -/
inductive Place where
  | caller (g : Nat)
  | channel
  | handler

/-- The one signal is at a place, or there is none. -/
structure At (p : Option Place) (s : State) : Prop where
  callers : ∀ g, s.callers g = .sending ↔ p = some (.caller g)
  queued : s.queued = 1 ∧ p = some .channel ∨ s.queued = 0 ∧ p ≠ some .channel
  handler : s.handler = .handling ↔ p = some .handler

/-- The flag is up exactly while there is a signal. -/
def Held (s : State) : Prop := ∃ p, At p s ∧ (s.pending = true ↔ p.isSome)

/-- The flag is up and there is no signal. -/
def Lost (s : State) : Prop := At none s ∧ s.pending = true

variable {buffer : Nat} {s s' : State} {p : Option Place} {g : Nat}

theorem At.eq_channel (h : At p s) {n : Nat} (hn : s.queued = n + 1) :
    p = some .channel ∧ n = 0 := by
  rcases h.queued with ⟨hone, hp⟩ | ⟨hzero, -⟩
  · exact ⟨hp, by omega⟩
  · omega

theorem At.queued_zero (h : At p s) (hp : p ≠ some .channel) : s.queued = 0 := by
  rcases h.queued with ⟨-, heq⟩ | ⟨hzero, -⟩
  · exact absurd heq hp
  · exact hzero

/-! ### How the signal moves -/

theorem At.raise (h : At none s) (g : Nat) :
    At (some (.caller g))
      { s with pending := true, callers := Function.update s.callers g .sending } where
  callers := by
    intro g'
    dsimp only
    by_cases hg : g' = g
    · subst hg
      rw [Function.update_self]
      exact iff_of_true rfl rfl
    · rw [Function.update_of_ne hg, h.callers g']
      refine iff_of_false (fun heq => ?_) (fun heq => ?_)
      · cases heq
      · cases heq
        exact hg rfl
  queued := Or.inr ⟨h.queued_zero nofun, nofun⟩
  handler := h.handler.trans (iff_of_false nofun nofun)

theorem At.send (h : At (some (.caller g)) s) (hbuffer : 0 < buffer) :
    At (some .channel)
      { s with
        queued := if s.queued < buffer then s.queued + 1 else s.queued
        callers := Function.update s.callers g .idle } where
  callers := by
    intro g'
    refine iff_of_false ?_ nofun
    dsimp only
    by_cases hg : g' = g
    · subst hg
      rw [Function.update_self]
      exact nofun
    · rw [Function.update_of_ne hg, h.callers g']
      intro heq
      cases heq
      exact hg rfl
  queued := by
    have hzero : s.queued = 0 := h.queued_zero nofun
    refine Or.inl ⟨?_, rfl⟩
    dsimp only
    rw [hzero, if_pos hbuffer]
  handler := h.handler.trans (iff_of_false nofun nofun)

/-- The signal leaves the channel. -/
theorem At.take (h : At (some .channel) s) {handler : Handler} {p : Option Place}
    (hp : ∀ g, p ≠ some (.caller g)) (hne : p ≠ some .channel)
    (hhandler : handler = .handling ↔ p = some .handler) :
    At p { s with queued := 0, handler } where
  callers := fun g => (h.callers g).trans (iff_of_false nofun (hp g))
  queued := Or.inr ⟨rfl, hne⟩
  handler := hhandler

theorem At.clear (h : At (some .handler) s) :
    At none { s with pending := false, handler := .draining } where
  callers := fun g => (h.callers g).trans (iff_of_false nofun nofun)
  queued := Or.inr ⟨h.queued_zero nofun, nofun⟩
  handler := iff_of_false nofun nofun

/-- The goroutine moves on without a signal. -/
theorem At.move (h : At p s) {handler : Handler} (hold : s.handler ≠ .handling)
    (hnew : handler ≠ .handling) : At p { s with handler } where
  callers := h.callers
  queued := h.queued
  handler := iff_of_false hnew (mt h.handler.mpr hold)

/-- Where the flag is down only without a signal, a step leaves both as they are, or starts or
ends a signal together with the flag, or drains the signal and leaves the flag up. -/
theorem at_step (hbuffer : 0 < buffer) {a : Act} (h : At p s) (hflag : s.pending = false → p = none)
    (hstep : step buffer s a = some s') :
    ∃ p', At p' s' ∧
      (a ≠ .drain ∧ (s'.pending = s.pending ∧ p'.isSome = p.isSome ∨
          s.pending = false ∧ s'.pending = true ∧ p'.isSome = true ∨
          p.isSome = true ∧ s'.pending = false ∧ p' = none) ∨
        a = .drain ∧ p.isSome = true ∧ s'.pending = s.pending ∧ p' = none) := by
  cases a with
  | swap g =>
      rw [step] at hstep
      split at hstep
      · cases hstep
      split at hstep
      · cases hstep
        exact ⟨p, h, Or.inl ⟨nofun, Or.inl ⟨rfl, rfl⟩⟩⟩
      case isFalse hdown =>
        cases hstep
        have hdown' : s.pending = false := Bool.eq_false_iff.mpr hdown
        obtain rfl := hflag hdown'
        exact ⟨_, h.raise g, Or.inl ⟨nofun, Or.inr (Or.inl ⟨hdown', rfl, rfl⟩)⟩⟩
  | send g =>
      rw [step] at hstep
      split at hstep
      · cases hstep
      case h_2 hsending =>
        cases hstep
        obtain rfl := (h.callers g).mp hsending
        exact ⟨_, h.send hbuffer, Or.inl ⟨nofun, Or.inl ⟨rfl, rfl⟩⟩⟩
  | other =>
      rw [step] at hstep
      split at hstep
      · cases hstep
        exact ⟨p, h, Or.inl ⟨nofun, Or.inl ⟨rfl, rfl⟩⟩⟩
      · cases hstep
  | receive =>
      rw [step] at hstep
      split at hstep
      case h_1 n hselecting hqueued =>
        cases hstep
        obtain ⟨rfl, rfl⟩ := h.eq_channel hqueued
        exact ⟨some .handler, h.take nofun nofun (iff_of_true rfl rfl),
          Or.inl ⟨nofun, Or.inl ⟨rfl, rfl⟩⟩⟩
      · cases hstep
  | clear =>
      rw [step] at hstep
      split at hstep
      case h_1 hhandling =>
        cases hstep
        obtain rfl := h.handler.mp hhandling
        exact ⟨none, h.clear, Or.inl ⟨nofun, Or.inr (Or.inr ⟨rfl, rfl, rfl⟩)⟩⟩
      · cases hstep
  | drain =>
      rw [step] at hstep
      split at hstep
      case h_1 n hdraining hqueued =>
        cases hstep
        obtain ⟨rfl, rfl⟩ := h.eq_channel hqueued
        have hnot : s.handler ≠ .handling := by
          rw [hdraining]
          nofun
        exact ⟨none, h.take nofun nofun (iff_of_false hnot nofun), Or.inr ⟨rfl, rfl, rfl, rfl⟩⟩
      · cases hstep
  | drained =>
      rw [step] at hstep
      split at hstep
      case h_1 hdraining hqueued =>
        cases hstep
        refine ⟨p, h.move ?_ nofun, Or.inl ⟨nofun, Or.inl ⟨rfl, rfl⟩⟩⟩
        rw [hdraining]
        nofun
      · cases hstep
  | stop =>
      rw [step] at hstep
      split at hstep
      case h_1 hselecting =>
        cases hstep
        refine ⟨p, h.move ?_ nofun, Or.inl ⟨nofun, Or.inl ⟨rfl, rfl⟩⟩⟩
        rw [hselecting]
        nofun
      · cases hstep

/-! ### What draining does -/

theorem held_step (hbuffer : 0 < buffer) {a : Act} (h : Held s)
    (hstep : step buffer s a = some s') : a ≠ .drain ∧ Held s' ∨ a = .drain ∧ Lost s' := by
  obtain ⟨p, hat, hpending⟩ := h
  have hflag : s.pending = false → p = none := by
    intro hdown
    rw [hdown] at hpending
    exact Option.not_isSome_iff_eq_none.mp (mt hpending.mpr nofun)
  obtain ⟨p', hat', ⟨hne, hsame | ⟨-, hup, hp'⟩ | ⟨-, hdown, rfl⟩⟩ | ⟨rfl, hp, hsame, rfl⟩⟩ :=
    at_step hbuffer hat hflag hstep
  · refine Or.inl ⟨hne, p', hat', ?_⟩
    rw [hsame.1, hsame.2]
    exact hpending
  · exact Or.inl ⟨hne, p', hat', iff_of_true hup hp'⟩
  · refine Or.inl ⟨hne, none, hat', iff_of_false ?_ nofun⟩
    rw [hdown]
    nofun
  · exact Or.inr ⟨rfl, hat', hsame.trans (hpending.mpr hp)⟩

/-- A lost signal never comes back: calls find the flag up and there is nothing to receive. -/
theorem lost_step (hbuffer : 0 < buffer) {a : Act} (h : Lost s)
    (hstep : step buffer s a = some s') : Lost s' := by
  obtain ⟨hat, hpending⟩ := h
  obtain ⟨p', hat', ⟨-, ⟨hup, hp'⟩ | ⟨hdown, -⟩ | ⟨hp, -⟩⟩ | ⟨-, hp, -⟩⟩ :=
    at_step hbuffer hat (fun _ => rfl) hstep
  · obtain rfl := Option.isNone_iff_eq_none.mp (Option.isSome_eq_false_iff.mp hp')
    exact ⟨hat', hup.trans hpending⟩
  · rw [hdown] at hpending
    cases hpending
  · cases hp
  · cases hp

theorem run_cases (hbuffer : 0 < buffer) {as : List Act} (h : run (step buffer) {} as = some s) :
    Act.drain ∉ as ∧ Held s ∨ Act.drain ∈ as ∧ Lost s := by
  refine run_history (I := fun as s => Act.drain ∉ as ∧ Held s ∨ Act.drain ∈ as ∧ Lost s) ?_ ?_ h
  · refine Or.inl ⟨List.not_mem_nil, none, ⟨fun g => iff_of_false nofun nofun, ?_, ?_⟩, ?_⟩
    · exact Or.inr ⟨rfl, nofun⟩
    · exact iff_of_false nofun nofun
    · exact iff_of_false nofun nofun
  · rintro as s a s' (⟨hnot, hheld⟩ | ⟨hmem, hlost⟩) hstep
    · rcases held_step hbuffer hheld hstep with ⟨hne, hheld'⟩ | ⟨rfl, hlost⟩
      · refine Or.inl ⟨fun hmem => ?_, hheld'⟩
        rcases List.mem_append.mp hmem with hold | hnew
        · exact hnot hold
        · exact hne (List.mem_singleton.mp hnew).symm
      · exact Or.inr ⟨List.mem_append_right _ List.mem_cons_self, hlost⟩
    · exact Or.inr ⟨List.mem_append_left _ hmem, lost_step hbuffer hlost hstep⟩

theorem initExpirationTrigger_pos (capacity size : Int) :
    0 < initExpirationTrigger capacity size := by
  unfold initExpirationTrigger
  generalize (if size > 0 then size else capacity.tdiv 2) = buf
  dsimp only
  split <;> omega

/-- In every interleaving, once no call and no handling is in progress, the flag is up only if a
signal waits in the channel exactly when no signal was drained. -/
theorem pending_signal_run_iff (capacity size : Int) {as : List Act}
    (h : run (step (initExpirationTrigger capacity size)) {} as = some s) (hquiet : Quiet s) :
    (s.pending = true → 0 < s.queued) ↔ Act.drain ∉ as := by
  rcases run_cases (initExpirationTrigger_pos capacity size) h with
    ⟨hnot, p, hat, hpending⟩ | ⟨hmem, hat, hpending⟩
  · refine iff_of_true (fun hup => ?_) hnot
    -- The signal is with nobody, so it is in the channel.
    rcases hat.queued with ⟨hone, -⟩ | ⟨-, hne⟩
    · omega
    · exfalso
      obtain ⟨place, rfl⟩ := Option.isSome_iff_exists.mp (hpending.mp hup)
      cases place with
      | caller g =>
          have hsending := (hat.callers g).mpr rfl
          rw [hquiet.callers g] at hsending
          cases hsending
      | channel => exact hne rfl
      | handler =>
          have hhandling := hat.handler.mpr rfl
          rcases hquiet.handler with heq | heq <;> rw [heq] at hhandling <;> cases hhandling
  · refine iff_of_false (fun hclaim => ?_) (fun hnot => hnot hmem)
    have hzero := hat.queued_zero nofun
    have hpos := hclaim hpending
    omega

/-- Two calls, of which the second finds the flag up, and one pass. -/
def coalesced : List Act :=
  [.swap 0, .swap 1, .send 0, .receive, .clear, .drained]

theorem pending_signal_coalesced :
    ∃ s, run (step (initExpirationTrigger 2 0)) {} coalesced = some s ∧
      (s.pending = true → 0 < s.queued) := by
  have hrun : ∃ s, run (step (initExpirationTrigger 2 0)) {} coalesced = some s ∧ Quiet s :=
    ⟨_, rfl, fun g => by simp, Or.inl rfl⟩
  obtain ⟨s, hs, hquiet⟩ := hrun
  refine ⟨s, hs, (pending_signal_run_iff 2 0 hs hquiet).mpr ?_⟩
  simp [coalesced]

/-- The second call comes between the lowering of the flag and the draining. -/
def overtaken : List Act :=
  [.swap 0, .send 0, .receive, .clear, .swap 1, .send 1, .drain, .drained]

theorem pending_signal_overtaken :
    ∃ s, run (step (initExpirationTrigger 2 0)) {} overtaken = some s ∧ Quiet s ∧
      s.pending = true ∧ s.queued = 0 :=
  ⟨_, rfl, ⟨fun g => by simp, Or.inl rfl⟩, rfl, rfl⟩

end Trigger

end HyperCache
