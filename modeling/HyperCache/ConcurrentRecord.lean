/-
Calls of `record` that run at the same time.

A call looks up the shard of its name and creates it where there is none.  It adds to
the count and to the sum, moves the minimum and the maximum by compare-and-swap, and
samples its value if the lock of the samples is free.  Each atomic operation is a step,
and the calls take their steps in any order.

`Aggregates` says what the shard owes to the calls that are past each stage.  A call that
runs alone does what `StatShard.record` does in one step, and every interleaving comes to
an end, since a swap fails only after another call has got past it.
-/
import HyperCache.Lib.CasLoop
import HyperCache.Lib.Interleaving
import HyperCache.Lib.Tally
import HyperCache.Stats

open Interleaving Tally

namespace HyperCache

/-- A minimum stays where it is not above the value. -/
def Lowest (cur value : Int64) : Prop := cur ≤ value

/-- A maximum stays where it is not below the value. -/
def Highest (cur value : Int64) : Prop := value ≤ cur

instance : DecidableRel Lowest := fun cur value => inferInstanceAs (Decidable (cur ≤ value))

instance : DecidableRel Highest := fun cur value => inferInstanceAs (Decidable (value ≤ cur))

instance : IsLinearOrder Int64 Lowest where
  refl := Int64.le_refl
  trans _ _ _ := Int64.le_trans
  antisymm _ _ := Int64.le_antisymm
  total := Int64.le_total

instance : IsLinearOrder Int64 Highest where
  refl := Int64.le_refl
  trans _ _ _ hab hbc := Int64.le_trans hbc hab
  antisymm _ _ hab hba := Int64.le_antisymm hba hab
  total a b := Int64.le_total b a

/-- Where a call of `record` is. -/
inductive RecordPc where
  | lookup
  | store
  | addCount
  | addSum
  | lowerMin (pc : CasLoop.Pc Int64)
  | raiseMax (pc : CasLoop.Pc Int64)
  | tryLock
  | sample
  | returned
  deriving DecidableEq

/-- The steps of a call on the shard it has found. -/
def StatShard.recordStep (value : Int64) (locked : Bool) (s : StatShard) :
    RecordPc → Option (StatShard × Bool × RecordPc)
  | .lookup => none
  | .store => none
  | .addCount => some ({ s with count := s.count + 1 }, locked, .addSum)
  | .addSum => some ({ s with sum := s.sum + value }, locked, .lowerMin .load)
  | .lowerMin pc =>
      let next := CasLoop.step Lowest value s.minV pc
      some ({ s with minV := next.1 }, locked, next.2.elim (.raiseMax .load) .lowerMin)
  | .raiseMax pc =>
      let next := CasLoop.step Highest value s.maxV pc
      some ({ s with maxV := next.1 }, locked, next.2.elim .tryLock .raiseMax)
  | .tryLock => some (s, true, if locked then .returned else .sample)
  | .sample => some ({ s with samples := s.samples.push value }, false, .returned)
  | .returned => none

/-- Calls of `record` under one name, with the shard of the name once it is there. -/
structure Recording (ι : Type) where
  shard : Option StatShard := none
  locked : Bool := false
  pc : ι → RecordPc := fun _ => .lookup

namespace Recording

variable {ι : Type} [DecidableEq ι]

def goto (i : ι) (pc : RecordPc) (st : Recording ι) : Recording ι :=
  { st with pc := Function.update st.pc i pc }

/-- One atomic step of a call.  `LoadOrStore` keeps a shard that another call has stored in
the meantime. -/
def step (fresh : StatShard) (value : ι → Int64) (st : Recording ι) (i : ι) :
    Option (Recording ι) :=
  match st.pc i with
  | .lookup => some (st.goto i (if st.shard.isSome then .addCount else .store))
  | .store => some { st.goto i .addCount with shard := some (st.shard.getD fresh) }
  | pc =>
      st.shard.bind fun s =>
        (s.recordStep (value i) st.locked pc).map fun next =>
          { st.goto i next.2.2 with shard := some next.1, locked := next.2.1 }

end Recording

/-! ## The stages of a call -/

namespace RecordPc

def counted : RecordPc → Bool
  | lookup => false
  | store => false
  | addCount => false
  | _ => true

def summed : RecordPc → Bool
  | lookup => false
  | store => false
  | addCount => false
  | addSum => false
  | _ => true

def lowered : RecordPc → Bool
  | raiseMax _ => true
  | tryLock => true
  | sample => true
  | returned => true
  | _ => false

def raised : RecordPc → Bool
  | tryLock => true
  | sample => true
  | returned => true
  | _ => false

def Due (value : Int64) : RecordPc → Prop
  | lowerMin pc => CasLoop.Due Lowest value pc
  | raiseMax pc => CasLoop.Due Highest value pc
  | _ => True

end RecordPc

/-- Everything a step on the shard can do. -/
inductive StatShard.Moves (value : Int64) (s : StatShard) :
    Bool → RecordPc → StatShard → Bool → RecordPc → Prop where
  | addCount {locked} :
      Moves value s locked .addCount { s with count := s.count + 1 } locked .addSum
  | addSum {locked} :
      Moves value s locked .addSum { s with sum := s.sum + value } locked (.lowerMin .load)
  | keepMin {locked loop} (hkeeps : Lowest s.minV value) :
      Moves value s locked (.lowerMin loop) s locked (.raiseMax .load)
  | lowerMin {locked loop} (hlower : ¬Lowest s.minV value) :
      Moves value s locked (.lowerMin loop) { s with minV := value } locked (.raiseMax .load)
  | tryMin {locked loop loop'} (hdue : CasLoop.Due Lowest value loop')
      (hcost : ∀ rivals, CasLoop.cost rivals s.minV loop' < CasLoop.cost rivals s.minV loop) :
      Moves value s locked (.lowerMin loop) s locked (.lowerMin loop')
  | keepMax {locked loop} (hkeeps : Highest s.maxV value) :
      Moves value s locked (.raiseMax loop) s locked .tryLock
  | raiseMax {locked loop} (hraise : ¬Highest s.maxV value) :
      Moves value s locked (.raiseMax loop) { s with maxV := value } locked .tryLock
  | tryMax {locked loop loop'} (hdue : CasLoop.Due Highest value loop')
      (hcost : ∀ rivals, CasLoop.cost rivals s.maxV loop' < CasLoop.cost rivals s.maxV loop) :
      Moves value s locked (.raiseMax loop) s locked (.raiseMax loop')
  | lock : Moves value s false .tryLock s true .sample
  | drop : Moves value s true .tryLock s true .returned
  | sample {locked} :
      Moves value s locked .sample { s with samples := s.samples.push value } false .returned

theorem StatShard.moves_of_recordStep {value : Int64} {s s' : StatShard} {locked locked' : Bool}
    {pc pc' : RecordPc} (hdue : pc.Due value)
    (hstep : s.recordStep value locked pc = some (s', locked', pc')) :
    s.Moves value locked pc s' locked' pc' := by
  cases pc with
  | lookup => cases hstep
  | store => cases hstep
  | addCount =>
      cases hstep
      exact .addCount
  | addSum =>
      cases hstep
      exact .addSum
  | lowerMin loop =>
      rcases CasLoop.step_cases (r := s.minV) hdue with
        ⟨hnext, hkeeps⟩ | ⟨hnext, hlower⟩ | ⟨loop', hnext, hdue', hcost⟩
      · rw [recordStep, hnext] at hstep
        cases hstep
        exact .keepMin hkeeps
      · rw [recordStep, hnext] at hstep
        cases hstep
        exact .lowerMin hlower
      · rw [recordStep, hnext] at hstep
        cases hstep
        exact .tryMin hdue' hcost
  | raiseMax loop =>
      rcases CasLoop.step_cases (r := s.maxV) hdue with
        ⟨hnext, hkeeps⟩ | ⟨hnext, hraise⟩ | ⟨loop', hnext, hdue', hcost⟩
      · rw [recordStep, hnext] at hstep
        cases hstep
        exact .keepMax hkeeps
      · rw [recordStep, hnext] at hstep
        cases hstep
        exact .raiseMax hraise
      · rw [recordStep, hnext] at hstep
        cases hstep
        exact .tryMax hdue' hcost
  | tryLock =>
      cases locked with
      | false =>
          cases hstep
          exact .lock
      | true =>
          cases hstep
          exact .drop
  | sample =>
      cases hstep
      exact .sample
  | returned => cases hstep

theorem StatShard.Moves.due {value : Int64} {s s' : StatShard} {locked locked' : Bool}
    {old new : RecordPc} (hm : s.Moves value locked old s' locked' new) : new.Due value := by
  cases hm with
  | tryMin hdue => exact hdue
  | tryMax hdue => exact hdue
  | _ => trivial

theorem Recording.due_goto {ι : Type} [DecidableEq ι] {value : ι → Int64} {st : Recording ι}
    (h : ∀ j, (st.pc j).Due (value j)) {i : ι} {new : RecordPc} (hnew : new.Due (value i))
    (j : ι) : ((st.goto i new).pc j).Due (value j) := by
  show (Function.update st.pc i new j).Due (value j)
  by_cases hj : j = i
  · rw [hj, Function.update_self]
    exact hnew
  · rw [Function.update_of_ne hj]
    exact h j

/-! ## What the shard holds -/

/-- What a shard owes to the calls that are past each stage. -/
structure StatShard.Aggregates {ι : Type} (value : ι → Int64)
    (counted summed lowered raised : Finset ι) (s : StatShard) : Prop where
  count : s.count = Int64.ofNat counted.card
  sum : s.sum = Int64.ofInt (∑ i ∈ summed, (value i).toInt)
  min : CasLoop.Settled Lowest value Int64.maxValue s.minV (· ∈ lowered)
  max : CasLoop.Settled Highest value Int64.minValue s.maxV (· ∈ raised)
  sampled : ∀ v ∈ s.samples.contents, ∃ i, v = value i

namespace StatShard

variable {ι : Type} {value : ι → Int64} {counted summed lowered raised : Finset ι} {s : StatShard}

theorem Aggregates.sample (h : s.Aggregates value counted summed lowered raised) (i : ι) :
    ({ s with samples := s.samples.push (value i) } : StatShard).Aggregates value counted summed
      lowered raised where
  count := h.count
  sum := h.sum
  min := h.min
  max := h.max
  sampled v hv := by
    rcases Windows.Window.mem_contents_push hv with hv | rfl
    · exact h.sampled v hv
    · exact ⟨i, rfl⟩

variable [DecidableEq ι]

theorem Aggregates.addCount (h : s.Aggregates value counted summed lowered raised) {i : ι}
    (hi : i ∉ counted) :
    ({ s with count := s.count + 1 } : StatShard).Aggregates value (insert i counted) summed lowered
      raised where
  count := by
    show s.count + 1 = _
    rw [Finset.card_insert_of_notMem hi, Int64.ofNat_add, h.count]
    rfl
  sum := h.sum
  min := h.min
  max := h.max
  sampled := h.sampled

theorem Aggregates.addSum (h : s.Aggregates value counted summed lowered raised) {i : ι}
    (hi : i ∉ summed) :
    ({ s with sum := s.sum + value i } : StatShard).Aggregates value counted (insert i summed)
      lowered raised where
  count := h.count
  sum := by
    show s.sum + value i = _
    rw [Finset.sum_insert hi, Int.add_comm, Int64.ofInt_add, Int64.ofInt_toInt, h.sum]
  min := h.min
  max := h.max
  sampled := h.sampled

theorem Aggregates.keepMin (h : s.Aggregates value counted summed lowered raised) {i : ι}
    (hkeeps : Lowest s.minV (value i)) :
    s.Aggregates value counted summed (insert i lowered) raised where
  count := h.count
  sum := h.sum
  min := h.min.stop hkeeps fun _ hj => (Finset.mem_insert.mp hj).symm
  max := h.max
  sampled := h.sampled

theorem Aggregates.lowerMin (h : s.Aggregates value counted summed lowered raised) {i : ι}
    (hlower : ¬Lowest s.minV (value i)) :
    ({ s with minV := value i } : StatShard).Aggregates value counted summed (insert i lowered)
      raised where
  count := h.count
  sum := h.sum
  min := h.min.swap hlower fun _ hj => (Finset.mem_insert.mp hj).symm
  max := h.max
  sampled := h.sampled

theorem Aggregates.keepMax (h : s.Aggregates value counted summed lowered raised) {i : ι}
    (hkeeps : Highest s.maxV (value i)) :
    s.Aggregates value counted summed lowered (insert i raised) where
  count := h.count
  sum := h.sum
  min := h.min
  max := h.max.stop hkeeps fun _ hj => (Finset.mem_insert.mp hj).symm
  sampled := h.sampled

theorem Aggregates.raiseMax (h : s.Aggregates value counted summed lowered raised) {i : ι}
    (hraise : ¬Highest s.maxV (value i)) :
    ({ s with maxV := value i } : StatShard).Aggregates value counted summed lowered
      (insert i raised) where
  count := h.count
  sum := h.sum
  min := h.min
  max := h.max.swap hraise fun _ hj => (Finset.mem_insert.mp hj).symm
  sampled := h.sampled

end StatShard

namespace Recording

variable {ι : Type} [Fintype ι]

def Aggregated (value : ι → Int64) (pc : ι → RecordPc) (s : StatShard) : Prop :=
  s.Aggregates value (members RecordPc.counted pc) (members RecordPc.summed pc)
    (members RecordPc.lowered pc) (members RecordPc.raised pc)

/-- The shard of the name, or the one it would get. -/
def outcome (fresh : StatShard) (st : Recording ι) : StatShard := st.shard.getD fresh

structure Inv (value : ι → Int64) (st : Recording ι) : Prop where
  unborn : st.shard = none → ∀ i, st.pc i = .lookup ∨ st.pc i = .store
  shard : ∀ s ∈ st.shard, Aggregated value st.pc s
  due : ∀ i, (st.pc i).Due (value i)

variable {value : ι → Int64} {pc : ι → RecordPc}

theorem aggregated_fresh (c : HistogramStatsCollector)
    (hpc : ∀ i, pc i = .lookup ∨ pc i = .store) : Aggregated value pc c.fresh := by
  have hnone : ∀ p : RecordPc → Bool, p .lookup = false → p .store = false →
      members p pc = ∅ := by
    intro p hlookup hstore
    rw [Finset.eq_empty_iff_forall_notMem]
    intro i
    rcases hpc i with hi | hi
    · exact notMem_members hi hlookup
    · exact notMem_members hi hstore
  rw [Aggregated, hnone _ rfl rfl, hnone _ rfl rfl, hnone _ rfl rfl, hnone _ rfl rfl]
  exact
    { count := rfl
      sum := rfl
      min := CasLoop.settled_start fun i => Finset.notMem_empty i
      max := CasLoop.settled_start fun i => Finset.notMem_empty i
      sampled := fun v hv => by simp [HistogramStatsCollector.fresh] at hv }

theorem inv_start : Inv value ({} : Recording ι) where
  unborn _ _ := Or.inl rfl
  shard _ hs := by cases hs
  due _ := trivial

theorem Inv.outcome {c : HistogramStatsCollector} {st : Recording ι} (h : Inv value st) :
    Aggregated value st.pc (st.outcome c.fresh) := by
  rw [Recording.outcome]
  cases hshard : st.shard with
  | none => exact aggregated_fresh c (h.unborn hshard)
  | some s => exact h.shard s hshard

theorem Inv.returned {c : HistogramStatsCollector} {st : Recording ι} (h : Inv value st)
    (hall : ∀ i, st.pc i = .returned) :
    (st.outcome c.fresh).Aggregates value Finset.univ Finset.univ Finset.univ Finset.univ := by
  have hmembers : ∀ p : RecordPc → Bool, p .returned = true → members p st.pc = Finset.univ := by
    intro p hp
    rw [Finset.eq_univ_iff_forall]
    intro i
    rw [mem_members, hall i, hp]
  have hshard : Aggregated value st.pc (st.outcome c.fresh) := h.outcome
  rw [Aggregated, hmembers _ rfl, hmembers _ rfl, hmembers _ rfl, hmembers _ rfl] at hshard
  exact hshard

variable [DecidableEq ι] {s s' : StatShard} {i : ι} {new : RecordPc} {locked locked' : Bool}

/-- A call moves on without getting past a stage. -/
theorem Aggregated.stay {old : RecordPc} (h : Aggregated value pc s) (hold : pc i = old)
    (hcounted : new.counted = old.counted) (hsummed : new.summed = old.summed)
    (hlowered : new.lowered = old.lowered) (hraised : new.raised = old.raised) :
    Aggregated value (Function.update pc i new) s := by
  rw [Aggregated, members_stay hold hcounted, members_stay hold hsummed,
    members_stay hold hlowered, members_stay hold hraised]
  exact h

theorem Aggregated.moves {old : RecordPc} (h : Aggregated value pc s) (hpc : pc i = old)
    (hm : s.Moves (value i) locked old s' locked' new) :
    Aggregated value (Function.update pc i new) s' := by
  cases hm with
  | addCount =>
      rw [Aggregated, members_enter (by rfl), members_stay hpc (by rfl), members_stay hpc (by rfl),
        members_stay hpc (by rfl)]
      exact h.addCount (notMem_members hpc rfl)
  | addSum =>
      rw [Aggregated, members_stay hpc (by rfl), members_enter (by rfl), members_stay hpc (by rfl),
        members_stay hpc (by rfl)]
      exact h.addSum (notMem_members hpc rfl)
  | keepMin hkeeps =>
      rw [Aggregated, members_stay hpc (by rfl), members_stay hpc (by rfl), members_enter (by rfl),
        members_stay hpc (by rfl)]
      exact h.keepMin hkeeps
  | lowerMin hlower =>
      rw [Aggregated, members_stay hpc (by rfl), members_stay hpc (by rfl), members_enter (by rfl),
        members_stay hpc (by rfl)]
      exact h.lowerMin hlower
  | tryMin => exact h.stay hpc rfl rfl rfl rfl
  | keepMax hkeeps =>
      rw [Aggregated, members_stay hpc (by rfl), members_stay hpc (by rfl),
        members_stay hpc (by rfl), members_enter (by rfl)]
      exact h.keepMax hkeeps
  | raiseMax hraise =>
      rw [Aggregated, members_stay hpc (by rfl), members_stay hpc (by rfl),
        members_stay hpc (by rfl), members_enter (by rfl)]
      exact h.raiseMax hraise
  | tryMax => exact h.stay hpc rfl rfl rfl rfl
  | lock => exact h.stay hpc rfl rfl rfl rfl
  | drop => exact h.stay hpc rfl rfl rfl rfl
  | sample =>
      apply Aggregated.stay (h.sample i) hpc
      · rfl
      · rfl
      · rfl
      · rfl

variable {fresh : StatShard} {st st' : Recording ι}

/-- What one step of a call does. -/
theorem step_cases (h : Inv value st) (hstep : step fresh value st i = some st') :
    (st.pc i = .lookup ∧ ∃ new, (new = .store ∨ new = .addCount ∧ st.shard ≠ none) ∧
        st' = st.goto i new) ∨
      (st.pc i = .store ∧
        st' = { st.goto i .addCount with shard := some (st.shard.getD fresh) }) ∨
      ∃ s s' locked new, st.shard = some s ∧
        s.Moves (value i) st.locked (st.pc i) s' locked new ∧
        st' = { st.goto i new with shard := some s', locked } := by
  rw [step] at hstep
  split at hstep
  case h_1 hpc =>
    cases hstep
    refine Or.inl ⟨hpc, _, ?_, rfl⟩
    cases hshard : st.shard with
    | none => exact Or.inl rfl
    | some s => exact Or.inr ⟨rfl, Option.some_ne_none s⟩
  case h_2 hpc =>
    cases hstep
    exact Or.inr (Or.inl ⟨hpc, rfl⟩)
  case h_3 =>
    obtain ⟨s, hs, hnext⟩ := Option.bind_eq_some_iff.mp hstep
    obtain ⟨⟨s', locked, new⟩, hrecord, rfl⟩ := Option.map_eq_some_iff.mp hnext
    exact Or.inr (Or.inr ⟨s, s', locked, new, hs,
      StatShard.moves_of_recordStep (h.due i) hrecord, rfl⟩)

variable {c : HistogramStatsCollector}

theorem inv_step (h : Inv value st) (hstep : step c.fresh value st i = some st') :
    Inv value st' := by
  rcases step_cases h hstep with ⟨hpc, new, hnew, rfl⟩ | ⟨hpc, rfl⟩ |
    ⟨s, s', locked, new, hs, hm, rfl⟩
  · refine ⟨fun hnone j => ?_, fun s hs => ?_, due_goto h.due ?_⟩
    · show Function.update st.pc i new j = _ ∨ Function.update st.pc i new j = _
      by_cases hj : j = i
      · rw [hj, Function.update_self]
        rcases hnew with rfl | ⟨-, hborn⟩
        · exact Or.inr rfl
        · exact absurd hnone hborn
      · rw [Function.update_of_ne hj]
        exact h.unborn hnone j
    · rcases hnew with rfl | ⟨rfl, -⟩
      · exact (h.shard s hs).stay hpc rfl rfl rfl rfl
      · exact (h.shard s hs).stay hpc rfl rfl rfl rfl
    · rcases hnew with rfl | ⟨rfl, -⟩
      · trivial
      · trivial
  · refine ⟨fun hnone => ?_, fun s hs => ?_, due_goto h.due trivial⟩
    · cases hnone
    · cases hs
      exact h.outcome.stay hpc rfl rfl rfl rfl
  · refine ⟨fun hnone => ?_, fun s hs' => ?_, due_goto h.due hm.due⟩
    · cases hnone
    · cases hs'
      exact (h.shard _ hs).moves rfl hm

theorem inv_run {acts : List ι} (hrun : run (step c.fresh value) {} acts = some st) :
    Inv value st :=
  run_invariant inv_step inv_start hrun

end Recording

open Recording in
/-- However their steps are interleaved, once all calls have returned the shard counts them and
has the least and the greatest of their values. -/
theorem concurrent_records_exact {ι : Type} [Fintype ι] [DecidableEq ι]
    (c : HistogramStatsCollector) (value : ι → Int64) {acts : List ι} {st : Recording ι}
    (hrun : run (step c.fresh value) {} acts = some st) (hall : ∀ i, st.pc i = .returned) :
    let s := st.outcome c.fresh
    s.count = Int64.ofNat (Fintype.card ι) ∧
      (Fintype.card ι < 0x8000000000000000 → s.count.toInt = Fintype.card ι) ∧
      (∀ i, s.minV ≤ value i ∧ value i ≤ s.maxV) ∧
      (Nonempty ι → st.shard = some s ∧ (∃ i, s.minV = value i) ∧ ∃ i, s.maxV = value i) := by
  intro s
  have hinv := inv_run hrun
  have hend : s.Aggregates value Finset.univ Finset.univ Finset.univ Finset.univ :=
    hinv.returned hall
  have hcount : s.count = Int64.ofNat (Fintype.card ι) := by
    rw [hend.count, Finset.card_univ]
  refine ⟨hcount, fun hsmall => ?_, fun i => ?_, fun ⟨i⟩ => ⟨?_, ?_, ?_⟩⟩
  · rw [hcount, Int64.toInt_ofNat_of_lt hsmall]
  · exact ⟨hend.min.kept i (Finset.mem_univ i), hend.max.kept i (Finset.mem_univ i)⟩
  · cases hshard : st.shard with
    | none =>
        have hpc := hinv.unborn hshard i
        rw [hall i] at hpc
        rcases hpc with hpc | hpc
        · cases hpc
        · cases hpc
    | some s' =>
        show some s' = some (st.shard.getD c.fresh)
        rw [hshard]
        rfl
  · exact hend.min.best Finset.mem_univ Int64.le_maxValue i
  · exact hend.max.best Finset.mem_univ Int64.minValue_le i

/-- Both calls find no shard, both load the minimum before one of them moves it, and the other
way round for the maximum.  One swap of each fails, and one sample is dropped. -/
def contended : List Bool :=
  [true, false, true, false, true, true, true, false, false, false, false, true, true, true, false,
    true, false, false, true, false, true]

theorem concurrent_records_exact_contended :
    ∃ st, run (Recording.step (HistogramStatsCollector.newWithCapacity 2).fresh
        fun b => if b then 7 else 3) {} contended = some st ∧
      (st.outcome (HistogramStatsCollector.newWithCapacity 2).fresh).count = 2 := by
  refine ⟨_, rfl, ?_⟩
  exact (@concurrent_records_exact Bool _ _ (HistogramStatsCollector.newWithCapacity 2)
    (fun b => if b then 7 else 3) contended _ rfl (by decide)).1

/-! ## Every interleaving comes to an end -/

namespace RecordPc

/-- The steps that are paid for, with `a` calls that may still move the minimum and `b` that may
still move the maximum, of `n` calls in all. -/
def cost (n a b : Nat) (minV maxV : Int64) : RecordPc → Nat
  | lookup => 4 * n + 12
  | store => 4 * n + 11
  | addCount => 4 * n + 10
  | addSum => 4 * n + 9
  | lowerMin loop => 2 * n + 6 + CasLoop.cost a minV loop
  | raiseMax loop => 3 + CasLoop.cost b maxV loop
  | tryLock => 2
  | sample => 1
  | returned => 0

theorem cost_lowered (n a b : Nat) (minV minV' maxV : Int64) (pc : RecordPc) :
    cost n a b minV' maxV pc ≤ cost n (a + 1) b minV maxV pc := by
  cases pc with
  | lowerMin loop => exact Nat.add_le_add_left (CasLoop.cost_le a minV minV' loop) _
  | _ => exact Nat.le_refl _

theorem cost_raised (n a b : Nat) (minV maxV maxV' : Int64) (pc : RecordPc) :
    cost n a b minV maxV' pc ≤ cost n a (b + 1) minV maxV pc := by
  cases pc with
  | raiseMax loop => exact Nat.add_le_add_left (CasLoop.cost_le b maxV maxV' loop) _
  | _ => exact Nat.le_refl _

/-- One for a call that may still move the minimum. -/
def lowers (pc : RecordPc) : Nat := (!pc.lowered).toNat

def raises (pc : RecordPc) : Nat := (!pc.raised).toNat

end RecordPc

namespace Recording

variable {ι : Type} [Fintype ι]

/-- What is left to do. -/
def remaining (pc : ι → RecordPc) (s : StatShard) : Nat :=
  count (RecordPc.cost (Fintype.card ι) (count RecordPc.lowers pc) (count RecordPc.raises pc)
    s.minV s.maxV) pc

theorem lowers_le (pc : ι → RecordPc) : count RecordPc.lowers pc ≤ Fintype.card ι :=
  count_le_card (fun _ => Bool.toNat_le _) pc

theorem raises_le (pc : ι → RecordPc) : count RecordPc.raises pc ≤ Fintype.card ι :=
  count_le_card (fun _ => Bool.toNat_le _) pc

variable [DecidableEq ι] {value : ι → Int64} {pc : ι → RecordPc} {s s' : StatShard} {i : ι}
  {old new : RecordPc} {locked locked' : Bool}

/-- A call moves on without getting past a loop. -/
theorem remaining_stay (hpc : pc i = old) (hlowers : new.lowers = old.lowers)
    (hraises : new.raises = old.raises)
    (hcost : ∀ a b, a ≤ Fintype.card ι → b ≤ Fintype.card ι →
      RecordPc.cost (Fintype.card ι) a b s.minV s.maxV new <
        RecordPc.cost (Fintype.card ι) a b s.minV s.maxV old) :
    remaining (Function.update pc i new) s < remaining pc s := by
  have ha := count_move RecordPc.lowers hpc new
  have hb := count_move RecordPc.raises hpc new
  have ha' : count RecordPc.lowers (Function.update pc i new) = count RecordPc.lowers pc := by
    omega
  have hb' : count RecordPc.raises (Function.update pc i new) = count RecordPc.raises pc := by
    omega
  rw [remaining, ha', hb']
  apply count_lt_count (fun _ => Nat.le_refl _)
  rw [hpc]
  exact hcost _ _ (lowers_le pc) (raises_le pc)

/-- A call gets past the minimum, wherever it is now. -/
theorem remaining_lowered {loop : CasLoop.Pc Int64} (hpc : pc i = .lowerMin loop)
    (hmax : s'.maxV = s.maxV) :
    remaining (Function.update pc i (.raiseMax .load)) s' < remaining pc s := by
  have ha := count_move RecordPc.lowers hpc (.raiseMax .load)
  have hb := count_move RecordPc.raises hpc (.raiseMax .load)
  have ha' : count RecordPc.lowers pc =
      count RecordPc.lowers (Function.update pc i (.raiseMax .load)) + 1 := ha.symm
  have hb' : count RecordPc.raises (Function.update pc i (.raiseMax .load)) =
      count RecordPc.raises pc := Nat.add_right_cancel hb
  have hle := raises_le pc
  rw [remaining, remaining, ha', hb', hmax]
  apply count_lt_count (RecordPc.cost_lowered _ _ _ _ _ _)
  rw [hpc]
  show 3 + (2 * _ + 1) < 2 * Fintype.card ι + 6 + _
  omega

theorem remaining_raised {loop : CasLoop.Pc Int64} (hpc : pc i = .raiseMax loop)
    (hmin : s'.minV = s.minV) :
    remaining (Function.update pc i .tryLock) s' < remaining pc s := by
  have ha := count_move RecordPc.lowers hpc .tryLock
  have hb := count_move RecordPc.raises hpc .tryLock
  have ha' : count RecordPc.lowers (Function.update pc i .tryLock) = count RecordPc.lowers pc :=
    Nat.add_right_cancel ha
  have hb' : count RecordPc.raises pc =
      count RecordPc.raises (Function.update pc i .tryLock) + 1 := hb.symm
  rw [remaining, remaining, ha', hb', hmin]
  apply count_lt_count (RecordPc.cost_raised _ _ _ _ _ _)
  rw [hpc]
  show 2 < 3 + _
  omega

theorem remaining_moves (hpc : pc i = old) (hm : s.Moves (value i) locked old s' locked' new) :
    remaining (Function.update pc i new) s' < remaining pc s := by
  cases hm with
  | addCount => exact remaining_stay (s := s) hpc rfl rfl fun a b _ _ => Nat.lt_succ_self _
  | addSum =>
      refine remaining_stay (s := s) hpc rfl rfl fun a b ha _ => ?_
      show 2 * _ + 6 + (2 * a + 1) < 4 * _ + 9
      omega
  | keepMin hkeeps => exact remaining_lowered hpc rfl
  | lowerMin hlower => exact remaining_lowered hpc rfl
  | tryMin hdue hcost =>
      exact remaining_stay hpc rfl rfl fun a b _ _ => Nat.add_lt_add_left (hcost a) _
  | keepMax hkeeps => exact remaining_raised hpc rfl
  | raiseMax hraise => exact remaining_raised hpc rfl
  | tryMax hdue hcost =>
      exact remaining_stay hpc rfl rfl fun a b _ _ => Nat.add_lt_add_left (hcost b) _
  | lock => exact remaining_stay hpc rfl rfl fun a b _ _ => Nat.lt_succ_self _
  | drop => exact remaining_stay hpc rfl rfl fun a b _ _ => Nat.zero_lt_succ _
  | sample => exact remaining_stay (s := s) hpc rfl rfl fun a b _ _ => Nat.lt_succ_self _

variable {c : HistogramStatsCollector} {st st' : Recording ι}

theorem remaining_step (h : Inv value st) (hstep : step c.fresh value st i = some st') :
    remaining st'.pc (st'.outcome c.fresh) < remaining st.pc (st.outcome c.fresh) := by
  rcases step_cases h hstep with ⟨hpc, new, hnew, rfl⟩ | ⟨hpc, rfl⟩ |
    ⟨s, s', locked, new, hs, hm, rfl⟩
  · show remaining (Function.update st.pc i new) (st.outcome c.fresh) < _
    rcases hnew with rfl | ⟨rfl, -⟩
    · exact remaining_stay hpc rfl rfl fun a b _ _ => Nat.lt_succ_self _
    · refine remaining_stay hpc rfl rfl fun a b _ _ => ?_
      show 4 * _ + 10 < 4 * _ + 12
      omega
  · exact remaining_stay hpc rfl rfl fun a b _ _ => Nat.lt_succ_self _
  · have hbefore : st.outcome c.fresh = s := by
      rw [outcome, hs]
      rfl
    rw [hbefore]
    exact remaining_moves rfl hm

theorem isSome_recordStep (s : StatShard) (value : Int64) (locked : Bool) {pc : RecordPc}
    (hlookup : pc ≠ .lookup) (hstore : pc ≠ .store) (hreturned : pc ≠ .returned) :
    (s.recordStep value locked pc).isSome := by
  cases pc with
  | lookup => exact absurd rfl hlookup
  | store => exact absurd rfl hstore
  | returned => exact absurd rfl hreturned
  | _ => rfl

/-- A call can take a step until it has returned. -/
theorem step_eq_none_iff (h : Inv value st) :
    step c.fresh value st i = none ↔ st.pc i = .returned := by
  rw [step]
  split
  case h_1 hpc => rw [hpc]; simp
  case h_2 hpc => rw [hpc]; simp
  case h_3 hlookup hstore =>
    cases hshard : st.shard with
    | none =>
        rcases h.unborn hshard i with hpc | hpc
        · exact absurd hpc hlookup
        · exact absurd hpc hstore
    | some s =>
        rw [Option.bind_some, Option.map_eq_none_iff]
        constructor
        · intro hnone
          by_contra hreturned
          have hsome := isSome_recordStep s (value i) st.locked hlookup hstore hreturned
          rw [hnone] at hsome
          cases hsome
        · intro hpc
          rw [hpc]
          rfl

/-- No interleaving of `n` calls has more than `n * (4 * n + 12)` steps, and where none can be
taken all calls have returned. -/
theorem run_ends {acts : List ι} (hrun : run (step c.fresh value) {} acts = some st) :
    acts.length ≤ Fintype.card ι * (4 * Fintype.card ι + 12) ∧
      ((∀ i, step c.fresh value st i = none) ↔ ∀ i, st.pc i = .returned) := by
  have hbound : Inv value st ∧ acts.length + remaining st.pc (st.outcome c.fresh) ≤
      Fintype.card ι * (4 * Fintype.card ι + 12) := by
    refine run_history (I := fun acts st => Inv value st ∧
      acts.length + remaining st.pc (st.outcome c.fresh) ≤
        Fintype.card ι * (4 * Fintype.card ι + 12)) ⟨inv_start, ?_⟩ ?_ hrun
    · show 0 + ∑ _ : ι, (4 * Fintype.card ι + 12) ≤ _
      rw [Nat.zero_add, Finset.sum_const_nat (fun _ _ => rfl), Finset.card_univ]
    · intro acts st i st' h hstep
      have hlt := remaining_step h.1 hstep
      refine ⟨inv_step h.1 hstep, ?_⟩
      rw [List.length_append, List.length_singleton]
      omega
  refine ⟨by omega, ?_⟩
  exact forall_congr' fun i => step_eq_none_iff hbound.1

theorem run_ends_contended :
    contended.length ≤ 2 * (4 * 2 + 12) :=
  (@run_ends Bool _ _ (fun b => if b then 7 else 3) (HistogramStatsCollector.newWithCapacity 2) _
    contended rfl).1

end Recording

/-! ## A call without company -/

namespace Recording

variable {ι : Type} [DecidableEq ι] {fresh : StatShard} {value : ι → Int64} {i : ι}

/-- One call takes all the steps from one state to another. -/
def Alone (fresh : StatShard) (value : ι → Int64) (i : ι) (st st' : Recording ι) : Prop :=
  ∃ n, run (step fresh value) st (List.replicate n i) = some st'

theorem Alone.trans {st₁ st₂ st₃ : Recording ι} (h : Alone fresh value i st₁ st₂)
    (h' : Alone fresh value i st₂ st₃) : Alone fresh value i st₁ st₃ := by
  obtain ⟨n, hn⟩ := h
  obtain ⟨m, hm⟩ := h'
  refine ⟨n + m, ?_⟩
  rw [List.replicate_add, run_append, hn]
  exact hm

theorem alone_step {st st' : Recording ι} (h : step fresh value st i = some st') :
    Alone fresh value i st st' := by
  refine ⟨1, ?_⟩
  show (step fresh value st i).bind _ = _
  rw [h]
  rfl

variable {s s' : StatShard} {locked locked' : Bool} {pc : ι → RecordPc} {old new : RecordPc}

theorem alone_recordStep
    (h : s.recordStep (value i) locked old = some (s', locked', new)) :
    Alone fresh value i ⟨some s, locked, Function.update pc i old⟩
      ⟨some s', locked', Function.update pc i new⟩ := by
  apply alone_step
  have hpc : Function.update pc i old i = old := Function.update_self ..
  have hgoto : Function.update (Function.update pc i old) i new = Function.update pc i new :=
    Function.update_idem ..
  cases old with
  | lookup => cases h
  | store => cases h
  | _ =>
      simp only [step, goto, hpc, hgoto, h, Option.bind_some, Option.map_some]

/-- A loop without rivals.  `put` sets the register and `loop` is the stage of the loop. -/
theorem alone_loop (keeps : Int64 → Int64 → Prop) [DecidableRel keeps] (put : Int64 → StatShard)
    {loop : CasLoop.Pc Int64 → RecordPc} {next : RecordPc}
    (hstep : ∀ r p, (put r).recordStep (value i) locked (loop p) =
      some (put (CasLoop.step keeps (value i) r p).1, locked,
        (CasLoop.step keeps (value i) r p).2.elim next loop)) (r : Int64) :
    Alone fresh value i ⟨some (put r), locked, Function.update pc i (loop .load)⟩
      ⟨some (put (if keeps r (value i) then r else value i)), locked,
        Function.update pc i next⟩ := by
  by_cases h : keeps r (value i)
  · rw [if_pos h]
    apply alone_recordStep
    rw [hstep, CasLoop.step, if_pos h]
    rfl
  · have hload : (put r).recordStep (value i) locked (loop .load) =
        some (put r, locked, loop (.cas r)) := by
      rw [hstep, CasLoop.step, if_neg h]
      rfl
    have hswap : (put r).recordStep (value i) locked (loop (.cas r)) =
        some (put (value i), locked, next) := by
      rw [hstep, CasLoop.step, if_pos rfl]
      rfl
    rw [if_neg h]
    exact (alone_recordStep hload).trans (alone_recordStep hswap)

theorem alone_lowerMin :
    Alone fresh value i ⟨some s, locked, Function.update pc i (.lowerMin .load)⟩
      ⟨some { s with minV := if s.minV ≤ value i then s.minV else value i }, locked,
        Function.update pc i (.raiseMax .load)⟩ :=
  alone_loop Lowest (fun r => { s with minV := r }) (fun _ _ => rfl) s.minV

theorem alone_raiseMax :
    Alone fresh value i ⟨some s, locked, Function.update pc i (.raiseMax .load)⟩
      ⟨some { s with maxV := if value i ≤ s.maxV then s.maxV else value i }, locked,
        Function.update pc i .tryLock⟩ :=
  alone_loop Highest (fun r => { s with maxV := r }) (fun _ _ => rfl) s.maxV

theorem alone_sample :
    Alone fresh value i ⟨some s, locked, Function.update pc i .tryLock⟩
      ⟨some { s with samples := if !locked then s.samples.push (value i) else s.samples }, locked,
        Function.update pc i .returned⟩ := by
  cases locked with
  | true => exact alone_recordStep rfl
  | false => exact (alone_recordStep rfl).trans (alone_recordStep rfl)

/-- The shard of the name is there when the call goes on. -/
theorem alone_lookup {st : Recording ι} (hpc : st.pc i = .lookup) :
    Alone fresh value i st
      ⟨some (st.outcome fresh), st.locked, Function.update st.pc i .addCount⟩ := by
  cases hshard : st.shard with
  | some s =>
      apply alone_step
      simp only [step, hpc, hshard, goto, outcome, Option.isSome_some, if_true, Option.getD_some]
  | none =>
      have hload : step fresh value st i =
          some ⟨none, st.locked, Function.update st.pc i .store⟩ := by
        simp only [step, hpc, hshard, goto, Option.isSome_none, Bool.false_eq_true, if_false]
      apply (alone_step hload).trans
      apply alone_step
      simp only [step, Function.update_self, goto, Function.update_idem, outcome, hshard]

/-- A call whose steps are not interleaved with others does what one step of the sequential
collector does. -/
theorem alone_record {st : Recording ι} (hpc : st.pc i = .lookup) :
    Alone fresh value i st
      ⟨some ((st.outcome fresh).record (value i) (!st.locked)), st.locked,
        Function.update st.pc i .returned⟩ := by
  apply (alone_lookup hpc).trans
  apply (alone_recordStep (s := st.outcome fresh) rfl).trans
  apply (alone_recordStep rfl).trans
  apply alone_lowerMin.trans
  apply alone_raiseMax.trans
  exact alone_sample

theorem alone_record_first :
    let fresh := (HistogramStatsCollector.newWithCapacity 2).fresh
    Alone fresh (fun _ => 7) true ({} : Recording Bool)
      ⟨some (fresh.record 7 true), false, Function.update (fun _ => .lookup) true .returned⟩ :=
  alone_record rfl

end Recording

end HyperCache
