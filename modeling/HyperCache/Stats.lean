/-
The histogram collector of the statistics.

Each stat name has a shard with running totals in 64-bit integers and a ring of
the latest samples.  The totals wrap around, and so does the sum of the two
middle samples that the median of an even window is half of.
-/
import HyperCache.HTTPTransport
import HyperCache.Lib.SortBy
import HyperCache.Lib.Window
import Mathlib.Data.List.GetD

namespace HyperCache

open Sorting Windows

structure StatShard where
  count : Int64 := 0
  sum : Int64 := 0
  minV : Int64 := Int64.maxValue
  maxV : Int64 := Int64.minValue
  samples : Window Int64

structure Stat where
  mean : Float
  median : Float
  min : Int64
  max : Int64
  values : List Int64
  count : Int64
  sum : Int64
  variance : Float

/-- The 64-bit sum of the two samples in the middle. -/
def middleSum (sorted : List Int64) : Int64 :=
  sorted.getD (sorted.length / 2 - 1) 0 + sorted.getD (sorted.length / 2) 0

def medianOf (sorted : List Int64) : Float :=
  let n := sorted.length
  if n = 0 then 0
  else if n % 2 = 1 then (sorted.getD (n / 2) 0).toFloat
  else (middleSum sorted).toFloat / 2

def varianceOf (values : List Int64) (mean : Float) : Float :=
  if values.length = 0 then 0
  else
    let acc := values.foldl (fun acc value =>
      let diff := value.toFloat - mean
      acc + diff * diff) 0
    acc / Float.ofNat values.length

namespace StatShard

/-- Recording into a shard.  `free` tells whether the lock of the samples could be
taken at once, for otherwise the sample is dropped. -/
def record (value : Int64) (free : Bool) (s : StatShard) : StatShard where
  count := s.count + 1
  sum := s.sum + value
  minV := if s.minV ≤ value then s.minV else value
  maxV := if value ≤ s.maxV then s.maxV else value
  samples := if free then s.samples.push value else s.samples

def snapshotSorted (s : StatShard) : List Int64 :=
  (SortBy.insertion Int64.toInt).sort s.samples.contents

def mean (s : StatShard) : Float := s.sum.toFloat / s.count.toFloat

/-- What is reported of a shard, unless nothing is counted there. -/
def report (s : StatShard) : Option Stat :=
  if s.count = 0 then none
  else some
    { mean := s.mean
      median := medianOf s.snapshotSorted
      min := s.minV
      max := s.maxV
      values := s.snapshotSorted
      count := s.count
      sum := s.sum
      variance := varianceOf s.snapshotSorted s.mean }

end StatShard

structure HistogramStatsCollector where
  stats : AList (fun _ : String => StatShard)
  sampleCap : Nat
  sampleCap_pos : 0 < sampleCap

namespace HistogramStatsCollector

def defaultSampleCapacity : Nat := 4096

def newWithCapacity (capacity : Int) : HistogramStatsCollector :=
  if h : capacity ≤ 0 then ⟨∅, defaultSampleCapacity, by decide⟩
  else ⟨∅, capacity.toNat, by omega⟩

def fresh (c : HistogramStatsCollector) : StatShard where
  samples := Window.empty 0 c.sampleCap c.sampleCap_pos

/-- The shard of a name, which is created on its first use. -/
def shard (key : String) (c : HistogramStatsCollector) : HistogramStatsCollector × StatShard :=
  match c.stats.lookup key with
  | some s => (c, s)
  | none => ({ c with stats := c.stats.insert key c.fresh }, c.fresh)

def record (key : String) (value : Int64) (free : Bool) (c : HistogramStatsCollector) :
    HistogramStatsCollector :=
  let (c, s) := c.shard key
  { c with stats := c.stats.insert key (s.record value free) }

def incr (stat : String) (value : Int64) (free : Bool) (c : HistogramStatsCollector) :=
  c.record stat value free

def decr (stat : String) (value : Int64) (free : Bool) (c : HistogramStatsCollector) :=
  c.record stat (-value) free

def timing (stat : String) (value : Int64) (free : Bool) (c : HistogramStatsCollector) :=
  c.record stat value free

def gauge (stat : String) (value : Int64) (free : Bool) (c : HistogramStatsCollector) :=
  c.record stat value free

def histogram (stat : String) (value : Int64) (free : Bool) (c : HistogramStatsCollector) :=
  c.record stat value free

def mean (stat : String) (c : HistogramStatsCollector) : HistogramStatsCollector × Float :=
  let (c, s) := c.shard stat
  (c, if s.count = 0 then 0 else s.mean)

def median (stat : String) (c : HistogramStatsCollector) : HistogramStatsCollector × Float :=
  let (c, s) := c.shard stat
  (c, medianOf s.snapshotSorted)

def getStats (c : HistogramStatsCollector) (key : String) : Option Stat :=
  (c.stats.lookup key).bind StatShard.report

end HistogramStatsCollector

inductive StatCall where
  | incr (stat : String) (value : Int64) (free : Bool)
  | decr (stat : String) (value : Int64) (free : Bool)
  | timing (stat : String) (value : Int64) (free : Bool)
  | gauge (stat : String) (value : Int64) (free : Bool)
  | histogram (stat : String) (value : Int64) (free : Bool)
  | mean (stat : String)
  | median (stat : String)

namespace StatCall

def exec (c : HistogramStatsCollector) : StatCall → HistogramStatsCollector
  | incr stat value free => c.incr stat value free
  | decr stat value free => c.decr stat value free
  | timing stat value free => c.timing stat value free
  | gauge stat value free => c.gauge stat value free
  | histogram stat value free => c.histogram stat value free
  | mean stat => (c.mean stat).1
  | median stat => (c.median stat).1

/-- Whether the lock of the samples is free when a recording call tries to take it. -/
def free : StatCall → Bool
  | incr _ _ free => free
  | decr _ _ free => free
  | timing _ _ free => free
  | gauge _ _ free => free
  | histogram _ _ free => free
  | mean _ => true
  | median _ => true

/-- The name a call records under and the value it records there. -/
def entry : StatCall → Option (String × Int64)
  | incr stat value _ => some (stat, value)
  | decr stat value _ => some (stat, -value)
  | timing stat value _ => some (stat, value)
  | gauge stat value _ => some (stat, value)
  | histogram stat value _ => some (stat, value)
  | mean _ => none
  | median _ => none

def recorded (key : String) (calls : List StatCall) : List Int64 :=
  ((calls.filterMap entry).filter (fun e => e.1 = key)).map Prod.snd

end StatCall

/-- The mathematical sum of 64-bit values. -/
def total (values : List Int64) : Int := (values.map Int64.toInt).sum

theorem total_append (values : List Int64) (v : Int64) :
    total (values ++ [v]) = total values + v.toInt := by
  simp [total]

namespace StatShard

/-- What a shard knows of the values recorded in it. -/
structure Tracks (values : List Int64) (s : StatShard) : Prop where
  count : s.count = Int64.ofNat values.length
  sum : s.sum = Int64.ofInt (total values)
  min_le : ∀ v ∈ values, s.minV ≤ v
  le_max : ∀ v ∈ values, v ≤ s.maxV
  min_mem : s.minV ∈ values ∨ s.minV = Int64.maxValue
  max_mem : s.maxV ∈ values ∨ s.maxV = Int64.minValue
  mem : ∀ v ∈ s.samples.contents, v ∈ values

theorem Tracks.record {values : List Int64} {s : StatShard} (h : Tracks values s) (v : Int64)
    (free : Bool) : Tracks (values ++ [v]) (s.record v free) where
  count := by
    show s.count + 1 = _
    rw [h.count, List.length_append, List.length_singleton, Int64.ofNat_add]
    rfl
  sum := by
    show s.sum + v = _
    rw [h.sum, total_append, Int64.ofInt_add, Int64.ofInt_toInt]
  min_le u hu := by
    show (if s.minV ≤ v then s.minV else v) ≤ u
    rcases List.mem_append.mp hu with hu | hu
    · have hmin := h.min_le u hu
      split
      · exact hmin
      · rw [Int64.le_iff_toInt_le] at *
        omega
    · rw [List.mem_singleton.mp hu]
      split
      · assumption
      · exact Int64.le_refl v
  le_max u hu := by
    show u ≤ (if v ≤ s.maxV then s.maxV else v)
    rcases List.mem_append.mp hu with hu | hu
    · have hmax := h.le_max u hu
      split
      · exact hmax
      · rw [Int64.le_iff_toInt_le] at *
        omega
    · rw [List.mem_singleton.mp hu]
      split
      · assumption
      · exact Int64.le_refl v
  min_mem := by
    show (if s.minV ≤ v then s.minV else v) ∈ _ ∨ (if s.minV ≤ v then s.minV else v) = _
    split
    · exact h.min_mem.imp_left (List.mem_append_left [v])
    · exact Or.inl (List.mem_append_right values (List.mem_singleton_self v))
  max_mem := by
    show (if v ≤ s.maxV then s.maxV else v) ∈ _ ∨ (if v ≤ s.maxV then s.maxV else v) = _
    split
    · exact h.max_mem.imp_left (List.mem_append_left [v])
    · exact Or.inl (List.mem_append_right values (List.mem_singleton_self v))
  mem u hu := by
    rw [List.mem_append, List.mem_singleton]
    cases free with
    | false => exact Or.inl (h.mem u hu)
    | true => exact (Window.mem_contents_push hu).imp_left (h.mem u)

theorem Tracks.mem_snapshotSorted {values : List Int64} {s : StatShard} (h : Tracks values s)
    {v : Int64} (hv : v ∈ s.snapshotSorted) : s.minV ≤ v ∧ v ≤ s.maxV := by
  have hmem : v ∈ values := h.mem v (((SortBy.insertion Int64.toInt).perm _).mem_iff.mp hv)
  exact ⟨h.min_le v hmem, h.le_max v hmem⟩

end StatShard

namespace HistogramStatsCollector

variable {c : HistogramStatsCollector} {key stat : String}

theorem tracks_fresh (c : HistogramStatsCollector) : c.fresh.Tracks [] where
  count := rfl
  sum := rfl
  min_le v hv := absurd hv List.not_mem_nil
  le_max v hv := absurd hv List.not_mem_nil
  min_mem := Or.inr rfl
  max_mem := Or.inr rfl
  mem v hv := by simp [fresh] at hv

theorem shard_insert_self (c : HistogramStatsCollector) (key : String) (s : StatShard) :
    ({ c with stats := c.stats.insert key s } : HistogramStatsCollector).shard key =
      ({ c with stats := c.stats.insert key s }, s) := by
  simp only [shard, AList.lookup_insert]

theorem shard_insert_ne (c : HistogramStatsCollector) (s : StatShard) (h : key ≠ stat) :
    (({ c with stats := c.stats.insert stat s } : HistogramStatsCollector).shard key).2 =
      (c.shard key).2 := by
  simp only [shard, AList.lookup_insert_ne h]
  cases c.stats.lookup key <;> rfl

theorem shard_shard (c : HistogramStatsCollector) (key stat : String) :
    ((c.shard stat).1.shard key).2 = (c.shard key).2 := by
  cases hstat : c.stats.lookup stat with
  | some s => simp only [shard, hstat]
  | none =>
      have hfst : (c.shard stat).1 = { c with stats := c.stats.insert stat c.fresh } := by
        simp only [shard, hstat]
      rw [hfst]
      by_cases h : key = stat
      · subst h
        rw [shard_insert_self]
        simp only [shard, hstat]
      · exact shard_insert_ne c _ h

theorem shard_record (c : HistogramStatsCollector) (value : Int64) (free : Bool)
    (key stat : String) :
    ((c.record stat value free).shard key).2 =
      if stat = key then (c.shard key).2.record value free else (c.shard key).2 := by
  by_cases h : stat = key
  · rw [if_pos h, h, record, shard_insert_self]
  · rw [if_neg h, record, shard_insert_ne _ _ (Ne.symm h), shard_shard]

end HistogramStatsCollector

namespace StatCall

open HistogramStatsCollector

variable {c : HistogramStatsCollector}

theorem recorded_append (key : String) (calls calls' : List StatCall) :
    recorded key (calls ++ calls') = recorded key calls ++ recorded key calls' := by
  simp [recorded]

theorem recorded_of_entry {key stat : String} {value : Int64} {call : StatCall}
    (h : call.entry = some (stat, value)) :
    recorded key [call] = if stat = key then [value] else [] := by
  by_cases hkey : stat = key <;> simp [recorded, h, hkey]

theorem recorded_of_entry_none {key : String} {call : StatCall} (h : call.entry = none) :
    recorded key [call] = [] := by
  simp [recorded, h]

theorem exec_of_entry {stat : String} {value : Int64} {call : StatCall}
    (h : call.entry = some (stat, value)) : call.exec c = c.record stat value call.free := by
  cases call <;> cases h <;> rfl

theorem exec_of_entry_none {call : StatCall} (h : call.entry = none) :
    ∃ stat, call.exec c = (c.shard stat).1 := by
  cases call <;> cases h
  · exact ⟨_, rfl⟩
  · exact ⟨_, rfl⟩

/-- A call leaves the shard of a name alone or records a value there. -/
theorem shard_exec_cases (c : HistogramStatsCollector) (key : String) (call : StatCall) :
    (recorded key [call] = [] ∧ ((call.exec c).shard key).2 = (c.shard key).2) ∨
      ∃ value, recorded key [call] = [value] ∧
        ((call.exec c).shard key).2 = (c.shard key).2.record value call.free := by
  cases hentry : call.entry with
  | none =>
      obtain ⟨stat, hexec⟩ := exec_of_entry_none (c := c) hentry
      exact Or.inl ⟨recorded_of_entry_none hentry, by rw [hexec, shard_shard]⟩
  | some e =>
      rw [exec_of_entry hentry, shard_record, recorded_of_entry hentry]
      by_cases hkey : e.1 = key
      · rw [if_pos hkey, if_pos hkey]
        exact Or.inr ⟨e.2, rfl, rfl⟩
      · rw [if_neg hkey, if_neg hkey]
        exact Or.inl ⟨rfl, rfl⟩

/-- What holds of a fresh shard and is kept by every recording holds after every run. -/
theorem shard_run {I : List StatCall → StatShard → Prop} (capacity : Int) (key : String)
    (hfresh : I [] (newWithCapacity capacity).fresh)
    (hskip : ∀ {calls s call}, I calls s → recorded key [call] = [] → I (calls ++ [call]) s)
    (hrecord : ∀ {calls s call value}, I calls s → recorded key [call] = [value] →
      I (calls ++ [call]) (s.record value call.free)) (calls : List StatCall) :
    I calls ((calls.foldl exec (newWithCapacity capacity)).shard key).2 := by
  induction calls using List.reverseRecOn with
  | nil =>
      have hnone : (newWithCapacity capacity).stats.lookup key = none := by
        rw [newWithCapacity]
        split <;> exact AList.lookup_empty key
      simp only [List.foldl_nil, shard, hnone]
      exact hfresh
  | append_singleton calls call ih =>
      rw [List.foldl_append, List.foldl_cons, List.foldl_nil]
      rcases shard_exec_cases (calls.foldl exec (newWithCapacity capacity)) key call with
        ⟨hnone, hsame⟩ | ⟨value, hvalue, hshard⟩
      · rw [hsame]
        exact hskip ih hnone
      · rw [hshard]
        exact hrecord ih hvalue

/-- After every run each shard tracks what was recorded under its name. -/
theorem tracks_run (capacity : Int) (calls : List StatCall) (key : String) :
    ((calls.foldl exec (newWithCapacity capacity)).shard key).2.Tracks (recorded key calls) := by
  apply shard_run (I := fun calls s => s.Tracks (recorded key calls)) capacity key
  · exact tracks_fresh _
  · intro calls s call h hnone
    rw [recorded_append, hnone, List.append_nil]
    exact h
  · intro calls s call value h hvalue
    rw [recorded_append, hvalue]
    exact h.record value call.free

end StatCall

/-! ## The window of samples -/

namespace StatShard

/-- The window holds the latest of the values that were sampled. -/
structure Samples (cap : Nat) (values : List Int64) (s : StatShard) : Prop where
  size : s.samples.cells.length = cap
  latest : s.samples.contents = values.rtake cap

theorem Samples.record {cap : Nat} {values : List Int64} {s : StatShard} (h : Samples cap values s)
    (v : Int64) : Samples cap (values ++ [v]) (s.record v true) where
  size := by
    show (s.samples.cells.set s.samples.pos v).length = cap
    rw [List.length_set, h.size]
  latest := by
    show (s.samples.push v).contents = _
    rw [Window.contents_push, h.size, h.latest, Window.rtake_append_singleton]

/-- A sample that is dropped leaves the window as it is. -/
theorem Samples.drop {cap : Nat} {values : List Int64} {s : StatShard} (h : Samples cap values s)
    (v : Int64) : Samples cap values (s.record v false) :=
  ⟨h.size, h.latest⟩

end StatShard

namespace HistogramStatsCollector

theorem samples_fresh (c : HistogramStatsCollector) : c.fresh.Samples c.sampleCap [] where
  size := List.length_replicate
  latest := by
    rw [List.rtake_nil]
    exact Window.contents_empty 0 c.sampleCap_pos

end HistogramStatsCollector

namespace StatCall

open HistogramStatsCollector

theorem recorded_filter_append (key : String) (calls : List StatCall) (call : StatCall) :
    recorded key ((calls ++ [call]).filter free) =
      recorded key (calls.filter free) ++ if call.free then recorded key [call] else [] := by
  rw [List.filter_append, recorded_append]
  cases h : call.free with
  | true => simp [h]
  | false => simp [h, recorded]

theorem samples_run (capacity : Int) (calls : List StatCall) (key : String) :
    ((calls.foldl exec (newWithCapacity capacity)).shard key).2.Samples
      (newWithCapacity capacity).sampleCap (recorded key (calls.filter free)) := by
  apply shard_run (I := fun calls s => s.Samples (newWithCapacity capacity).sampleCap
    (recorded key (calls.filter free))) capacity key
  · exact samples_fresh _
  · intro calls s call h hnone
    rw [recorded_filter_append, hnone, ite_self, List.append_nil]
    exact h
  · intro calls s call value h hvalue
    rw [recorded_filter_append, hvalue]
    cases call.free with
    | true => exact h.record value
    | false =>
        rw [if_neg Bool.false_ne_true, List.append_nil]
        exact h.drop value

/-- The latest of the values that were sampled, in order. -/
def window (capacity : Int) (key : String) (calls : List StatCall) : List Int64 :=
  (SortBy.insertion Int64.toInt).sort
    ((recorded key (calls.filter free)).rtake (newWithCapacity capacity).sampleCap)

theorem snapshotSorted_run (capacity : Int) (calls : List StatCall) (key : String) :
    ((calls.foldl exec (newWithCapacity capacity)).shard key).2.snapshotSorted =
      window capacity key calls := by
  rw [StatShard.snapshotSorted, (samples_run capacity calls key).latest, window]

end StatCall

/-! ## Sums that fit -/

/-- The mathematical sum of the two samples in the middle. -/
def middle (sorted : List Int64) : Int :=
  (sorted.getD (sorted.length / 2 - 1) 0).toInt + (sorted.getD (sorted.length / 2) 0).toInt

def EvenWindow (sorted : List Int64) : Prop := sorted.length ≠ 0 ∧ sorted.length % 2 = 0

/-- The sum is that of the values, and the median of an even window is half of a
number between twice the minimum and twice the maximum. -/
def Stat.Exact (values : List Int64) (st : Stat) : Prop :=
  st.sum.toInt = total values ∧
    (EvenWindow st.values →
      2 * st.min.toInt ≤ (middleSum st.values).toInt ∧
        (middleSum st.values).toInt ≤ 2 * st.max.toInt)

/-- The two middle samples have a sum that fits, or they are so far from one of the values that
their distances from it add up to the whole range. -/
def MiddleFits (values sorted : List Int64) : Prop :=
  Int64Range (middle sorted) ∨
    ∃ v ∈ values, 0x10000000000000000 ≤ (middle sorted - 2 * v.toInt).natAbs

instance (n : Int) : Decidable (Int64Range n) := inferInstanceAs (Decidable (_ ∧ _))

instance (sorted : List Int64) : Decidable (EvenWindow sorted) :=
  inferInstanceAs (Decidable (_ ∧ _))

instance (values sorted : List Int64) : Decidable (MiddleFits values sorted) :=
  inferInstanceAs (Decidable (_ ∨ _))

theorem toInt_ofInt_eq_iff (n : Int) : (Int64.ofInt n).toInt = n ↔ Int64Range n := by
  rw [Int64.toInt_ofInt, Int64Range, Int.bmod_def, Int64.size]
  omega

theorem getD_mem {l : List Int64} {i : Nat} (h : i < l.length) : l.getD i 0 ∈ l := by
  rw [List.getD_eq_getElem l 0 h]
  exact List.getElem_mem h

namespace StatShard

variable {values : List Int64} {s : StatShard} {st : Stat}

theorem report_eq_some (h : s.report = some st) :
    st.values = s.snapshotSorted ∧ st.min = s.minV ∧ st.max = s.maxV ∧ st.sum = s.sum := by
  rw [report] at h
  split at h
  · cases h
  · cases h
    exact ⟨rfl, rfl, rfl, rfl⟩

/-- The mathematical sum of the middle is between twice the minimum and twice the maximum. -/
theorem Tracks.middle_mem (h : Tracks values s) (heven : EvenWindow s.snapshotSorted) :
    2 * s.minV.toInt ≤ middle s.snapshotSorted ∧ middle s.snapshotSorted ≤ 2 * s.maxV.toInt := by
  have hlen := heven.1
  obtain ⟨hlo, hlo'⟩ := h.mem_snapshotSorted
    (getD_mem (i := s.snapshotSorted.length / 2 - 1) (by omega))
  obtain ⟨hup, hup'⟩ := h.mem_snapshotSorted
    (getD_mem (i := s.snapshotSorted.length / 2) (by omega))
  rw [Int64.le_iff_toInt_le] at hlo hlo' hup hup'
  rw [middle]
  omega

theorem Tracks.middle_iff (h : Tracks values s) (heven : EvenWindow s.snapshotSorted) :
    (2 * s.minV.toInt ≤ (middleSum s.snapshotSorted).toInt ∧
        (middleSum s.snapshotSorted).toInt ≤ 2 * s.maxV.toInt) ↔
      MiddleFits values s.snapshotSorted := by
  obtain ⟨hmin, hmax⟩ := h.middle_mem heven
  have hsum : (middleSum s.snapshotSorted).toInt =
      (middle s.snapshotSorted).bmod 0x10000000000000000 := Int64.toInt_add _ _
  have hmin' := And.intro s.minV.le_toInt s.minV.toInt_lt
  have hmax' := And.intro s.maxV.le_toInt s.maxV.toInt_lt
  rw [hsum, MiddleFits, Int64Range, Int.bmod_def]
  constructor
  · intro hbounds
    by_cases hhigh : 0x8000000000000000 ≤ middle s.snapshotSorted
    · -- The wrapped sum is negative, so the minimum is a value and not the initial maximum.
      have hmem : s.minV ∈ values := h.min_mem.resolve_right fun heq => by
        rw [heq, Int64.toInt_maxValue] at hbounds
        omega
      exact Or.inr ⟨s.minV, hmem, by omega⟩
    · by_cases hlow : middle s.snapshotSorted < -0x8000000000000000
      · have hmem : s.maxV ∈ values := h.max_mem.resolve_right fun heq => by
          rw [heq, Int64.toInt_minValue] at hbounds
          omega
        exact Or.inr ⟨s.maxV, hmem, by omega⟩
      · exact Or.inl (by omega)
  · rintro (hfits | ⟨v, hv, hfar⟩)
    · omega
    · have hle := Int64.le_iff_toInt_le.mp (h.min_le v hv)
      have hle' := Int64.le_iff_toInt_le.mp (h.le_max v hv)
      omega

theorem Tracks.exact_iff (h : Tracks values s) (hst : s.report = some st) :
    st.Exact values ↔ Int64Range (total values) ∧
      (EvenWindow s.snapshotSorted → MiddleFits values s.snapshotSorted) := by
  obtain ⟨hvalues, hmin, hmax, hsum⟩ := report_eq_some hst
  rw [Stat.Exact, hvalues, hmin, hmax, hsum, h.sum, toInt_ofInt_eq_iff]
  exact and_congr_right fun _ => imp_congr_right fun heven => h.middle_iff heven

end StatShard

namespace HistogramStatsCollector

/-- A name without a shard is reported like one with a fresh shard. -/
theorem getStats_eq_report (c : HistogramStatsCollector) (key : String) :
    c.getStats key = (c.shard key).2.report := by
  rw [getStats]
  cases h : c.stats.lookup key with
  | none =>
      simp only [shard, h]
      rfl
  | some s =>
      simp only [shard, h]
      rfl

end HistogramStatsCollector

open HistogramStatsCollector StatCall in
/-- What is reported is exact exactly when the sum of the recorded values fits and, where the
window is even, so does that of its middle, or the values are too far apart for it to matter. -/
theorem stats_exact_iff (capacity : Int) (calls : List StatCall) (key : String) (st : Stat)
    (hst : (calls.foldl exec (newWithCapacity capacity)).getStats key = some st) :
    st.Exact (recorded key calls) ↔
      Int64Range (total (recorded key calls)) ∧ (EvenWindow (window capacity key calls) →
        MiddleFits (recorded key calls) (window capacity key calls)) := by
  rw [getStats_eq_report] at hst
  rw [← snapshotSorted_run]
  exact (tracks_run capacity calls key).exact_iff hst

/-- Runs of the expiration loop, which records the time itself as a duration. -/
def expirationLoops (n : Nat) : List StatCall :=
  List.replicate n (.timing "expiration_loop_duration" 1700000000000000000 true)

def collected (calls : List StatCall) : HistogramStatsCollector :=
  calls.foldl StatCall.exec (HistogramStatsCollector.newWithCapacity 8)

theorem stats_exact_iff_fourLoops :
    ∃ st, (collected (expirationLoops 4)).getStats "expiration_loop_duration" = some st ∧
      st.Exact (StatCall.recorded "expiration_loop_duration" (expirationLoops 4)) :=
  ⟨_, rfl, (stats_exact_iff 8 (expirationLoops 4) "expiration_loop_duration" _ rfl).mpr
    (by decide)⟩

/-- After six loops the sum is negative.  Two large samples also have a negative
median. -/
theorem stats_sum_wraps :
    (∃ st, (collected (expirationLoops 6)).getStats "expiration_loop_duration" = some st ∧
      st.sum.toInt = -8246744073709551616 ∧
      total (StatCall.recorded "expiration_loop_duration" (expirationLoops 6)) =
        10200000000000000000) ∧
    ∃ st, (collected [.gauge "gauge" 5000000000000000000 true,
        .gauge "gauge" 5000000000000000000 true]).getStats "gauge" = some st ∧
      EvenWindow st.values ∧ st.min.toInt = 5000000000000000000 ∧
      (middleSum st.values).toInt = -8446744073709551616 :=
  ⟨⟨_, rfl, by decide, by decide⟩, _, rfl, by decide, by decide, by decide⟩

open HistogramStatsCollector StatCall in
/-- Where no sample is dropped, the snapshot is a sorted arrangement of the latest values, as
many of them as there are, or as the window holds. -/
theorem snapshotSorted_latest {capacity : Int} (hcap : 0 < capacity) {calls : List StatCall}
    (hfree : ∀ call ∈ calls, call.free = true) (key : String) :
    let values := recorded key calls
    let s := ((calls.foldl exec (newWithCapacity capacity)).shard key).2
    s.snapshotSorted.Perm (values.drop (values.length - capacity.toNat)) ∧
      s.snapshotSorted.Pairwise (fun a b => a ≤ b) ∧
      s.snapshotSorted.length = min values.length capacity.toNat := by
  intro values s
  have hcapacity : (newWithCapacity capacity).sampleCap = capacity.toNat := by
    rw [newWithCapacity, dif_neg (by omega)]
  have hsamples := samples_run capacity calls key
  rw [List.filter_eq_self.mpr hfree, hcapacity] at hsamples
  have hperm : s.snapshotSorted.Perm (values.drop (values.length - capacity.toNat)) := by
    rw [← List.rtake, ← hsamples.latest]
    exact (SortBy.insertion Int64.toInt).perm _
  refine ⟨hperm, ?_, ?_⟩
  · apply ((SortBy.insertion Int64.toInt).sorted _).imp
    intro a b h
    exact Int64.le_iff_toInt_le.mpr h
  · rw [hperm.length_eq, List.length_drop]
    omega

/-- Five values go through a window of three. -/
theorem snapshotSorted_latest_wrapped :
    ∃ calls : List StatCall, StatCall.recorded "gauge" calls = [7, 1, 9, 2, 9] ∧
      ((calls.foldl StatCall.exec (HistogramStatsCollector.newWithCapacity 3)).shard
        "gauge").2.snapshotSorted.Perm [9, 2, 9] := by
  refine ⟨[.gauge "gauge" 7 true, .gauge "gauge" 1 true, .gauge "gauge" 9 true,
    .gauge "gauge" 2 true, .gauge "gauge" 9 true], by decide, ?_⟩
  exact (snapshotSorted_latest (by omega) (by decide) "gauge").1

end HyperCache
