/-
Durations as text, as Go's package time writes and reads them.

A duration is a number of nanoseconds.  Below a second it is written in one unit, from
a second on as hours, minutes and seconds, each time with the fraction cut after its last
digit that is not zero.  The reader takes a list of numbers with units.  It multiplies
fractions in floating point, of which only `Scaling.exact` is used: doubles are exact on
small integers.
-/
import Mathlib.Algebra.Order.Ring.Nat
import Mathlib.Data.UInt
import Mathlib.Tactic.Ring

namespace DurationText

def microsecond : Nat := 1000
def millisecond : Nat := 1000000
def second : Nat := 1000000000

/-! ## Writing -/

def digit (n : Nat) : UInt8 := UInt8.ofNat (48 + n)

def fmtInt (n : Nat) : List UInt8 :=
  if n < 10 then [digit n] else fmtInt (n / 10) ++ [digit (n % 10)]

/-- The last `prec` digits before those already written, and the number above them.  A
zero is written only once a digit stands to its right. -/
def fracDigits : Nat → Nat → List UInt8 → List UInt8 × Nat
  | 0, v, ds => (ds, v)
  | prec + 1, v, ds =>
      fracDigits prec (v / 10) (if ds = [] ∧ v % 10 = 0 then [] else digit (v % 10) :: ds)

def point (ds : List UInt8) : List UInt8 := if ds = [] then [] else 46 :: ds

def fmtFrac (prec v : Nat) : List UInt8 × Nat :=
  (point (fracDigits prec v []).1, (fracDigits prec v []).2)

/-- A number of units of `10 ^ prec` nanoseconds with its fraction. -/
def fmtUnit (prec v : Nat) (unit : List UInt8) : List UInt8 :=
  fmtInt (fmtFrac prec v).2 ++ (fmtFrac prec v).1 ++ unit

def fmtClock (u : Nat) : List UInt8 :=
  let secs := (fmtFrac 9 u).2
  let text := fmtInt (secs % 60) ++ (fmtFrac 9 u).1 ++ [115]
  if secs / 60 = 0 then text
  else
    let text := fmtInt (secs / 60 % 60) ++ [109] ++ text
    if secs / 60 / 60 = 0 then text else fmtInt (secs / 60 / 60) ++ [104] ++ text

def fmtMagnitude (u : Nat) : List UInt8 :=
  if u < second then
    if u = 0 then [48, 115]
    else if u < microsecond then fmtUnit 0 u [110, 115]
    else if u < millisecond then fmtUnit 3 u [0xC2, 0xB5, 115]
    else fmtUnit 6 u [109, 115]
  else fmtClock u

/-- `Duration.String`. -/
def format (d : Int) : List UInt8 :=
  if d < 0 then 45 :: fmtMagnitude d.natAbs else fmtMagnitude d.natAbs

/-! ## Reading -/

def isDigit (c : UInt8) : Bool := decide (48 ≤ c ∧ c ≤ 57)

/-- The digits at the front, after `x` was read.  More than `1 << 63` is an error. -/
def leadingInt : Nat → List UInt8 → Option (Nat × List UInt8)
  | x, [] => some (x, [])
  | x, c :: s =>
      if isDigit c then
        if 0x8000000000000000 / 10 < x then none
        else if 0x8000000000000000 < x * 10 + (c.toNat - 48) then none
        else leadingInt (x * 10 + (c.toNat - 48)) s
      else some (x, c :: s)

/-- The same behind the decimal point, where what is too much is skipped. -/
def leadingFraction : Nat → Nat → Bool → List UInt8 → Nat × Nat × List UInt8
  | x, scale, _, [] => (x, scale, [])
  | x, scale, overflow, c :: s =>
      if isDigit c then
        if overflow ∨ 0x7FFFFFFFFFFFFFFF / 10 < x ∨
            0x8000000000000000 < x * 10 + (c.toNat - 48) then
          leadingFraction x scale true s
        else leadingFraction (x * 10 + (c.toNat - 48)) (scale * 10) false s
      else (x, scale, c :: s)

def units : List (List UInt8 × Nat) :=
  [([110, 115], 1), ([117, 115], 1000), ([0xC2, 0xB5, 115], 1000), ([0xCE, 0xBC, 115], 1000),
    ([109, 115], 1000000), ([115], 1000000000), ([109], 60000000000), ([104], 3600000000000)]

/-- The part of `f / scale` units, `uint64(float64(f) * (float64(unit) / scale))`. -/
structure Scaling where
  part : Nat → Nat → Nat → Nat
  exact : ∀ f unit scale, scale ∣ unit → f * (unit / scale) ≤ 0x20000000000000 →
    part f unit scale = f * (unit / scale)

/-- The fraction without any rounding before the last step. -/
def Scaling.floor : Scaling where
  part f unit scale := f * unit / scale
  exact := by
    intro f unit scale hdvd _
    exact Nat.mul_div_assoc f hdvd

/-- The integer part, the fraction with its scale, and what follows the number. -/
def number (s : List UInt8) : Option (Nat × Nat × Nat × List UInt8) := do
  let (v, t) ← leadingInt 0 s
  if t.head? = some 46 then
    let (f, scale, rest) := leadingFraction 0 1 false t.tail
    if t.length = s.length ∧ rest.length = t.tail.length then none else some (v, f, scale, rest)
  else if t.length = s.length then none
  else some (v, 0, 1, t)

def amount (float : Scaling) (v f scale unit : Nat) : Option Nat :=
  if 0x8000000000000000 / unit < v then none
  else if f = 0 then some (v * unit)
  else if 0x8000000000000000 < v * unit + float.part f unit scale then none
  else some (v * unit + float.part f unit scale)

def inUnit (c : UInt8) : Bool := !(c == 46 || isDigit c)

def component (float : Scaling) (s : List UInt8) : Option (Nat × List UInt8) := do
  let (v, f, scale, t) ← number s
  let unit ← units.lookup (t.takeWhile inUnit)
  let n ← amount float v f scale unit
  some (n, t.dropWhile inUnit)

/-- The sum is a `uint64`.  Every component is at least one byte, so the length of the
text is enough fuel. -/
def components (float : Scaling) : Nat → Nat → List UInt8 → Option Nat
  | _, d, [] => some d
  | 0, _, _ :: _ => none
  | fuel + 1, d, c :: s => do
      let (n, rest) ← component float (c :: s)
      let d := (d + n) % 0x10000000000000000
      if 0x8000000000000000 < d then none else components float fuel d rest

def parseMagnitude (float : Scaling) (s : List UInt8) : Option Nat :=
  if s = [48] then some 0
  else if s = [] then none
  else components float s.length 0 s

/-- `ParseDuration`. -/
def parse (float : Scaling) (s : List UInt8) : Option Int :=
  if s.head? = some 45 then (parseMagnitude float s.tail).map fun d => -(d : Int)
  else do
    let d ← parseMagnitude float (if s.head? = some 43 then s.tail else s)
    if 0x7FFFFFFFFFFFFFFF < d then none else some (d : Int)

/-! ## Reading digits -/

theorem toNat_digit {n : Nat} (h : n < 10) : (digit n).toNat = 48 + n := by
  rw [digit, UInt8.toNat_ofNat']
  omega

theorem isDigit_iff (c : UInt8) : isDigit c = true ↔ 48 ≤ c.toNat ∧ c.toNat ≤ 57 := by
  rw [isDigit, decide_eq_true_iff, UInt8.le_iff_toNat_le, UInt8.le_iff_toNat_le]
  rfl

theorem isDigit_digit {n : Nat} (h : n < 10) : isDigit (digit n) = true := by
  rw [isDigit_iff, toNat_digit h]
  omega

theorem leadingInt_digit {x n : Nat} (h : n < 10) (hx : x * 10 + n ≤ 0x8000000000000000)
    (s : List UInt8) : leadingInt x (digit n :: s) = leadingInt (x * 10 + n) s := by
  have hvalue : (digit n).toNat - 48 = n := by rw [toNat_digit h]; omega
  rw [leadingInt, if_pos (isDigit_digit h), hvalue, if_neg (by omega), if_neg (by omega)]

theorem leadingInt_fmtInt {n : Nat} (hn : n ≤ 0x8000000000000000) (s : List UInt8) :
    leadingInt 0 (fmtInt n ++ s) = leadingInt n s := by
  induction n using Nat.strongRecOn generalizing s with
  | ind n ih =>
      rw [fmtInt]
      by_cases hsmall : n < 10
      · rw [if_pos hsmall, List.singleton_append, leadingInt_digit hsmall (by omega)]
        congr 1
        omega
      · rw [if_neg hsmall, List.append_assoc, ih (n / 10) (by omega) (by omega),
          List.singleton_append, leadingInt_digit (by omega) (by omega)]
        congr 1
        omega

/-- A number ends before a byte that is not a digit, and at the end of the text. -/
def Ends (s : List UInt8) : Prop := ∀ c ∈ s.head?, isDigit c = false

theorem leadingInt_of_ends {s : List UInt8} (h : Ends s) (x : Nat) :
    leadingInt x s = some (x, s) := by
  cases s with
  | nil => rfl
  | cons c s =>
      have hc : isDigit c = false := h c rfl
      rw [leadingInt, hc, if_neg Bool.false_ne_true]

theorem leadingFraction_of_ends {s : List UInt8} (h : Ends s) (x scale : Nat) (overflow : Bool) :
    leadingFraction x scale overflow s = (x, scale, s) := by
  cases s with
  | nil => rfl
  | cons c s =>
      have hc : isDigit c = false := h c rfl
      rw [leadingFraction, hc, if_neg Bool.false_ne_true]

/-- What digits are worth. -/
def value : List UInt8 → Nat
  | [] => 0
  | c :: ds => (c.toNat - 48) * 10 ^ ds.length + value ds

theorem leadingFraction_digits {ds : List UInt8} (hds : ∀ c ∈ ds, isDigit c = true) {x : Nat}
    (hx : (x + 1) * 10 ^ ds.length ≤ 1000000000) (scale : Nat) (s : List UInt8) :
    leadingFraction x scale false (ds ++ s) =
      leadingFraction (x * 10 ^ ds.length + value ds) (scale * 10 ^ ds.length) false s := by
  induction ds generalizing x scale with
  | nil => simp [value]
  | cons c ds ih =>
      have hc := hds c List.mem_cons_self
      have hrange := (isDigit_iff c).1 hc
      rw [List.length_cons, Nat.pow_succ'] at hx
      have hpos : 0 < 10 ^ ds.length := Nat.pow_pos (by omega)
      have hle : (x + 1) * 10 ≤ 1000000000 := by
        apply Nat.le_trans _ hx
        rw [← Nat.mul_assoc]
        exact Nat.le_mul_of_pos_right _ hpos
      have hnext : (x * 10 + (c.toNat - 48) + 1) * 10 ^ ds.length ≤ 1000000000 := by
        apply Nat.le_trans _ hx
        rw [← Nat.mul_assoc]
        apply Nat.mul_le_mul_right
        omega
      have hgo : ¬(false = true ∨ 0x7FFFFFFFFFFFFFFF / 10 < x ∨
          0x8000000000000000 < x * 10 + (c.toNat - 48)) := by
        rintro (h | h | h)
        · cases h
        · omega
        · omega
      rw [List.cons_append, leadingFraction, if_pos hc, if_neg hgo,
        ih (fun d hd => hds d (List.mem_cons_of_mem c hd)) hnext, value, List.length_cons,
        Nat.pow_succ']
      congr 1
      · ring
      · ring

/-! ## What is written of a fraction -/

/-- `ds` and then zeros are the last `i` digits of a number, and are worth `low`. -/
def Writes (ds : List UInt8) (i low : Nat) : Prop :=
  (∀ c ∈ ds, isDigit c = true) ∧ ∃ zeros, ds.length + zeros = i ∧ value ds * 10 ^ zeros = low

theorem Writes.cons {ds : List UInt8} {i low d : Nat} (h : Writes ds i low) (hd : d < 10) :
    Writes (if ds = [] ∧ d = 0 then [] else digit d :: ds) (i + 1) (d * 10 ^ i + low) := by
  obtain ⟨hds, zeros, hlen, hvalue⟩ := h
  by_cases hskip : ds = [] ∧ d = 0
  · obtain ⟨rfl, rfl⟩ := hskip
    rw [if_pos ⟨rfl, rfl⟩]
    refine ⟨hds, i + 1, Nat.zero_add _, ?_⟩
    rw [← hvalue]
    simp [value]
  · rw [if_neg hskip]
    refine ⟨?_, zeros, ?_, ?_⟩
    · intro c hc
      rcases List.mem_cons.1 hc with rfl | hc
      · exact isDigit_digit hd
      · exact hds c hc
    · rw [List.length_cons]
      omega
    · rw [value, toNat_digit hd, ← hvalue, ← hlen, Nat.pow_add, Nat.add_sub_cancel_left]
      ring

theorem fracDigits_spec (prec : Nat) {v i low : Nat} {ds : List UInt8} (h : Writes ds i low) :
    Writes (fracDigits prec v ds).1 (i + prec) (v % 10 ^ prec * 10 ^ i + low) ∧
      (fracDigits prec v ds).2 = v / 10 ^ prec := by
  induction prec generalizing v i low ds with
  | zero => simpa [fracDigits, Nat.mod_one] using h
  | succ prec ih =>
      rw [fracDigits]
      obtain ⟨hwrites, hrest⟩ := ih (v := v / 10) (h.cons (Nat.mod_lt v (by omega)))
      refine ⟨?_, ?_⟩
      · have hlow : v / 10 % 10 ^ prec * 10 ^ (i + 1) + (v % 10 * 10 ^ i + low) =
            v % 10 ^ (prec + 1) * 10 ^ i + low := by
          have hpow : 10 ^ (prec + 1) = 10 * 10 ^ prec := Nat.pow_succ'
          rw [hpow, Nat.mod_mul]
          ring
        rw [hlow, Nat.add_right_comm] at hwrites
        exact hwrites
      · rw [hrest, Nat.div_div_eq_div_mul, Nat.pow_succ']

theorem writes_nil : Writes [] 0 0 := by
  refine ⟨?_, 0, rfl, rfl⟩
  intro c hc
  cases hc

theorem fmtFrac_spec (prec v : Nat) :
    ∃ ds, fmtFrac prec v = (point ds, v / 10 ^ prec) ∧ Writes ds prec (v % 10 ^ prec) := by
  obtain ⟨hwrites, hrest⟩ := fracDigits_spec prec (v := v) writes_nil
  refine ⟨(fracDigits prec v []).1, ?_, ?_⟩
  · rw [fmtFrac, hrest]
  · simpa using hwrites

/-! ## Reading one component -/

theorem fmtInt_ne_nil (n : Nat) : fmtInt n ≠ [] := by
  rw [fmtInt]
  by_cases h : n < 10
  · simp [h]
  · simp [h]

theorem inUnit_ends {t : List UInt8} (h : ∀ c ∈ t.head?, inUnit c = true) : Ends t := by
  intro c hc
  have hunit := h c hc
  rw [inUnit, Bool.not_eq_true', Bool.or_eq_false_iff] at hunit
  exact hunit.2

theorem ends_point (ds : List UInt8) {t : List UInt8} (h : Ends t) : Ends (point ds ++ t) := by
  rw [point]
  by_cases hds : ds = []
  · rw [if_pos hds]
    exact h
  · rw [if_neg hds]
    intro c hc
    cases hc
    rfl

theorem number_term {n : Nat} (hn : n ≤ 0x8000000000000000) {ds : List UInt8}
    (hds : ∀ c ∈ ds, isDigit c = true) (hlen : ds.length ≤ 9) {t : List UInt8}
    (ht : ∀ c ∈ t.head?, inUnit c = true) :
    number (fmtInt n ++ (point ds ++ t)) = some (n, value ds, 10 ^ ds.length, t) := by
  have hends := inUnit_ends ht
  have hread := leadingInt_fmtInt hn (point ds ++ t)
  rw [leadingInt_of_ends (ends_point ds hends)] at hread
  have hpos := List.length_pos_of_ne_nil (fmtInt_ne_nil n)
  have hmore : (point ds ++ t).length ≠ (fmtInt n ++ (point ds ++ t)).length := by
    rw [@List.length_append _ (fmtInt n)]
    omega
  by_cases hnil : ds = []
  · subst hnil
    simp only [point, if_true, List.nil_append] at hread hmore ⊢
    have hpoint : t.head? ≠ some 46 := by
      intro h
      exact absurd (ht 46 h) (by decide)
    rw [number, hread]
    simp only [Option.bind_eq_bind, Option.bind_some, if_neg hpoint, if_neg hmore]
    rfl
  · have hpow : 10 ^ ds.length ≤ 1000000000 :=
      Nat.pow_le_pow_right (n := 10) (by omega) hlen
    have hfraction : leadingFraction 0 1 false (ds ++ t) = (value ds, 10 ^ ds.length, t) := by
      rw [leadingFraction_digits hds (by omega), leadingFraction_of_ends hends]
      simp
    simp only [point, if_neg hnil, List.cons_append] at hread hmore ⊢
    rw [number, hread]
    simp only [Option.bind_eq_bind, Option.bind_some, List.head?_cons, if_true, List.tail_cons,
      hfraction]
    rw [if_neg]
    intro h
    exact hmore h.1

theorem amount_eq (float : Scaling) {v f scale unit : Nat} (hpos : 0 < unit) (hdvd : scale ∣ unit)
    (hf : f * (unit / scale) ≤ 0x20000000000000)
    (hsum : v * unit + f * (unit / scale) ≤ 0x8000000000000000) :
    amount float v f scale unit = some (v * unit + f * (unit / scale)) := by
  have hv : v ≤ 0x8000000000000000 / unit := by
    rw [Nat.le_div_iff_mul_le hpos]
    omega
  rw [amount, if_neg (by omega), float.exact f unit scale hdvd hf]
  by_cases hzero : f = 0
  · simp [hzero]
  · rw [if_neg hzero, if_neg (by omega)]

/-- The text `u` is that of a unit of `unit` nanoseconds. -/
def IsUnit (u : List UInt8) (unit : Nat) : Prop :=
  units.lookup u = some unit ∧ 0 < unit ∧ u ≠ [] ∧ ∀ c ∈ u, inUnit c = true

theorem isUnit_of_lookup {u : List UInt8} {unit : Nat} (h : units.lookup u = some unit) :
    IsUnit u unit := by
  have hall : ∀ e ∈ units, 0 < e.2 ∧ e.1 ≠ [] ∧ ∀ c ∈ e.1, inUnit c = true := by
    simp [units, inUnit, isDigit]
  obtain ⟨l, r, hunits, -⟩ := List.lookup_eq_some_iff.mp h
  exact ⟨h, hall (u, unit) (by simp [hunits])⟩

/-- The text does not go on with the letters of a unit. -/
def Fresh (rest : List UInt8) : Prop := ∀ c ∈ rest.head?, inUnit c = false

/-- A number of units with a fraction that the unit can hold is read as its worth. -/
theorem component_term (float : Scaling) {n low i unit : Nat} {ds u rest : List UInt8}
    (hds : Writes ds i low) (hi : i ≤ 9) (hunit : IsUnit u unit) (hdvd : 10 ^ i ∣ unit)
    (hlow : low * (unit / 10 ^ i) ≤ 0x20000000000000)
    (hsum : n * unit + low * (unit / 10 ^ i) ≤ 0x8000000000000000) (hrest : Fresh rest) :
    component float (fmtInt n ++ (point ds ++ (u ++ rest))) =
      some (n * unit + low * (unit / 10 ^ i), rest) := by
  obtain ⟨hdigits, zeros, hlen, hvalue⟩ := hds
  obtain ⟨hlookup, hpos, hne, hu⟩ := hunit
  have hn : n ≤ 0x8000000000000000 := by
    have := Nat.le_mul_of_pos_right n hpos
    omega
  have hhead : ∀ c ∈ (u ++ rest).head?, inUnit c = true := by
    intro c hc
    obtain ⟨d, u', rfl⟩ := List.exists_cons_of_ne_nil hne
    cases hc
    exact hu c List.mem_cons_self
  have hcut : (u ++ rest).takeWhile inUnit = u ∧ (u ++ rest).dropWhile inUnit = rest := by
    rw [List.takeWhile_append_of_pos hu, List.dropWhile_append_of_pos hu]
    cases rest with
    | nil => simp
    | cons c rest =>
        have hc := hrest c rfl
        simp [hc]
  -- the digits left out are zeros, so the scale that is read divides the unit as well
  obtain ⟨k, rfl⟩ := hdvd
  have hten : ∀ m, 0 < 10 ^ m := fun m => Nat.pow_pos (by omega)
  have hsplit : 10 ^ i * k = 10 ^ ds.length * (10 ^ zeros * k) := by
    rw [← hlen, Nat.pow_add, Nat.mul_assoc]
  have hworth : value ds * (10 ^ i * k / 10 ^ ds.length) = low * (10 ^ i * k / 10 ^ i) := by
    rw [Nat.mul_div_cancel_left k (hten i), hsplit, Nat.mul_div_cancel_left _ (hten ds.length),
      ← hvalue, Nat.mul_assoc]
  rw [component, number_term hn hdigits (by omega) hhead]
  simp only [Option.bind_eq_bind, Option.bind_some, hcut, hlookup]
  rw [amount_eq float hpos ⟨_, hsplit⟩ (by rw [hworth]; exact hlow) (by rw [hworth]; exact hsum),
    hworth]
  rfl

theorem component_int (float : Scaling) {n unit : Nat} {u rest : List UInt8} (hunit : IsUnit u unit)
    (hsum : n * unit ≤ 0x8000000000000000) (hrest : Fresh rest) :
    component float (fmtInt n ++ (u ++ rest)) = some (n * unit, rest) := by
  have h := component_term float (n := n) writes_nil (by omega) hunit (Nat.one_dvd unit) (by omega)
    (by omega) hrest
  simpa [point] using h

theorem component_frac (float : Scaling) {n v prec : Nat} {u rest : List UInt8} (hprec : prec ≤ 9)
    (hunit : IsUnit u (10 ^ prec)) (hsum : n * 10 ^ prec + v % 10 ^ prec ≤ 0x8000000000000000)
    (hrest : Fresh rest) :
    component float (fmtInt n ++ ((fmtFrac prec v).1 ++ (u ++ rest))) =
      some (n * 10 ^ prec + v % 10 ^ prec, rest) := by
  obtain ⟨ds, hfrac, hwrites⟩ := fmtFrac_spec prec v
  have hpos : 0 < 10 ^ prec := Nat.pow_pos (by omega)
  have hself : v % 10 ^ prec * (10 ^ prec / 10 ^ prec) = v % 10 ^ prec := by
    rw [Nat.div_self hpos, Nat.mul_one]
  have hle : 10 ^ prec ≤ 1000000000 := Nat.pow_le_pow_right (n := 10) (by omega) hprec
  have hlt : v % 10 ^ prec < 10 ^ prec := Nat.mod_lt v hpos
  have h := component_term float (n := n) hwrites hprec hunit (Nat.dvd_refl _)
    (by rw [hself]; omega) (by rw [hself]; exact hsum) hrest
  rw [hself] at h
  rw [hfrac]
  exact h

/-! ## Round trip -/

theorem fresh_nil : Fresh [] := by
  intro c hc
  cases hc

theorem fresh_fmtInt (n : Nat) (s : List UInt8) : Fresh (fmtInt n ++ s) := by
  induction n using Nat.strongRecOn generalizing s with
  | ind n ih =>
      rw [fmtInt]
      by_cases hsmall : n < 10
      · rw [if_pos hsmall]
        intro c hc
        cases hc
        simp [inUnit, isDigit_digit hsmall]
      · rw [if_neg hsmall, List.append_assoc]
        exact ih (n / 10) (by omega) _

/-- The text is read as `v` after any components before it. -/
def Reads (float : Scaling) (s : List UInt8) (v : Nat) : Prop :=
  ∀ fuel d, s.length ≤ fuel → d + v ≤ 0x8000000000000000 →
    components float fuel d s = some (d + v)

theorem reads_nil (float : Scaling) : Reads float [] 0 := by
  intro fuel d _ _
  cases fuel with
  | zero => rfl
  | succ fuel => rfl

theorem Reads.component {float : Scaling} {t rest : List UInt8} {n v : Nat}
    (hrest : Reads float rest v) (hne : t ≠ [])
    (h : component float (t ++ rest) = some (n, rest)) : Reads float (t ++ rest) (n + v) := by
  intro fuel d hfuel hsum
  obtain ⟨c, t, rfl⟩ := List.exists_cons_of_ne_nil hne
  rw [List.cons_append] at h hfuel ⊢
  cases fuel with
  | zero => exact absurd hfuel (Nat.not_succ_le_zero _)
  | succ fuel =>
      have hmod : (d + n) % 0x10000000000000000 = d + n := Nat.mod_eq_of_lt (by omega)
      have hlength : rest.length ≤ fuel := by
        rw [List.length_cons, List.length_append] at hfuel
        omega
      simp only [components, h, Option.bind_eq_bind, Option.bind_some, hmod]
      rw [if_neg (by omega), hrest fuel (d + n) hlength (by omega), Nat.add_assoc]

theorem snd_fmtFrac (prec v : Nat) : (fmtFrac prec v).2 = v / 10 ^ prec := by
  obtain ⟨ds, hfrac, -⟩ := fmtFrac_spec prec v
  rw [hfrac]

theorem append_ne_nil (n : Nat) (s : List UInt8) : fmtInt n ++ s ≠ [] := by
  intro h
  exact fmtInt_ne_nil n (List.append_eq_nil_iff.1 h).1

theorem reads_int {float : Scaling} {n v unit : Nat} {u : List UInt8} {m : Nat} {s : List UInt8}
    (hrest : Reads float (fmtInt m ++ s) v) (hunit : IsUnit u unit)
    (hn : n * unit ≤ 0x8000000000000000) :
    Reads float (fmtInt n ++ (u ++ (fmtInt m ++ s))) (n * unit + v) := by
  have h := component_int float hunit hn (fresh_fmtInt m s)
  rw [← List.append_assoc] at h ⊢
  exact hrest.component (append_ne_nil n u) h

theorem reads_frac (float : Scaling) {n v prec : Nat} {u : List UInt8} (hprec : prec ≤ 9)
    (hunit : IsUnit u (10 ^ prec)) (hn : n * 10 ^ prec + v % 10 ^ prec ≤ 0x8000000000000000) :
    Reads float (fmtInt n ++ ((fmtFrac prec v).1 ++ u)) (n * 10 ^ prec + v % 10 ^ prec) := by
  have h := component_frac float (v := v) hprec hunit hn fresh_nil
  have htext : fmtInt n ++ ((fmtFrac prec v).1 ++ (u ++ [])) =
      fmtInt n ++ ((fmtFrac prec v).1 ++ u) ++ [] := by
    simp only [List.append_nil]
  rw [htext] at h
  have hreads := (reads_nil float).component (append_ne_nil n _) h
  rw [List.append_nil] at hreads
  exact hreads

theorem reads_fmtUnit (float : Scaling) {v prec : Nat} {u : List UInt8} (hprec : prec ≤ 9)
    (hunit : IsUnit u (10 ^ prec)) (hv : v ≤ 0x8000000000000000) :
    Reads float (fmtUnit prec v u) v := by
  have hall : v / 10 ^ prec * 10 ^ prec + v % 10 ^ prec = v := Nat.div_add_mod' v (10 ^ prec)
  have h := reads_frac float (n := v / 10 ^ prec) (v := v) hprec hunit (by rw [hall]; exact hv)
  rw [hall, ← List.append_assoc] at h
  rw [fmtUnit, snd_fmtFrac]
  exact h

theorem reads_fmtClock (float : Scaling) {u : Nat} (hu : u ≤ 0x8000000000000000) :
    Reads float (fmtClock u) u := by
  have hsecs : (fmtFrac 9 u).2 = u / 1000000000 := snd_fmtFrac 9 u
  have hseconds := @reads_frac float (u / 1000000000 % 60) u 9 [115]
    (by omega) (isUnit_of_lookup rfl) (by omega)
  have hminutes := @reads_int float (u / 1000000000 / 60 % 60) _ 60000000000 [109] _ _
    hseconds (isUnit_of_lookup rfl) (by omega)
  have hhours := @reads_int float (u / 1000000000 / 60 / 60) _ 3600000000000 [104] _ _
    hminutes (isUnit_of_lookup rfl) (by omega)
  simp only [fmtClock, hsecs, List.append_assoc]
  by_cases hm : u / 1000000000 / 60 = 0
  · rw [if_pos hm]
    convert hseconds using 1
    omega
  · rw [if_neg hm]
    by_cases hh : u / 1000000000 / 60 / 60 = 0
    · rw [if_pos hh]
      convert hminutes using 1
      omega
    · rw [if_neg hh]
      convert hhours using 1
      omega

theorem reads_fmtMagnitude (float : Scaling) {u : Nat} (hu : u ≤ 0x8000000000000000) :
    Reads float (fmtMagnitude u) u := by
  rw [fmtMagnitude]
  by_cases hsecond : u < second
  · rw [if_pos hsecond]
    by_cases hzero : u = 0
    · have hzeros := @reads_fmtUnit float 0 9 [115] (by omega) (isUnit_of_lookup rfl)
        (by omega)
      rw [if_pos hzero, hzero]
      rw [fmtUnit, fmtInt] at hzeros
      exact hzeros
    rw [if_neg hzero]
    by_cases hmicro : u < microsecond
    · rw [if_pos hmicro]
      exact reads_fmtUnit float (by omega) (isUnit_of_lookup rfl) hu
    rw [if_neg hmicro]
    by_cases hmilli : u < millisecond
    · rw [if_pos hmilli]
      exact reads_fmtUnit float (by omega) (isUnit_of_lookup rfl) hu
    · rw [if_neg hmilli]
      exact reads_fmtUnit float (by omega) (isUnit_of_lookup rfl) hu
  · rw [if_neg hsecond]
    exact reads_fmtClock float hu

theorem fmtMagnitude_eq_append (u : Nat) : ∃ n s, fmtMagnitude u = fmtInt n ++ s := by
  rw [fmtMagnitude]
  split_ifs
  · exact ⟨0, [115], by rw [fmtInt]; rfl⟩
  · exact ⟨_, _, List.append_assoc _ _ _⟩
  · exact ⟨_, _, List.append_assoc _ _ _⟩
  · exact ⟨_, _, List.append_assoc _ _ _⟩
  · simp only [fmtClock, List.append_assoc]
    split_ifs
    · exact ⟨_, _, rfl⟩
    · exact ⟨_, _, rfl⟩
    · exact ⟨_, _, rfl⟩

theorem parseMagnitude_fmtMagnitude (float : Scaling) {u : Nat} (hu : u ≤ 0x8000000000000000) :
    parseMagnitude float (fmtMagnitude u) = some u := by
  have hread := reads_fmtMagnitude float hu (fmtMagnitude u).length 0 (Nat.le_refl _) (by omega)
  rw [Nat.zero_add] at hread
  obtain ⟨n, s, htext⟩ := fmtMagnitude_eq_append u
  have hne : fmtMagnitude u ≠ [] := by
    rw [htext]
    exact append_ne_nil n s
  -- a zero alone has no unit, and what was written is read with one
  have hzero : fmtMagnitude u ≠ [48] := by
    intro h
    rw [h] at hread
    cases hread
  rw [parseMagnitude, if_neg hzero, if_neg hne, hread]

theorem head?_fmtMagnitude (u : Nat) {c : UInt8} (hc : inUnit c = true) :
    (fmtMagnitude u).head? ≠ some c := by
  obtain ⟨n, s, htext⟩ := fmtMagnitude_eq_append u
  intro h
  rw [htext] at h
  rw [fresh_fmtInt n s c h] at hc
  cases hc

/-- What is written of a 64-bit duration is read back. -/
theorem parse_format (float : Scaling) {d : Int} (hmin : -0x8000000000000000 ≤ d)
    (hmax : d < 0x8000000000000000) : parse float (format d) = some d := by
  have hread := parseMagnitude_fmtMagnitude float (u := d.natAbs) (by omega)
  rw [format, parse]
  by_cases hneg : d < 0
  · rw [if_pos hneg, List.head?_cons, if_pos rfl, List.tail_cons, hread]
    show some (-(d.natAbs : Int)) = some d
    congr 1
    omega
  · have hminus := head?_fmtMagnitude d.natAbs (c := 45) (by decide)
    have hplus := head?_fmtMagnitude d.natAbs (c := 43) (by decide)
    rw [if_neg hneg, if_neg hminus, if_neg hplus, hread]
    simp only [Option.bind_eq_bind, Option.bind_some]
    rw [if_neg (by omega)]
    congr 1
    omega

/-! ## The bytes of a text -/

/-- Digits, the point and the letters of the units. -/
def inText (c : UInt8) : Bool :=
  isDigit c || c == 46 || c == 104 || c == 109 || c == 110 || c == 115 || c == 0xC2 || c == 0xB5

theorem inText_of_isDigit {c : UInt8} (h : isDigit c = true) : inText c = true := by
  simp [inText, h]

theorem inText_fmtInt (n : Nat) : ∀ c ∈ fmtInt n, inText c = true := by
  induction n using Nat.strongRecOn with
  | ind n ih =>
      intro c hc
      rw [fmtInt] at hc
      by_cases hsmall : n < 10
      · rw [if_pos hsmall, List.mem_singleton] at hc
        rw [hc]
        exact inText_of_isDigit (isDigit_digit hsmall)
      · rw [if_neg hsmall, List.mem_append, List.mem_singleton] at hc
        rcases hc with hc | rfl
        · exact ih (n / 10) (by omega) c hc
        · exact inText_of_isDigit (isDigit_digit (by omega))

theorem inText_fmtFrac (prec v : Nat) : ∀ c ∈ (fmtFrac prec v).1, inText c = true := by
  obtain ⟨ds, hfrac, hds, -⟩ := fmtFrac_spec prec v
  rw [hfrac]
  intro c hc
  change c ∈ point ds at hc
  rw [point] at hc
  by_cases hnil : ds = []
  · rw [if_pos hnil] at hc
    cases hc
  · rw [if_neg hnil, List.mem_cons] at hc
    rcases hc with rfl | hc
    · rfl
    · exact inText_of_isDigit (hds c hc)

theorem inText_append {s t : List UInt8} (hs : ∀ c ∈ s, inText c = true)
    (ht : ∀ c ∈ t, inText c = true) : ∀ c ∈ s ++ t, inText c = true := by
  intro c hc
  rcases List.mem_append.1 hc with hc | hc
  · exact hs c hc
  · exact ht c hc

theorem inText_fmtUnit (prec v : Nat) {u : List UInt8} (hu : ∀ c ∈ u, inText c = true) :
    ∀ c ∈ fmtUnit prec v u, inText c = true :=
  inText_append (inText_append (inText_fmtInt _) (inText_fmtFrac prec v)) hu

theorem inText_fmtMagnitude (u : Nat) : ∀ c ∈ fmtMagnitude u, inText c = true := by
  have hletter : ∀ l ∈ [[104], [109], [115], [110, 115], [0xC2, 0xB5, 115], [109, 115]],
      ∀ c ∈ l, inText c = true := by simp [inText]
  have hseconds : ∀ n, ∀ c ∈ fmtInt n ++ (fmtFrac 9 u).1 ++ [115], inText c = true :=
    fun n => inText_append (inText_append (inText_fmtInt n) (inText_fmtFrac 9 u))
      (hletter [115] (by simp))
  have hminutes : ∀ m n, ∀ c ∈ fmtInt m ++ [109] ++ (fmtInt n ++ (fmtFrac 9 u).1 ++ [115]),
      inText c = true :=
    fun m n => inText_append (inText_append (inText_fmtInt m) (hletter [109] (by simp)))
      (hseconds n)
  rw [fmtMagnitude]
  split_ifs
  · simp [inText, isDigit]
  · exact inText_fmtUnit 0 u (hletter [110, 115] (by simp))
  · exact inText_fmtUnit 3 u (hletter [0xC2, 0xB5, 115] (by simp))
  · exact inText_fmtUnit 6 u (hletter [109, 115] (by simp))
  · simp only [fmtClock]
    split_ifs
    · exact hseconds _
    · exact hminutes _ _
    · exact inText_append (inText_append (inText_fmtInt _) (hletter [104] (by simp)))
        (hminutes _ _)

end DurationText
