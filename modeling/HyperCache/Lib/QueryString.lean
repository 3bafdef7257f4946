/-
The target of a request: a path, and after the first question mark a query.

`escapeSegment` writes bytes as one segment of a path, `inPath` and `plain` say which bytes
stand for themselves in a path and in an argument of a query, and `Reads` what a reader of
targets has to do on them.
-/
import Mathlib.Data.List.TakeWhile
import Mathlib.Data.UInt
import Mathlib.Tactic.IntervalCases

namespace QueryString

def hexDigit (n : Nat) : UInt8 := if n < 10 then UInt8.ofNat (48 + n) else UInt8.ofNat (55 + n)

/-! ## The path -/

/-- The bytes a segment is written with as they are: letters, digits and `-_.~$&+=:@`. -/
def inSegment (c : UInt8) : Bool :=
  decide (97 ≤ c ∧ c ≤ 122) || decide (65 ≤ c ∧ c ≤ 90) || decide (48 ≤ c ∧ c ≤ 57) ||
    c == 45 || c == 95 || c == 46 || c == 126 || c == 36 || c == 38 || c == 43 || c == 61 ||
    c == 58 || c == 64

/-- `url.PathEscape`. -/
def escapeSegment (s : List UInt8) : List UInt8 :=
  s.flatMap fun c =>
    if inSegment c then [c] else [37, hexDigit (c.toNat / 16), hexDigit (c.toNat % 16)]

/-- The bytes that end neither a path nor what comes before a fragment. -/
def inPath (c : UInt8) : Bool := c != 63 && c != 35

theorem inPath_hexDigit {n : Nat} (h : n < 16) : inPath (hexDigit n) = true := by
  interval_cases n <;> decide

theorem inPath_escapeSegment (s : List UInt8) : ∀ c ∈ escapeSegment s, inPath c = true := by
  intro c hc
  rw [escapeSegment, List.mem_flatMap] at hc
  obtain ⟨d, -, hc⟩ := hc
  have hd : d.toNat < 256 := d.toNat_lt
  by_cases hkeep : inSegment d = true
  · rw [if_pos hkeep, List.mem_singleton] at hc
    subst hc
    simp only [inPath, Bool.and_eq_true, bne_iff_ne, ne_eq]
    refine ⟨?_, ?_⟩
    all_goals
      rintro rfl
      exact absurd hkeep (by decide)
  · rw [if_neg hkeep] at hc
    simp only [List.mem_cons, List.not_mem_nil, or_false] at hc
    rcases hc with rfl | rfl | rfl
    · decide
    · exact inPath_hexDigit (by omega)
    · exact inPath_hexDigit (by omega)

/-! ## The query -/

/-- The bytes that stand for themselves in an argument: not `%`, `&`, `+` or `#`. -/
def plain (c : UInt8) : Bool := c != 37 && c != 38 && c != 43 && c != 35

/-- What a reader of targets makes of a path and one argument: the route depends on the path
only, and the value of the argument is what stands after the equals sign. -/
structure Reads {K : Type} (route : List UInt8 → K)
    (query : List UInt8 → List UInt8 → List UInt8) : Prop where
  route_append : ∀ p q, (∀ c ∈ p, inPath c = true) → route (p ++ 63 :: q) = route p
  query_single : ∀ p name value, (∀ c ∈ p, inPath c = true) →
    (∀ c ∈ name, plain c = true ∧ c ≠ 61) → (∀ c ∈ value, plain c = true) →
    query name (p ++ 63 :: (name ++ 61 :: value)) = value

/-- A reader that splits at the question mark and takes the argument to be the one asked for. -/
theorem reads_split {K : Type} (f : List UInt8 → K) :
    Reads (fun target => f (target.takeWhile (· != 63)))
      fun name target => (target.dropWhile (· != 63)).drop (name.length + 2) where
  route_append p q hp := by
    have hmark : ∀ c ∈ p, (c != 63) = true := fun c hc => (Bool.and_eq_true_iff.mp (hp c hc)).1
    simp only [List.takeWhile_append_of_pos hmark, List.takeWhile_eq_self_iff.2 hmark]
    simp
  query_single p name value hp _ _ := by
    have hmark : ∀ c ∈ p, (c != 63) = true := fun c hc => (Bool.and_eq_true_iff.mp (hp c hc)).1
    rw [List.dropWhile_append_of_pos hmark]
    simp [List.drop_append]

end QueryString
