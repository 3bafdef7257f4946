/-
Standard base64 with padding.

Three bytes are four digits of six bits.  One or two bytes left at the end are padded
to four characters.  The decoder skips line ends and ignores the bits of the last
digit that no byte needs.
-/
import Mathlib.Data.UInt

namespace Encoding
namespace Base64

def pad : UInt8 := 61

def digit (n : Nat) : UInt8 :=
  if n < 26 then UInt8.ofNat (65 + n)
  else if n < 52 then UInt8.ofNat (71 + n)
  else if n < 62 then UInt8.ofNat (n - 4)
  else if n = 62 then 43
  else 47

def ofDigit (c : UInt8) : Option Nat :=
  if 65 ≤ c ∧ c ≤ 90 then some (c.toNat - 65)
  else if 97 ≤ c ∧ c ≤ 122 then some (c.toNat - 71)
  else if 48 ≤ c ∧ c ≤ 57 then some (c.toNat + 4)
  else if c = 43 then some 62
  else if c = 47 then some 63
  else none

/-- The number whose bytes are given, the first one on top. -/
def bits (a b c : UInt8) : Nat := a.toNat * 65536 + b.toNat * 256 + c.toNat

def encode : List UInt8 → List UInt8
  | [] => []
  | [a] => [digit (bits a 0 0 / 262144), digit (bits a 0 0 / 4096 % 64), pad, pad]
  | [a, b] =>
      [digit (bits a b 0 / 262144), digit (bits a b 0 / 4096 % 64), digit (bits a b 0 / 64 % 64),
        pad]
  | a :: b :: c :: rest =>
      digit (bits a b c / 262144) :: digit (bits a b c / 4096 % 64) ::
        digit (bits a b c / 64 % 64) :: digit (bits a b c % 64) :: encode rest

/-- Four digits, of which there may be less at the end. -/
def decodeQuantum (a b c d : UInt8) : Option (List UInt8) := do
  let p ← ofDigit a
  let q ← ofDigit b
  let r ← ofDigit c
  let s ← ofDigit d
  let n := p * 262144 + q * 4096 + r * 64 + s
  some [UInt8.ofNat (n / 65536), UInt8.ofNat (n / 256), UInt8.ofNat n]

def decodeLast (a b c d : UInt8) : Option (List UInt8) :=
  if c = pad ∧ d = pad then do
    let p ← ofDigit a
    let q ← ofDigit b
    some [UInt8.ofNat ((p * 262144 + q * 4096) / 65536)]
  else if d = pad then do
    let p ← ofDigit a
    let q ← ofDigit b
    let r ← ofDigit c
    let n := p * 262144 + q * 4096 + r * 64
    some [UInt8.ofNat (n / 65536), UInt8.ofNat (n / 256)]
  else decodeQuantum a b c d

def decodeQuanta : List UInt8 → Option (List UInt8)
  | [] => some []
  | a :: b :: c :: d :: rest =>
      if rest.isEmpty then decodeLast a b c d
      else do
        let bytes ← decodeQuantum a b c d
        let more ← decodeQuanta rest
        some (bytes ++ more)
  | _ => none

def isLineEnd (c : UInt8) : Bool := c == 10 || c == 13

def decode (s : List UInt8) : Option (List UInt8) :=
  decodeQuanta (s.filter fun c => !isLineEnd c)

/-! ## Round trip -/

theorem ofDigit_digit {n : Nat} (h : n < 64) : ofDigit (digit n) = some n := by
  have hall : ∀ n : Fin 64, ofDigit (digit n) = some n.val := by decide
  exact hall ⟨n, h⟩

/-- A character of an encoding is printable and no line end. -/
def Printable (c : UInt8) : Prop := c < 0x80 ∧ isLineEnd c = false

theorem printable_digit {n : Nat} (h : n < 64) : Printable (digit n) := by
  have hall : ∀ n : Fin 64, digit n < 0x80 ∧ isLineEnd (digit n) = false := by decide
  exact hall ⟨n, h⟩

theorem digit_ne_pad {n : Nat} (h : n < 64) : digit n ≠ pad := by
  have hall : ∀ n : Fin 64, digit n ≠ pad := by decide
  exact hall ⟨n, h⟩

theorem bits_lt (a b c : UInt8) : bits a b c < 16777216 := by
  have ha := a.toNat_lt
  have hb := b.toNat_lt
  have hc := c.toNat_lt
  unfold bits
  omega

theorem ofNat_eq {n : Nat} {a : UInt8} (h : n % 256 = a.toNat) : UInt8.ofNat n = a := by
  refine UInt8.toNat_inj.mp ?_
  rw [UInt8.toNat_ofNat']
  exact h

theorem decodeQuantum_digits (a b c : UInt8) :
    decodeQuantum (digit (bits a b c / 262144)) (digit (bits a b c / 4096 % 64))
      (digit (bits a b c / 64 % 64)) (digit (bits a b c % 64)) = some [a, b, c] := by
  have hlt := bits_lt a b c
  rw [decodeQuantum, ofDigit_digit (by omega), ofDigit_digit (by omega), ofDigit_digit (by omega),
    ofDigit_digit (by omega)]
  have hn : bits a b c / 262144 * 262144 + bits a b c / 4096 % 64 * 4096 +
      bits a b c / 64 % 64 * 64 + bits a b c % 64 = bits a b c := by
    omega
  have ha := a.toNat_lt
  have hb := b.toNat_lt
  have hc := c.toNat_lt
  simp only [Option.bind_eq_bind, Option.bind_some, hn]
  refine congrArg some ?_
  rw [ofNat_eq (a := a), ofNat_eq (a := b), ofNat_eq (a := c)]
  all_goals
    unfold bits
    omega

theorem decodeLast_one (a : UInt8) :
    decodeLast (digit (bits a 0 0 / 262144)) (digit (bits a 0 0 / 4096 % 64)) pad pad =
      some [a] := by
  have hlt := bits_lt a 0 0
  have ha := a.toNat_lt
  rw [decodeLast, if_pos ⟨rfl, rfl⟩, ofDigit_digit (by omega), ofDigit_digit (by omega)]
  simp only [Option.bind_eq_bind, Option.bind_some]
  rw [ofNat_eq (a := a)]
  have hbits : bits a 0 0 = a.toNat * 65536 := by simp [bits]
  omega

theorem decodeLast_two (a b : UInt8) :
    decodeLast (digit (bits a b 0 / 262144)) (digit (bits a b 0 / 4096 % 64))
      (digit (bits a b 0 / 64 % 64)) pad = some [a, b] := by
  have hlt := bits_lt a b 0
  have ha := a.toNat_lt
  have hb := b.toNat_lt
  rw [decodeLast, if_neg (fun h => digit_ne_pad (by omega) h.1), if_pos rfl,
    ofDigit_digit (by omega), ofDigit_digit (by omega), ofDigit_digit (by omega)]
  have hbits : bits a b 0 = a.toNat * 65536 + b.toNat * 256 := by simp [bits]
  simp only [Option.bind_eq_bind, Option.bind_some]
  rw [ofNat_eq (a := a), ofNat_eq (a := b)] <;> omega

theorem encode_ne_nil {bs : List UInt8} (h : bs ≠ []) : encode bs ≠ [] := by
  match bs with
  | [a] => nofun
  | [a, b] => nofun
  | a :: b :: c :: rest => nofun

theorem decodeQuanta_encode (bs : List UInt8) : decodeQuanta (encode bs) = some bs := by
  fun_induction encode bs with
  | case1 => rfl
  | case2 a =>
      rw [decodeQuanta, if_pos List.isEmpty_nil]
      exact decodeLast_one a
  | case3 a b =>
      rw [decodeQuanta, if_pos List.isEmpty_nil]
      exact decodeLast_two a b
  | case4 a b c rest ih =>
      rw [decodeQuanta]
      split
      case isTrue hempty =>
        have hrest : rest = [] := by
          by_contra hne
          exact encode_ne_nil hne (List.isEmpty_iff.mp hempty)
        subst hrest
        have hlt := bits_lt a b c
        rw [decodeLast, if_neg (fun h => digit_ne_pad (by omega) h.1),
          if_neg (digit_ne_pad (by omega))]
        exact decodeQuantum_digits a b c
      case isFalse hmore =>
        rw [decodeQuantum_digits, ih]
        simp only [Option.bind_eq_bind, Option.bind_some, List.cons_append, List.nil_append]

theorem printable_encode (bs : List UInt8) : ∀ c ∈ encode bs, Printable c := by
  have hpad : Printable pad := ⟨by decide, by decide⟩
  fun_induction encode bs with
  | case1 => exact fun c hc => absurd hc List.not_mem_nil
  | case2 a =>
      have hlt := bits_lt a 0 0
      simp only [List.forall_mem_cons]
      exact ⟨printable_digit (by omega), printable_digit (by omega), hpad, hpad,
        fun c hc => absurd hc List.not_mem_nil⟩
  | case3 a b =>
      have hlt := bits_lt a b 0
      simp only [List.forall_mem_cons]
      exact ⟨printable_digit (by omega), printable_digit (by omega), printable_digit (by omega),
        hpad, fun c hc => absurd hc List.not_mem_nil⟩
  | case4 a b c rest ih =>
      have hlt := bits_lt a b c
      simp only [List.forall_mem_cons]
      exact ⟨printable_digit (by omega), printable_digit (by omega), printable_digit (by omega),
        printable_digit (by omega), ih⟩

theorem length_encode (bs : List UInt8) : (encode bs).length = 4 * ((bs.length + 2) / 3) := by
  fun_induction encode bs with
  | case1 => rfl
  | case2 a => simp
  | case3 a b => simp
  | case4 a b c rest ih =>
      simp only [List.length_cons, ih]
      omega

theorem decode_encode (bs : List UInt8) : decode (encode bs) = some bs := by
  have hfilter : (encode bs).filter (fun c => !isLineEnd c) = encode bs := by
    refine List.filter_eq_self.mpr (fun c hc => ?_)
    rw [(printable_encode bs c hc).2]
    rfl
  rw [decode, hfilter]
  exact decodeQuanta_encode bs

end Base64
end Encoding
