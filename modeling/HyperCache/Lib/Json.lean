/-
JSON documents as trees, and what a Go struct or map takes from one.

A map of members is keyed by the exact name.  A struct field takes the member whose
name matches up to case.  Of several such members the last one counts.  A missing
member and a null leave the zero value, and a member of another shape is an error.
-/
import Mathlib.Data.UInt

namespace Encoding

/-- A JSON document.  `real` is a number literal that is not an integer. -/
inductive Json where
  | null
  | bool (b : Bool)
  | num (n : Int)
  | real (literal : List UInt8)
  | str (s : List UInt8)
  | arr (elems : List Json)
  | obj (members : List (String × Json))

namespace Json

def equalFold (a b : String) : Bool :=
  a.toList.map Char.toLower == b.toList.map Char.toLower

/-- The member a Go map holds under a name. -/
def member (name : String) (members : List (String × Json)) : Option Json :=
  (members.reverse.find? (fun m => m.1 == name)).map (·.2)

/-- The member a Go struct reads a field from. -/
def field (name : String) (members : List (String × Json)) : Option Json :=
  (members.reverse.find? (fun m => equalFold m.1 name)).map (·.2)

def readBool : Option Json → Option Bool
  | none => some false
  | some .null => some false
  | some (.bool b) => some b
  | some _ => none

def readString : Option Json → Option (List UInt8)
  | none => some []
  | some .null => some []
  | some (.str s) => some s
  | some _ => none

def readInt64 : Option Json → Option Int
  | none => some 0
  | some .null => some 0
  | some (.num n) =>
      if -0x8000000000000000 ≤ n ∧ n ≤ 0x7fffffffffffffff then some n else none
  | some _ => none

def readUint64 : Option Json → Option UInt64
  | none => some 0
  | some .null => some 0
  | some (.num n) =>
      if 0 ≤ n ∧ n ≤ 0xffffffffffffffff then some (UInt64.ofNat n.toNat) else none
  | some _ => none

theorem readInt64_num {n : Int} (h : -0x8000000000000000 ≤ n ∧ n ≤ 0x7fffffffffffffff) :
    readInt64 (some (.num n)) = some n :=
  if_pos h

theorem readUint64_num (v : UInt64) : readUint64 (some (.num v.toNat)) = some v := by
  have hlt : v.toNat < 18446744073709551616 := v.toNat_lt
  rw [readUint64, if_pos ⟨by omega, by omega⟩, Int.toNat_natCast, UInt64.ofNat_toNat]

end Json

end Encoding
