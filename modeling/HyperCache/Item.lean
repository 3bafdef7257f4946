/-
Cache items, clocks and the errors the cache reports.

Everything in the repository moves `cache.Item` records around, so the record
keeps every field of the source.  A Go string is a sequence of bytes and is
compared bytewise, which is the lexicographic order on `Str`.  Node identifiers
and item origins are strings too, and the code converts between the two freely.
-/
import HyperCache.Lib.MachineOrder

namespace HyperCache

/-- A Go string: its bytes, compared bytewise. -/
abbrev Str := List UInt8

abbrev Key := Str

abbrev NodeID := Str

/-- A clock reading, in nanoseconds. -/
abbrev Time := Int

abbrev Duration := Int

def maxDuration : Duration := 0x7fffffffffffffff

def minDuration : Duration := -0x8000000000000000

/-- `Time.Sub`, which saturates at the ends of the `int64` range. -/
def Time.sub (t u : Time) : Duration :=
  max minDuration (min maxDuration (t - u))

/-- The sentinel errors of the modelled paths.  `overflow` is what a checked integer conversion
reports and `wrapped` is an error with a message before it. -/
inductive Err where
  | invalidKey
  | nilValue
  | invalidExpiration
  | invalidSize
  | invalidCapacity
  | cacheFull
  | keyExpired
  | paramCannotBeEmpty
  | algorithmNotFound
  | overflow
  | invalidSortField (field : String)
  | notOwner
  | quorumFailed
  | draining
  | backendNotFound
  | noTransport
  | wrapped (err : Err) (msg : String)
  deriving DecidableEq, Repr

/-- A cached item.  `value` is `none` for a nil interface.  `version` and
`origin` are the pair that distributed conflict resolution compares. -/
structure Item (V : Type) where
  key : Key
  value : Option V
  lastAccess : Time := 0
  lastUpdated : Time := 0
  size : Int := 0
  expiration : Duration := 0
  accessCount : UInt32 := 0
  version : UInt64 := 0
  origin : Str := []
  deriving DecidableEq

/-- `strings.TrimSpace(s) == ""`: the string is a run of UTF-8 encoded white
space.  The multi-byte cases are the code points of `unicode.IsSpace` beyond
ASCII.  A byte that starts no white space rune survives the trim. -/
def trimsToEmpty : Str → Bool
  | [] => true
  | 0x09 :: s | 0x0A :: s | 0x0B :: s | 0x0C :: s | 0x0D :: s | 0x20 :: s => trimsToEmpty s
  | 0xC2 :: b :: s => (b == 0x85 || b == 0xA0) && trimsToEmpty s
  | 0xE1 :: 0x9A :: 0x80 :: s => trimsToEmpty s
  | 0xE2 :: 0x80 :: b :: s =>
      ((0x80 ≤ b && b ≤ 0x8A) || b == 0xA8 || b == 0xA9 || b == 0xAF) && trimsToEmpty s
  | 0xE2 :: 0x81 :: 0x9F :: s => trimsToEmpty s
  | 0xE3 :: 0x80 :: 0x80 :: s => trimsToEmpty s
  | _ => false

namespace Item

variable {V : Type}

/-- `Item.Valid`: the error the item is refused with, if any. -/
def valid (it : Item V) : Option Err :=
  if trimsToEmpty it.key then some .invalidKey
  else if it.value.isNone then some .nilValue
  else if it.expiration < 0 then some .invalidExpiration
  else none

def touch (now : Time) (it : Item V) : Item V :=
  { it with lastAccess := now, accessCount := it.accessCount + 1 }

/-- The test the expiration pass filters with, and `Item.Expired`. -/
def expired (now : Time) (it : Item V) : Bool :=
  decide (it.expiration > 0) && decide (Time.sub now it.lastAccess > it.expiration)

end Item

/-- Sizes of cached values.  `valueSize` is what `approxHintSize` counts for a
value: its length for a string or a byte slice, and the length of its JSON
encoding otherwise. -/
class SizedValue (V : Type) where
  valueSize : V → Nat

instance : SizedValue Str where
  valueSize := List.length

end HyperCache
