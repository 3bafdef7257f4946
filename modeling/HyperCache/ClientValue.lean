/-
A value between the clients of two nodes.

A client puts bytes.  The transport writes a value as JSON, where bytes are a base64
string, so that a forwarded set leaves the string with the receiver and a get leaves
the raw document with the reader.  The API tries to turn both back into the bytes when
it answers.  The text it finds is the same after every further hop.

`text` is what a Go string reads as once it went through JSON, and `render` writes a
document out.
-/
import HyperCache.HTTPTransport
import HyperCache.Lib.Base64

namespace HyperCache

open Encoding

/-- A stored value by its Go type.  `other` is a value of any other type, as the document it
marshals to. -/
inductive Value where
  | bytes (b : Str)
  | str (s : Str)
  | raw (doc : Json)
  | other (doc : Json)

/-- The JSON library on values of type `any`. -/
def anyCodec (text : Str → Str) (formatTime : Time → Str) : Codec Value where
  text := text
  formatTime := formatTime
  encode := fun
    | .bytes b => .str (Base64.encode b)
    | .str s => .str (text s)
    | .raw doc => doc
    | .other doc => doc
  ofAny := fun
    | .null => none
    | .str s => some (.str s)
    | doc => some (.other doc)
  ofRaw := .raw

/-! ## Answering a client -/

def decodeBase64Bytes (s : Str) : Option Str :=
  if s.length < 4 ∨ s.length % 4 ≠ 0 then none
  else
    match Base64.decode s with
    | none => none
    | some out => if out.length = 0 then none else some out

section

variable (render : Json → Str)

def itemValueAsBytes : Option Value → Str
  | some (.bytes x) => x
  | some (.str x) =>
      match decodeBase64Bytes x with
      | some decoded => decoded
      | none => x
  | some (.raw x) =>
      match Json.readString (some x) with
      | some s =>
          match decodeBase64Bytes s with
          | some decoded => decoded
          | none => s
      | none => render x
  | some (.other doc) => render doc
  | none => render .null

inductive ContentType where
  | octetStream
  | json
  deriving DecidableEq, Repr

/-- What is sent to the client. -/
structure Response where
  contentType : ContentType
  body : Str

def writeRawJSON (raw : Json) : Response :=
  match Json.readString (some raw) with
  | some s =>
      match decodeBase64Bytes s with
      | some decoded => ⟨.octetStream, decoded⟩
      | none => ⟨.octetStream, s⟩
  | none => ⟨.json, render raw⟩

def writeValue : Option Value → Response
  | some (.bytes x) => ⟨.octetStream, x⟩
  | some (.str x) =>
      match decodeBase64Bytes x with
      | some decoded => ⟨.octetStream, decoded⟩
      | none => ⟨.octetStream, x⟩
  | some (.raw x) => writeRawJSON render x
  | some (.other doc) => ⟨.json, render doc⟩
  | none => ⟨.json, render .null⟩

/-- The single-key and the batch responses agree on every value. -/
theorem body_writeValue (v : Option Value) :
    (writeValue render v).body = itemValueAsBytes render v := by
  match v with
  | none => rfl
  | some (.bytes x) => rfl
  | some (.str x) =>
      rw [writeValue, itemValueAsBytes]
      cases decodeBase64Bytes x <;> rfl
  | some (.raw x) =>
      rw [writeValue, itemValueAsBytes, writeRawJSON]
      cases Json.readString (some x) with
      | none => rfl
      | some s =>
          dsimp only
          cases decodeBase64Bytes s <;> rfl
  | some (.other doc) => rfl

end

/-- Only the empty string is no base64 of its own bytes for the API, and it is its own bytes. -/
theorem decodeBase64Bytes_encode (b : Str) :
    decodeBase64Bytes (Base64.encode b) = if b = [] then none else some b := by
  have hlength := Base64.length_encode b
  rw [decodeBase64Bytes, Base64.decode_encode]
  by_cases hb : b = []
  · subst hb
    rfl
  · have hpos := List.length_pos_of_ne_nil hb
    rw [if_neg (by omega), if_neg hb]
    exact if_neg (by omega)

/-! ## Hops -/

/-- A transfer of an item to another node. -/
inductive Hop where
  | forwardSet (replicate : Bool) (net : Net)
  | forwardGet (net : Net)

namespace Hop

variable {V : Type} (J : Codec V)

/-- The item at the other end: what `handleSet` makes of the request of `ForwardSet`, or
`decodeGetBody` of the reply of `handleGet`. -/
def transfer (it : Item V) : Hop → Option (Item V)
  | .forwardSet replicate net =>
      (SetRequest.unmarshal J ((SetRequest.ofItem it replicate).marshal J)).map
        (SetRequest.item net.now)
  | .forwardGet net =>
      (decodeGetBody J net.now (.obj [("found", .bool true), ("item", it.marshal J)])).join

def result (it : Item V) : Hop → Item V
  | .forwardSet _ net => carried J net it
  | .forwardGet net => fetched J net it

theorem transfer_eq {it : Item V} (h : Int64Range it.expiration) (hop : Hop) :
    hop.transfer J it = some (hop.result J it) := by
  cases hop with
  | forwardSet replicate net =>
      rw [transfer, SetRequest.unmarshal_marshal J _ (int64Range_milliseconds h)]
      rfl
  | forwardGet net =>
      rw [transfer, decodeGetBody_marshal J net it h]
      rfl

theorem int64Range_ofMilliseconds (ms : Int) : Int64Range (Duration.ofMilliseconds ms) := by
  have hlo := Int.le_bmod (x := ms * millisecond) (m := 0x10000000000000000) (by decide)
  have hhi := Int.bmod_lt (x := ms * millisecond) (m := 0x10000000000000000) (by decide)
  unfold Int64Range Duration.ofMilliseconds
  omega

theorem int64Range_result (it : Item V) (hop : Hop) :
    Int64Range (hop.result J it).expiration := by
  cases hop with
  | forwardSet replicate net => exact int64Range_ofMilliseconds _
  | forwardGet net => exact int64Range_ofMilliseconds _

end Hop

/-- The forms a value takes that was put as bytes. -/
inductive Carries (b : Str) : Option Value → Prop where
  | bytes : Carries b (some (.bytes b))
  | str : Carries b (some (.str (Base64.encode b)))
  | raw : Carries b (some (.raw (.str (Base64.encode b))))

namespace Carries

variable {text : Str → Str} {formatTime : Time → Str} {b : Str} {v : Option Value}

theorem value_eq (htext : ∀ s : Str, (∀ c ∈ s, c < 0x80) → text s = s) (h : Carries b v) :
    (anyCodec text formatTime).value v = .str (Base64.encode b) := by
  cases h with
  | bytes => rfl
  | str =>
      have hascii : text (Base64.encode b) = Base64.encode b :=
        htext _ fun c hc => (Base64.printable_encode b c hc).1
      exact congrArg Json.str hascii
  | raw => rfl

theorem result (htext : ∀ s : Str, (∀ c ∈ s, c < 0x80) → text s = s) {it : Item Value}
    (h : Carries b it.value) (hop : Hop) :
    Carries b (hop.result (anyCodec text formatTime) it).value := by
  have hvalue : (anyCodec text formatTime).value it.value = .str (Base64.encode b) :=
    h.value_eq htext
  cases hop with
  | forwardSet replicate net =>
      show Carries b ((anyCodec text formatTime).ofAny _)
      rw [hvalue]
      exact .str
  | forwardGet net =>
      show Carries b (some ((anyCodec text formatTime).ofRaw _))
      rw [hvalue]
      exact .raw

/-- The text of the bytes is read back, by its base64 or, when there are none, as it is. -/
theorem writeValue_eq (render : Json → Str) (h : Carries b v) :
    writeValue render v = ⟨.octetStream, b⟩ := by
  have hdecode := decodeBase64Bytes_encode b
  cases h with
  | bytes => rfl
  | str =>
      rw [writeValue, hdecode]
      by_cases hb : b = []
      · subst hb
        rfl
      · rw [if_neg hb]
  | raw =>
      rw [writeValue, writeRawJSON, Json.readString]
      dsimp only
      rw [hdecode]
      by_cases hb : b = []
      · subst hb
        rfl
      · rw [if_neg hb]

end Carries

/-- Bytes that a client put reach the client of every node behind any chain of hops, through the
single-key and the batch responses, where JSON keeps ASCII strings. -/
theorem put_bytes_through_hops {text : Str → Str} {formatTime : Time → Str}
    (htext : ∀ s : Str, (∀ c ∈ s, c < 0x80) → text s = s) (render : Json → Str)
    {it : Item Value} {b : Str} (hput : it.value = some (.bytes b))
    (hexp : Int64Range it.expiration) (hops : List Hop) :
    ∃ it', hops.foldlM (Hop.transfer (anyCodec text formatTime)) it = some it' ∧
      itemValueAsBytes render it'.value = b ∧
      writeValue render it'.value = ⟨.octetStream, b⟩ := by
  have hchain : ∀ (hops : List Hop) (it : Item Value), Carries b it.value →
      Int64Range it.expiration →
        ∃ it', hops.foldlM (Hop.transfer (anyCodec text formatTime)) it = some it' ∧
          Carries b it'.value := by
    intro hops
    induction hops with
    | nil => exact fun it hcarries _ => ⟨it, rfl, hcarries⟩
    | cons hop rest ih =>
        intro it hcarries hrange
        obtain ⟨it', hrest, hend⟩ := ih (hop.result (anyCodec text formatTime) it)
          (hcarries.result htext hop) (Hop.int64Range_result _ it hop)
        refine ⟨it', ?_, hend⟩
        rw [List.foldlM_cons, Hop.transfer_eq _ hrange]
        exact hrest
  obtain ⟨it', hrun, hcarries⟩ := hchain hops it (hput ▸ .bytes) hexp
  have hwrite := hcarries.writeValue_eq render
  refine ⟨it', hrun, ?_, hwrite⟩
  rw [← body_writeValue, hwrite]

/-- `world`, put at one node, replicated, fetched and forwarded again. -/
def putWorld : Item Value := { key := [107], value := some (.bytes [119, 111, 114, 108, 100]) }

def threeHops : List Hop :=
  [.forwardSet false World.allUp, .forwardGet World.allUp, .forwardSet true World.allUp]

theorem put_bytes_through_three_hops :
    ∃ it', threeHops.foldlM (Hop.transfer (anyCodec (fun s => s) fun _ => [])) putWorld = some it' ∧
      itemValueAsBytes (fun _ => []) it'.value = [119, 111, 114, 108, 100] ∧
      writeValue (fun _ => []) it'.value = ⟨.octetStream, [119, 111, 114, 108, 100]⟩ := by
  refine put_bytes_through_hops (fun _ _ => rfl) (fun _ => []) rfl ?_ threeHops
  unfold Int64Range
  decide

end HyperCache
