/-
The client: its endpoints, how a request walks through them, and topology refreshes.

A request asks the endpoints of the current view in a random order.  A refresh replaces
the view by the addresses of the members, and the seeds are used again only while there
is no view.  Of the errors of a walk the client keeps the last one.
-/
import Mathlib.Data.List.GetD
import HyperCache.Item
import HyperCache.Lib.Failover
import HyperCache.Lib.Json

namespace HyperCache

open Encoding Failover

/-! ## Errors -/

/-- The sentinel errors that a `StatusError` can match. -/
inductive Sentinel where
  | notFound
  | unauthorized
  | forbidden
  | draining
  | badRequest
  | internal
  deriving DecidableEq, Repr

structure StatusError where
  httpStatus : Nat
  code : Str
  message : Str
  details : Str
  deriving DecidableEq

namespace StatusError

/-- `NOT_FOUND`. -/
def codeNotFound : Str := [78, 79, 84, 95, 70, 79, 85, 78, 68]

/-- `UNAUTHORIZED`. -/
def codeUnauthorized : Str := [85, 78, 65, 85, 84, 72, 79, 82, 73, 90, 69, 68]

/-- `DRAINING`. -/
def codeDraining : Str := [68, 82, 65, 73, 78, 73, 78, 71]

/-- `BAD_REQUEST`. -/
def codeBadRequest : Str := [66, 65, 68, 95, 82, 69, 81, 85, 69, 83, 84]

/-- `INTERNAL`. -/
def codeInternal : Str := [73, 78, 84, 69, 82, 78, 65, 76]

/-- `StatusError.Is`. -/
def is (e : StatusError) : Sentinel → Bool
  | .notFound => e.code == codeNotFound || e.httpStatus == 404
  | .unauthorized => e.code == codeUnauthorized || e.httpStatus == 401
  | .forbidden => e.httpStatus == 403
  | .draining => e.code == codeDraining || e.httpStatus == 503
  | .badRequest => e.code == codeBadRequest || e.httpStatus == 400
  | .internal => e.code == codeInternal || (decide (e.httpStatus ≥ 500) && e.httpStatus != 503)

end StatusError

/-- What one request to one endpoint fails with. -/
inductive AttemptErr where
  | status (e : StatusError)
  | transport (msg : String)
  deriving DecidableEq

namespace AttemptErr

def is (target : Sentinel) : AttemptErr → Bool
  | .status e => e.is target
  | .transport _ => false

def isRetryable : AttemptErr → Bool
  | .status e => decide (e.httpStatus ≥ 500) || e.httpStatus == 503
  | .transport _ => true

end AttemptErr

inductive ClientErr where
  | noEndpoints
  | attempt (e : AttemptErr)
  | allEndpointsFailed (endpoints : Nat) (last : Option AttemptErr)
  | fetchMembers (e : ClientErr)
  | decodeMembers
  deriving DecidableEq

/-- `errors.Is` with a sentinel of a status. -/
def ClientErr.is (target : Sentinel) : ClientErr → Bool
  | .attempt e => e.is target
  | .allEndpointsFailed _ (some last) => last.is target
  | .fetchMembers e => e.is target
  | _ => false

/-! ## One request -/

structure HTTPResponse where
  status : Nat
  body : Str
  deriving DecidableEq

/-- What the client uses of libraries.  `decodeFirst` reads one document and ignores what
follows it, and `urlScheme` is nothing for a text that is no URL. -/
structure ClientLib where
  unmarshal : Str → Option Json
  decodeFirst : Str → Option Json
  urlScheme : Str → Option Str
  trimSpace : Str → Str

def truncate (s : Str) (n : Nat) : Str := if s.length ≤ n then s else s.take n ++ [46, 46, 46]

/-- `errorEnvelope`: the code, the message and the details. -/
def readEnvelope : Json → Option (Str × Str × Str)
  | .obj ms => do
      let code ← Json.readString (Json.field "code" ms)
      let message ← Json.readString (Json.field "error" ms)
      let details ← Json.readString (Json.field "details" ms)
      some (code, message, details)
  | .null => some ([], [], [])
  | _ => none

namespace ClientLib

variable (lib : ClientLib)

def classifyResponse (resp : HTTPResponse) : StatusError :=
  match (lib.unmarshal resp.body).bind readEnvelope with
  | none => ⟨resp.status, [], truncate resp.body 256, []⟩
  | some (code, message, details) =>
      if code = [] then ⟨resp.status, [], truncate resp.body 256, []⟩
      else ⟨resp.status, code, message, details⟩

/-- `tryOnce`, from what the endpoint answers or the transport fails with. -/
def tryOnce : Except String HTTPResponse → Except AttemptErr HTTPResponse
  | .error msg => .error (.transport msg)
  | .ok resp =>
      if resp.status ≥ 400 then .error (.status (lib.classifyResponse resp)) else .ok resp

end ClientLib

/-! ## The client -/

structure Client where
  seeds : List Str
  endpoints : Option (List Str)

namespace Client

def trimSlashes (s : Str) : Str := (s.reverse.dropWhile (· == 47)).reverse

/-- `New` without options. -/
def new (lib : ClientLib) (seeds : List Str) : Except ClientErr Client :=
  let cleaned := (seeds.map fun s => trimSlashes (lib.trimSpace s)).filter (· ≠ [])
  if cleaned = [] then .error .noEndpoints else .ok ⟨cleaned, some cleaned⟩

def currentEndpoints (c : Client) : List Str :=
  match c.endpoints with
  | none => c.seeds
  | some [] => c.seeds
  | some view => view

section

variable (lib : ClientLib) (order : List Nat) (send : Nat → Str → Except String HTTPResponse)
  (c : Client)

/-- The attempt at the endpoint with the index `i`.  An endpoint may be listed twice. -/
def attempt (i : Nat) : Except AttemptErr HTTPResponse :=
  lib.tryOnce (send i (c.currentEndpoints.getD i []))

/-- `do`, in the failover order that was drawn. -/
def doRequest : Except ClientErr HTTPResponse :=
  if c.currentEndpoints = [] then .error .noEndpoints
  else
    match walk AttemptErr.isRetryable (c.attempt lib send) none order with
    | .answered resp => .ok resp
    | .refused e => .error (.attempt e)
    | .exhausted last => .error (.allEndpointsFailed c.currentEndpoints.length last)

/-- The indices of the endpoints a request tries. -/
def triedEndpoints : List Nat := tried AttemptErr.isRetryable (c.attempt lib send) order

end

/-! ## Topology -/

/-- `clusterMember`, of which only two fields are used. -/
structure Member where
  address : Str
  state : Str

def readMember : Json → Option Member
  | .obj ms => do
      let _ ← Json.readString (Json.field "id" ms)
      let address ← Json.readString (Json.field "address" ms)
      let state ← Json.readString (Json.field "state" ms)
      some ⟨address, state⟩
  | .null => some ⟨[], []⟩
  | _ => none

def readMembers : Json → Option (List Member)
  | .obj ms =>
      match Json.field "members" ms with
      | none => some []
      | some .null => some []
      | some (.arr elems) => elems.mapM readMember
      | some _ => none
  | .null => some []
  | _ => none

/-- The text `://`. -/
def schemeMark : Str := [58, 47, 47]

/-- The state `dead`. -/
def deadState : Str := [100, 101, 97, 100]

/-- The scheme `https`. -/
def defaultScheme : Str := [104, 116, 116, 112, 115]

def schemeFromSeeds (lib : ClientLib) (seeds : List Str) : Str :=
  ((seeds.filterMap lib.urlScheme).find? (· ≠ [])).getD defaultScheme

def buildEndpoint (lib : ClientLib) (scheme address : Str) : Str :=
  let address := lib.trimSpace address
  if address = [] then []
  else if address.tails.any (fun t => t.take 3 == schemeMark) then trimSlashes address
  else scheme ++ schemeMark ++ address

/-- The endpoints of the members that are not dead. -/
def usable (lib : ClientLib) (seeds : List Str) (members : List Member) : List Str :=
  ((members.filter fun m => m.address ≠ [] ∧ m.state ≠ deadState).map fun m =>
    buildEndpoint lib (schemeFromSeeds lib seeds) m.address).filter (· ≠ [])

/-- A request for the members: the order that was drawn and what the endpoints answer. -/
structure Exchange where
  order : List Nat
  send : Nat → Str → Except String HTTPResponse

def refreshTopology (lib : ClientLib) (c : Client) (x : Exchange) : Client × Option ClientErr :=
  match c.doRequest lib x.order x.send with
  | .error e => (c, some (.fetchMembers e))
  | .ok resp =>
      match (lib.decodeFirst resp.body).bind readMembers with
      | none => (c, some .decodeMembers)
      | some members =>
          let updated := usable lib c.seeds members
          if updated = [] then (c, none) else ({ c with endpoints := some updated }, none)

theorem seeds_refreshTopology (lib : ClientLib) (c : Client) (x : Exchange) :
    (c.refreshTopology lib x).1.seeds = c.seeds := by
  rw [refreshTopology]
  cases c.doRequest lib x.order x.send with
  | error e => rfl
  | ok resp =>
      dsimp only
      cases (lib.decodeFirst resp.body).bind readMembers with
      | none => rfl
      | some members =>
          dsimp only
          by_cases h : usable lib c.seeds members = []
          · rw [if_pos h]
          · rw [if_neg h]

/-- The client after a history of refreshes. -/
def refreshed (lib : ClientLib) (history : List Exchange) (c : Client) : Client :=
  history.foldl (fun c x => (c.refreshTopology lib x).1) c

theorem seeds_refreshed (lib : ClientLib) (history : List Exchange) (c : Client) :
    (refreshed lib history c).seeds = c.seeds := by
  induction history generalizing c with
  | nil => rfl
  | cons x rest ih =>
      rw [refreshed, List.foldl_cons]
      exact (ih _).trans (seeds_refreshTopology lib c x)

theorem currentEndpoints_ne_nil {c : Client} (h : c.seeds ≠ []) : c.currentEndpoints ≠ [] := by
  rw [currentEndpoints]
  match hview : c.endpoints with
  | none => exact h
  | some [] => exact h
  | some (e :: rest) => simp

theorem seeds_ne_nil {lib : ClientLib} {seeds : List Str} {c : Client}
    (h : new lib seeds = .ok c) : c.seeds ≠ [] := by
  rw [new] at h
  by_cases hnil : (seeds.map fun s => trimSlashes (lib.trimSpace s)).filter (· ≠ []) = []
  · simp only [if_pos hnil] at h
    cases h
  · simp only [if_neg hnil] at h
    cases h
    exact hnil

/-! ## Answers -/

/-- The endpoint answers with success. -/
def Answers (lib : ClientLib) (answer : Str → Except String HTTPResponse) (e : Str) : Prop :=
  ∃ resp, lib.tryOnce (answer e) = .ok resp

section

variable {lib : ClientLib} {c : Client} {order : List Nat}

/-- The order has the index of every endpoint. -/
theorem exists_mem_order (horder : order.Perm (List.range c.currentEndpoints.length))
    {P : Str → Prop} :
    (∃ i ∈ order, P (c.currentEndpoints.getD i [])) ↔ ∃ e ∈ c.currentEndpoints, P e := by
  constructor
  · rintro ⟨i, hi, hP⟩
    have hlt : i < c.currentEndpoints.length := List.mem_range.1 (horder.mem_iff.1 hi)
    rw [List.getD_eq_getElem _ _ hlt] at hP
    exact ⟨_, List.getElem_mem hlt, hP⟩
  · rintro ⟨e, he, hP⟩
    obtain ⟨i, hlt, rfl⟩ := List.getElem_of_mem he
    refine ⟨i, horder.mem_iff.2 (List.mem_range.2 hlt), ?_⟩
    rw [List.getD_eq_getElem _ _ hlt]
    exact hP

theorem doRequest_ok_iff (hne : c.currentEndpoints ≠ [])
    (horder : order.Perm (List.range c.currentEndpoints.length))
    {answer : Str → Except String HTTPResponse}
    (hother : ∀ e ∈ c.currentEndpoints, ∀ err, lib.tryOnce (answer e) = .error err →
      err.isRetryable = true) :
    (∃ resp, c.doRequest lib order (fun _ => answer) = .ok resp) ↔
      ∃ e ∈ c.currentEndpoints, Answers lib answer e := by
  have hretry : ∀ i ∈ order, ∀ err, c.attempt lib (fun _ => answer) i = .error err →
      err.isRetryable = true := by
    intro i hi err herr
    have hlt : i < c.currentEndpoints.length := List.mem_range.1 (horder.mem_iff.1 hi)
    apply hother _ (List.getElem_mem hlt)
    rw [← List.getD_eq_getElem _ [] hlt]
    exact herr
  have hwalk := walk_answered_iff hretry none
  rw [← exists_mem_order horder]
  refine Iff.trans ?_ hwalk
  rw [doRequest, if_neg hne]
  cases walk AttemptErr.isRetryable (c.attempt lib fun _ => answer) none order with
  | answered resp => exact iff_of_true ⟨resp, rfl⟩ ⟨resp, rfl⟩
  | refused e => exact iff_of_false (by rintro ⟨_, h⟩; cases h) (by rintro ⟨_, h⟩; cases h)
  | exhausted last => exact iff_of_false (by rintro ⟨_, h⟩; cases h) (by rintro ⟨_, h⟩; cases h)

end

end Client

/-- After every history of refreshes, in every failover order: where every known endpoint
answers or fails with a retryable error, an answer from a seed makes the request succeed exactly
when it leaves an endpoint of the current view that answers. -/
theorem client_recovers_iff (lib : ClientLib) {seeds : List Str} {c₀ : Client}
    (hnew : Client.new lib seeds = .ok c₀) (history : List Client.Exchange)
    (answer : Str → Except String HTTPResponse) {order : List Nat}
    (horder : order.Perm
      (List.range (Client.refreshed lib history c₀).currentEndpoints.length))
    (hother : ∀ e ∈ c₀.seeds ++ (Client.refreshed lib history c₀).currentEndpoints, ∀ err,
      lib.tryOnce (answer e) = .error err → err.isRetryable = true) :
    let c := Client.refreshed lib history c₀
    ((∃ s ∈ c₀.seeds, Client.Answers lib answer s) →
        ∃ resp, c.doRequest lib order (fun _ => answer) = .ok resp) ↔
      ((∃ s ∈ c₀.seeds, Client.Answers lib answer s) →
        ∃ e ∈ c.currentEndpoints, Client.Answers lib answer e) := by
  intro c
  have hseeds : c.seeds ≠ [] := by
    rw [Client.seeds_refreshed]
    exact Client.seeds_ne_nil hnew
  have hok := Client.doRequest_ok_iff (Client.currentEndpoints_ne_nil hseeds) horder
    (fun e he => hother e (List.mem_append_right c₀.seeds he))
  rw [hok]

namespace Client

/-- A library that reads every document as a list of one member at `n:1`. -/
def fixedLib : ClientLib where
  unmarshal := fun _ => none
  decodeFirst := fun _ =>
    some (.obj [("members", .arr [.obj [("address", .str [110, 58, 49])]])])
  urlScheme := fun _ => some [104]
  trimSpace := id

def allAnswer : Exchange := ⟨[0], fun _ _ => .ok ⟨200, []⟩⟩

/-- Only the seed `s` answers. -/
def seedAnswers (e : Str) : Except String HTTPResponse :=
  if e = [115] then .ok ⟨200, []⟩ else .error "connection refused"

/-- Only the seed `t` does not answer. -/
def seedRefuses (e : Str) : Except String HTTPResponse :=
  if e = [116] then .error "connection refused" else .ok ⟨200, []⟩

end Client

/-- One refresh replaces both seeds by the member `n:1`, which answers when `t` does not. -/
theorem client_recovers_iff_refreshed :
    ∃ c₀, Client.new Client.fixedLib [[115], [116]] = .ok c₀ ∧
      (Client.refreshed Client.fixedLib [Client.allAnswer] c₀).currentEndpoints =
        [[104, 58, 47, 47, 110, 58, 49]] ∧
      ∃ resp, (Client.refreshed Client.fixedLib [Client.allAnswer] c₀).doRequest Client.fixedLib
        [0] (fun _ => Client.seedRefuses) = .ok resp := by
  have hnew : Client.new Client.fixedLib [[115], [116]] =
      .ok ⟨[[115], [116]], some [[115], [116]]⟩ := rfl
  refine ⟨_, hnew, rfl, (client_recovers_iff Client.fixedLib hnew [Client.allAnswer]
    Client.seedRefuses (List.Perm.refl [0]) ?_).2 (fun _ => ?_) ?_⟩
  · intro e he err herr
    unfold Client.seedRefuses at herr
    split at herr
    · cases herr
      rfl
    · cases herr
  · exact ⟨_, List.mem_singleton_self _, ⟨200, []⟩, rfl⟩
  · exact ⟨[115], List.mem_cons_self, ⟨200, []⟩, rfl⟩

/-- After one refresh the view is the member `n:1` alone.  When it goes down, the request fails
although the seed answers. -/
theorem client_forgets_seed :
    ∃ c₀, Client.new Client.fixedLib [[115]] = .ok c₀ ∧
      Client.Answers Client.fixedLib Client.seedAnswers [115] ∧
      (Client.refreshed Client.fixedLib [Client.allAnswer] c₀).currentEndpoints =
        [[104, 58, 47, 47, 110, 58, 49]] ∧
      (Client.refreshed Client.fixedLib [Client.allAnswer] c₀).doRequest Client.fixedLib [0]
          (fun _ => Client.seedAnswers) =
        .error (.allEndpointsFailed 1 (some (.transport "connection refused"))) :=
  ⟨⟨[[115]], some [[115]]⟩, rfl, ⟨⟨200, []⟩, rfl⟩, rfl, rfl⟩

/-! ## Draining -/

namespace Client

section

variable (lib : ClientLib) (send : Nat → Str → Except String HTTPResponse) (c : Client)

/-- The endpoint reports that it is draining. -/
def Drains (i : Nat) : Prop :=
  ∃ e, c.attempt lib send i = .error e ∧ e.is .draining = true

/-- The error of a request is a draining one exactly when the last endpoint tried is draining. -/
theorem doRequest_drains_iff (hne : c.currentEndpoints ≠ []) {order : List Nat}
    (horder : order ≠ []) :
    ∃ i, (c.triedEndpoints lib order send).getLast? = some i ∧
      ((∃ err, c.doRequest lib order send = .error err ∧ err.is .draining = true) ↔
        c.Drains lib send i) := by
  obtain ⟨i, hlast, hwalk⟩ := @walk_eq_conclude _ _ _ AttemptErr.isRetryable
    (c.attempt lib send) _ horder none
  refine ⟨i, hlast, ?_⟩
  rw [doRequest, if_neg hne, hwalk, Drains]
  cases c.attempt lib send i with
  | ok resp => exact iff_of_false (by rintro ⟨_, h, -⟩; cases h) (by rintro ⟨_, h, -⟩; cases h)
  | error e =>
      rw [conclude]
      by_cases he : e.isRetryable = true
      · rw [if_pos he]
        constructor
        · rintro ⟨err, h, hdrains⟩
          cases h
          exact ⟨e, rfl, hdrains⟩
        · rintro ⟨e', h, hdrains⟩
          cases h
          exact ⟨_, rfl, hdrains⟩
      · rw [if_neg he]
        constructor
        · rintro ⟨err, h, hdrains⟩
          cases h
          exact ⟨e, rfl, hdrains⟩
        · rintro ⟨e', h, hdrains⟩
          cases h
          exact ⟨_, rfl, hdrains⟩

end

end Client

/-- For every list of endpoints, failover order and outcomes: a draining error means that every
endpoint tried reported draining, exactly when the last one tried did not report it or all of
them did. -/
theorem client_draining_iff (lib : ClientLib) (c : Client) {order : List Nat}
    (horder : order.Perm (List.range c.currentEndpoints.length))
    (send : Nat → Str → Except String HTTPResponse) :
    (∀ err, c.doRequest lib order send = .error err → err.is .draining = true →
        ∀ i ∈ c.triedEndpoints lib order send, c.Drains lib send i) ↔
      (∀ i ∈ (c.triedEndpoints lib order send).getLast?, ¬c.Drains lib send i) ∨
        ∀ i ∈ c.triedEndpoints lib order send, c.Drains lib send i := by
  by_cases hne : c.currentEndpoints = []
  · have hnil : order = [] := by
      rw [hne] at horder
      exact List.perm_nil.1 horder
    subst hnil
    have hnone : c.triedEndpoints lib [] send = [] := rfl
    rw [hnone]
    exact iff_of_true (fun _ _ _ i hi => absurd hi List.not_mem_nil)
      (Or.inr fun i hi => absurd hi List.not_mem_nil)
  · have hsome : order ≠ [] := by
      rintro rfl
      have hlength := horder.length_eq
      rw [List.length_range] at hlength
      exact hne (List.length_eq_zero_iff.1 hlength.symm)
    obtain ⟨i, hlast, hiff⟩ := c.doRequest_drains_iff lib send hne hsome
    rw [hlast]
    constructor
    · intro h
      by_cases hdrains : c.Drains lib send i
      · obtain ⟨err, herr, his⟩ := hiff.2 hdrains
        exact Or.inr (h err herr his)
      · left
        intro j hj
        cases hj
        exact hdrains
    · rintro (h | h) err herr his
      · exact absurd (hiff.1 ⟨err, herr, his⟩) (h i rfl)
      · exact h

namespace Client

def twoEndpoints : Client := ⟨[[97], [98]], none⟩

/-- The endpoint `b` is draining, and so is `a` in the other case. -/
def drainingAnswers (all : Bool) (_ : Nat) (e : Str) : Except String HTTPResponse :=
  if all ∨ e = [98] then .ok ⟨503, []⟩ else .error "connection refused"

end Client

theorem client_draining_iff_all :
    ∃ err, Client.twoEndpoints.doRequest Client.fixedLib [1, 0] (Client.drainingAnswers true) =
        .error err ∧ err.is .draining = true ∧
      ∀ i ∈ [1, 0],
        Client.twoEndpoints.Drains Client.fixedLib (Client.drainingAnswers true) i := by
  have htried : Client.twoEndpoints.triedEndpoints Client.fixedLib [1, 0]
      (Client.drainingAnswers true) = [1, 0] := rfl
  have hiff := client_draining_iff Client.fixedLib Client.twoEndpoints
    (List.Perm.swap 0 1 [] : [1, 0].Perm [0, 1]) (Client.drainingAnswers true)
  refine ⟨_, rfl, rfl, hiff.2 (Or.inr ?_) _ rfl rfl⟩
  intro i hi
  rw [htried] at hi
  simp only [List.mem_cons, List.not_mem_nil, or_false] at hi
  rcases hi with rfl | rfl
  · exact ⟨_, rfl, rfl⟩
  · exact ⟨_, rfl, rfl⟩

/-- The first endpoint is down and the second draining: the error says that the cluster is
draining. -/
theorem client_drains_with_one_down :
    ∃ err, Client.twoEndpoints.doRequest Client.fixedLib [0, 1] (Client.drainingAnswers false) =
        .error err ∧ err.is .draining = true ∧
      Client.twoEndpoints.triedEndpoints Client.fixedLib [0, 1] (Client.drainingAnswers false) =
        [0, 1] ∧
      Client.twoEndpoints.attempt Client.fixedLib (Client.drainingAnswers false) 0 =
        .error (.transport "connection refused") :=
  ⟨_, rfl, rfl, rfl, rfl⟩

end HyperCache
