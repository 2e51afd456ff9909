import RnsIcn.Client.Accepted
import RnsIcn.Client.Access
import RnsIcn.Wire.Discovery

/-! # The latest version of a collection

A client asks for the pointer of a collection, which must be signed, and then for the
target that the pointer names. Without a usable pointer it asks any node for the
newest name that the node holds.
-/

namespace RnsIcn

open Transition Fallible

/-- The arguments of `fetch_latest`; `collection` is the `prefix` of the source. -/
structure LatestRequest where
  collection : Name
  timeoutMs : ℕ := 30000
  maxRetries : ℕ := 5
  deriving DecidableEq, Repr

namespace LatestRequest

def pointerRequest (r : LatestRequest) (metaName : Name) : FetchRequest where
  name := metaName
  timeoutMs := r.timeoutMs
  maxRetries := r.maxRetries
  mustBeFresh := true
  requireSignature := some true
  raiseOnFailure := false

def targetRequest (r : LatestRequest) (target : Name) : FetchRequest where
  name := target
  timeoutMs := r.timeoutMs
  maxRetries := r.maxRetries

def selectorRequest (r : LatestRequest) : FetchRequest where
  name := r.collection
  timeoutMs := r.timeoutMs
  maxRetries := r.maxRetries
  canBePrefix := true
  selector := some { child := .latest }
  raiseOnFailure := false

/-- The target that is read from the content of a pointer, if it does not escape the collection. -/
def targetOf (r : LatestRequest) (pointer : Data) : Option Name :=
  match Discovery.decodeMeta pointer.content with
  | .error _ => none
  | .ok target =>
    if target.rnsAddr ≠ r.collection.rnsAddr ∨ !target.startsWith r.collection then none
    else some target

theorem targetOf_eq_some {r : LatestRequest} {pointer : Data} {target : Name}
    (h : r.targetOf pointer = some target) :
    Discovery.decodeMeta pointer.content = .ok target ∧
      target.startsWith r.collection = true := by
  rw [targetOf] at h
  split at h
  · cases h
  · rename_i n hn
    split at h
    · cases h
    · rename_i hescape
      obtain rfl := Option.some.inj h
      rw [not_or] at hescape
      exact ⟨hn, by simpa using hescape.2⟩

end LatestRequest

inductive LatestPath where
  | pointer | selector
  deriving DecidableEq, Repr

/-- Where a call of `fetch_latest` is suspended, or how it ended. -/
inductive LatestPhase where
  | idle
  | pointer (r : LatestRequest) (f : FetchId)
  | target (r : LatestRequest) (target : Name) (f : FetchId)
  | selector (r : LatestRequest) (f : FetchId)
  | returned (r : LatestRequest) (path : LatestPath) (result : Option Data)
  | raised (e : PyError)
  deriving DecidableEq, Repr

/-- A client with one call of `fetch_latest`, and a log of the Data that `express` has returned for
each name that was asked for. -/
structure LatestCall where
  client : Client
  access : Access := {}
  phase : LatestPhase := .idle
  expressed : List (Name × Data) := []

namespace Client

def startFetch (s : Client) (request : FetchRequest) : Client :=
  { s with nextFetch := s.nextFetch + 1 }.setFetch s.nextFetch { request }

end Client

namespace LatestCall

def await (s : LatestCall) (request : FetchRequest) (phase : FetchId → LatestPhase) : LatestCall :=
  { s with client := s.client.startFetch request, phase := phase s.client.nextFetch }

def call (s : LatestCall) (r : LatestRequest) : Option LatestCall :=
  match s.phase with
  | .idle =>
    match Discovery.metaName r.collection with
    | .error e => some { s with phase := .raised e }
    | .ok metaName => some (s.await (r.pointerRequest metaName) (.pointer r))
  | _ => none

/-- The fetch that the call waits for has ended. -/
def resume (s : LatestCall) : Option LatestCall :=
  match s.phase with
  | .pointer r f =>
    (s.client.fetches f).bind fun fetch =>
      match fetch.phase with
      | .returned pointer =>
        match pointer.bind r.targetOf with
        | some target => some (s.await (r.targetRequest target) (.target r target))
        | none => some (s.await r.selectorRequest (.selector r))
      | .raised e => some { s with phase := .raised e }
      | _ => none
  | .target r _ f =>
    (s.client.fetches f).bind fun fetch =>
      match fetch.phase with
      | .returned d => some { s with phase := .returned r .pointer d }
      | .raised e => some { s with phase := .raised e }
      | _ => none
  | .selector r f =>
    (s.client.fetches f).bind fun fetch =>
      match fetch.phase with
      | .returned d => some { s with phase := .returned r .selector d }
      | .raised e => some { s with phase := .raised e }
      | _ => none
  | _ => none

/-- The call, and the events of the client at the time `now`. -/
inductive Label where
  | call (r : LatestRequest)
  | client (now : ℕ) (l : Client.Feed)
  | resume

variable [Hashlib]

def clientAt (s : LatestCall) (now : ℕ) : Client :=
  { s.client with maybeDecrypt := s.access.maybeDecrypt s.client.verifier.identities now }

def step (s : LatestCall) : Label → Option LatestCall
  | .call r => s.call r
  | .client now l => ((s.clientAt now).feed l).map fun client =>
    { s with client, expressed := (s.client.expressed l).toList ++ s.expressed }
  | .resume => s.resume

end LatestCall

namespace Verifier

variable [Hashlib] {v v' : Verifier} {d : Data} {verdict : Verdict}

theorem checkFetched_identities {pin : Option Bytes} {requireSignature : Option Bool}
    (h : v.checkFetched d pin requireSignature = .ok (v', verdict)) :
    v'.identities = v.identities := by
  rw [checkFetched] at h
  split at h
  · obtain ⟨rfl, -⟩ := Prod.mk.inj (Except.ok.inj h)
    rfl
  · split at h
    · obtain ⟨rfl, -⟩ := Prod.mk.inj (Except.ok.inj h)
      rfl
    · exact (checkOrigin_frame h).2.1

theorem dispatchPush_identities (v : Verifier) (d : Data) (prefixes : List Name) :
    (v.dispatchPush d prefixes).identities = v.identities := by
  induction prefixes generalizing v with
  | nil => rfl
  | cons p prefixes ih =>
    rw [dispatchPush]
    split
    · exact ih v
    · split
      · rfl
      · split
        · rename_i h
          exact (ih _).trans (checkOrigin_frame h).2.1
        · rename_i h
          exact (checkOrigin_frame h).2.1
        · rfl

end Verifier

namespace Client

variable [Hashlib] {s t : Client} {l : Feed}

theorem checkResult_identities (s : Client) (f : FetchId) (fetch : Fetch) (i : Interest)
    (d : Data) : (s.checkResult f fetch i d).verifier.identities = s.verifier.identities := by
  rw [checkResult]
  split
  · rfl
  · rename_i hc
    exact Verifier.checkFetched_identities hc
  · rename_i hc
    exact Verifier.checkFetched_identities hc

theorem observe_identities (s : Client) (l : Forwarder.Label) :
    (s.observe l).identities = s.verifier.identities := by
  cases l with
  | receiveData d inFace unsolicited =>
    rw [observe]
    split
    · exact Verifier.dispatchPush_identities ..
    · rfl
  | _ => rfl

theorem feed_identities (hs : s.feed l = some t) :
    t.verifier.identities = s.verifier.identities ∨
      ∃ addr validate, l = .own (.announce addr validate) ∧
        t.verifier.identities = Function.update s.verifier.identities addr (some validate) := by
  cases l with
  | own l =>
    have hver := step_verifies hs
    generalize t.verifier = v at hver
    cases hver with
    | checked => exact .inl (checkResult_identities ..)
    | observed => exact .inl (observe_identities ..)
    | announced => exact .inr ⟨_, _, rfl, rfl⟩
    | same => exact .inl rfl
  | answered f d =>
    obtain ⟨fetch, -, hs⟩ := Option.bind_eq_some_iff.mp hs
    split at hs
    · obtain ⟨call, -, rfl⟩ := Option.map_eq_some_iff.mp hs
      exact .inl (checkResult_identities ..)
    · cases hs
  | pushed d =>
    obtain rfl := Option.some.inj hs
    exact .inl (Verifier.dispatchPush_identities ..)

end Client

end RnsIcn
