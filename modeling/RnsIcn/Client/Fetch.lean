import RnsIcn.Client.Verify
import RnsIcn.Forwarder.Core

/-! # The client

A client owns a forwarder and fetches through it. A fetch expresses an Interest,
checks the Data that the forwarder returns and tries again when there is none or
when it is rejected. Data that arrives is also shown to the subscriptions.
-/

namespace RnsIcn

abbrev FetchId := ℕ

/-- The arguments of `_fetch_verified`, with the defaults of the configuration filled in. -/
structure FetchRequest where
  name : Name
  timeoutMs : ℕ := 30000
  maxRetries : ℕ := 5
  mustBeFresh : Bool := false
  canBePrefix : Bool := false
  selector : Option InterestSelector := none
  requireSignature : Option Bool := none
  raiseOnFailure : Bool := true
  deriving DecidableEq, Repr

inductive FetchPhase where
  | linking
  | expressing (c : CallId) (deadline : ℕ)
  | sleeping
  | returned (result : Option Data)
  | raised (e : PyError)
  deriving DecidableEq, Repr

structure Fetch where
  request : FetchRequest
  attempt : ℕ := 0
  lastError : Option PyError := none
  phase : FetchPhase := .linking
  deriving DecidableEq, Repr

namespace Fetch

def exhausted (f : Fetch) : Fetch :=
  { f with
    phase := match f.lastError with
      | some e => if f.request.raiseOnFailure then .raised e else .returned none
      | none => .returned none }

/-- `continue` in the loop of `_fetch_verified`. -/
def goOn (f : Fetch) : Fetch :=
  if f.attempt < f.request.maxRetries then { f with attempt := f.attempt + 1, phase := .linking }
  else f.exhausted

def backOff (f : Fetch) : Fetch :=
  if f.attempt < f.request.maxRetries then { f with phase := .sleeping } else f.exhausted

def fail (f : Fetch) (e : PyError) : Fetch := { f with lastError := some e }.backOff

end Fetch

structure Client where
  forwarder : Forwarder := {}
  verifier : Verifier := {}
  fetches : FetchId → Option Fetch := fun _ => none
  nextFetch : FetchId := 0
  subscriptions : List Name := []
  maybeDecrypt : Data → Data := id
  rejected : List (Interest × Data) := []

namespace Forwarder

def cancel (s : Forwarder) (c : CallId) : Forwarder :=
  match s.loop.calls c with
  | none => s
  | some call =>
    let gone : Call := { call with phase := .raised .cancelledError }
    match call.phase with
    | .scheduled _ | .sending .. => { s with loop := s.loop.setCall c gone }
    | .waiting _ _ fut _ => { s with loop := (s.loop.giveUp fut).setCall c gone }
    | .aggregated fut _ => { s with loop := (s.loop.giveUp fut).setCall c gone }
    | .returned _ | .raised _ => s

def ended (s : Forwarder) (c : CallId) : Bool :=
  match (s.loop.calls c).map Call.phase with
  | some (.returned _) | some (.raised _) => true
  | _ => false

variable [Hashlib]

/-- Whether `receive_data` gets to its observer, which comes after the insertion. -/
def reachesCallback (s : Forwarder) (d : Data) (cacheUnsolicited : Bool) : Bool :=
  match answeredName s.pit d.name.withoutContentHash with
  | .error _ => false
  | .ok none => !cacheUnsolicited || (s.cs.insert d.name d s.time).isOk
  | .ok (some _) => (s.cs.insert d.name d s.time).isOk

end Forwarder

namespace Client

def setFetch (s : Client) (f : FetchId) (fetch : Fetch) : Client :=
  { s with fetches := Function.update s.fetches f (some fetch) }

/-- The route of a request: the namespace of its producer over the link's face. -/
def route (s : Client) (producer : Name) (face : FaceId) : Forwarder :=
  let fw := s.forwarder
  { fw with
    faces := if face ∈ fw.faces then fw.faces else face :: fw.faces
    fib := fw.fib.insert producer face 1 }

def interest (r : FetchRequest) (nonce : Bytes) : Interest where
  name := r.name
  nonce := nonce
  lifetimeMs := r.timeoutMs
  canBePrefix := r.canBePrefix
  mustBeFresh := r.mustBeFresh
  selector := r.selector

variable [Hashlib]

/-- An attempt over a link with the given face, up to the call of `express`. -/
def beginAttempt (s : Client) (f : FetchId) (fetch : Fetch) (face : FaceId)
    (nonce refreshNonce : Bytes) : Client :=
  match Name.new fetch.request.name.rnsAddr with
  | .error e => s.setFetch f (fetch.fail e)
  | .ok producer =>
    let fw := s.route producer face
    let phase := .expressing fw.loop.nextCall (fw.loop.monotonic + fetch.request.timeoutMs)
    { s with forwarder := fw.express (interest fetch.request nonce) face refreshNonce }.setFetch f
      { fetch with phase }

def checkResult (s : Client) (f : FetchId) (fetch : Fetch) (i : Interest) (d : Data) : Client :=
  match s.verifier.checkFetched d fetch.request.name.contentHash fetch.request.requireSignature with
  | .error e => s.setFetch f (fetch.fail e)
  | .ok (verifier, .rejected e) =>
    { s with verifier, rejected := (i, d) :: s.rejected }.setFetch f
      { fetch with lastError := some e }.goOn
  | .ok (verifier, .accepted) =>
    { s with verifier }.setFetch f { fetch with phase := .returned (some (s.maybeDecrypt d)) }

/-- The call of an attempt has ended. -/
def finish (s : Client) (f : FetchId) : Option Client :=
  (s.fetches f).bind fun fetch =>
    match fetch.phase with
    | .expressing c _ =>
      (s.forwarder.loop.calls c).bind fun call =>
        match call.phase with
        | .returned (some d) => some (s.checkResult f fetch call.interest d)
        | .returned none => some (s.setFetch f fetch.backOff)
        | .raised e => some (s.setFetch f (fetch.fail e))
        | _ => none
    | _ => none

/-- The `wait_for` around `express` runs out before the call has ended. -/
def expire (s : Client) (f : FetchId) : Option Client :=
  (s.fetches f).bind fun fetch =>
    match fetch.phase with
    | .expressing c deadline =>
      if deadline ≤ s.forwarder.loop.monotonic ∧ !s.forwarder.ended c then
        some ({ s with forwarder := s.forwarder.cancel c }.setFetch f (fetch.fail .timeoutError))
      else none
    | _ => none

def attempt (s : Client) (f : FetchId) (face : FaceId) (nonce refreshNonce : Bytes) :
    Option Client :=
  (s.fetches f).bind fun fetch =>
    match fetch.phase with
    | .linking => some (s.beginAttempt f fetch face nonce refreshNonce)
    | _ => none

def linkFailed (s : Client) (f : FetchId) (e : PyError) : Option Client :=
  (s.fetches f).bind fun fetch =>
    match fetch.phase with
    | .linking => some (s.setFetch f (fetch.fail e))
    | _ => none

def wake (s : Client) (f : FetchId) : Option Client :=
  (s.fetches f).bind fun fetch =>
    match fetch.phase with
    | .sleeping =>
      some (s.setFetch f { fetch with attempt := fetch.attempt + 1, phase := .linking })
    | _ => none

/-- The observer that `subscribe` installs, when an event of the forwarder gets to it. -/
def observe (s : Client) : Forwarder.Label → Verifier
  | .receiveData d _ cacheUnsolicited =>
    if !s.subscriptions.isEmpty && s.forwarder.reachesCallback d cacheUnsolicited then
      s.verifier.dispatchPush d s.subscriptions
    else s.verifier
  | _ => s.verifier

/-- The events of a client. `announce` makes the keys of an identity known. -/
inductive Label where
  | forwarder (l : Forwarder.Label)
  | fetch (request : FetchRequest)
  | attempt (f : FetchId) (face : FaceId) (nonce refreshNonce : Bytes)
  | linkFailed (f : FetchId) (e : PyError)
  | finish (f : FetchId)
  | expire (f : FetchId)
  | wake (f : FetchId)
  | announce (addr : Bytes) (validate : Validator)
  | subscribe (namePrefix : Name)

def step (s : Client) : Label → Option Client
  | .forwarder l =>
    (s.forwarder.step l).map fun forwarder => { s with forwarder, verifier := s.observe l }
  | .fetch request =>
    some ({ s with nextFetch := s.nextFetch + 1 }.setFetch s.nextFetch { request })
  | .attempt f face nonce refreshNonce => s.attempt f face nonce refreshNonce
  | .linkFailed f e => s.linkFailed f e
  | .finish f => s.finish f
  | .expire f => s.expire f
  | .wake f => s.wake f
  | .announce addr validate =>
    some { s with
      verifier := { s.verifier with
        identities := Function.update s.verifier.identities addr (some validate) } }
  | .subscribe namePrefix => some { s with subscriptions := s.subscriptions ++ [namePrefix] }

/-- A client before its first fetch, with an empty cache. -/
structure Initial (s : Client) : Prop where
  forwarder : s.forwarder.Initial
  content : s.forwarder.cs.content = .empty
  namePrefixes : s.forwarder.cs.namePrefixes = []
  seenSignedKey : s.verifier.seenSignedKey = .empty
  rejected : s.rejected = []

end Client

end RnsIcn
