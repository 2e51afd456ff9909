import RnsIcn.Forwarder.Strategy
import RnsIcn.Lib.Futures
import RnsIcn.Lib.Transition
import RnsIcn.Store.Run

/-! # The forwarder

The state of a forwarder together with that of its event loop: the calls of
`express` between their suspension points, the futures they wait on, the clocks
and a log of what arrived and what the strategy was told. A step is one event,
and the code runs without interruption from one `await` to the next.
-/

namespace RnsIcn

abbrev CallId := ℕ

/-- What completes a future: Data, or the sentinel `_NACK`. -/
inductive Reply where
  | data (d : Data)
  | nack
  deriving DecidableEq, Repr

/-- Where a call is suspended, or how it ended. Deadlines are those of `wait_for`. -/
inductive Phase where
  | scheduled (outFaces : List FaceId)
  | sending (outFace : FaceId) (rest : List FaceId)
  | waiting (outFace : FaceId) (rest : List FaceId) (fut deadline : ℕ)
  | aggregated (fut deadline : ℕ)
  | returned (result : Option Data)
  | raised (e : PyError)
  deriving DecidableEq, Repr

/-- A call of `express`, or a background refresh, which gives back a name when it ends. -/
structure Call where
  interest : Interest
  inFace : FaceId
  refreshes : Option Name := none
  phase : Phase
  deriving DecidableEq, Repr

inductive Event where
  | attempt (c : CallId) (face : FaceId) (start : ℕ)
  | data (face : FaceId) (d : Data)
  | nack (face : FaceId) (name : Name)
  | failure (c : CallId) (face : FaceId) (name : Name) (time : ℕ)
  | success (c : CallId) (face : FaceId) (d : Data)
  deriving DecidableEq, Repr

/-- The calls with the futures they wait on, and the log, newest event first. -/
structure EventLoop where
  calls : CallId → Option Call := fun _ => none
  nextCall : CallId := 0
  notifiers : Futures Name Reply := .empty
  monotonic : ℕ := 0
  log : List Event := []

structure Forwarder where
  cs : ContentStore := { max := 1000 }
  fib : Fib := {}
  pit : Pit := {}
  strategy : BestRoute := {}
  faces : List FaceId := []
  revalidating : List Name := []
  loop : EventLoop := {}
  time : ℕ := 0

/-- The name under which the Interest is pending. -/
def Interest.pitName (i : Interest) : Name := i.name.withoutContentHash

namespace EventLoop

def setCall (r : EventLoop) (c : CallId) (call : Call) : EventLoop :=
  { r with calls := Function.update r.calls c (some call) }

def spawn (r : EventLoop) (call : Call) : EventLoop :=
  { r with nextCall := r.nextCall + 1 }.setCall r.nextCall call

/-- Create a future under `key` and wait on it for the lifetime of the Interest. -/
def wait (r : EventLoop) (c : CallId) (call : Call) (key : Name) (phase : ℕ → ℕ → Phase) :
    EventLoop :=
  { r with notifiers := r.notifiers.register key }.setCall c
    { call with phase := phase r.notifiers.next (r.monotonic + call.interest.lifetimeMs) }

def send (r : EventLoop) (c : CallId) (call : Call) (face : FaceId) (rest : List FaceId) :
    EventLoop :=
  { r with log := .attempt c face r.monotonic :: r.log }.setCall c
    { call with phase := .sending face rest }

def record (r : EventLoop) (e : Event) : EventLoop := { r with log := e :: r.log }

/-- `_notify_waiters`, and its counterpart for NACKs. -/
def notify (r : EventLoop) (key : Name) (reply : Reply) : EventLoop :=
  { r with notifiers := r.notifiers.announce key reply }

def giveUp (r : EventLoop) (fut : ℕ) : EventLoop :=
  { r with notifiers := r.notifiers.cancel fut }

end EventLoop

namespace Forwarder

variable [Hashlib]

/-- End a call. A refresh gives its name back whatever its outcome is. -/
def finish (s : Forwarder) (c : CallId) (call : Call) (phase : Phase) : Forwarder :=
  { s with
    loop := s.loop.setCall c { call with phase }
    revalidating := match call.refreshes with
      | none => s.revalidating
      | some n => s.revalidating.filter (· ≠ n) }

/-- The loop of `_forward`, up to the first send of `_forward_one`. -/
def attempts (s : Forwarder) (c : CallId) (call : Call) : List FaceId → Forwarder
  | [] => s.finish c call (.returned none)
  | face :: rest =>
    let name := call.interest.pitName
    let pit := (s.pit.insertOrAggregate name call.inFace call.interest s.loop.monotonic).setOutFace
      name face
    if face ∈ s.faces then
      match call.interest.toBytes with
      | .error e => { s with pit }.finish c call (.raised e)
      | .ok _ => { s with pit, loop := s.loop.send c call face rest }
    else { s with pit := pit.remove name }.attempts c call rest

def forward (s : Forwarder) (c : CallId) (call : Call) (outFaces : List FaceId) : Forwarder :=
  if call.interest.hopLimit = 0 then s.finish c call (.returned none)
  else
    let interest := { call.interest with hopLimit := call.interest.hopLimit - 1 }
    s.attempts c { call with interest } outFaces

def failoverCandidates (s : Forwarder) (fibFaces : List (FaceId × ℕ)) (primary : FaceId) :
    List FaceId :=
  match s.strategy.usableFaces s.loop.monotonic fibFaces with
  | [] => [primary]
  | faces => faces

/-- An "oldest" answer above the floor may shadow older Data held elsewhere. -/
def walkSkips (i : Interest) (d : Data) : Bool :=
  i.child == .oldest && i.minSequence.any (d.metadata.sequence != some ·)

/-- The lookup of `express` in the Content Store. -/
def csLookup (s : Forwarder) (i : Interest) : ContentStore × Except PyError (Option Data) :=
  if i.canBePrefix then
    let (cs, hit) := s.cs.getPrefix i.name i.child i.minSequence s.time
    (cs, hit.map (·.filter fun d => !walkSkips i d))
  else s.cs.get i.name s.time

/-- `_schedule_revalidation`, with the nonce drawn for the refresh. -/
def scheduleRevalidation (s : Forwarder) (i : Interest) (inFace outFace : FaceId)
    (nonce : Bytes) : Forwarder :=
  if i.name ∈ s.revalidating then s
  else
    { s with
      revalidating := i.name :: s.revalidating
      loop := s.loop.spawn
        { interest := { i with nonce, mustBeFresh := true }, inFace, refreshes := some i.name
          phase := .scheduled [outFace] } }

/-- Carry out the decision about a call that the Content Store did not fail. -/
def enact (s : Forwarder) (c : CallId) (call : Call) (nonce : Bytes)
    (fibFaces : List (FaceId × ℕ)) : StrategyDecision → Forwarder
  | .serveFromCache d => s.finish c call (.returned (some d))
  | .serveStaleRevalidate d face =>
    (s.scheduleRevalidation call.interest call.inFace face nonce).finish c call
      (.returned (some d))
  | .suppressAggregate =>
    { s with loop := s.loop.wait c call call.interest.name .aggregated }
  | .forwardTo face => s.forward c call (s.failoverCandidates fibFaces face)
  | .noRoute => s.finish c call (.returned none)

/-- `express` up to its first suspension. -/
def express (s : Forwarder) (i : Interest) (inFace : FaceId) (nonce : Bytes) : Forwarder :=
  let c := s.loop.nextCall
  let call : Call := { interest := i, inFace, phase := .returned none }
  let loop := s.loop.spawn call
  if s.pit.checkLoop inFace i.nonce then { s with loop }
  else
    let (cs, lookup) := s.csLookup i
    let pit := s.pit.recordNonce inFace i.nonce s.loop.monotonic
    let s := { s with cs, pit, loop }
    match lookup with
    | .error e => s.finish c call (.raised e)
    | .ok csHit =>
      let fibFaces := s.fib.lookup i.name
      s.enact c call nonce fibFaces
        (s.strategy.decide s.loop.monotonic i fibFaces (pit.find i.name) csHit)

/-- The send of `_forward_one` returns. -/
def sent (s : Forwarder) (c : CallId) : Option Forwarder :=
  (s.loop.calls c).bind fun call =>
    match call.phase with
    | .sending face rest =>
      some { s with loop := s.loop.wait c call call.interest.pitName (.waiting face rest) }
    | _ => none

def sendRaised (s : Forwarder) (c : CallId) (e : PyError) : Option Forwarder :=
  (s.loop.calls c).bind fun call =>
    match call.phase with
    | .sending _ _ => some (s.finish c call (.raised e))
    | _ => none

/-- The background task of a refresh starts. -/
def start (s : Forwarder) (c : CallId) : Option Forwarder :=
  (s.loop.calls c).bind fun call =>
    match call.phase with
    | .scheduled outFaces => some (s.forward c call outFaces)
    | _ => none

/-- An attempt on `face` failed: the entry goes, the strategy learns it, the loop goes on. -/
def attemptFailed (s : Forwarder) (c : CallId) (call : Call) (face : FaceId)
    (rest : List FaceId) : Forwarder :=
  { s with
    pit := s.pit.remove call.interest.pitName
    strategy := s.strategy.recordFailure face s.loop.monotonic
    loop := s.loop.record (.failure c face call.interest.pitName s.loop.monotonic)
  }.attempts c call rest

def attemptSucceeded (s : Forwarder) (c : CallId) (call : Call) (face : FaceId) (d : Data) :
    Forwarder :=
  { s with
    pit := s.pit.remove call.interest.pitName
    strategy := s.strategy.recordSuccess face
    loop := s.loop.record (.success c face d) }.finish c call (.returned (some d))

/-- A call goes on after its future was completed. -/
def resume (s : Forwarder) (c : CallId) : Option Forwarder :=
  (s.loop.calls c).bind fun call =>
    match call.phase with
    | .waiting face rest fut _ =>
      match s.loop.notifiers.state fut with
      | .done (.data d) => some (s.attemptSucceeded c call face d)
      | .done .nack => some (s.attemptFailed c call face rest)
      | _ => none
    | .aggregated fut _ =>
      match s.loop.notifiers.state fut with
      | .done (.data d) => some (s.finish c call (.returned (some d)))
      | .done .nack => some (s.finish c call (.returned none))
      | _ => none
    | _ => none

/-- The lifetime of a call runs out while its future is pending. -/
def timeout (s : Forwarder) (c : CallId) : Option Forwarder :=
  (s.loop.calls c).bind fun call =>
    match call.phase with
    | .waiting face rest fut deadline =>
      if s.loop.notifiers.state fut = .pending ∧ deadline ≤ s.loop.monotonic then
        some ({ s with loop := s.loop.giveUp fut }.attemptFailed c call face rest)
      else none
    | .aggregated fut deadline =>
      if s.loop.notifiers.state fut = .pending ∧ deadline ≤ s.loop.monotonic then
        some ({ s with loop := s.loop.giveUp fut }.finish c call (.returned none))
      else none
    | _ => none

/-- The nearest pending ancestor of up to `i` components that asked with `can_be_prefix`. -/
def pendingAncestor (p : Pit) (n : Name) : ℕ → Except PyError (Option Name)
  | 0 => .ok none
  | i + 1 => do
    let candidate ← Name.new n.rnsAddr (n.path.take i)
    if (p.find candidate).any (·.interest.canBePrefix) then return some candidate
    else pendingAncestor p n i

/-- The PIT name that Data of the name `n` answers. -/
def answeredName (p : Pit) (n : Name) : Except PyError (Option Name) :=
  if (p.find n).isSome then .ok (some n) else pendingAncestor p n (n.len - 1)

def notifyWaiters (s : Forwarder) (n : Name) (d : Data) : Forwarder :=
  { s with pit := s.pit.satisfy n, loop := s.loop.notify n (.data d) }

/-- Cache Data under its name and drop the entry of `n`; the entry stays if caching raises. -/
def cacheAnswer (s : Forwarder) (d : Data) (n : Name) : Forwarder :=
  match s.cs.insert d.name d s.time with
  | .error _ => s
  | .ok cs => { s with cs, pit := s.pit.remove n }

def receiveData (s : Forwarder) (d : Data) (inFace : FaceId) (cacheUnsolicited : Bool) :
    Forwarder :=
  let s := { s with loop := s.loop.record (.data inFace d) }
  let pitName := d.name.withoutContentHash
  match answeredName s.pit pitName with
  | .error _ => s
  | .ok (some matched) => (s.notifyWaiters matched d).cacheAnswer d matched
  | .ok none =>
    if cacheUnsolicited then s.cacheAnswer d pitName
    else { s with pit := s.pit.remove pitName }

def receiveNack (s : Forwarder) (name : Name) (inFace : FaceId) : Forwarder :=
  { s with
    loop := (s.loop.record (.nack inFace name)).notify name.withoutContentHash .nack }

/-- The events that a forwarder reacts to. `tick` moves both clocks. -/
inductive Label where
  | express (i : Interest) (inFace : FaceId) (nonce : Bytes)
  | start (c : CallId)
  | sent (c : CallId)
  | sendRaised (c : CallId) (e : PyError)
  | resume (c : CallId)
  | timeout (c : CallId)
  | receiveData (d : Data) (inFace : FaceId) (cacheUnsolicited : Bool)
  | receiveNack (name : Name) (inFace : FaceId)
  | purgeExpired
  | tick (ms time : ℕ)
  | registerFace (face : FaceId)
  | withdrawFace (face : FaceId)
  | addRoute (namePrefix : Name) (face : FaceId) (cost : ℕ)
  | store (op : StoreOp)
  deriving DecidableEq, Repr

def step (s : Forwarder) : Label → Option Forwarder
  | .express i inFace nonce => some (s.express i inFace nonce)
  | .start c => s.start c
  | .sent c => s.sent c
  | .sendRaised c e => s.sendRaised c e
  | .resume c => s.resume c
  | .timeout c => s.timeout c
  | .receiveData d inFace cacheUnsolicited => some (s.receiveData d inFace cacheUnsolicited)
  | .receiveNack name inFace => some (s.receiveNack name inFace)
  | .purgeExpired => some { s with pit := s.pit.purgeExpired s.loop.monotonic }
  | .tick ms time =>
    some { s with loop := { s.loop with monotonic := s.loop.monotonic + ms }, time }
  | .registerFace face => some { s with faces := face :: s.faces }
  | .withdrawFace face =>
    some { s with fib := s.fib.removeAllForFace face, faces := s.faces.filter (· ≠ face) }
  | .addRoute namePrefix face cost => some { s with fib := s.fib.insert namePrefix face cost }
  | .store op => some { s with cs := s.cs.apply op }

/-- A forwarder before its first event, with any settings, routes, faces and stored rows. -/
structure Initial (s : Forwarder) : Prop where
  pit : s.pit.entries = .empty
  calls : ∀ c, s.loop.calls c = none
  notifiers : s.loop.notifiers = .empty
  log : s.loop.log = []

end Forwarder

end RnsIcn
