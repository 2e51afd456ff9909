import RnsIcn.Lib.Dict
import RnsIcn.Lib.Transition
import RnsIcn.Wire.Name

/-! # The pool of outbound links

One link is kept for each peer and handed out again while it is active. A call that
finds none creates one, which suspends it while a path is looked for and the link is
established. A monitor tears down the links whose last activity is too long ago.
-/

namespace RnsIcn

abbrev LinkRef := ℕ

inductive LinkStatus where
  | pending | handshake | active | stale | closed
  deriving DecidableEq, Repr

structure Link where
  peer : Bytes
  status : LinkStatus := .pending
  deriving DecidableEq, Repr

/-- Where a call of `get_link` is suspended, or what it returned. -/
inductive PoolPhase where
  | resolving (start : ℕ)
  | establishing (link : LinkRef) (start : ℕ)
  | returned (link : Option LinkRef)
  deriving DecidableEq, Repr

structure PoolCall where
  peer : Bytes
  phase : PoolPhase
  deriving DecidableEq, Repr

/-- What happened to a link, with the time. Packets are those sent and received. -/
inductive LinkEvent where
  | handedOut (link : LinkRef) (time : ℕ)
  | packet (link : LinkRef) (time : ℕ)
  | tornDown (link : LinkRef) (time : ℕ)
  deriving DecidableEq, Repr

/-- The pool, its calls and the links that were ever created. Times are in milliseconds, and the
log has the newest event first. -/
structure LinkPool where
  links : Dict Bytes LinkRef := .empty
  health : Dict Bytes ℕ := .empty
  created : LinkRef → Option Link := fun _ => none
  nextLink : LinkRef := 0
  calls : ℕ → Option PoolCall := fun _ => none
  nextCall : ℕ := 0
  time : ℕ := 0
  log : List LinkEvent := []

namespace LinkPool

def PATH_TIMEOUT : ℕ := 30000
def LINK_TIMEOUT : ℕ := 120000
def IDLE_LIMIT : ℕ := 120000

def status (s : LinkPool) (link : LinkRef) : Option LinkStatus := (s.created link).map Link.status

def setStatus (s : LinkPool) (link : LinkRef) (status : LinkStatus) : LinkPool :=
  { s with
    created := Function.update s.created link ((s.created link).map ({ · with status })) }

def setCall (s : LinkPool) (c : ℕ) (call : PoolCall) : LinkPool :=
  { s with calls := Function.update s.calls c (some call) }

theorem created_setStatus_self (s : LinkPool) (link : LinkRef) (status : LinkStatus) :
    (s.setStatus link status).created link = (s.created link).map ({ · with status }) :=
  Function.update_self ..

theorem created_setStatus_ne (s : LinkPool) {link link' : LinkRef} (status : LinkStatus)
    (h : link' ≠ link) : (s.setStatus link status).created link' = s.created link' :=
  Function.update_of_ne h _ _

theorem calls_setCall_self (s : LinkPool) (c : ℕ) (call : PoolCall) :
    (s.setCall c call).calls c = some call := Function.update_self ..

theorem calls_setCall_ne (s : LinkPool) {c c' : ℕ} (call : PoolCall) (h : c' ≠ c) :
    (s.setCall c call).calls c' = s.calls c' := Function.update_of_ne h _ _

/-- Put a link into the pool, or keep it there, and hand it out to the call. -/
def handOut (s : LinkPool) (c : ℕ) (peer : Bytes) (link : LinkRef) : LinkPool :=
  { s with
    links := s.links.set peer link
    health := s.health.set peer s.time
    log := .handedOut link s.time :: s.log }.setCall c ⟨peer, .returned (some link)⟩

/-- `_create_link` up to its first suspension. Without an identity there is none. -/
def createLink (s : LinkPool) (c : ℕ) (peer : Bytes) (identity : Bool) : LinkPool :=
  s.setCall c ⟨peer, if identity then .resolving s.time else .returned none⟩

/-- `get_link` up to its first suspension. -/
def getLink (s : LinkPool) (peer : Bytes) (identity : Bool) : LinkPool :=
  let c := s.nextCall
  let s := { s with nextCall := c + 1 }
  match s.links.get? peer with
  | some link =>
    if s.status link = some .active then s.handOut c peer link
    else
      { s with links := s.links.erase peer, health := s.health.erase peer }.createLink c peer
        identity
  | none => s.createLink c peer identity

/-- A turn of the loop of `_ensure_path`; with a path the link is requested. -/
def pollPath (s : LinkPool) (c : ℕ) (hasPath : Bool) : Option LinkPool :=
  (s.calls c).bind fun call =>
    match call.phase with
    | .resolving start =>
      if hasPath then
        some ({ s with
          created := Function.update s.created s.nextLink (some { peer := call.peer })
          nextLink := s.nextLink + 1
        }.setCall c { call with phase := .establishing s.nextLink s.time })
      else if s.time - start < PATH_TIMEOUT then some s
      else some (s.setCall c { call with phase := .returned none })
    | _ => none

/-- A turn of the loop of `_create_link`, after its sleep. -/
def pollLink (s : LinkPool) (c : ℕ) : Option LinkPool :=
  (s.calls c).bind fun call =>
    match call.phase with
    | .establishing link start =>
      if LINK_TIMEOUT < s.time - start then
        some ((s.setStatus link .closed).setCall c { call with phase := .returned none })
      else match s.status link with
        | some .active => some (s.handOut c call.peer link)
        | some .closed => some (s.setCall c { call with phase := .returned none })
        | _ => some s
    | _ => none

def dead (s : LinkPool) : List Bytes :=
  (s.health.items.filter fun e => IDLE_LIMIT < s.time - e.2).map Prod.fst

def evict (s : LinkPool) (peer : Bytes) : LinkPool :=
  match s.links.get? peer with
  | some link =>
    { s.setStatus link .closed with
      links := s.links.erase peer
      health := s.health.erase peer
      log := .tornDown link s.time :: s.log }
  | none => s

/-- A turn of the loop of `_monitor_links`. -/
def monitorLinks (s : LinkPool) : LinkPool := s.dead.foldl evict s

/-- A packet goes over a link that is not closed. -/
def packet (s : LinkPool) (link : LinkRef) : Option LinkPool :=
  match s.status link with
  | none | some .closed => none
  | some _ => some { s with log := .packet link s.time :: s.log }

/-- The events around the pool. Links change their status by themselves, but a closed one stays
closed. -/
inductive Label where
  | getLink (peer : Bytes) (identity : Bool)
  | pollPath (c : ℕ) (hasPath : Bool)
  | pollLink (c : ℕ)
  | linkStatus (link : LinkRef) (status : LinkStatus)
  | packet (link : LinkRef)
  | monitorLinks
  | tick (ms : ℕ)
  deriving DecidableEq, Repr

def step (s : LinkPool) : Label → Option LinkPool
  | .getLink peer identity => some (s.getLink peer identity)
  | .pollPath c hasPath => s.pollPath c hasPath
  | .pollLink c => s.pollLink c
  | .linkStatus link status =>
    if s.status link = some .closed then none else some (s.setStatus link status)
  | .packet link => s.packet link
  | .monitorLinks => some s.monitorLinks
  | .tick ms => some { s with time := s.time + ms }

/-- A pool before its first call. -/
structure Initial (s : LinkPool) : Prop where
  links : s.links = .empty
  health : s.health = .empty
  created : ∀ link, s.created link = none
  calls : ∀ c, s.calls c = none
  log : s.log = []

end LinkPool

end RnsIcn
