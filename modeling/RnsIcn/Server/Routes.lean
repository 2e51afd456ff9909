import RnsIcn.Forwarder.Fib
import RnsIcn.Lib.Transition
import RnsIcn.Server.Core

/-! # Links, faces and routes

A server opens a face on each link that it makes or accepts, and routes the prefix of
a configured peer over it. Pooled links are used again while they are up. A link has one
closed callback, which belongs to the face that was opened on it last.
-/

namespace RnsIcn

open Effect Transition

namespace Fib

/-- Some entry has the face as a next hop. -/
def Uses (t : Fib) (face : FaceId) : Prop := ∃ e ∈ t.entries, ∃ cost, (face, cost) ∈ e.faces

/-- The next hops of the entries with a prefix. -/
def nextHops (t : Fib) (namePrefix : Name) : List FaceId :=
  (t.entries.filter (·.namePrefix = namePrefix)).flatMap fun e => e.faces.map Prod.fst

theorem uses_insert {t : Fib} {n : Name} {face face' : FaceId} {cost : ℕ}
    (h : (t.insert n face cost).Uses face') : face' = face ∨ t.Uses face' := by
  obtain ⟨e, he, c, hc⟩ := h
  unfold insert at he
  rcases insertEntries_cases n face cost t.entries with ⟨l, x, r, hes, -, -, hi⟩ | ⟨-, hi⟩
  · have hold (e : FibEntry) (he : e ∈ l ++ x :: r) (hc : (face', c) ∈ e.faces) : t.Uses face' :=
      ⟨e, hes ▸ he, c, hc⟩
    rw [hi] at he
    rcases List.mem_append.mp he with he | he
    · exact .inr (hold e (by simp [he]) hc)
    · rcases List.mem_cons.mp he with rfl | he
      · apply (FibEntry.mem_setCost ((List.mem_insertionSort _).mp hc)).imp_right
        intro hx
        exact hold x (by simp) hx
      · exact .inr (hold e (by simp [he]) hc)
  · rw [hi] at he
    rcases List.mem_append.mp he with he | he
    · exact .inr ⟨e, he, c, hc⟩
    · obtain rfl := List.mem_singleton.mp he
      exact .inl (Prod.mk.inj (List.mem_singleton.mp hc)).1

theorem uses_removeAllForFace {t : Fib} {face face' : FaceId}
    (h : (t.removeAllForFace face).Uses face') : face' ≠ face ∧ t.Uses face' := by
  obtain ⟨e, he, c, hc⟩ := h
  obtain ⟨e', he', rfl⟩ := List.mem_map.mp (List.mem_filter.mp he).1
  obtain ⟨hc, hne⟩ := List.mem_filter.mp hc
  exact ⟨of_decide_eq_true hne, e', he', c, hc⟩

end Fib

abbrev LinkId := ℕ

/-- A configured peer: its destination hash, and the name of the identity that its
`identity_path` loads. -/
structure KnownPeer where
  destinationHash : Bytes
  namePrefix : Option Name
  deriving DecidableEq, Repr

/-- A call of `connect`, with the prefix to route over the link if it is for a route. -/
structure Dial where
  peer : Bytes
  namePrefix : Option Name
  deriving DecidableEq, Repr

def KnownPeer.dial (k : KnownPeer) : Dial := ⟨k.destinationHash, k.namePrefix⟩

/-- What the event loop is to run: the cleanup of a closed face, or the route to a peer that has
announced itself again. -/
inductive Task where
  | cleanupClosedFace (face : FaceId)
  | reinstall (peer : KnownPeer)
  deriving DecidableEq, Repr

/-- A server with its links. `backing` gives the link of every face ever opened, `onClosed` the face
that has the closed callback of a link, and `peers` the faces of the discovered peers. -/
structure Router where
  server : Server
  knownPeers : List KnownPeer := []
  nextLink : LinkId := 0
  backing : Dict FaceId LinkId := .empty
  onClosed : Dict LinkId FaceId := .empty
  closedFaces : List FaceId := []
  closedLinks : List LinkId := []
  pool : Dict Bytes LinkId := .empty
  dialling : List Dial := []
  peers : Dict Bytes (Option FaceId) := .empty
  reinstalls : Bool := false
  scheduled : List Task := []

namespace Router

def updatePeerFace (s : Router) (peer : Bytes) (face : FaceId) : Router :=
  if s.peers.contains peer then { s with peers := s.peers.set peer (some face) } else s

def clearFace (s : Router) (face : FaceId) : Router :=
  { s with peers := s.peers.mapValues fun f => if f = some face then none else f }

/-- `_new_face` and `_make_link_face`: the new face takes the closed callback of the link. -/
def makeLinkFace (s : Router) (link : LinkId) : Router :=
  { s with
    server := after Server.openFace s.server
    backing := s.backing.set s.server.nextFaceId link
    onClosed := s.onClosed.set link s.server.nextFaceId }

def addRoute (s : Router) (namePrefix : Name) (face : FaceId) (cost : ℕ) : Router :=
  { s with server := { s.server with forwarder := { s.server.forwarder with
      fib := s.server.forwarder.fib.insert namePrefix face cost } } }

/-- `connect` once it has the link, and the rest of `_install_peer_route`. -/
def linked (s : Router) (d : Dial) (link : LinkId) (cost : ℕ) : Router :=
  let face := s.server.nextFaceId
  let s := (s.makeLinkFace link).updatePeerFace d.peer face
  match d.namePrefix with
  | none => s
  | some namePrefix => s.addRoute namePrefix face cost

def liveLink (s : Router) (peer : Bytes) : Option LinkId :=
  (s.pool.get? peer).filter fun link => decide (link ∉ s.closedLinks)

/-- `connect` up to its wait for a new link, or to its end if the pool has a link that is up. -/
def connect (s : Router) (d : Dial) (cost : ℕ) : Router :=
  match s.liveLink d.peer with
  | some link => s.linked d link cost
  | none => { s with pool := s.pool.erase d.peer, dialling := d :: s.dialling }

def dialled (s : Router) (d : Dial) (up : Bool) (cost : ℕ) : Router :=
  let s := { s with dialling := s.dialling.erase d }
  if up then
    linked { s with nextLink := s.nextLink + 1, pool := s.pool.set d.peer s.nextLink } d
      s.nextLink cost
  else s

def onIncomingLink (s : Router) (peer : Bytes) : Router :=
  linked { s with nextLink := s.nextLink + 1 } ⟨peer, none⟩ s.nextLink 0

def cleanupClosedFace (s : Router) (face : FaceId) : Router :=
  { s with server := after (Server.cleanupClosedFace face) s.server }.clearFace face

/-- The callback of `_wire_route_reinstall`, if it is there. -/
def onRediscovered (s : Router) (peer : Bytes) : Router :=
  match s.knownPeers.reverse.find? (·.destinationHash = peer) with
  | some k => if s.reinstalls then { s with scheduled := .reinstall k :: s.scheduled } else s
  | none => s

def onAnnounce (s : Router) (peer : Bytes) : Router :=
  match s.peers.get? peer with
  | some (some _) => s
  | some none => s.onRediscovered peer
  | none => { s with peers := s.peers.set peer none }.onRediscovered peer

def closeLink (s : Router) (link : LinkId) : Router :=
  let s := { s with closedLinks := link :: s.closedLinks }
  match s.onClosed.get? link with
  | none => s
  | some face =>
    if face ∈ s.closedFaces then s
    else
      { s with
        closedFaces := face :: s.closedFaces
        scheduled := .cleanupClosedFace face :: s.scheduled }

def dropIdle (s : Router) (peer : Bytes) : Router :=
  match s.liveLink peer with
  | some link => { s with pool := s.pool.erase peer }.closeLink link
  | none => { s with pool := s.pool.erase peer }

def runTask (s : Router) (t : Task) (cost : ℕ) : Router :=
  let s := { s with scheduled := s.scheduled.erase t }
  match t with
  | .cleanupClosedFace face => s.cleanupClosedFace face
  | .reinstall k => s.connect k.dial cost

/-- The events of links, announces and calls. -/
inductive Label where
  | connect (peer : Bytes)
  | installPeerRoute (k : KnownPeer) (cost : ℕ)
  | wireRouteReinstall
  | dialled (d : Dial) (up : Bool) (cost : ℕ)
  | incomingLink (peer : Bytes)
  | announce (peer : Bytes)
  | closeLink (link : LinkId)
  | dropIdle (peer : Bytes)
  | run (t : Task) (cost : ℕ)
  deriving DecidableEq, Repr

def step (s : Router) : Label → Option Router
  | .connect peer => some (s.connect ⟨peer, none⟩ 0)
  | .installPeerRoute k cost => some (s.connect k.dial cost)
  | .wireRouteReinstall => some { s with reinstalls := true }
  | .dialled d up cost => if d ∈ s.dialling then some (s.dialled d up cost) else none
  | .incomingLink peer => some (s.onIncomingLink peer)
  | .announce peer => some (s.onAnnounce peer)
  | .closeLink link =>
    if link < s.nextLink ∧ link ∉ s.closedLinks then some (s.closeLink link) else none
  | .dropIdle peer => some (s.dropIdle peer)
  | .run t cost => if t ∈ s.scheduled then some (s.runTask t cost) else none

/-- A server without links. -/
structure Initial (s : Router) : Prop where
  faces : s.server.faces = []
  forwarderFaces : s.server.forwarder.faces = []
  fib : s.server.forwarder.fib.entries = []
  backing : s.backing = .empty
  onClosed : s.onClosed = .empty
  closedFaces : s.closedFaces = []
  closedLinks : s.closedLinks = []
  pool : s.pool = .empty
  dialling : s.dialling = []
  scheduled : s.scheduled = []

end Router

end RnsIcn
