import RnsIcn.Forwarder.Core
import RnsIcn.Lib.Effect
import RnsIcn.Wire.Parse

/-! # The server

A server owns a forwarder whose faces are links to clients and to other servers.
Its handlers run without interruption up to the point where they wait for the
forwarder or for a peer. The state keeps a log of what was handed to the faces, of
the names and contents that local operations created and of the Data that was
signed.
-/

namespace RnsIcn

open Effect

def MANIFEST_LABEL : Bytes := [0x6d, 0x61, 0x6e, 0x69, 0x66, 0x65, 0x73, 0x74]

def HEALTH_NAME_COMPONENT : Bytes := [0x68, 0x65, 0x61, 0x6c, 0x74, 0x68]

def FEATURE_NACK : ℕ := 0x20

inductive Suspended where
  | forwarding (c : CallId) (face : FaceId) (i : Interest)
  | buildingManifest (face : FaceId)
  | syncing (face : FaceId)
  deriving DecidableEq, Repr

/-- A server. The logs are newest first, and `created` holds names without their pin. -/
structure Server where
  rnsAddr : Bytes
  signer : Option (Bytes → Bytes) := none
  invalidationVerifier : Option (Invalidate → Bool) := none
  metaFreshnessPeriod : ℕ := 15
  forwarder : Forwarder := {}
  nextFaceId : FaceId := 100
  faces : List FaceId := []
  peerFeatures : Dict FaceId ℕ := .empty
  peers : Dict FaceId Bytes := .empty
  subscriptions : Dict Name (List FaceId) := .empty
  offlineQueue : Dict Name (List Data) := .empty
  seenInvalidations : Dict Bytes ℕ := .empty
  suspended : List Suspended := []
  sent : List (FaceId × Packet) := []
  created : List (Name × Bytes) := []
  signed : List Data := []

abbrev Handler := Effect PyError Server

def Packet.toBytes : Packet → Except PyError Bytes
  | .interest i => i.toBytes
  | .data d => d.toBytes
  | .subscribe s => s.toBytes
  | .peer p => p.toBytes
  | .capPeer c => c.toBytes
  | .invalidate v => v.toBytes
  | .nack n => n.toBytes

def isHealthInterest (n : Name) : Bool := !n.isRoot && n.path == [HEALTH_NAME_COMPONENT]

variable [Hashlib]

/-- How `receive_data` ends, which raises where the insertion does. -/
def Forwarder.receiveOutcome (s : Forwarder) (d : Data) (cacheUnsolicited : Bool) :
    Except PyError Unit :=
  match answeredName s.pit d.name.withoutContentHash with
  | .error e => .error e
  | .ok none => if cacheUnsolicited then discard (s.cs.insert d.name d s.time) else .ok ()
  | .ok (some _) => discard (s.cs.insert d.name d s.time)

/-- `_unwrap_payload` and the parsing of a completed Resource; other Resources are ignored. -/
def resourceData : Bytes → Option Data
  | [] => none
  | tag :: inner => if tag = 0x49 then (Data.fromBytes inner).toOption else none

def Invalidate.sign (v : Invalidate) (signer : Bytes → Bytes) : Except PyError Invalidate := do
  let sig := signer (blake2b (← v.signedBytes))
  if sig.length ≠ SIGNATURE_BYTES then
    throw (.invalidateError s!"signature must be 64 bytes, got {sig.length}")
  return { v with signature := some sig }

namespace Server

def manifestName (s : Server) : Except PyError Name := Name.new s.rnsAddr [MANIFEST_LABEL]

def send (face : FaceId) (p : Packet) : Handler Unit := do
  let s ← get
  if face ∈ s.faces then
    let _ ← ofExcept p.toBytes
    modify fun s => { s with sent := (face, p) :: s.sent }

def trySend (face : FaceId) (d : Data) (otherwise : Handler Unit := pure ()) : Handler Unit :=
  tryCatch (send face (.data d)) fun _ => otherwise

def onStore (op : StoreOp) : Handler Unit :=
  modify fun s => { s with forwarder := { s.forwarder with cs := s.forwarder.cs.apply op } }

def csGet (n : Name) : Handler (Option Data) := do
  let s ← get
  onStore (.get n s.forwarder.time)
  ofExcept (s.forwarder.cs.get n s.forwarder.time).2

def csGetPrefix (n : Name) (child : ChildSelector) (minSequence : Option ℕ) :
    Handler (Option Data) := do
  let s ← get
  onStore (.getPrefix n child minSequence s.forwarder.time)
  ofExcept (s.forwarder.cs.getPrefix n child minSequence s.forwarder.time).2

def csInsert (n : Name) (d : Data) : Handler Unit := do
  let s ← get
  onStore (.insert n d s.forwarder.time)
  ofExcept (discard (s.forwarder.cs.insert n d s.forwarder.time))

def csInvalidate (n : Name) (byPrefix : Bool) : Handler Unit := do
  let s ← get
  onStore (.invalidate n byPrefix)
  ofExcept (discard (s.forwarder.cs.invalidate n byPrefix))

def maybeSign (d : Data) : Handler Data := do
  let s ← get
  match s.signer with
  | none => return d
  | some signer =>
    if d.signature = none ∧ d.name.rnsAddr = s.rnsAddr then
      let d ← ofExcept (d.sign signer s.forwarder.time)
      modify fun s => { s with signed := d :: s.signed }
      return d
    else return d

def maybeSignOpt : Option Data → Handler (Option Data)
  | none => return none
  | some d => some <$> maybeSign d

/-- `_cs_lookup`: a cache declines an "oldest" answer above the floor, the producer does not. -/
def csLookup (i : Interest) : Handler (Option Data) := do
  let s ← get
  if i.canBePrefix then
    let hit ← maybeSignOpt (← csGetPrefix i.name i.child i.minSequence)
    return hit.filter fun d => !(Forwarder.walkSkips i d && i.name.rnsAddr != s.rnsAddr)
  else maybeSignOpt (← csGet i.name)

/-- `_serve_from_cs`: a cache declines stale Data for an Interest that must be fresh. -/
def serveFromCs (i : Interest) : Handler (Option Data) := do
  let s ← get
  let hit ← csLookup i
  return hit.filter fun d =>
    !(i.mustBeFresh && !d.metadata.freshness.fresh && i.name.rnsAddr != s.rnsAddr)

def create (n : Name) (content : Bytes) : Handler Unit :=
  modify fun s => { s with created := (n.withoutContentHash, content) :: s.created }

def suspend (h : Suspended) : Handler Unit :=
  modify fun s => { s with suspended := h :: s.suspended }

def resumed (h : Suspended) : Handler Unit :=
  modify fun s => { s with suspended := s.suspended.erase h }

def maybeSendNack (i : Interest) (face : FaceId) : Handler Unit := do
  let s ← get
  if (s.peerFeatures.get? face).getD 0 &&& FEATURE_NACK ≠ 0 then
    let reason : NackReason := if s.forwarder.pit.isFull then .congestion else .noRoute
    send face (.nack { name := i.name, reason })

/-- `handle_interest` up to its first suspension; `nonce` is what a background refresh draws. -/
def handleInterest (i : Interest) (face : FaceId) (nonce : Bytes) : Handler Unit := do
  match ← serveFromCs i with
  | some d => send face (.data d)
  | none =>
    let s ← get
    if i.name = (← ofExcept s.manifestName) then suspend (.buildingManifest face)
    else
      suspend (.forwarding s.forwarder.loop.nextCall face i)
      modify fun s => { s with forwarder := s.forwarder.express i face nonce }

/-- The end of `handle_interest` after `express`. -/
def answerForwarded (c : CallId) (face : FaceId) (i : Interest) (phase : Phase) :
    Handler Unit := do
  resumed (.forwarding c face i)
  match phase with
  | .returned (some d) => send face (.data d)
  | .raised e => throw e
  | _ => maybeSendNack i face

/-- The end of `_build_manifest_data`, for the text of the manifest. -/
def buildManifestData (text : Bytes) : Handler Data := do
  let s ← get
  let name ← ofExcept s.manifestName
  create name text
  maybeSign ((Data.new name text).withSequence 1)

/-- The end of `handle_interest` for the manifest. -/
def answerManifest (face : FaceId) (text : Bytes) : Handler Unit := do
  resumed (.buildingManifest face)
  let d ← buildManifestData text
  csInsert d.name d
  send face (.data d)

/-- `APSManager.get_subscriber_faces` -/
def subscriberFaces (s : Server) (n : Name) : List FaceId :=
  ((s.subscriptions.items.filter fun e => n.startsWith e.1 || e.1.startsWith n).flatMap
    Prod.snd).dedup

def enqueueForFace (face : FaceId) (d : Data) : Handler Unit :=
  modify fun s => { s with
    offlineQueue := (s.subscriptions.items.filter fun e =>
      e.2.contains face && (d.name.startsWith e.1 || e.1.startsWith d.name)).foldl
        (fun q e => q.set e.1 ((q.get? e.1).getD [] ++ [d])) s.offlineQueue }

def apsPublish (d : Data) : Handler Unit := do
  let s ← get
  (s.subscriberFaces d.name).forM fun face =>
    if face ∈ s.faces then trySend face d (enqueueForFace face d) else enqueueForFace face d

def drain (stream : Name) (face : FaceId) : Handler Unit := do
  let s ← get
  if face ∈ s.faces then
    modify fun s => { s with offlineQueue := s.offlineQueue.erase stream }
    ((s.offlineQueue.get? stream).getD []).forM fun d => trySend face d

def subscribe (n : Name) (face : FaceId) : Handler Unit :=
  modify fun s =>
    let faces := (s.subscriptions.get? n).getD []
    { s with
      subscriptions := s.subscriptions.set n (if face ∈ faces then faces else faces ++ [face]) }

/-- An entry that `handle_subscribe` replays. -/
def replay (face : FaceId) (n : Name) : Handler Unit := do
  match ← maybeSignOpt (← csGet n) with
  | some d => send face (.data d)
  | none => pure ()

def handleSubscribe (sub : APSubscribe) (face : FaceId) : Handler Unit := do
  subscribe sub.name face
  if !sub.startFromNow then
    let s ← get
    let names ← ofExcept s.forwarder.cs.entryNames
    (names.filter (·.startsWith sub.name)).forM (replay face)
  drain sub.name face

def propagate (d : Data) (excludeFace : Option FaceId := none) : Handler Unit := do
  let s ← get
  (s.peers.keys.filter fun face => some face != excludeFace).forM fun face => trySend face d

/-- `forwarder.receive_data`, which may raise after it has changed the tables. -/
def receiveData (d : Data) (face : FaceId) (cacheUnsolicited : Bool) : Handler Unit := do
  let s ← get
  modify fun s => { s with forwarder := s.forwarder.receiveData d face cacheUnsolicited }
  ofExcept (s.forwarder.receiveOutcome d cacheUnsolicited)

def handleData (d : Data) (face : FaceId) : Handler Unit := receiveData d face false

def handlePeerData (d : Data) (face : FaceId) : Handler Unit := do
  receiveData d face true
  propagate d (some face)

/-- `_aps_subscribe` to each stream. -/
def apsSubscribe (face : FaceId) (streams : List Name) : Handler Unit :=
  streams.forM fun n => send face (.subscribe { name := n.withoutContentHash })

/-- `propagate_to_new_peer`, for the streams that the local manifest lists. -/
def propagateToNewPeer (face : FaceId) (streams : List Name) : Handler Unit := do
  let s ← get
  if streams ≠ [] then
    apsSubscribe face streams
    apsSubscribe face [← ofExcept s.manifestName]

/-- `sync_from_peer` up to the wait for the manifest of the peer. -/
def syncFromPeer (addr : Bytes) (face : FaceId) (nonce : Bytes) : Handler Unit := do
  let name ← ofExcept (Name.new addr [MANIFEST_LABEL])
  let s ← get
  if face ∈ s.faces then
    tryCatch (do
      send face (.interest { name, nonce, lifetimeMs := 10000 })
      suspend (.syncing face)) fun _ => pure ()

def handlePeerHandshake (p : PropPeer) (face : FaceId) (nonce : Bytes) (streams : List Name) :
    Handler Unit := do
  modify fun s => { s with peers := s.peers.set face p.rnsAddr }
  let peerPrefix ← ofExcept (Name.new p.rnsAddr)
  modify fun s => { s with
    forwarder := { s.forwarder with fib := s.forwarder.fib.insert peerPrefix face 20 } }
  if p.wantsSync then propagateToNewPeer face streams
  syncFromPeer p.rnsAddr face nonce

/-- The end of `sync_from_peer`, for the streams that the manifest of the peer lists. -/
def finishSync (face : FaceId) (streams : List Name) : Handler Unit := do
  resumed (.syncing face)
  apsSubscribe face streams

def invalidationIsFresh (v : Invalidate) : Handler Bool := do
  let s ← get
  let key ← ofExcept (ContentStore.nameHash v.name)
  if (s.seenInvalidations.get? key).any (v.epoch ≤ ·) then return false
  else
    modify fun s => { s with seenInvalidations := s.seenInvalidations.set key v.epoch }
    return true

def applyInvalidate (v : Invalidate) (exclude : Option FaceId) : Handler Unit := do
  csInvalidate v.name v.isPrefix
  let _ ← ofExcept v.toBytes
  let s ← get
  (s.faces.filter fun face => some face != exclude).forM fun face => send face (.invalidate v)

def handleInvalidate (v : Invalidate) (face : FaceId) : Handler Unit := do
  let s ← get
  if s.invalidationVerifier.any (· v) then
    if ← invalidationIsFresh v then applyInvalidate v (some face)

def invalidate (n : Name) (byPrefix : Bool) : Handler Unit := do
  let s ← get
  match s.signer with
  | none => throw (.runtimeError "cannot invalidate without a signer configured")
  | some signer =>
    let v ← ofExcept (Invalidate.sign { name := n, epoch := s.forwarder.time, isPrefix := byPrefix }
      signer)
    let _ ← invalidationIsFresh v
    applyInvalidate v none

def publishLatestPointer (n : Name) (d : Data) (sequence : Option ℕ) (latestUnder : Option Name) :
    Handler Unit := do
  let s ← get
  match d.metadata.contentHash with
  | none => pure ()
  | some contentHash =>
    if latestUnder = none ∧ n.len ≤ 1 then pure ()
    else
      let collection ← ofExcept (latestUnder.elim (Name.new s.rnsAddr n.path.dropLast) .ok)
      let target ← ofExcept (n.withContentHash contentHash)
      let metaName ← ofExcept (Discovery.metaName collection)
      let payload ← ofExcept (Discovery.encodeMeta target)
      let pointer := Data.new metaName payload
      let pointer := (sequence.elim pointer pointer.withSequence).withFreshnessPeriod
        s.metaFreshnessPeriod
      create metaName payload
      csInsert metaName pointer

/-- The Data of `publish_content` and `publish_post`, for content that was encrypted if its prefix
is restricted. -/
def edition (n : Name) (content : Bytes) (encrypted : Bool) (sequence : Option ℕ) : Data :=
  let d := Data.new n content
  let d := { d with metadata := { d.metadata with encrypted } }
  sequence.elim d d.withSequence

def publishContent (n : Name) (content : Bytes) (encrypted : Bool) (sequence : Option ℕ)
    (latestUnder : Option Name) : Handler Unit := do
  let d := edition n content encrypted sequence
  create n content
  csInsert n d
  publishLatestPointer n d sequence latestUnder

def publishPost (n : Name) (content : Bytes) (encrypted : Bool) (sequence : ℕ)
    (latestUnder : Option Name) : Handler Unit := do
  create n content
  let d ← maybeSign (edition n content encrypted (some sequence))
  csInsert n d
  publishLatestPointer n d (some sequence) latestUnder
  apsPublish d
  propagate d

def publishPushed (d : Data) : Handler Unit := do
  create d.name d.content
  let d ← maybeSign d
  csInsert d.name d
  apsPublish d
  propagate d

/-- `publish_manifest`, for the text of the manifest. -/
def publishManifest (text : Bytes) : Handler Unit := do
  let s ← get
  let name ← ofExcept s.manifestName
  create name text
  csInsert name ((Data.new name text).withSequence 1)

/-- What a handler takes from outside the model: a nonce, the text of a health report and the
streams that the local manifest lists. -/
structure Drawn where
  nonce : Bytes
  health : Bytes
  streams : List Name
  deriving DecidableEq, Repr

/-- The dispatch of `handle_incoming`. -/
def handlePacket (face : FaceId) (drawn : Drawn) : Packet → Handler Unit
  | .capPeer c => modify fun s => { s with peerFeatures := s.peerFeatures.set face c.features }
  | .interest i =>
    if isHealthInterest i.name then send face (.data (Data.new i.name drawn.health))
    else handleInterest i face drawn.nonce
  | .data d => do
    let s ← get
    if s.peers.contains face then handlePeerData d face else handleData d face
  | .subscribe sub => handleSubscribe sub face
  | .invalidate v => handleInvalidate v face
  | .nack n => modify fun s => { s with forwarder := s.forwarder.receiveNack n.name face }
  | .peer p => handlePeerHandshake p face drawn.nonce drawn.streams

/-- `handle_incoming`: what does not parse is dropped. -/
def handleIncoming (face : FaceId) (raw : Bytes) (drawn : Drawn) : Handler Unit :=
  match parsePacket raw with
  | .error _ => pure ()
  | .ok p => handlePacket face drawn p

/-- `_on_resource_data`, for a completed Resource. -/
def handleResource (payload : Bytes) : Handler Unit :=
  match resourceData payload with
  | none => pure ()
  | some d => csInsert d.name d

/-- `_new_face` -/
def openFace : Handler Unit :=
  modify fun s => { s with
    nextFaceId := s.nextFaceId + 1
    faces := s.nextFaceId :: s.faces
    forwarder := { s.forwarder with faces := s.nextFaceId :: s.forwarder.faces } }

def cleanupClosedFace (face : FaceId) : Handler Unit :=
  modify fun s => { s with
    faces := s.faces.filter (· ≠ face)
    peerFeatures := s.peerFeatures.erase face
    forwarder := { s.forwarder with
      fib := s.forwarder.fib.removeAllForFace face
      faces := s.forwarder.faces.filter (· ≠ face) } }

def storesNothing : StoreOp → Bool
  | .insert .. => false
  | _ => true

def isInternal : Forwarder.Label → Bool
  | .receiveData .. | .receiveNack .. | .registerFace _ | .withdrawFace _ => false
  | .store op => storesNothing op
  | _ => true

/-- The events of a server. -/
inductive Label where
  | incoming (face : FaceId) (raw : Bytes) (drawn : Drawn)
  | resource (payload : Bytes)
  | forwarded (c : CallId)
  | manifest (face : FaceId) (text : Bytes)
  | synced (face : FaceId) (streams : List Name)
  | publishContent (n : Name) (content : Bytes) (encrypted : Bool) (sequence : Option ℕ)
      (latestUnder : Option Name)
  | publishPost (n : Name) (content : Bytes) (encrypted : Bool) (sequence : ℕ)
      (latestUnder : Option Name)
  | publishPushed (d : Data)
  | publishManifest (text : Bytes)
  | invalidate (n : Name) (byPrefix : Bool)
  | forwarder (l : Forwarder.Label)
  | openFace
  | closeFace (face : FaceId)
  deriving DecidableEq, Repr

def waitingFor (c : CallId) : List Suspended → Option (FaceId × Interest)
  | [] => none
  | .forwarding c' face i :: rest => if c' = c then some (face, i) else waitingFor c rest
  | _ :: rest => waitingFor c rest

def forwarded (s : Server) (c : CallId) : Option Server :=
  (waitingFor c s.suspended).bind fun (face, i) =>
    (s.forwarder.loop.calls c).bind fun call =>
      match call.phase with
      | .returned r => some (after (answerForwarded c face i (.returned r)) s)
      | .raised e => some (after (answerForwarded c face i (.raised e)) s)
      | _ => none

def step (s : Server) : Label → Option Server
  | .incoming face raw drawn => some (after (handleIncoming face raw drawn) s)
  | .resource payload => some (after (handleResource payload) s)
  | .forwarded c => s.forwarded c
  | .manifest face text =>
    if .buildingManifest face ∈ s.suspended then some (after (answerManifest face text) s)
    else none
  | .synced face streams =>
    if .syncing face ∈ s.suspended then some (after (finishSync face streams) s) else none
  | .publishContent n content encrypted sequence latestUnder =>
    some (after (Server.publishContent n content encrypted sequence latestUnder) s)
  | .publishPost n content encrypted sequence latestUnder =>
    some (after (Server.publishPost n content encrypted sequence latestUnder) s)
  | .publishPushed d => some (after (Server.publishPushed d) s)
  | .publishManifest text => some (after (Server.publishManifest text) s)
  | .invalidate n byPrefix => some (after (Server.invalidate n byPrefix) s)
  | .forwarder l =>
    if isInternal l then (s.forwarder.step l).map fun forwarder => { s with forwarder } else none
  | .openFace => some (after Server.openFace s)
  | .closeFace face => some (after (cleanupClosedFace face) s)

/-- A server before its first event, with any settings and an empty store. -/
structure Initial (s : Server) : Prop where
  forwarder : s.forwarder.Initial
  content : s.forwarder.cs.content = .empty
  namePrefixes : s.forwarder.cs.namePrefixes = []
  suspended : s.suspended = []
  offlineQueue : s.offlineQueue = .empty
  sent : s.sent = []
  signed : s.signed = []

end Server

end RnsIcn
