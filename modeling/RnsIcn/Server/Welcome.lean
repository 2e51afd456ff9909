import RnsIcn.Server.Entries

/-! # The handshake with a new peer

A server that is asked for its content builds the entries of its manifest and sends the
new peer a Subscribe for the name of each. A Subscribe makes its receiver send content, so
the peer is asked for what it was to be given.
-/

namespace RnsIcn

open Effect Fallible

namespace Server

section Handshake

variable [Hashlib]

/-- `propagate_to_new_peer` -/
def propagateEntries (face : FaceId) : Handler Unit := do
  let entries ← buildManifestEntries
  propagateToNewPeer face (entries.map fun e => e.name.withoutContentHash)

/-- `handle_peer_handshake`, where the peer does not answer the Interest for its manifest. -/
def welcome (p : PropPeer) (face : FaceId) (nonce : Bytes) : Handler Unit := do
  modify fun s => { s with peers := s.peers.set face p.rnsAddr }
  let peerPrefix ← ofExcept (Name.new p.rnsAddr)
  modify fun s => { s with
    forwarder := { s.forwarder with fib := s.forwarder.fib.insert peerPrefix face 20 } }
  if p.wantsSync then propagateEntries face
  syncFromPeer p.rnsAddr face nonce
  finishSync face []

/-- The Data is stored under the address of the server, and its content matches its hash. -/
def Owns (s : Server) (d : Data) : Prop :=
  d.name.startsWith ⟨s.rnsAddr, [], none⟩ = true ∧
    ∃ key row, s.forwarder.cs.HoldsRow d.name key row ∧ ContentStore.verifyContent row = true ∧
      d = ContentStore.rowData row d.name s.forwarder.time

/-- Handling the handshake hands the face all that is stored under the address of the server. -/
def GivesContent (s : Server) (p : PropPeer) (face : FaceId) (nonce : Bytes) : Prop :=
  ∀ d, s.Owns d → Handed face d s (after (welcome p face nonce) s)

end Handshake

def Asked (face : FaceId) (v s : Server) : Prop :=
  ∃ new, s.sent = new ++ v.sent ∧
    ∀ x ∈ new, x.1 = face ∧ ((∃ sub, x.2 = .subscribe sub) ∨ ∃ i, x.2 = .interest i)

variable {v s : Server} {face : FaceId}

theorem Asked.of_sent (h : Asked face v s) {t : Server} (ht : t.sent = s.sent) :
    Asked face v t := by
  obtain ⟨new, hnew, hall⟩ := h
  exact ⟨new, ht.trans hnew, hall⟩

theorem keeps_asked {g : Server → Server} (hg : ∀ s, (g s).sent = s.sent) :
    Keeps (Asked face v) (modify g : Handler Unit) :=
  Keeps.modify fun s hs => hs.of_sent (hg s)

theorem keeps_asked_send {p : Packet}
    (hp : (∃ sub, p = .subscribe sub) ∨ ∃ i, p = .interest i) :
    Keeps (Asked face v) (send face p) := by
  refine Keeps.get.bind fun s => ?_
  split
  · refine (Keeps.ofExcept _).bind fun _ => Keeps.modify fun s hs => ?_
    obtain ⟨new, hnew, hall⟩ := hs
    refine ⟨(face, p) :: new, by rw [hnew]; rfl, ?_⟩
    exact List.forall_mem_cons.mpr ⟨⟨rfl, hp⟩, hall⟩
  · exact Keeps.pure _

theorem keeps_asked_apsSubscribe (streams : List Name) :
    Keeps (Asked face v) (apsSubscribe face streams) :=
  Keeps.forM fun _ _ => keeps_asked_send (.inl ⟨_, rfl⟩)

theorem keeps_asked_propagateToNewPeer (streams : List Name) :
    Keeps (Asked face v) (propagateToNewPeer face streams) := by
  refine Keeps.get.bind fun s => ?_
  split
  · exact (keeps_asked_apsSubscribe streams).bind fun _ => (Keeps.ofExcept _).bind fun _ =>
      keeps_asked_apsSubscribe _
  · exact Keeps.pure _

theorem keeps_asked_syncFromPeer (addr nonce : Bytes) :
    Keeps (Asked face v) (syncFromPeer addr face nonce) := by
  refine (Keeps.ofExcept _).bind fun name => Keeps.get.bind fun s => ?_
  split
  · refine Keeps.tryCatch ?_ fun _ => Keeps.pure _
    exact (keeps_asked_send (.inr ⟨_, rfl⟩)).bind fun _ => keeps_asked fun _ => rfl
  · exact Keeps.pure _

variable [Hashlib]

theorem keeps_asked_fileName (groups : Dict String (Data × List Data)) (n : Name) :
    Keeps (Asked face v) (fileName groups n) := by
  have hget : Keeps (Asked face v) (csGet n) := by
    refine Keeps.get.bind fun s => Keeps.bind ?_ fun _ => Keeps.ofExcept _
    exact keeps_asked fun _ => rfl
  refine hget.bind fun r => ?_
  cases r with
  | none => exact Keeps.pure _
  | some d => exact Keeps.pure _

theorem keeps_asked_buildManifestEntries :
    Keeps (Asked face v) buildManifestEntries := by
  have hfold (l : List Name) (groups : Dict String (Data × List Data)) :
      Keeps (Asked face v) (l.foldlM fileName groups) := by
    induction l generalizing groups with
    | nil => exact Keeps.pure _
    | cons n l ih => exact (keeps_asked_fileName groups n).bind fun groups => ih groups
  refine Keeps.get.bind fun s => (Keeps.ofExcept _).bind fun _ => (Keeps.ofExcept _).bind
    fun _ => ?_
  exact (hfold _ _).bind fun _ => Keeps.pure _

/-- Handling a handshake sends the new peer Subscribes and an Interest, and nothing else. -/
theorem keeps_asked_welcome (p : PropPeer) (nonce : Bytes) :
    Keeps (Asked face v) (welcome p face nonce) := by
  refine Keeps.bind (keeps_asked fun _ => rfl) fun _ => (Keeps.ofExcept _).bind fun _ => ?_
  refine Keeps.bind (keeps_asked fun _ => rfl) fun _ => ?_
  have hrest : Keeps (Asked face v) (do
      syncFromPeer p.rnsAddr face nonce
      finishSync face []) :=
    (keeps_asked_syncFromPeer _ _).bind fun _ =>
      Keeps.bind (keeps_asked fun _ => rfl) fun _ => keeps_asked_apsSubscribe []
  split
  · have hentries : Keeps (Asked face v) (propagateEntries face) :=
      keeps_asked_buildManifestEntries.bind fun _ => keeps_asked_propagateToNewPeer _
    exact hentries.bind fun _ => hrest
  · exact hrest

omit [Hashlib] in
theorem not_handed_of_asked {d : Data} (h : Asked face v s) : ¬ Handed face d v s := by
  rintro ⟨d', -, new', face', hnew', hd', -⟩
  obtain ⟨new, hnew, hall⟩ := h
  obtain rfl := List.append_cancel_right (hnew.symm.trans hnew')
  rcases (hall _ hd').2 with ⟨sub, hsub⟩ | ⟨i, hi⟩
  · cases hsub
  · cases hi

/-- A handshake gives the peer what is stored under the address if and only if nothing is. -/
theorem handshake_gives_content_iff (s : Server) (p : PropPeer) (face : FaceId) (nonce : Bytes) :
    s.GivesContent p face nonce ↔ ∀ d, ¬ s.Owns d := by
  have hasked : Asked face s (after (welcome p face nonce) s) :=
    (keeps_asked_welcome p nonce).after ⟨[], rfl, List.forall_mem_nil _⟩
  constructor
  · intro h d hd
    exact not_handed_of_asked hasked (h d hd)
  · intro h d hd
    exact absurd hd (h d)

def pageServer : Server :=
  letI := Data.paddedHash
  { stocked [page [] none] with faces := [7] }

def wantingPeer : PropPeer where
  rnsAddr := List.replicate 16 2
  wantsSync := true

omit [Hashlib] in
/-- The peer wants the page and is sent two Subscribes and an Interest. -/
theorem page_not_given :
    letI := Data.paddedHash
    ((after (welcome wantingPeer 7 []) pageServer).sent.map fun x =>
        (x.1, x.2.toBytes.toOption.isSome)) = [(7, true), (7, true), (7, true)] ∧
      ¬ pageServer.GivesContent wantingPeer 7 [] := by
  let := Data.paddedHash
  refine ⟨by decide +kernel, fun h => ?_⟩
  have hnames : pageServer.forwarder.cs.entryNames = .ok [(page [] none).name] := by
    decide +kernel
  have hrep : pageServer.forwarder.cs.Represented := represented_stocked _
  obtain ⟨key, row, hrow, hv⟩ := (mem_entryNames_iff hrep hnames).mp List.mem_cons_self
  refine (handshake_gives_content_iff _ _ _ _).mp h
    (ContentStore.rowData row (page [] none).name pageServer.forwarder.time) ?_
  exact ⟨show (page [] none).name.startsWith _ = true by decide, key, row, hrow, hv, rfl⟩

end Server

end RnsIcn
