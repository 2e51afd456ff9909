import RnsIcn.Lib.Transition
import RnsIcn.Server.Raising

/-! # The peers of a server

Three tables say which faces are peers, which of these are downstream and which producers
were synced. A closed face is taken out of the faces of the server but not out of the
tables, and the producer of a removed peer is looked up when its address is gone.
-/

namespace RnsIcn

open Effect Fallible Transition

/-- A `PropagationManager`, with the faces of its server. The sets are lists. -/
structure PropagationManager where
  faces : List FaceId := []
  nextFaceId : FaceId := 100
  peers : Dict FaceId Bytes := .empty
  syncedProducers : List Name := []
  downstreamPeers : List FaceId := []

namespace PropagationManager

def addPeer (s : PropagationManager) (face : FaceId) (rnsAddr : Bytes) : PropagationManager :=
  { s with peers := s.peers.set face rnsAddr }

def NO_ADDRESS : Bytes := List.replicate 16 0

def producerNameForFace (s : PropagationManager) (face : FaceId) : Except PyError Name :=
  match s.peers.get? face with
  | none => Name.new NO_ADDRESS
  | some addr => Name.new addr

def removePeer (s : PropagationManager) (face : FaceId) : PropagationManager :=
  let s := { s with
    peers := s.peers.erase face
    downstreamPeers := s.downstreamPeers.filter (· ≠ face) }
  match s.producerNameForFace face with
  | .ok producer => { s with syncedProducers := s.syncedProducers.filter (· ≠ producer) }
  | .error _ => s

def markDownstream (s : PropagationManager) (face : FaceId) : PropagationManager :=
  if s.peers.contains face then { s with downstreamPeers := s.downstreamPeers.insert face } else s

def markUpstream (s : PropagationManager) (face : FaceId) : PropagationManager :=
  { s with downstreamPeers := s.downstreamPeers.filter (· ≠ face) }

/-- `sync_from_peer`, which raises for a face that is no peer. -/
def syncFromPeer (s : PropagationManager) (face : FaceId) : PropagationManager :=
  match s.peers.get? face with
  | none => s
  | some addr =>
    match Name.new addr with
    | .ok producer => { s with syncedProducers := s.syncedProducers.insert producer }
    | .error _ => s

/-- `handle_peer_handshake`. The entries for a peer that wants a sync may fail to be built. -/
def handlePeerHandshake (s : PropagationManager) (p : PropPeer) (face : FaceId) (built : Bool) :
    PropagationManager :=
  let s := s.addPeer face p.rnsAddr
  match Name.new p.rnsAddr with
  | .ok _ => if p.wantsSync && !built then s else s.syncFromPeer face
  | .error _ => s

def openFace (s : PropagationManager) : PropagationManager :=
  { s with nextFaceId := s.nextFaceId + 1, faces := s.nextFaceId :: s.faces }

def cleanupClosedFace (s : PropagationManager) (face : FaceId) : PropagationManager :=
  { s with faces := s.faces.filter (· ≠ face) }

inductive Label where
  | openFace
  | handshake (p : PropPeer) (face : FaceId) (built : Bool)
  | syncFromPeer (face : FaceId)
  | markDownstream (face : FaceId)
  | markUpstream (face : FaceId)
  | removePeer (face : FaceId)
  | cleanupClosedFace (face : FaceId)

def step (s : PropagationManager) : Label → Option PropagationManager
  | .openFace => some s.openFace
  | .handshake p face built => some (s.handlePeerHandshake p face built)
  | .syncFromPeer face => some (s.syncFromPeer face)
  | .markDownstream face => some (s.markDownstream face)
  | .markUpstream face => some (s.markUpstream face)
  | .removePeer face => some (s.removePeer face)
  | .cleanupClosedFace face => some (s.cleanupClosedFace face)

def HasPeer (s : PropagationManager) (producer : Name) : Prop :=
  ∃ face addr, s.peers.get? face = some addr ∧ Name.new addr = .ok producer

/-- The tables agree with the faces and with one another. -/
structure Consistent (s : PropagationManager) : Prop where
  live : ∀ face ∈ s.peers.keys, face ∈ s.faces
  downstream : ∀ face ∈ s.downstreamPeers, face ∈ s.peers.keys
  synced : ∀ producer ∈ s.syncedProducers, s.HasPeer producer

def OnlyPeer (s : PropagationManager) (face : FaceId) (addr : Bytes) : Prop :=
  s.peers.get? face = some addr ∧
    (∃ producer ∈ s.syncedProducers, Name.new addr = .ok producer) ∧
    ∀ face', face' ≠ face → s.peers.get? face' ≠ some addr

/-- A peer closes, a closed face or one with another address shakes hands, or a peer is removed,
where this leaves a synced address without a peer. -/
def Orphans (s : PropagationManager) : Label → Prop
  | .handshake p face _ => face ∉ s.faces ∨ ∃ addr, s.OnlyPeer face addr ∧ addr ≠ p.rnsAddr
  | .removePeer face => ∃ addr, s.OnlyPeer face addr ∧ addr ≠ NO_ADDRESS
  | .cleanupClosedFace face => face ∈ s.peers.keys
  | _ => False

/-- A manager that was just created. -/
structure Initial (s : PropagationManager) : Prop where
  peers : s.peers = .empty
  syncedProducers : s.syncedProducers = []
  downstreamPeers : s.downstreamPeers = []

variable {s t : PropagationManager} {face : FaceId} {addr : Bytes} {p : PropPeer}

theorem Initial.consistent (h : s.Initial) : s.Consistent := by
  constructor
  · rw [h.peers]
    exact nofun
  · rw [h.downstreamPeers]
    exact nofun
  · rw [h.syncedProducers]
    exact nofun

theorem name_new_inj {addr addr' : Bytes} {producer : Name} (h : Name.new addr = .ok producer)
    (h' : Name.new addr' = .ok producer) : addr = addr' :=
  congrArg Name.rnsAddr ((Name.new_eq_ok h).symm.trans (Name.new_eq_ok h'))

theorem Consistent.openFace (h : s.Consistent) : s.openFace.Consistent :=
  ⟨fun face hf => List.mem_cons_of_mem _ (h.live face hf), h.downstream, h.synced⟩

theorem Consistent.markDownstream (h : s.Consistent) (face : FaceId) :
    (s.markDownstream face).Consistent := by
  unfold PropagationManager.markDownstream
  split
  · rename_i hpeer
    refine ⟨h.live, fun face' hf => ?_, h.synced⟩
    rcases List.mem_insert_iff.mp hf with rfl | hf
    · exact Dict.mem_keys.mpr (Dict.contains_iff.mp hpeer)
    · exact h.downstream face' hf
  · exact h

theorem Consistent.markUpstream (h : s.Consistent) (face : FaceId) :
    (s.markUpstream face).Consistent :=
  ⟨h.live, fun face' hf => h.downstream face' (List.mem_of_mem_filter hf), h.synced⟩

theorem syncFromPeer_consistent_iff (s : PropagationManager) (face : FaceId) :
    (s.syncFromPeer face).Consistent ↔ s.Consistent := by
  unfold syncFromPeer
  split
  · rfl
  · rename_i addr hpeer
    split
    · rename_i producer hname
      constructor
      · intro h
        refine ⟨h.live, h.downstream, fun other ho => ?_⟩
        exact h.synced other (List.mem_insert_of_mem ho)
      · intro h
        refine ⟨h.live, h.downstream, fun other ho => ?_⟩
        rcases List.mem_insert_iff.mp ho with rfl | ho
        · exact ⟨face, addr, hpeer, hname⟩
        · exact h.synced other ho
    · rfl

theorem cleanupClosedFace_consistent_iff (h : s.Consistent) :
    (s.cleanupClosedFace face).Consistent ↔ face ∉ s.peers.keys := by
  constructor
  · intro ht hpeer
    exact of_decide_eq_true (List.mem_filter.mp (ht.live face hpeer)).2 rfl
  · intro hpeer
    refine ⟨fun face' hf => List.mem_filter.mpr ⟨h.live face' hf, ?_⟩, h.downstream, h.synced⟩
    rw [decide_eq_true_eq]
    rintro rfl
    exact hpeer hf

theorem hasPeer_of_not_onlyPeer {producer : Name} (h : s.Consistent)
    (hp : producer ∈ s.syncedProducers)
    (hno : ∀ addr, Name.new addr = .ok producer → ¬ s.OnlyPeer face addr) :
    ∃ face' addr, face' ≠ face ∧ s.peers.get? face' = some addr ∧
      Name.new addr = .ok producer := by
  obtain ⟨face', addr, hpeer, hname⟩ := h.synced producer hp
  by_cases he : face' = face
  · subst he
    by_contra hnone
    refine hno addr hname ⟨hpeer, ⟨producer, hp, hname⟩, fun other hne hother => hnone ?_⟩
    exact ⟨other, addr, hne, hother, hname⟩
  · exact ⟨face', addr, he, hpeer, hname⟩

theorem removePeer_eq (s : PropagationManager) (face : FaceId) :
    s.removePeer face = { s with
      peers := s.peers.erase face
      downstreamPeers := s.downstreamPeers.filter (· ≠ face)
      syncedProducers := s.syncedProducers.filter (· ≠ ⟨NO_ADDRESS, [], none⟩) } := by
  have hnone : (s.peers.erase face).get? face = none := Dict.get?_erase_self ..
  unfold removePeer producerNameForFace
  simp only [hnone]
  rfl

theorem removePeer_consistent_iff (h : s.Consistent) :
    (s.removePeer face).Consistent ↔ ¬ ∃ addr, s.OnlyPeer face addr ∧ addr ≠ NO_ADDRESS := by
  rw [removePeer_eq]
  constructor
  · rintro ht ⟨addr, ⟨hpeer, ⟨producer, hp, hname⟩, honly⟩, hne⟩
    have hstays : producer ∈ s.syncedProducers.filter (· ≠ ⟨NO_ADDRESS, [], none⟩) := by
      refine List.mem_filter.mpr ⟨hp, decide_eq_true fun he => hne ?_⟩
      rw [Name.new_eq_ok hname] at he
      exact congrArg Name.rnsAddr he
    obtain ⟨face', addr', hpeer', hname'⟩ := ht.synced producer hstays
    obtain rfl := name_new_inj hname hname'
    by_cases he : face' = face
    · subst he
      rw [Dict.get?_erase_self] at hpeer'
      cases hpeer'
    · exact honly face' he ((s.peers.get?_erase_ne he).symm.trans hpeer')
  · intro hno
    constructor
    · exact fun face' hf => h.live face' ((Dict.mem_keys_erase s.peers).mp hf).2
    · intro face' hf
      obtain ⟨hf, hne⟩ := List.mem_filter.mp hf
      exact (Dict.mem_keys_erase s.peers).mpr ⟨of_decide_eq_true hne, h.downstream face' hf⟩
    · intro producer hp
      obtain ⟨hp, hne⟩ := List.mem_filter.mp hp
      obtain ⟨face', addr, hf, hpeer, hname⟩ : ∃ face' addr, face' ≠ face ∧
          s.peers.get? face' = some addr ∧ Name.new addr = .ok producer := by
        refine hasPeer_of_not_onlyPeer h hp fun addr hname honly => hno ⟨addr, honly, ?_⟩
        rintro rfl
        exact of_decide_eq_true hne (Name.new_eq_ok hname)
      exact ⟨face', addr, (s.peers.get?_erase_ne hf).trans hpeer, hname⟩

theorem addPeer_consistent_iff (h : s.Consistent) :
    (s.addPeer face addr).Consistent ↔
      face ∈ s.faces ∧ ¬ ∃ old, s.OnlyPeer face old ∧ old ≠ addr := by
  have hkeys {face'} : face' ∈ (s.peers.set face addr).keys ↔ face' = face ∨ face' ∈ s.peers.keys :=
    Dict.mem_keys_set s.peers
  constructor
  · intro ht
    refine ⟨ht.live face (hkeys.mpr (.inl rfl)), ?_⟩
    rintro ⟨old, ⟨hpeer, ⟨producer, hp, hname⟩, honly⟩, hne⟩
    obtain ⟨face', addr', hpeer', hname'⟩ := ht.synced producer hp
    obtain rfl := name_new_inj hname hname'
    by_cases he : face' = face
    · subst he
      have hset : (s.peers.set face' addr).get? face' = some addr := Dict.get?_set_self ..
      exact hne (Option.some.inj (hpeer'.symm.trans hset))
    · exact honly face' he ((s.peers.get?_set_ne _ he).symm.trans hpeer')
  · rintro ⟨hface, hno⟩
    constructor
    · intro face' hf
      rcases hkeys.mp hf with rfl | hf
      · exact hface
      · exact h.live face' hf
    · exact fun face' hf => hkeys.mpr (.inr (h.downstream face' hf))
    · intro producer hp
      by_cases hnew : Name.new addr = .ok producer
      · exact ⟨face, addr, Dict.get?_set_self .., hnew⟩
      · obtain ⟨face', addr', hf, hpeer, hname⟩ : ∃ face' addr', face' ≠ face ∧
            s.peers.get? face' = some addr' ∧ Name.new addr' = .ok producer := by
          refine hasPeer_of_not_onlyPeer h hp fun old hname honly => hno ⟨old, honly, ?_⟩
          rintro rfl
          exact hnew hname
        exact ⟨face', addr', (s.peers.get?_set_ne _ hf).trans hpeer, hname⟩

theorem handlePeerHandshake_consistent_iff (s : PropagationManager) (p : PropPeer) (face : FaceId)
    (built : Bool) : (s.handlePeerHandshake p face built).Consistent ↔
      (s.addPeer face p.rnsAddr).Consistent := by
  unfold handlePeerHandshake
  dsimp only
  split
  · split
    · rfl
    · exact syncFromPeer_consistent_iff _ _
  · rfl

theorem step_consistent_iff {l : Label} (h : s.Consistent) (hs : s.step l = some t) :
    t.Consistent ↔ ¬ s.Orphans l := by
  cases l with
  | openFace =>
    cases hs
    exact iff_of_true h.openFace id
  | handshake p face built =>
    cases hs
    rw [handlePeerHandshake_consistent_iff, addPeer_consistent_iff h, Orphans, not_or, not_not]
  | syncFromPeer face =>
    cases hs
    exact iff_of_true ((syncFromPeer_consistent_iff s face).mpr h) id
  | markDownstream face =>
    cases hs
    exact iff_of_true (h.markDownstream face) id
  | markUpstream face =>
    cases hs
    exact iff_of_true (h.markUpstream face) id
  | removePeer face =>
    cases hs
    exact removePeer_consistent_iff h
  | cleanupClosedFace face =>
    cases hs
    exact cleanupClosedFace_consistent_iff h

/-- The tables are consistent in every state of a run if and only if no peer closes, no face shakes
hands that is closed or changes its address, and no peer is removed, where this orphans anything. -/
theorem tables_consistent_iff {ls : List Label} (hs : s.Initial) (h : Run step anyStep s ls t) :
    (∀ e ∈ trace step s ls, e.2.2.Consistent) ↔ ∀ e ∈ trace step s ls, ¬ e.1.Orphans e.2.1 :=
  h.trace_iff (I := Consistent) (P := fun _ _ t => t.Consistent) hs.consistent
    (fun _ _ _ _ _ _ ht => ht) fun _ _ _ hi _ hst => step_consistent_iff hi hst

def PEER : PropPeer := { rnsAddr := List.replicate 16 1 }

def returning : List Label :=
  [.openFace, .openFace, .handshake PEER 100 true, .handshake PEER 101 true, .markDownstream 101,
    .removePeer 101, .cleanupClosedFace 101, .markUpstream 100]

theorem returning_run : ∃ t, Run step (fun s l => ¬ s.Orphans l) {} returning t := by
  refine ⟨_, .cons id rfl (.cons id rfl (.cons ?_ rfl (.cons ?_ rfl (.cons id rfl
    (.cons ?_ rfl (.cons ?_ rfl (.cons id rfl (.nil _))))))))⟩
  · rintro (hf | ⟨addr, ⟨hpeer, -⟩, -⟩)
    · exact hf (by decide)
    · cases hpeer
  · rintro (hf | ⟨addr, ⟨hpeer, -⟩, -⟩)
    · exact hf (by decide)
    · cases hpeer
  · rintro ⟨addr, ⟨hpeer, -, honly⟩, -⟩
    exact honly 100 (by decide) hpeer
  · intro hpeer
    cases List.mem_singleton.mp (show (101 : FaceId) ∈ [100] from hpeer)

theorem returning_consistent : ∃ t, Run step anyStep {} returning t ∧
    ∀ e ∈ trace step {} returning, e.2.2.Consistent := by
  obtain ⟨t, ht⟩ := returning_run
  have hrun : Run step anyStep {} returning t := ht.mono fun _ _ _ => trivial
  exact ⟨t, hrun, (tables_consistent_iff ⟨rfl, rfl, rfl⟩ hrun).mpr
    fun e he => (ht.of_mem_trace he).1⟩

/-- The face of a peer that closes stays a peer, and the address of a peer that is removed stays
synced. -/
theorem peer_leaves_entries :
    (∃ t, Run step anyStep {} [.openFace, .handshake PEER 100 true, .cleanupClosedFace 100] t ∧
      t.peers.keys = [100] ∧ t.faces = [] ∧ ¬ t.Consistent) ∧
    ∃ t, Run step anyStep {} [.openFace, .handshake PEER 100 true, .removePeer 100] t ∧
      t.peers.keys = [] ∧ ⟨PEER.rnsAddr, [], none⟩ ∈ t.syncedProducers ∧ ¬ t.Consistent := by
  constructor
  · refine ⟨_, .cons trivial rfl (.cons trivial rfl (.cons trivial rfl (.nil _))), rfl, rfl, ?_⟩
    intro h
    exact List.not_mem_nil (h.live 100 (List.mem_singleton.mpr rfl))
  · have hsynced : (⟨PEER.rnsAddr, [], none⟩ : Name) ∈ PropagationManager.syncedProducers
        (((openFace {}).handlePeerHandshake PEER 100 true).removePeer 100) := by decide
    refine ⟨_, .cons trivial rfl (.cons trivial rfl (.cons trivial rfl (.nil _))), rfl, hsynced, ?_⟩
    intro h
    obtain ⟨face, addr, hpeer, -⟩ := h.synced _ hsynced
    cases hpeer

end PropagationManager

namespace Server

open PropagationManager

/-- The tables have the faces and the peers of the server. -/
structure Agrees (t : PropagationManager) (s : Server) : Prop where
  faces : t.faces = s.faces
  nextFaceId : t.nextFaceId = s.nextFaceId
  peers : t.peers = s.peers

variable {s : Server} {t : PropagationManager} {face : FaceId}

theorem Agrees.openFace (h : Agrees t s) : Agrees t.openFace (after Server.openFace s) :=
  ⟨congrArg₂ List.cons h.nextFaceId h.faces, congrArg (· + 1) h.nextFaceId, h.peers⟩

theorem Agrees.cleanupClosedFace (h : Agrees t s) (face : FaceId) :
    Agrees (t.cleanupClosedFace face) (after (Server.cleanupClosedFace face) s) :=
  ⟨congrArg (List.filter fun face' => decide (face' ≠ face)) h.faces, h.nextFaceId, h.peers⟩

theorem keeps_agrees {g : Server → Server}
    (hg : ∀ s, (g s).faces = s.faces ∧ (g s).nextFaceId = s.nextFaceId ∧ (g s).peers = s.peers) :
    Keeps (Agrees t) (modify g : Handler Unit) := by
  refine Keeps.modify fun s hs => ?_
  obtain ⟨hfaces, hnext, hpeers⟩ := hg s
  exact ⟨hs.faces.trans hfaces.symm, hs.nextFaceId.trans hnext.symm, hs.peers.trans hpeers.symm⟩

theorem keeps_agrees_send (p : Packet) : Keeps (Agrees t) (send face p) := by
  refine Keeps.get.bind fun s => ?_
  split
  · exact (Keeps.ofExcept _).bind fun _ => keeps_agrees fun _ => ⟨rfl, rfl, rfl⟩
  · exact Keeps.pure _

theorem keeps_agrees_apsSubscribe (streams : List Name) :
    Keeps (Agrees t) (apsSubscribe face streams) :=
  Keeps.forM fun _ _ => keeps_agrees_send _

theorem keeps_agrees_propagateToNewPeer (streams : List Name) :
    Keeps (Agrees t) (propagateToNewPeer face streams) := by
  refine Keeps.get.bind fun s => ?_
  split
  · exact (keeps_agrees_apsSubscribe streams).bind fun _ => (Keeps.ofExcept _).bind fun _ =>
      keeps_agrees_apsSubscribe _
  · exact Keeps.pure _

theorem keeps_agrees_syncFromPeer (addr nonce : Bytes) :
    Keeps (Agrees t) (Server.syncFromPeer addr face nonce) := by
  refine (Keeps.ofExcept _).bind fun name => Keeps.get.bind fun s => ?_
  split
  · refine Keeps.tryCatch ?_ fun _ => Keeps.pure _
    exact (keeps_agrees_send _).bind fun _ => keeps_agrees fun _ => ⟨rfl, rfl, rfl⟩
  · exact Keeps.pure _

theorem handlePeerHandshake_tables (t : PropagationManager) (p : PropPeer) (face : FaceId)
    (built : Bool) : ∃ synced, t.handlePeerHandshake p face built =
      { t.addPeer face p.rnsAddr with syncedProducers := synced } := by
  have hsync (u : PropagationManager) : ∃ synced, u.syncFromPeer face =
      { u with syncedProducers := synced } := by
    unfold PropagationManager.syncFromPeer
    split
    · exact ⟨_, rfl⟩
    · split
      · exact ⟨_, rfl⟩
      · exact ⟨_, rfl⟩
  unfold PropagationManager.handlePeerHandshake
  dsimp only
  split
  · split
    · exact ⟨_, rfl⟩
    · exact hsync _
  · exact ⟨_, rfl⟩

/-- A handshake changes the faces and the peers of the server as it changes those of the tables. -/
theorem Agrees.handlePeerHandshake (h : Agrees t s) (p : PropPeer) (nonce : Bytes)
    (streams : List Name) (built : Bool) : Agrees (t.handlePeerHandshake p face built)
      (after (Server.handlePeerHandshake p face nonce streams) s) := by
  have hrest : Triple (Agrees t) (Server.handlePeerHandshake p face nonce streams)
      (fun _ => Agrees (t.addPeer face p.rnsAddr)) (Agrees (t.addPeer face p.rnsAddr)) := by
    refine Triple.bind (Triple.modify (Q := fun _ => Agrees (t.addPeer face p.rnsAddr)) ?_)
      fun _ => ?_
    · exact fun s hs =>
        ⟨hs.faces, hs.nextFaceId, congrArg (fun d => Dict.set d face p.rnsAddr) hs.peers⟩
    · refine (Keeps.ofExcept _).bind fun _ =>
        Keeps.bind (keeps_agrees fun _ => ⟨rfl, rfl, rfl⟩) fun _ => ?_
      split
      · exact (keeps_agrees_propagateToNewPeer streams).bind fun _ =>
          keeps_agrees_syncFromPeer _ _
      · exact keeps_agrees_syncFromPeer _ _
  obtain ⟨synced, htables⟩ := handlePeerHandshake_tables t p face built
  have hafter := hrest.after h
  rw [htables]
  exact ⟨hafter.faces, hafter.nextFaceId, hafter.peers⟩

end Server

end RnsIcn
