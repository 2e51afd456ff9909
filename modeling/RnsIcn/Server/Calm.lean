import RnsIcn.Server.Offline

/-! # Handlers that leave the calls alone

Most handlers send, store and sign. They neither touch the calls of the forwarder nor the handlers
that wait to answer an Interest, so what depends on those alone survives them.
-/

namespace RnsIcn

open Effect

namespace Server

variable {I : Server → Prop}

def Suspended.asker : Suspended → Option FaceId
  | .forwarding _ face _ | .buildingManifest face => some face
  | .syncing _ => none

/-- The handlers that have an Interest to answer. -/
def askers (s : Server) : List Suspended := s.suspended.filter (Suspended.asker · |>.isSome)

/-- The property depends on the calls, the PIT and the handlers that have an Interest to answer. -/
def Calm (I : Server → Prop) : Prop :=
  ∀ s t, t.forwarder.loop = s.forwarder.loop → t.forwarder.pit = s.forwarder.pit →
    t.askers = s.askers → I s → I t

namespace Calm

theorem sheltered (hI : Calm I) : Sheltered I where
  store s _ h := hI s _ rfl rfl rfl h
  sign s _ h := hI s _ rfl rfl rfl h
  create s _ h := hI s _ rfl rfl rfl h

theorem keeps_modify (hI : Calm I) {g : Server → Server}
    (hloop : ∀ s, (g s).forwarder.loop = s.forwarder.loop)
    (hpit : ∀ s, (g s).forwarder.pit = s.forwarder.pit) (hasked : ∀ s, (g s).askers = s.askers) :
    Keeps I (modify g : Handler Unit) :=
  Keeps.modify fun s h => hI s _ (hloop s) (hpit s) (hasked s) h

theorem keeps_frame (hI : Calm I) {g : Server → Server}
    (h : ∀ s, ((g s).forwarder.loop, (g s).forwarder.pit, (g s).suspended) =
      (s.forwarder.loop, s.forwarder.pit, s.suspended)) : Keeps I (modify g : Handler Unit) :=
  Keeps.modify fun s hs => by
    obtain ⟨hloop, hpit, hsuspended⟩ := by simpa only [Prod.mk.injEq] using h s
    exact hI s _ hloop hpit (by rw [askers, hsuspended, askers]) hs

theorem keeps_send (hI : Calm I) (face : FaceId) (p : Packet) : Keeps I (send face p) := by
  refine Keeps.get.bind fun u => ?_
  split
  · exact (Keeps.ofExcept _).bind fun _ => hI.keeps_frame fun _ => rfl
  · exact Keeps.pure _

theorem keeps_maybeSendNack (hI : Calm I) (i : Interest) (face : FaceId) :
    Keeps I (maybeSendNack i face) := by
  refine Keeps.get.bind fun u => ?_
  split
  · exact hI.keeps_send face _
  · exact Keeps.pure _

theorem keeps_trySend (hI : Calm I) (face : FaceId) (d : Data) {otherwise : Handler Unit}
    (h : Keeps I otherwise) : Keeps I (trySend face d otherwise) :=
  (hI.keeps_send face _).tryCatch fun _ => h

theorem keeps_apsPublish (hI : Calm I) (d : Data) : Keeps I (apsPublish d) := by
  have hqueue (face : FaceId) : Keeps I (enqueueForFace face d) := hI.keeps_frame fun _ => rfl
  refine Keeps.get.bind fun u => Keeps.forM fun face _ => ?_
  split
  · exact hI.keeps_trySend face d (hqueue face)
  · exact hqueue face

theorem keeps_propagate (hI : Calm I) (d : Data) (excludeFace : Option FaceId) :
    Keeps I (propagate d excludeFace) :=
  Keeps.get.bind fun _ => Keeps.forM fun face _ => hI.keeps_trySend face d (Keeps.pure _)

theorem keeps_drain (hI : Calm I) (stream : Name) (face : FaceId) :
    Keeps I (drain stream face) := by
  refine Keeps.get.bind fun u => ?_
  split
  · refine Keeps.bind (hI.keeps_frame fun _ => rfl) fun _ => ?_
    exact Keeps.forM fun d _ => hI.keeps_trySend face d (Keeps.pure _)
  · exact Keeps.pure _

theorem keeps_apsSubscribe (hI : Calm I) (face : FaceId) (streams : List Name) :
    Keeps I (apsSubscribe face streams) :=
  Keeps.forM fun _ _ => hI.keeps_send face _

/-- A handler that waits for the manifest of a peer has no Interest to answer. -/
theorem keeps_syncFromPeer (hI : Calm I) (addr : Bytes) (face : FaceId) (nonce : Bytes) :
    Keeps I (syncFromPeer addr face nonce) := by
  have hsuspend : Keeps I (suspend (.syncing face)) :=
    hI.keeps_modify (fun _ => rfl) (fun _ => rfl) fun _ => rfl
  refine (Keeps.ofExcept _).bind fun name => Keeps.get.bind fun u => ?_
  split
  · exact Keeps.tryCatch ((hI.keeps_send face _).bind fun _ => hsuspend) fun _ => Keeps.pure _
  · exact Keeps.pure _

theorem keeps_handlePeerHandshake (hI : Calm I) (p : PropPeer) (face : FaceId) (nonce : Bytes)
    (streams : List Name) : Keeps I (handlePeerHandshake p face nonce streams) := by
  have hnew : Keeps I (propagateToNewPeer face streams) := by
    refine Keeps.get.bind fun u => ?_
    split
    · exact (hI.keeps_apsSubscribe face streams).bind fun _ => (Keeps.ofExcept _).bind fun _ =>
        hI.keeps_apsSubscribe face _
    · exact Keeps.pure _
  refine Keeps.bind (hI.keeps_frame fun _ => rfl) fun _ => (Keeps.ofExcept _).bind fun _ =>
    Keeps.bind (hI.keeps_frame fun _ => rfl) fun _ => ?_
  split
  · exact hnew.bind fun _ => hI.keeps_syncFromPeer _ face nonce
  · exact hI.keeps_syncFromPeer _ face nonce

theorem keeps_finishSync (hI : Calm I) (face : FaceId) (streams : List Name) :
    Keeps I (finishSync face streams) := by
  have hresumed : Keeps I (resumed (.syncing face)) :=
    hI.keeps_modify (fun _ => rfl) (fun _ => rfl) fun s => by
      rw [askers, ← List.erase_filter, List.erase_of_not_mem (by simp [Suspended.asker]), askers]
  exact hresumed.bind fun _ => hI.keeps_apsSubscribe face streams

variable [Hashlib]

theorem keeps_invalidationIsFresh (hI : Calm I) (v : Invalidate) :
    Keeps I (invalidationIsFresh v) := by
  refine Keeps.get.bind fun u => (Keeps.ofExcept _).bind fun key => ?_
  split
  · exact Keeps.pure _
  · exact Keeps.bind (hI.keeps_frame fun _ => rfl) fun _ => Keeps.pure _

theorem keeps_handleSubscribe (hI : Calm I) (sub : APSubscribe) (face : FaceId) :
    Keeps I (handleSubscribe sub face) := by
  have hreplay (n : Name) : Keeps I (replay face n) := by
    refine (hI.sheltered.keeps_csGet n).bind fun r =>
      (hI.sheltered.keeps_maybeSignOpt r).bind fun r => ?_
    cases r with
    | none => exact Keeps.pure _
    | some d => exact hI.keeps_send face _
  refine Keeps.bind (hI.keeps_frame fun _ => rfl) fun _ => ?_
  split
  · exact Keeps.get.bind fun _ => (Keeps.ofExcept _).bind fun _ =>
      (Keeps.forM fun n _ => hreplay n).bind fun _ => hI.keeps_drain _ face
  · exact hI.keeps_drain _ face

theorem keeps_applyInvalidate (hI : Calm I) (v : Invalidate) (exclude : Option FaceId) :
    Keeps I (applyInvalidate v exclude) := by
  have hstore : Keeps I (csInvalidate v.name v.isPrefix) :=
    Keeps.get.bind fun _ => (hI.sheltered.keeps_onStore _).bind fun _ => Keeps.ofExcept _
  exact hstore.bind fun _ => (Keeps.ofExcept _).bind fun _ => Keeps.get.bind fun _ =>
    Keeps.forM fun face _ => hI.keeps_send face _

theorem keeps_handleInvalidate (hI : Calm I) (v : Invalidate) (face : FaceId) :
    Keeps I (handleInvalidate v face) := by
  refine Keeps.get.bind fun u => ?_
  split
  · refine (hI.keeps_invalidationIsFresh v).bind fun fresh => ?_
    split
    · exact hI.keeps_applyInvalidate v _
    · exact Keeps.pure _
  · exact Keeps.pure _

theorem keeps_invalidate (hI : Calm I) (n : Name) (byPrefix : Bool) :
    Keeps I (Server.invalidate n byPrefix) := by
  refine Keeps.get.bind fun u => ?_
  split
  · exact Keeps.throw _
  · exact (Keeps.ofExcept _).bind fun v => (hI.keeps_invalidationIsFresh v).bind fun _ =>
      hI.keeps_applyInvalidate v none

theorem keeps_push (hI : Calm I) {l : Label} {d : Data} {prepare : Handler Data}
    (h : publication l = some (d, prepare)) : Keeps I (push prepare) := by
  have hprepare : Keeps I prepare :=
    (prepare_triple hI.sheltered h).conseq (fun s hs => hI.sheltered.create s _ hs)
      (fun _ _ h => h.1) fun _ h => h
  exact hprepare.bind fun d => (hI.keeps_apsPublish d).bind fun _ => hI.keeps_propagate d none

theorem keeps_buildManifestData (hI : Calm I) (text : Bytes) : Keeps I (buildManifestData text) :=
  Keeps.get.bind fun _ => (Keeps.ofExcept _).bind fun _ =>
    (hI.sheltered.keeps_create _ _).bind fun _ => (hI.sheltered.maybeSign _).post fun _ _ h => h.1

theorem keeps_publishManifest (hI : Calm I) (text : Bytes) :
    Keeps I (Server.publishManifest text) :=
  Keeps.get.bind fun _ => (Keeps.ofExcept _).bind fun _ =>
    (hI.sheltered.keeps_create _ _).bind fun _ => hI.sheltered.keeps_csInsert _ _

end Calm

end Server

end RnsIcn
