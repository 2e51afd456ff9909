import RnsIcn.Server.Offline
import RnsIcn.Server.Origination
import RnsIcn.Wire.Relay

/-! # Who sends invalidations

A server sends invalidations and records epochs only where it relays one or originates one. All
other code sends packets of other types.
-/

namespace RnsIcn

open Effect Fallible Transition

namespace Server

def notices (s : Server) : List (FaceId × Packet) × Dict Bytes ℕ := (s.sent, s.seenInvalidations)

/-- The property survives everything but recording an epoch and sending an invalidation. -/
structure Silent (I : Server → Prop) : Prop where
  frame : ∀ s t, t.notices = s.notices → I s → I t
  send : ∀ s face p, (∀ v, p ≠ .invalidate v) → I s → I { s with sent := (face, p) :: s.sent }

variable {I : Server → Prop} {s t : Server} {l : Label} {d : Data} {v : Invalidate}
  {face : FaceId} {p : Packet}

namespace Silent

theorem sheltered (hI : Silent I) : Sheltered I where
  store s _ h := hI.frame s _ rfl h
  sign s _ h := hI.frame s _ rfl h
  create s _ h := hI.frame s _ rfl h

theorem keeps_frame (hI : Silent I) {g : Server → Server} (h : ∀ s, (g s).notices = s.notices) :
    Keeps I (modify g : Handler Unit) :=
  Keeps.modify fun s => hI.frame s _ (h s)

theorem keeps_send (hI : Silent I) (hp : ∀ v, p ≠ .invalidate v) :
    Keeps I (Server.send face p) := by
  refine Keeps.get.bind fun s => ?_
  split
  · exact (Keeps.ofExcept _).bind fun _ => Keeps.modify fun s hs => hI.send s face p hp hs
  · exact Keeps.pure _

theorem keeps_sendData (hI : Silent I) : Keeps I (Server.send face (.data d)) :=
  hI.keeps_send fun _ h => by cases h

theorem keeps_trySend (hI : Silent I) {otherwise : Handler Unit} (h : Keeps I otherwise) :
    Keeps I (trySend face d otherwise) :=
  hI.keeps_sendData.tryCatch fun _ => h

theorem keeps_maybeSendNack (hI : Silent I) (i : Interest) (face : FaceId) :
    Keeps I (maybeSendNack i face) := by
  refine Keeps.get.bind fun s => ?_
  split
  · exact hI.keeps_send fun _ h => by cases h
  · exact Keeps.pure _

theorem keeps_answerForwarded (hI : Silent I) (c : CallId) (face : FaceId) (i : Interest)
    (phase : Phase) : Keeps I (answerForwarded c face i phase) := by
  refine Keeps.bind (hI.keeps_frame fun _ => rfl) fun _ => ?_
  split
  · exact hI.keeps_sendData
  · exact Keeps.throw _
  · exact hI.keeps_maybeSendNack i face

theorem keeps_enqueueForFace (hI : Silent I) (face : FaceId) (d : Data) :
    Keeps I (enqueueForFace face d) :=
  hI.keeps_frame fun _ => rfl

theorem keeps_apsPublish (hI : Silent I) (d : Data) : Keeps I (apsPublish d) := by
  refine Keeps.get.bind fun s => Keeps.forM fun face _ => ?_
  split
  · exact hI.keeps_trySend (hI.keeps_enqueueForFace face d)
  · exact hI.keeps_enqueueForFace face d

theorem keeps_drain (hI : Silent I) (stream : Name) (face : FaceId) :
    Keeps I (drain stream face) := by
  refine Keeps.get.bind fun s => ?_
  split
  · exact Keeps.bind (hI.keeps_frame fun _ => rfl) fun _ =>
      Keeps.forM fun d _ => hI.keeps_trySend (Keeps.pure _)
  · exact Keeps.pure _

theorem keeps_propagate (hI : Silent I) (d : Data) (excludeFace : Option FaceId) :
    Keeps I (propagate d excludeFace) :=
  Keeps.get.bind fun _ => Keeps.forM fun _ _ => hI.keeps_trySend (Keeps.pure _)

theorem keeps_apsSubscribe (hI : Silent I) (face : FaceId) (streams : List Name) :
    Keeps I (apsSubscribe face streams) :=
  Keeps.forM fun _ _ => hI.keeps_send fun _ h => by cases h

theorem keeps_propagateToNewPeer (hI : Silent I) (face : FaceId) (streams : List Name) :
    Keeps I (propagateToNewPeer face streams) := by
  refine Keeps.get.bind fun s => ?_
  split
  · exact (hI.keeps_apsSubscribe face streams).bind fun _ => (Keeps.ofExcept _).bind fun _ =>
      hI.keeps_apsSubscribe face _
  · exact Keeps.pure _

theorem keeps_syncFromPeer (hI : Silent I) (addr : Bytes) (face : FaceId) (nonce : Bytes) :
    Keeps I (syncFromPeer addr face nonce) := by
  refine (Keeps.ofExcept _).bind fun name => Keeps.get.bind fun s => ?_
  split
  · refine Keeps.tryCatch (Keeps.bind (hI.keeps_send fun _ h => by cases h) fun _ => ?_)
      fun _ => Keeps.pure _
    exact hI.keeps_frame fun _ => rfl
  · exact Keeps.pure _

theorem keeps_finishSync (hI : Silent I) (face : FaceId) (streams : List Name) :
    Keeps I (finishSync face streams) :=
  Keeps.bind (hI.keeps_frame fun _ => rfl) fun _ => hI.keeps_apsSubscribe face streams

theorem keeps_handlePeerHandshake (hI : Silent I) (p : PropPeer) (face : FaceId) (nonce : Bytes)
    (streams : List Name) : Keeps I (handlePeerHandshake p face nonce streams) := by
  refine Keeps.bind (hI.keeps_frame fun _ => rfl) fun _ => (Keeps.ofExcept _).bind
    fun peerPrefix => Keeps.bind (hI.keeps_frame fun _ => rfl) fun _ => ?_
  split
  · exact (hI.keeps_propagateToNewPeer face streams).bind fun _ =>
      hI.keeps_syncFromPeer _ face nonce
  · exact hI.keeps_syncFromPeer _ face nonce

variable [Hashlib]

theorem keeps_handleInterest (hI : Silent I) (i : Interest) (face : FaceId) (nonce : Bytes) :
    Keeps I (handleInterest i face nonce) := by
  refine (hI.sheltered.keeps_serveFromCs i).bind fun hit => ?_
  cases hit with
  | some d => exact hI.keeps_sendData
  | none =>
    refine Keeps.get.bind fun s => (Keeps.ofExcept _).bind fun name => ?_
    split
    · exact hI.keeps_frame fun _ => rfl
    · exact Keeps.bind (hI.keeps_frame fun _ => rfl) fun _ => hI.keeps_frame fun _ => rfl

theorem keeps_buildManifestData (hI : Silent I) (text : Bytes) :
    Keeps I (buildManifestData text) :=
  Keeps.get.bind fun _ => (Keeps.ofExcept _).bind fun _ =>
    (hI.sheltered.keeps_create _ _).bind fun _ => (hI.sheltered.maybeSign _).post fun _ _ h => h.1

theorem keeps_answerManifest (hI : Silent I) (face : FaceId) (text : Bytes) :
    Keeps I (answerManifest face text) :=
  Keeps.bind (hI.keeps_frame fun _ => rfl) fun _ =>
    (hI.keeps_buildManifestData text).bind fun d =>
      (hI.sheltered.keeps_csInsert d.name d).bind fun _ => hI.keeps_sendData

theorem keeps_replay (hI : Silent I) (face : FaceId) (n : Name) : Keeps I (replay face n) := by
  refine (hI.sheltered.keeps_csGet n).bind fun r =>
    (hI.sheltered.keeps_maybeSignOpt r).bind fun r => ?_
  cases r with
  | none => exact Keeps.pure _
  | some d => exact hI.keeps_sendData

theorem keeps_handleSubscribe (hI : Silent I) (sub : APSubscribe) (face : FaceId) :
    Keeps I (handleSubscribe sub face) := by
  refine Keeps.bind (hI.keeps_frame fun _ => rfl) fun _ => ?_
  split
  · refine Keeps.get.bind fun s => (Keeps.ofExcept _).bind fun names => ?_
    exact (Keeps.forM fun n _ => hI.keeps_replay face n).bind fun _ => hI.keeps_drain _ face
  · exact hI.keeps_drain _ face

theorem keeps_push (hI : Silent I) {prepare : Handler Data}
    (h : publication l = some (d, prepare)) : Keeps I (push prepare) := by
  have hprepare : Keeps I prepare :=
    (prepare_triple hI.sheltered h).conseq (fun s hs => hI.frame s _ rfl hs) (fun _ _ h => h.1)
      fun _ h => h
  exact hprepare.bind fun d => (hI.keeps_apsPublish d).bind fun _ => hI.keeps_propagate d none

theorem keeps_publishManifest (hI : Silent I) (text : Bytes) : Keeps I (publishManifest text) :=
  Keeps.get.bind fun _ => (Keeps.ofExcept _).bind fun _ =>
    (hI.sheltered.keeps_create _ _).bind fun _ => hI.sheltered.keeps_csInsert _ _

theorem keeps_receiveData (hI : Silent I) (d : Data) (face : FaceId) (cacheUnsolicited : Bool) :
    Keeps I (receiveData d face cacheUnsolicited) :=
  Keeps.get.bind fun _ => Keeps.bind (hI.keeps_frame fun _ => rfl) fun _ => Keeps.ofExcept _

theorem handlePacket (hI : Silent I) (h : I s) {drawn : Drawn} (hno : ∀ v, p ≠ .invalidate v) :
    I (after (handlePacket face drawn p) s) := by
  cases p with
  | capPeer c => exact hI.frame s _ rfl h
  | interest i =>
    simp only [Server.handlePacket]
    split
    · exact hI.keeps_sendData.after h
    · exact (hI.keeps_handleInterest i face _).after h
  | data d =>
    refine Triple.after (P := I) (Triple.bind Keeps.get fun s' => ?_) h
    split
    · exact (hI.keeps_receiveData d face true).bind fun _ => hI.keeps_propagate d _
    · exact hI.keeps_receiveData d face false
  | subscribe sub => exact (hI.keeps_handleSubscribe sub face).after h
  | invalidate v => exact absurd rfl (hno v)
  | nack n => exact hI.frame s _ rfl h
  | peer p => exact (hI.keeps_handlePeerHandshake p face _ _).after h

theorem step (hI : Silent I) (h : I s) (hno : s.considered l = none) (hs : s.step l = some t) :
    I t := by
  cases l with
  | incoming face raw drawn =>
    obtain rfl := Option.some.inj hs
    rw [handleIncoming]
    cases hp : parsePacket raw with
    | error e => exact h
    | ok p =>
      cases p with
      | invalidate v =>
        have hv : ¬ s.invalidationVerifier.any (· v) = true := fun hv => by
          simp [considered, hp, hv] at hno
        have hsame : after (Server.handlePacket face drawn (.invalidate v)) s = s :=
          congrArg Prod.snd ((exec_handleInvalidate v face).trans (if_neg hv))
        exact (congrArg I hsame).mpr h
      | _ => exact hI.handlePacket h fun _ he => by cases he
  | resource payload =>
    obtain rfl := Option.some.inj hs
    rw [handleResource]
    cases hr : resourceData payload with
    | none => exact h
    | some d => exact (hI.sheltered.keeps_csInsert d.name d).after h
  | forwarded c =>
    obtain ⟨⟨face, i⟩, -, hs⟩ := Option.bind_eq_some_iff.mp hs
    obtain ⟨call, -, hs⟩ := Option.bind_eq_some_iff.mp hs
    split at hs
    · exact Option.some.inj hs ▸ (hI.keeps_answerForwarded c face i _).after h
    · exact Option.some.inj hs ▸ (hI.keeps_answerForwarded c face i _).after h
    · cases hs
  | manifest face text =>
    rw [Server.step] at hs
    split at hs
    · exact Option.some.inj hs ▸ (hI.keeps_answerManifest face text).after h
    · cases hs
  | synced face streams =>
    rw [Server.step] at hs
    split at hs
    · exact Option.some.inj hs ▸ (hI.keeps_finishSync face streams).after h
    · cases hs
  | publishContent n content encrypted sequence latestUnder =>
    exact Option.some.inj hs ▸
      (hI.sheltered.keeps_publishContent n content encrypted sequence latestUnder).after h
  | publishPost n content encrypted sequence latestUnder =>
    have hpub : publication (.publishPost n content encrypted sequence latestUnder) = _ := rfl
    exact Option.some.inj ((step_publication hpub).symm.trans hs) ▸ (hI.keeps_push hpub).after h
  | publishPushed d =>
    have hpub : publication (.publishPushed d) = _ := rfl
    exact Option.some.inj ((step_publication hpub).symm.trans hs) ▸ (hI.keeps_push hpub).after h
  | publishManifest text => exact Option.some.inj hs ▸ (hI.keeps_publishManifest text).after h
  | invalidate n byPrefix =>
    obtain rfl := Option.some.inj hs
    refine Triple.after (P := (· = s)) (E := I) (Triple.bind_get fun u hu => ?_) rfl
    subst hu
    split
    · exact Triple.throw fun w hw => hw ▸ h
    · rename_i signer hsigner
      refine Triple.bind (Q := fun _ _ => False) (Triple.ofExcept (fun v w hv _ => ?_)
        fun w hw => hw ▸ h) fun _ _ hf => hf.elim
      simp [considered, hsigner, hv, Except.toOption] at hno
  | forwarder l =>
    rw [Server.step] at hs
    split at hs
    · obtain ⟨fw, -, rfl⟩ := Option.map_eq_some_iff.mp hs
      exact hI.frame s _ rfl h
    · cases hs
  | openFace | closeFace => exact Option.some.inj hs ▸ hI.frame s _ rfl h

end Silent

variable [Hashlib]

/-- The invalidation goes to all faces but one, and its epoch is recorded if it is the highest. -/
structure Spreads (v : Invalidate) (exclude : Option FaceId) (s t : Server) : Prop where
  seen : ∃ key, ContentStore.nameHash v.name = .ok key ∧ t.seenInvalidations =
    if s.isFresh v then s.seenInvalidations.set key v.epoch else s.seenInvalidations
  sent : ∀ face p, (face, p) ∈ t.sent ↔
    (face, p) ∈ s.sent ∨ p = .invalidate v ∧ face ∈ s.faces ∧ some face ≠ exclude

theorem step_silent (hno : s.considered l = none) (hs : s.step l = some t) :
    t.seenInvalidations = s.seenInvalidations ∧
      ∀ face v, (face, .invalidate v) ∈ t.sent ↔ (face, .invalidate v) ∈ s.sent := by
  have hI : Silent fun u => u.seenInvalidations = s.seenInvalidations ∧
      ∀ face v, (face, .invalidate v) ∈ u.sent ↔ (face, .invalidate v) ∈ s.sent := by
    refine ⟨fun u w he h => ?_, fun u face p hp h => ⟨h.1, fun face' v => ?_⟩⟩
    · obtain ⟨hsent, hseen⟩ := Prod.mk.inj he
      exact ⟨hseen.trans h.1, hsent ▸ h.2⟩
    · rw [← h.2, List.mem_cons, Prod.mk.injEq]
      exact or_iff_right fun hv => hp v hv.2.symm
  exact hI.step ⟨rfl, fun _ _ => .rfl⟩ hno hs

theorem applyInvalidate_spreads {raw : Bytes} {key : Bytes}
    (hk : ContentStore.nameHash v.name = .ok key) (hb : v.toBytes = .ok raw)
    (exclude : Option FaceId) :
    Spreads v exclude s (after (applyInvalidate v exclude)
      (if s.isFresh v then { s with seenInvalidations := s.seenInvalidations.set key v.epoch }
        else s)) := by
  rw [after, exec_applyInvalidate v exclude ⟨key, hk⟩]
  simp only [hb]
  set u := if s.isFresh v then
    { s with seenInvalidations := s.seenInvalidations.set key v.epoch } else s with hu
  have hsame : u.sent = s.sent ∧ u.faces = s.faces := by
    rw [hu]
    split <;> exact ⟨rfl, rfl⟩
  refine ⟨⟨key, hk, ?_⟩, fun face p => ?_⟩
  · change u.seenInvalidations = _
    rw [hu]
    split <;> rfl
  · rw [sendAll_sent, List.mem_append, List.mem_map]
    simp only [List.mem_reverse, List.mem_filter, withStore, hsame, decide_eq_true_eq,
      bne_iff_ne, Prod.mk.injEq]
    constructor
    · rintro (⟨f, ⟨⟨hf, hne⟩, -⟩, rfl, rfl⟩ | hsent)
      · exact .inr ⟨rfl, hf, hne⟩
      · exact .inl hsent
    · rintro (hsent | ⟨rfl, hf, hne⟩)
      · exact .inr hsent
      · exact .inl ⟨face, ⟨⟨hf, hne⟩, hf⟩, rfl, rfl⟩

theorem step_received {raw : Bytes} {drawn : Drawn} (hp : parsePacket raw = .ok (.invalidate v))
    (hv : s.invalidationVerifier.any (· v) = true)
    (hs : s.step (.incoming face raw drawn) = some t) :
    if s.isFresh v then Spreads v (some face) s t else t = s := by
  obtain rfl := Option.some.inj hs
  split
  · rename_i hf
    obtain ⟨key, hk, -⟩ := isFresh_iff.mp hf
    obtain ⟨b, hb⟩ := Packet.Fits.toBytes_isOk (fits_of_parsePacket hp)
    have hexec : exec (handleIncoming face raw drawn) s = exec (applyInvalidate v (some face))
        { s with seenInvalidations := s.seenInvalidations.set key v.epoch } := by
      rw [handleIncoming, hp]
      refine (exec_handleInvalidate v face).trans ?_
      rw [if_pos hv, exec_invalidationIsFresh, hk]
      simp only [hf, if_true]
    have hspreads := applyInvalidate_spreads (s := s) hk hb (some face)
    rw [if_pos hf] at hspreads
    rwa [after, hexec]
  · rename_i hf
    exact step_dropped drawn hp (by simp [relayed, hp, hf])

theorem originated_spreads {raw : Bytes} (h : s.originated l = some v) (hb : v.toBytes = .ok raw)
    (hs : s.step l = some t) : Spreads v none s t := by
  obtain ⟨⟨key, hk⟩, -⟩ := originated_eq_some h
  cases l with
  | invalidate n byPrefix =>
    obtain ⟨signer, hsigner, h⟩ := Option.bind_eq_some_iff.mp h
    have hsign : Invalidate.sign
        { name := n, epoch := s.forwarder.time, isPrefix := byPrefix } signer = .ok v :=
      Fallible.toOption_eq_some.mp h
    obtain rfl := Option.some.inj hs
    have hexec : exec (invalidate n byPrefix) s = exec (applyInvalidate v none)
        (if s.isFresh v then { s with seenInvalidations := s.seenInvalidations.set key v.epoch }
          else s) := by
      simp only [invalidate, exec_bind, exec_get, hsigner, hsign, exec_ofExcept,
        exec_invalidationIsFresh, hk]
      by_cases hf : s.isFresh v = true <;> simp [hf]
    rw [after, hexec]
    exact applyInvalidate_spreads hk hb none
  | _ => cases h

end Server

end RnsIcn
