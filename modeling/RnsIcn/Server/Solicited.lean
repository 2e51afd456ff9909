import RnsIcn.Forwarder.Attribution
import RnsIcn.Server.Offline
import RnsIcn.Server.Reader

/-! # What a server sends was asked for

A face is sent Data whose name it asked for or that a stream of its subscriptions covers,
and a Nack only if it announced that it reads them. Peers are the faces that introduced
themselves, and only they are asked for anything. An invalidation is passed on if it was
verified.
-/

namespace RnsIcn

open Effect Fallible Transition EventLoop

theorem Name.startsWith_self (n : Name) : n.startsWith n = true := by
  have h := n.startsWith_ancestor n.path.length
  rw [ancestor_length] at h
  exact h

abbrev Arrived := List (FaceId × Packet)

namespace Forwarder

variable [Hashlib] {A : Name → Prop} {s t : Forwarder} {l : Label}

structure Addressed (A : Name → Prop) (s : Forwarder) : Prop where
  consistent : s.Consistent
  store : s.cs.Named A
  under : ∀ c call d, s.loop.calls c = some call → Got d c s.loop →
    d.name.startsWith call.interest.name = true

theorem Initial.addressed (h : s.Initial) (hcs : s.cs.content = .empty)
    (hi : s.cs.namePrefixes = []) : s.Addressed A :=
  ⟨h.consistent, .empty hcs hi, fun c call d hc => by simp [h.calls] at hc⟩

omit [Hashlib] in
theorem startsWith_of_asks {i : Interest} {d : Data} (h : i.Asks d) :
    d.name.startsWith i.name = true := by
  rcases h with h | ⟨h, -⟩
  · change d.name.withoutContentHash.startsWith i.pitName = true
    rw [← h]
    exact d.name.startsWith_self
  · exact h

theorem Addressed.step (hA : Distinguished A) (h : s.Addressed A) (hl : l.Uses A)
    (hs : step s l = some t) : t.Addressed A := by
  have ch := step_change hs
  refine ⟨step_consistent hs h.consistent, ?_, fun c call d hc hg => ?_⟩
  · rw [step_cs hs]
    cases hop : s.storeOp l with
    | none => exact h.store
    | some op => exact h.store.apply hA (storeOp_uses hl hop)
  cases hc₀ : s.loop.calls c with
  | some call₀ =>
    obtain ⟨⟨hi, -⟩, hgot⟩ := got_of_step h.consistent hs hc₀ hc hg
    rw [hi]
    rcases hgot with hg₀ | ⟨-, fut, -, -, hm⟩
    · exact h.under c call₀ d hc₀ hg₀
    · have hstarts := startsWith_answeredName hm
      exact hstarts
  | none =>
    cases ch.spawned hc₀ hc with
    | routed ho _ => exact absurd hg ho.not_got
    | @hit i inFace nonce cs d' _ hlook _ =>
      obtain ⟨call', hc', hp⟩ := hg
      obtain rfl := Option.some.inj (hc'.symm.trans hc)
      obtain rfl : d' = d := by simpa [Phase.future] using hp
      exact startsWith_of_asks (csLookup_asks hA h.store hl hlook).1
    | refresh =>
      obtain ⟨call', hc', hp⟩ := hg
      obtain rfl := Option.some.inj (hc'.symm.trans hc)
      simp [Phase.future] at hp
    | joined hst =>
      obtain ⟨call', hc', hp | ⟨fut', hf, hdone⟩⟩ := hg
      all_goals obtain rfl := Option.some.inj (hc'.symm.trans hc)
      · cases hp
      · obtain rfl := Option.some.inj hf
        exact absurd (hst.symm.trans hdone) (by simp)

theorem step_name (h : s.Consistent) (hs : step s l = some t) {c : CallId} {call : Call}
    (hc : s.loop.calls c = some call) :
    ∃ call', t.loop.calls c = some call' ∧ call'.interest.name = call.interest.name := by
  obtain ⟨call', hop, hc', hi⟩ := Change.interest (step_change hs) h.loop hc
  exact ⟨call', hc', by rw [hi]; rfl⟩

theorem express_name (s : Forwarder) (i : Interest) (inFace : FaceId) (nonce : Bytes) :
    ∃ call, (s.express i inFace nonce).loop.calls s.loop.nextCall = some call ∧
      call.interest.name = i.name := by
  have ch := express_change s i inFace nonce
  generalize (s.express i inFace nonce).loop = r at ch
  cases ch with
  | routed ho =>
    obtain ⟨call, hc, hi⟩ := ho.interest
    exact ⟨call, hc, by rw [hi]; rfl⟩
  | hit => exact ⟨_, (calls_setCall ..).trans (if_pos rfl), rfl⟩
  | hitStale => exact ⟨_, (calls_setCall ..).trans (if_pos rfl), rfl⟩
  | joined => exact ⟨_, (calls_wait ..).trans (if_pos rfl), rfl⟩
  | ran _ ran => cases ran
  | quiet hq => cases hq

end Forwarder

namespace Server

def Peered (arrived : Arrived) (face : FaceId) : Prop := ∃ p, (face, Packet.peer p) ∈ arrived

def Streams (arrived : Arrived) (face : FaceId) (stream : Name) : Prop :=
  ∃ sub, (face, Packet.subscribe sub) ∈ arrived ∧ sub.name = stream

/-- The face has asked for the name of the Data or for one above it, is subscribed to a stream that
covers it or is a peer. -/
def Wanted (arrived : Arrived) (face : FaceId) (d : Data) : Prop :=
  (∃ i, (face, Packet.interest i) ∈ arrived ∧ d.name.startsWith i.name = true) ∨
    (∃ stream, Streams arrived face stream ∧ stream.covers d.name = true) ∨
      Peered arrived face

/-- What has arrived, and the settings of the server, account for sending the packet to the face. -/
def Warranted [Hashlib] (base : Server) (arrived : Arrived) (face : FaceId) : Packet → Prop
  | .data d => Wanted arrived face d
  | .nack n => (∃ i, (face, .interest i) ∈ arrived ∧ i.name = n.name) ∧
    ∃ c, (face, .capPeer c) ∈ arrived ∧ c.features &&& FEATURE_NACK ≠ 0
  | .interest _ | .subscribe _ => Peered arrived face
  | .invalidate v =>
    (∃ face' ≠ face, (face', .invalidate v) ∈ arrived) ∧
        base.invalidationVerifier.any (· v) = true ∨
      ∃ signer ∈ base.signer, ∃ v₀, Invalidate.sign v₀ signer = .ok v
  | .peer _ | .capPeer _ => False

/-- What a handler waits for was asked for. -/
def Pending (s : Server) (arrived : Arrived) : Suspended → Prop
  | .forwarding c face i => (face, .interest i) ∈ arrived ∧
    ∃ call, s.forwarder.loop.calls c = some call ∧ call.interest.name = i.name
  | .buildingManifest face => ∃ i, (face, .interest i) ∈ arrived ∧ s.manifestName = .ok i.name
  | .syncing face => Peered arrived face

def settings (s : Server) : Bytes × Option (Bytes → Bytes) × Option (Invalidate → Bool) :=
  (s.rnsAddr, s.signer, s.invalidationVerifier)

/-- All that the server has sent, and all that it will send by, was asked for. -/
structure Solicited [Hashlib] (A : Name → Prop) (base : Server) (arrived : Arrived) (s : Server) :
    Prop where
  settings : s.settings = base.settings
  sent : ∀ face p, (face, p) ∈ s.sent → Warranted base arrived face p
  peers : ∀ face ∈ s.peers.keys, Peered arrived face
  features : ∀ face f, s.peerFeatures.get? face = some f →
    ∃ c, (face, .capPeer c) ∈ arrived ∧ c.features = f
  subscribed : ∀ stream face, face ∈ s.subscribersOf stream → Streams arrived face stream
  queued : ∀ stream, ∀ d ∈ s.queuedFor stream, stream.covers d.name = true
  suspended : ∀ h ∈ s.suspended, s.Pending arrived h
  forwarder : s.forwarder.Addressed A

theorem Warranted.mono [Hashlib] {base : Server} {arrived arrived' : Arrived} {face : FaceId}
    {p : Packet} (h : Warranted base arrived face p) (hsub : arrived ⊆ arrived') :
    Warranted base arrived' face p := by
  cases p with
  | data d =>
    rcases h with ⟨i, hi, h⟩ | ⟨stream, ⟨sub, hsubs, hn⟩, h⟩ | ⟨p, hp⟩
    · exact .inl ⟨i, hsub hi, h⟩
    · exact .inr (.inl ⟨stream, ⟨sub, hsub hsubs, hn⟩, h⟩)
    · exact .inr (.inr ⟨p, hsub hp⟩)
  | nack n =>
    obtain ⟨⟨i, hi, hn⟩, c, hc, hf⟩ := h
    exact ⟨⟨i, hsub hi, hn⟩, c, hsub hc, hf⟩
  | interest i => exact h.imp fun _ hp => hsub hp
  | subscribe sub => exact h.imp fun _ hp => hsub hp
  | invalidate v =>
    refine h.imp_left ?_
    rintro ⟨⟨face', hne, hv⟩, hverified⟩
    exact ⟨⟨face', hne, hsub hv⟩, hverified⟩
  | peer p => exact h
  | capPeer c => exact h

namespace Solicited

variable [Hashlib] {A : Name → Prop} {base s t : Server} {arrived arrived' : Arrived}
  {face : FaceId} {d : Data} {i : Interest}

theorem mono (h : Solicited A base arrived s) (hsub : arrived ⊆ arrived') :
    Solicited A base arrived' s where
  settings := h.settings
  sent face p hp := (h.sent face p hp).mono hsub
  peers face hf := (h.peers face hf).imp fun _ hp => hsub hp
  features face f hf := (h.features face f hf).imp fun _ hc => ⟨hsub hc.1, hc.2⟩
  subscribed stream face hf := (h.subscribed stream face hf).imp fun _ hs => ⟨hsub hs.1, hs.2⟩
  queued := h.queued
  suspended w hw := by
    have hp := h.suspended w hw
    cases w with
    | forwarding c face i => exact ⟨hsub hp.1, hp.2⟩
    | buildingManifest face => exact hp.imp fun _ hi => ⟨hsub hi.1, hi.2⟩
    | syncing face => exact hp.imp fun _ hi => hsub hi
  forwarder := h.forwarder

theorem keeps_send {p : Packet} (hp : Warranted base arrived face p) :
    Keeps (Solicited A base arrived) (send face p) := by
  refine Keeps.get.bind fun s => ?_
  split
  · refine (Keeps.ofExcept _).bind fun _ => Keeps.modify fun s hs => { hs with sent := ?_ }
    rintro face' p' hm
    rcases List.mem_cons.mp hm with he | hm
    · obtain ⟨rfl, rfl⟩ := Prod.mk.inj he
      exact hp
    · exact hs.sent face' p' hm
  · exact Keeps.pure _

theorem keeps_sendData (hd : Wanted arrived face d) :
    Keeps (Solicited A base arrived) (send face (.data d)) :=
  keeps_send (p := .data d) hd

theorem keeps_trySend (hd : Wanted arrived face d) {otherwise : Handler Unit}
    (h : Keeps (Solicited A base arrived) otherwise) :
    Keeps (Solicited A base arrived) (trySend face d otherwise) :=
  (keeps_sendData hd).tryCatch fun _ => h

theorem keeps_maybeSendNack (hi : (face, .interest i) ∈ arrived) :
    Keeps (Solicited A base arrived) (maybeSendNack i face) := by
  refine Triple.bind_get fun s hs => ?_
  split
  · rename_i hfeature
    refine Triple.pre (keeps_send ⟨⟨i, hi, rfl⟩, ?_⟩) fun t ht => ht ▸ hs
    cases hf : s.peerFeatures.get? face with
    | none => simp [hf] at hfeature
    | some f =>
      obtain ⟨c, hc, hcf⟩ := hs.features face f hf
      rw [hf] at hfeature
      exact ⟨c, hc, hcf ▸ hfeature⟩
  · exact Triple.pure fun t ht => ht ▸ hs

theorem keeps_answerForwarded {c : CallId} {phase : Phase} (hi : (face, .interest i) ∈ arrived)
    (hd : ∀ d, phase = .returned (some d) → d.name.startsWith i.name = true) :
    Keeps (Solicited A base arrived) (answerForwarded c face i phase) := by
  refine Keeps.bind (Keeps.modify fun s hs => { hs with suspended := ?_ }) fun _ => ?_
  · exact fun h hh => hs.suspended h (List.mem_of_mem_erase hh)
  · split
    · exact keeps_sendData (.inl ⟨i, hi, hd _ rfl⟩)
    · exact Keeps.throw _
    · exact keeps_maybeSendNack hi

theorem keeps_enqueueForFace (face : FaceId) (d : Data) :
    Keeps (Solicited A base arrived) (enqueueForFace face d) := by
  rw [enqueueForFace_eq]
  refine Keeps.modify fun s hs => { hs with queued := ?_ }
  have hfold (l : List Name) (q : Dict Name (List Data))
      (hl : ∀ stream ∈ l, stream.covers d.name = true)
      (hq : ∀ stream, ∀ d' ∈ (q.get? stream).getD [], stream.covers d'.name = true) :
      ∀ stream, ∀ d' ∈ ((l.foldl (fun q stream => enqueue stream d q) q).get? stream).getD [],
        stream.covers d'.name = true := by
    induction l generalizing q with
    | nil => exact hq
    | cons stream l ih =>
      rw [List.forall_mem_cons] at hl
      refine ih (enqueue stream d q) hl.2 fun stream' d' hd' => ?_
      rw [enqueue, Dict.get?_set] at hd'
      split at hd'
      · rename_i he
        rcases List.mem_append.mp hd' with hd' | hd'
        · exact he ▸ hq stream d' hd'
        · rw [he, List.mem_singleton.mp hd']
          exact hl.1
      · exact hq stream' d' hd'
  exact hfold _ _ (fun _ hstream => (mem_streamsOf.mp hstream).2) hs.queued

theorem keeps_apsPublish (d : Data) : Keeps (Solicited A base arrived) (apsPublish d) := by
  refine Triple.bind_get fun s hs => Triple.pre ?_ fun t ht => ht ▸ hs
  refine Keeps.forM fun face hface => ?_
  split
  · obtain ⟨stream, hstream⟩ := mem_subscriberFaces.mp hface
    obtain ⟨hsub, hcovers⟩ := mem_streamsOf.mp hstream
    exact keeps_trySend (.inr (.inl ⟨stream, hs.subscribed stream face hsub, hcovers⟩))
      (keeps_enqueueForFace face d)
  · exact keeps_enqueueForFace face d

theorem keeps_drain {stream : Name} (hsub : Streams arrived face stream) :
    Keeps (Solicited A base arrived) (drain stream face) := by
  refine Triple.bind_get fun s hs => Triple.pre ?_ fun t ht => ht ▸ hs
  split
  · refine Keeps.bind (Keeps.modify fun s hs => { hs with queued := ?_ }) fun _ => ?_
    · intro stream' d hd
      rw [queuedFor, Dict.get?_erase] at hd
      split at hd
      · cases hd
      · exact hs.queued stream' d hd
    · exact Keeps.forM fun d hd =>
        keeps_trySend (.inr (.inl ⟨stream, hsub, hs.queued stream d hd⟩)) (Keeps.pure _)
  · exact Keeps.pure _

theorem keeps_propagate (d : Data) (excludeFace : Option FaceId) :
    Keeps (Solicited A base arrived) (propagate d excludeFace) := by
  refine Triple.bind_get fun s hs => Triple.pre ?_ fun t ht => ht ▸ hs
  refine Keeps.forM fun face hface => keeps_trySend (.inr (.inr ?_)) (Keeps.pure _)
  exact hs.peers face (List.mem_of_mem_filter hface)

theorem keeps_apsSubscribe (hp : Peered arrived face) (streams : List Name) :
    Keeps (Solicited A base arrived) (apsSubscribe face streams) :=
  Keeps.forM fun _ _ => keeps_send (p := .subscribe _) hp

theorem keeps_propagateToNewPeer (hp : Peered arrived face) (streams : List Name) :
    Keeps (Solicited A base arrived) (propagateToNewPeer face streams) := by
  refine Keeps.get.bind fun s => ?_
  split
  · exact (keeps_apsSubscribe hp streams).bind fun _ => (Keeps.ofExcept _).bind fun _ =>
      keeps_apsSubscribe hp _
  · exact Keeps.pure _

theorem keeps_suspend {w : Suspended} (hw : ∀ s, Solicited A base arrived s →
    s.Pending arrived w) : Keeps (Solicited A base arrived) (suspend w) :=
  Keeps.modify fun s hs => { hs with suspended := List.forall_mem_cons.mpr ⟨hw s hs, hs.suspended⟩ }

theorem keeps_syncFromPeer (hp : Peered arrived face) (addr nonce : Bytes) :
    Keeps (Solicited A base arrived) (syncFromPeer addr face nonce) := by
  refine (Keeps.ofExcept _).bind fun name => Keeps.get.bind fun s => ?_
  split
  · refine Keeps.tryCatch ?_ fun _ => Keeps.pure _
    exact (keeps_send (p := .interest _) hp).bind fun _ => keeps_suspend fun _ _ => hp
  · exact Keeps.pure _

theorem keeps_finishSync (hp : Peered arrived face) (streams : List Name) :
    Keeps (Solicited A base arrived) (finishSync face streams) := by
  refine Keeps.bind (Keeps.modify fun s hs => { hs with suspended := ?_ }) fun _ =>
    keeps_apsSubscribe hp streams
  exact fun h hh => hs.suspended h (List.mem_of_mem_erase hh)

theorem keeps_handlePeerHandshake {p : PropPeer} (hp : (face, .peer p) ∈ arrived) (nonce : Bytes)
    (streams : List Name) :
    Keeps (Solicited A base arrived) (handlePeerHandshake p face nonce streams) := by
  have hpeer : Peered arrived face := ⟨p, hp⟩
  refine Keeps.bind (Keeps.modify fun s hs => { hs with peers := ?_ }) fun _ => ?_
  · intro face' hface'
    rcases (Dict.mem_keys_set _).mp hface' with rfl | hface'
    · exact hpeer
    · exact hs.peers face' hface'
  refine (Keeps.ofExcept _).bind fun _ => Keeps.bind (Keeps.modify fun s hs => ?_) fun _ => ?_
  · exact { hs with forwarder := ⟨⟨hs.forwarder.consistent.loop, hs.forwarder.consistent.hashFree⟩,
      hs.forwarder.store, hs.forwarder.under⟩ }
  · split
    · exact (keeps_propagateToNewPeer hpeer streams).bind fun _ =>
        keeps_syncFromPeer hpeer _ nonce
    · exact keeps_syncFromPeer hpeer _ nonce

theorem keeps_onStore (hA : Distinguished A) (op : StoreOp) (hop : op.Uses A) :
    Keeps (Solicited A base arrived) (onStore op) :=
  Keeps.modify fun _ hs => { hs with forwarder := ⟨⟨hs.forwarder.consistent.loop,
    hs.forwarder.consistent.hashFree⟩, hs.forwarder.store.apply hA hop, hs.forwarder.under⟩ }

theorem keeps_csInsert (hA : Distinguished A) {n : Name} (hn : A n) (d : Data) :
    Keeps (Solicited A base arrived) (csInsert n d) :=
  Keeps.get.bind fun s => (keeps_onStore hA (.insert n d s.forwarder.time) hn).bind fun _ =>
    Keeps.ofExcept _

theorem csGet_name (hA : Distinguished A) {n : Name} (hn : A n) :
    Triple (Solicited A base arrived) (csGet n)
      (fun r s => Solicited A base arrived s ∧ ∀ d ∈ r, d.name = n.withoutContentHash)
      (Solicited A base arrived) := by
  refine Triple.bind_get fun s hs => ?_
  refine Triple.bind (Q := fun _ => Solicited A base arrived)
    ((keeps_onStore hA (.get n s.forwarder.time) trivial).pre fun t ht => ht ▸ hs) fun _ =>
      Triple.ofExcept (fun r t hr ht => ⟨ht, ?_⟩) fun _ ht => ht
  rintro d rfl
  have hsweep : (s.forwarder.cs.apply (.purgeExpired s.forwarder.time)).Named A :=
    hs.forwarder.store.apply hA trivial
  exact (hsweep.read hA hn hr).1

theorem csGetPrefix_name (hA : Distinguished A) {n : Name} (hn : A n) (child : ChildSelector)
    (minSequence : Option ℕ) : Triple (Solicited A base arrived) (csGetPrefix n child minSequence)
      (fun r s => Solicited A base arrived s ∧ ∀ d ∈ r, d.name.startsWith n = true)
      (Solicited A base arrived) := by
  refine Triple.bind_get fun s hs => ?_
  refine Triple.bind (Q := fun _ => Solicited A base arrived)
    ((keeps_onStore hA (.getPrefix n child minSequence s.forwarder.time) trivial).pre
      fun t ht => ht ▸ hs) fun _ => Triple.ofExcept (fun r t hr ht => ⟨ht, ?_⟩) fun _ ht => ht
  rintro d rfl
  have hsweep : (s.forwarder.cs.apply (.purgeExpired s.forwarder.time)).Named A :=
    hs.forwarder.store.apply hA trivial
  obtain ⟨-, i, hi⟩ := hsweep.readPrefix hA hn hr
  rw [hi]
  exact d.name.startsWith_ancestor i

theorem maybeSignOpt_name (P : Name → Prop) (r : Option Data) :
    Triple (fun s => Solicited A base arrived s ∧ ∀ d ∈ r, P d.name) (maybeSignOpt r)
      (fun r s => Solicited A base arrived s ∧ ∀ d ∈ r, P d.name)
      (Solicited A base arrived) := by
  cases r with
  | none => exact Triple.pure fun _ hs => hs
  | some d =>
    intro s hs
    refine Triple.bind (maybeSign_resigned (fun _ _ h => { h with }) d) (fun d' => ?_) s hs.1
    refine Triple.pure fun t ht => ⟨ht.1, fun e he => ?_⟩
    obtain rfl := Option.some.inj he
    rw [ht.2.name]
    exact hs.2 d rfl

theorem serveFromCs_name (hA : Distinguished A) (hi : A i.name) :
    Triple (Solicited A base arrived) (serveFromCs i)
      (fun r s => Solicited A base arrived s ∧ ∀ d ∈ r, d.name.startsWith i.name = true)
      (Solicited A base arrived) := by
  have hlookup : Triple (Solicited A base arrived) (csLookup i)
      (fun r s => Solicited A base arrived s ∧ ∀ d ∈ r, d.name.startsWith i.name = true)
      (Solicited A base arrived) := by
    refine Triple.bind Keeps.get fun s => ?_
    split
    · refine (csGetPrefix_name hA hi i.child i.minSequence).bind fun r =>
        (maybeSignOpt_name (·.startsWith i.name = true) r).bind fun r' => ?_
      exact Triple.pure fun t ht =>
        ⟨ht.1, fun d hd => ht.2 d (Option.eq_some_of_filter_eq_some hd)⟩
    · refine ((csGet_name hA hi).post fun r s h => ⟨h.1, fun d hd => ?_⟩).bind
        (maybeSignOpt_name (·.startsWith i.name = true))
      rw [h.2 d hd]
      exact i.name.startsWith_self
  refine Triple.bind Keeps.get fun s => hlookup.bind fun r => ?_
  exact Triple.pure fun t ht =>
    ⟨ht.1, fun d hd => ht.2 d (Option.eq_some_of_filter_eq_some hd)⟩

theorem withForwarder (hA : Distinguished A) (h : Solicited A base arrived s)
    {l : Forwarder.Label} (hl : l.Uses A) {fw : Forwarder} (hs : s.forwarder.step l = some fw) :
    Solicited A base arrived { s with forwarder := fw } where
  settings := h.settings
  sent := h.sent
  peers := h.peers
  features := h.features
  subscribed := h.subscribed
  queued := h.queued
  forwarder := h.forwarder.step hA hl hs
  suspended w hw := by
    have hp := h.suspended w hw
    cases w with
    | forwarding c face i =>
      obtain ⟨hi, call, hc, hn⟩ := hp
      obtain ⟨call', hc', hn'⟩ := Forwarder.step_name h.forwarder.consistent hs hc
      exact ⟨hi, call', hc', hn'.trans hn⟩
    | buildingManifest face => exact hp
    | syncing face => exact hp

theorem keeps_handleInterest (hA : Distinguished A) (hn : A i.name)
    (hi : (face, .interest i) ∈ arrived) (nonce : Bytes) :
    Keeps (Solicited A base arrived) (handleInterest i face nonce) := by
  refine (serveFromCs_name hA hn).bind fun hit => ?_
  cases hit with
  | some d =>
    intro s hs
    exact keeps_sendData (.inl ⟨i, hi, hs.2 d rfl⟩) s hs.1
  | none =>
    refine Triple.pre (P := Solicited A base arrived) ?_ fun _ hs => hs.1
    refine Triple.bind_get fun s hs => ?_
    refine Triple.bind (Q := fun name t => t = s ∧ s.manifestName = .ok name)
      (Triple.ofExcept (fun _ t hm ht => ⟨ht, hm⟩) fun t ht => ht ▸ hs) fun name => ?_
    split
    · rename_i hname
      refine Triple.modify fun t ht => ?_
      obtain ⟨rfl, hm⟩ := ht
      exact { hs with suspended := List.forall_mem_cons.mpr ⟨⟨i, hi, hname ▸ hm⟩, hs.suspended⟩ }
    · refine Triple.bind (Q := fun _ t => t = { s with
          suspended := Suspended.forwarding s.forwarder.loop.nextCall face i :: s.suspended })
        ?_ fun _ => ?_
      · exact Triple.modify fun t ht => by rw [ht.1]
      · refine Triple.modify fun t ht => ?_
        subst ht
        have hstep := hs.withForwarder hA (l := .express i face nonce) hn rfl
        have hcall := Forwarder.express_name s.forwarder i face nonce
        exact { hstep with
          suspended := List.forall_mem_cons.mpr ⟨⟨hi, hcall⟩, hstep.suspended⟩ }

theorem keeps_replay (hA : Distinguished A) {n : Name} (hn : A n) {stream : Name}
    (hsub : Streams arrived face stream) (hstarts : n.startsWith stream = true) :
    Keeps (Solicited A base arrived) (replay face n) := by
  have hcovers : stream.covers n.withoutContentHash = true :=
    Bool.or_eq_true_iff.mpr (.inl hstarts)
  refine ((csGet_name hA hn).post fun r s h => ⟨h.1, fun d hd => (h.2 d hd).symm ▸ hcovers⟩).bind
    fun r => (maybeSignOpt_name (fun m => stream.covers m = true) r).bind fun r => ?_
  cases r with
  | none => exact Triple.pure fun _ hs => hs.1
  | some d =>
    intro s hs
    exact keeps_sendData (.inr (.inl ⟨stream, hsub, hs.2 d rfl⟩)) s hs.1

theorem mem_of_entryNames (h : Solicited A base arrived s) {names : List Name}
    (hnames : s.forwarder.cs.entryNames = .ok names) {n : Name} (hn : n ∈ names) : A n := by
  obtain ⟨row, hrow, hparse⟩ := mem_of_mapM_eq_ok hnames hn
  obtain ⟨⟨key, row⟩, hitem, rfl⟩ := List.mem_map.mp (List.mem_filter.mp hrow).1
  obtain ⟨m, hm, hb⟩ := h.forwarder.store.row key row (Dict.get?_eq_some.mpr hitem)
  have hname : n = m :=
    Name.fromBytes_encode_eq hm.encodable hm.unpinned (hb.nameBytes ▸ hparse)
  exact hname ▸ hm.mem

theorem keeps_handleSubscribe (hA : Distinguished A) {sub : APSubscribe}
    (hsub : (face, .subscribe sub) ∈ arrived) :
    Keeps (Solicited A base arrived) (handleSubscribe sub face) := by
  have hsubscribed : Streams arrived face sub.name := ⟨sub, hsub, rfl⟩
  refine Keeps.bind (Keeps.modify fun s hs => { hs with subscribed := ?_ }) fun _ => ?_
  · intro stream face' hface'
    rw [subscribersOf, Dict.get?_set] at hface'
    split at hface'
    · rename_i he
      have hcases : face' = face ∨ face' ∈ s.subscribersOf sub.name := by
        rw [Option.getD_some] at hface'
        split at hface'
        · exact .inr hface'
        · exact (List.mem_append.mp hface').symm.imp_left List.mem_singleton.mp
      rcases hcases with rfl | hface'
      · exact he ▸ hsubscribed
      · exact he ▸ hs.subscribed sub.name face' hface'
    · exact hs.subscribed stream face' hface'
  split
  · refine Triple.bind_get fun s hs => ?_
    refine Triple.bind (Q := fun names t => Solicited A base arrived t ∧
        s.forwarder.cs.entryNames = .ok names)
      (Triple.ofExcept (fun _ t hm ht => ⟨ht ▸ hs, hm⟩) fun t ht => ht ▸ hs) fun names t ht => ?_
    refine Keeps.bind (Keeps.forM fun n hn => ?_) (fun _ => keeps_drain hsubscribed) t ht.1
    obtain ⟨hn, hstarts⟩ := List.mem_filter.mp hn
    exact keeps_replay hA (hs.mem_of_entryNames ht.2 hn) hsubscribed hstarts
  · exact keeps_drain hsubscribed

theorem keeps_receiveData (hA : Distinguished A) (hd : A d.name) (face : FaceId)
    (cacheUnsolicited : Bool) :
    Keeps (Solicited A base arrived) (receiveData d face cacheUnsolicited) := by
  refine Keeps.get.bind fun s => Keeps.bind ?_ fun _ => Keeps.ofExcept _
  exact Keeps.modify fun t ht =>
    ht.withForwarder hA (l := .receiveData d face cacheUnsolicited) hd rfl

theorem keeps_applyInvalidate (hA : Distinguished A) {v : Invalidate} {exclude : Option FaceId}
    (hv : ∀ face, some face ≠ exclude → Warranted base arrived face (.invalidate v)) :
    Keeps (Solicited A base arrived) (applyInvalidate v exclude) := by
  have hstore : Keeps (Solicited A base arrived) (csInvalidate v.name v.isPrefix) :=
    Keeps.get.bind fun _ => (keeps_onStore hA (.invalidate v.name v.isPrefix) trivial).bind
      fun _ => Keeps.ofExcept _
  refine hstore.bind fun _ => (Keeps.ofExcept _).bind fun _ => Keeps.get.bind fun s => ?_
  refine Keeps.forM fun face hface => keeps_send (hv face ?_)
  simpa using (List.mem_filter.mp hface).2

theorem keeps_invalidationIsFresh (v : Invalidate) :
    Keeps (Solicited A base arrived) (invalidationIsFresh v) := by
  refine Keeps.get.bind fun s => (Keeps.ofExcept _).bind fun key => ?_
  split
  · exact Keeps.pure _
  · exact Keeps.bind (Keeps.modify fun s hs => { hs with }) fun _ => Keeps.pure _

theorem keeps_handleInvalidate (hA : Distinguished A) {v : Invalidate}
    (hv : (face, .invalidate v) ∈ arrived) :
    Keeps (Solicited A base arrived) (handleInvalidate v face) := by
  refine Triple.bind_get fun s hs => Triple.pre ?_ fun t ht => ht ▸ hs
  split
  · rename_i hverified
    refine (keeps_invalidationIsFresh v).bind fun fresh => ?_
    split
    · refine keeps_applyInvalidate hA fun face' hne => .inl ⟨⟨face, ?_, hv⟩, ?_⟩
      · exact fun he => hne (congrArg some he.symm)
      · rwa [← (Prod.mk.inj (Prod.mk.inj hs.settings).2).2]
    · exact Keeps.pure _
  · exact Keeps.pure _

theorem keeps_invalidate (hA : Distinguished A) (n : Name) (byPrefix : Bool) :
    Keeps (Solicited A base arrived) (invalidate n byPrefix) := by
  refine Triple.bind_get fun s hs => ?_
  split
  · exact Triple.throw fun t ht => ht ▸ hs
  · rename_i signer hsigner
    refine Triple.bind (Q := fun v t => Solicited A base arrived t ∧
        Invalidate.sign { name := n, epoch := s.forwarder.time, isPrefix := byPrefix } signer =
          .ok v)
      (Triple.ofExcept (fun _ t hm ht => ⟨ht ▸ hs, hm⟩) fun t ht => ht ▸ hs) fun v t ht => ?_
    refine Keeps.bind (keeps_invalidationIsFresh v) (fun _ => ?_) t ht.1
    refine keeps_applyInvalidate hA fun face _ => .inr ⟨signer, ?_, _, ht.2⟩
    rw [← (Prod.mk.inj (Prod.mk.inj hs.settings).2).1]
    exact hsigner

theorem keeps_create (n : Name) (content : Bytes) :
    Keeps (Solicited A base arrived) (create n content) :=
  Keeps.modify fun _ h => { h with }

theorem publishes (hA : Distinguished A) (v : Server) :
    Publishes v (fun t => Solicited A base arrived t ∧ t.pointerSettings = v.pointerSettings)
      (Solicited A base arrived) fun d => A d.name where
  settings _ h := h.2
  done _ h := h.1
  create _ _ := Keeps.modify fun _ h => ⟨{ h.1 with }, h.2⟩
  sign d hd := (maybeSign_resigned
    (I := fun t => Solicited A base arrived t ∧ t.pointerSettings = v.pointerSettings)
    (fun _ _ h => ⟨{ h.1 with }, h.2⟩) d).conseq (fun _ h => h)
      (fun _ _ h => ⟨⟨h.1, h.2.name ▸ hd⟩, h.2⟩) fun _ h => h.1
  insert d hd := by
    have hkeep : Keeps (fun t => t.pointerSettings = v.pointerSettings) (csInsert d.name d) :=
      Keeps.get.bind fun _ => Keeps.bind (Keeps.modify fun _ h => h) fun _ => Keeps.ofExcept _
    exact ((keeps_csInsert hA hd d).and hkeep).conseq (fun _ h => h) (fun _ _ h => h)
      fun _ h => h.1
  push d _ := keeps_apsPublish d
  propagate d _ := keeps_propagate d none

theorem answerManifest (hA : Distinguished A) (h : Solicited A base arrived s) {text : Bytes}
    (hface : .buildingManifest face ∈ s.suspended)
    (hl : ∀ d ∈ s.brings (.manifest face text), A d.name) :
    Solicited A base arrived (after (answerManifest face text) s) := by
  obtain ⟨i, hi, hname⟩ := h.suspended _ hface
  have hn : A i.name := hl ((Data.new i.name text).withSequence 1) (by simp [brings, hname])
  refine Triple.after (P := fun t => Solicited A base arrived t ∧ t.rnsAddr = s.rnsAddr) ?_
    ⟨h, rfl⟩
  refine Triple.bind (Q := fun _ t => Solicited A base arrived t ∧ t.rnsAddr = s.rnsAddr)
    (Triple.modify fun t ht => ⟨{ ht.1 with suspended := fun w hw => ?_ }, ht.2⟩) fun _ => ?_
  · exact ht.1.suspended w (List.mem_of_mem_erase hw)
  refine Triple.bind (Q := fun d t => Solicited A base arrived t ∧ d.name = i.name) ?_ fun d => ?_
  · refine Triple.bind_get fun t ht => ?_
    have hsame : t.manifestName = .ok i.name := by rw [manifestName, ht.2]; exact hname
    rw [hsame]
    have hsign (d : Data) : Triple (Solicited A base arrived) (maybeSign d)
        (fun d' t => Solicited A base arrived t ∧ d'.name = d.name) (Solicited A base arrived) :=
      (maybeSign_resigned (fun _ _ h => { h with }) d).post fun _ _ ht => ⟨ht.1, ht.2.name⟩
    intro u hu
    exact Triple.bind (keeps_create i.name text)
      (fun _ => hsign ((Data.new i.name text).withSequence 1)) u (hu ▸ ht.1)
  · intro t ht
    have hwanted : Wanted arrived face d := by
      refine .inl ⟨i, hi, ?_⟩
      rw [ht.2]
      exact i.name.startsWith_self
    exact ((keeps_csInsert hA (ht.2 ▸ hn) d).bind fun _ => keeps_sendData hwanted) t ht.1

end Solicited

def packetIn : Label → Option (FaceId × Packet)
  | .incoming face raw _ => (parsePacket raw).toOption.map (face, ·)
  | _ => none

/-- The packets that have arrived in a run. -/
def packetsIn (ls : List Label) : Arrived := ls.filterMap packetIn

/-- The names that an event brings are in use. -/
def Label.Uses [Hashlib] (A : Name → Prop) (s : Server) (l : Label) : Prop :=
  (∀ d ∈ s.brings l, A d.name) ∧
    match l with
    | .incoming _ raw _ => ∀ i, parsePacket raw = .ok (.interest i) → A i.name
    | .forwarder l => l.Uses A
    | _ => True

variable [Hashlib] {A : Name → Prop} {base s t : Server} {arrived : Arrived} {l : Label}

theorem Solicited.handlePacket (hA : Distinguished A) {face : FaceId} {p : Packet} {drawn : Drawn}
    (h : Solicited A base arrived s) (hp : (face, p) ∈ arrived)
    (hi : ∀ i, p = .interest i → A i.name) (hd : ∀ d, p = .data d → A d.name) :
    Solicited A base arrived (after (handlePacket face drawn p) s) := by
  cases p with
  | capPeer c =>
    refine { h with features := fun face' f hf => ?_ }
    rw [Server.handlePacket, after, exec_modify, Dict.get?_set] at hf
    split at hf
    · rename_i he
      exact ⟨c, he ▸ hp, Option.some.inj hf⟩
    · exact h.features face' f hf
  | interest i =>
    simp only [Server.handlePacket]
    split
    · exact (Solicited.keeps_sendData (.inl ⟨i, hp, i.name.startsWith_self⟩)).after h
    · exact (Solicited.keeps_handleInterest hA (hi i rfl) hp _).after h
  | data d =>
    refine Triple.after (P := Solicited A base arrived) (Triple.bind Keeps.get fun s' => ?_) h
    split
    · exact (Solicited.keeps_receiveData hA (hd d rfl) face true).bind fun _ =>
        Solicited.keeps_propagate d _
    · exact Solicited.keeps_receiveData hA (hd d rfl) face false
  | subscribe sub => exact (Solicited.keeps_handleSubscribe hA hp).after h
  | invalidate v => exact (Solicited.keeps_handleInvalidate hA hp).after h
  | nack n => exact h.withForwarder hA (l := .receiveNack n.name face) trivial rfl
  | peer p => exact (Solicited.keeps_handlePeerHandshake hp _ _).after h

theorem Solicited.step (hA : Distinguished A) (h : Solicited A base arrived s)
    (hl : l.Uses A s) (hs : s.step l = some t) :
    Solicited A base ((packetIn l).toList ++ arrived) t := by
  cases l with
  | incoming face raw drawn =>
    obtain rfl := Option.some.inj hs
    rw [handleIncoming, packetIn]
    obtain ⟨hbrings, hinterest⟩ := hl
    simp only [brings] at hbrings
    cases hp : parsePacket raw with
    | error e => exact h
    | ok p =>
      rw [hp] at hbrings
      refine (h.mono (List.subset_cons_self (face, p) arrived)).handlePacket hA
        List.mem_cons_self ?_ ?_
      · rintro i rfl
        exact hinterest i hp
      · rintro d rfl
        exact hbrings d (List.mem_singleton.mpr rfl)
  | resource payload =>
    obtain rfl := Option.some.inj hs
    rw [handleResource]
    cases hr : resourceData payload with
    | none => exact h
    | some d =>
      exact (Solicited.keeps_csInsert hA (hl.1 d (by simp [brings, hr])) d).after h
  | forwarded c =>
    obtain ⟨⟨face, i⟩, hw, hs⟩ := Option.bind_eq_some_iff.mp hs
    obtain ⟨call, hc, hs⟩ := Option.bind_eq_some_iff.mp hs
    obtain ⟨hi, call', hc', hn⟩ := h.suspended _ (mem_of_waitingFor hw)
    obtain rfl := Option.some.inj (hc'.symm.trans hc)
    have hgot (d : Data) (hp : call'.phase = .returned (some d)) :
        d.name.startsWith i.name = true :=
      hn ▸ h.forwarder.under c call' d hc ⟨call', hc, .inl hp⟩
    split at hs
    · rename_i r hr
      refine Option.some.inj hs ▸ (Solicited.keeps_answerForwarded hi fun d hp => ?_).after h
      exact hgot d (hr.trans hp)
    · exact Option.some.inj hs ▸
        (Solicited.keeps_answerForwarded hi fun d hp => by cases hp).after h
    · cases hs
  | manifest face text =>
    rw [Server.step] at hs
    split at hs
    · rename_i hface
      exact Option.some.inj hs ▸ h.answerManifest hA hface hl.1
    · cases hs
  | synced face streams =>
    rw [Server.step] at hs
    split at hs
    · rename_i hface
      exact Option.some.inj hs ▸
        (Solicited.keeps_finishSync (h.suspended _ hface) streams).after h
    · cases hs
  | publishContent n content encrypted sequence latestUnder =>
    exact Option.some.inj hs ▸
      ((Solicited.publishes hA s).publishContent hl.1).after ⟨h, rfl⟩
  | publishPost n content encrypted sequence latestUnder =>
    exact Option.some.inj hs ▸ ((Solicited.publishes hA s).publishPost hl.1).after ⟨h, rfl⟩
  | publishPushed d =>
    have hd : A d.name := hl.1 d (by simp [brings])
    exact Option.some.inj hs ▸ ((Solicited.publishes hA s).publishPushed hd).after ⟨h, rfl⟩
  | publishManifest text =>
    exact Option.some.inj hs ▸ ((Solicited.publishes hA s).publishManifest hl.1).after ⟨h, rfl⟩
  | invalidate n byPrefix =>
    exact Option.some.inj hs ▸ (Solicited.keeps_invalidate hA n byPrefix).after h
  | forwarder l =>
    rw [Server.step] at hs
    split at hs
    · obtain ⟨fw, hfw, rfl⟩ := Option.map_eq_some_iff.mp hs
      exact h.withForwarder hA hl.2 hfw
    · cases hs
  | openFace => exact Option.some.inj hs ▸ { h with
      forwarder := ⟨⟨h.forwarder.consistent.loop, h.forwarder.consistent.hashFree⟩,
        h.forwarder.store, h.forwarder.under⟩ }
  | closeFace face =>
    refine Option.some.inj hs ▸ { h with
      forwarder := ⟨⟨h.forwarder.consistent.loop, h.forwarder.consistent.hashFree⟩,
        h.forwarder.store, h.forwarder.under⟩
      features := fun face' f hf => ?_ }
    rw [cleanupClosedFace, after, exec_modify, Dict.get?_erase] at hf
    exact h.features face' f (Option.ite_none_left_eq_some.mp hf).2

theorem Solicited.run (hA : Distinguished A) {ls : List Label} (h : Solicited A base arrived s)
    (hr : Run Server.step (fun s l => l.Uses A s) s ls t) :
    Solicited A base (packetsIn ls ++ arrived) t := by
  induction hr generalizing arrived with
  | nil => exact h
  | @cons s t u l ls hok hs _ ih =>
    have hall : packetsIn (l :: ls) = (packetIn l).toList ++ packetsIn ls := by
      rw [packetsIn, List.filterMap_cons]
      cases packetIn l <;> rfl
    refine (ih (h.step hA hok hs)).mono fun x hx => ?_
    rw [hall]
    simp only [List.mem_append] at hx ⊢
    rcases hx with hx | hx | hx
    · exact .inl (.inr hx)
    · exact .inl (.inl hx)
    · exact .inr hx

/-- Whatever happens, every packet that a server sends answers a packet that arrived, or is an
invalidation of its own. -/
theorem sent_warranted (hA : Distinguished A) (h : s.Initial) (hpeers : s.peers = .empty)
    (hfeatures : s.peerFeatures = .empty) (hsubs : s.subscriptions = .empty) {ls : List Label}
    (hr : Run step (fun s l => l.Uses A s) s ls t) {face : FaceId} {p : Packet}
    (hp : (face, p) ∈ t.sent) : Warranted s (packetsIn ls) face p := by
  have h₀ : Solicited A s [] s :=
    { settings := rfl
      sent := fun face p hp => by simp [h.sent] at hp
      peers := fun face hf => by simp [hpeers, Dict.keys, Dict.empty] at hf
      features := fun face f hf => by rw [hfeatures] at hf; cases hf
      subscribed := fun stream face hf => by rw [subscribersOf, hsubs] at hf; cases hf
      queued := fun stream d hd => by rw [queuedFor, h.offlineQueue] at hd; cases hd
      suspended := fun w hw => by simp [h.suspended] at hw
      forwarder := h.forwarder.addressed h.content h.namePrefixes }
  have hend := h₀.run hA hr
  rw [List.append_nil] at hend
  exact hend.sent face p hp

def postNames (n : Name) : Prop := ∃ i, n = postName.ancestor i

omit [Hashlib] in
theorem postNames_distinguished : @Distinguished Data.paddedHash postNames :=
  letI := Data.paddedHash
  distinguished_ancestors rfl (by decide)

def subscribedPush : List Label :=
  [.openFace, .incoming 100 (wireBytes (.subscribe { name := postName, startFromNow := true }))
    drawn, .publishPushed injected]

omit [Hashlib] in
theorem push_warranted :
    letI := Data.paddedHash
    let t := serverAfter publisher subscribedPush
    ∃ p ∈ t.sent, p.1 = 100 ∧ Warranted publisher (packetsIn subscribedPush) p.1 p.2 := by
  let := Data.paddedHash
  have hpublished : ∀ d ∈ [injected], postNames d.name := by
    rintro d hd
    obtain rfl := List.mem_singleton.mp hd
    exact ⟨1, rfl⟩
  have hsub : parsePacket (wireBytes (.subscribe { name := postName, startFromNow := true })) =
      .ok (.subscribe { name := postName, startFromNow := true }) := rfl
  have hrun : Run step (fun s l => l.Uses postNames s) publisher subscribedPush
      (serverAfter publisher subscribedPush) := by
    refine .cons ⟨?_, trivial⟩ rfl (.cons ⟨?_, ?_⟩ rfl (.cons ⟨hpublished, trivial⟩ rfl (.nil _)))
    · exact fun d hd => by cases hd
    · exact fun d hd => by cases hd
    · intro i hi
      rw [hsub] at hi
      cases hi
  refine ⟨_, List.mem_singleton.mpr rfl, rfl, ?_⟩
  exact sent_warranted postNames_distinguished publisher_initial rfl rfl rfl hrun
    (List.mem_singleton.mpr rfl)

end Server

end RnsIcn
