import RnsIcn.Forwarder.Answer
import RnsIcn.Server.Pointer
import RnsIcn.Server.Stable

/-! # What leaves a server

All Data that a server stores, queues or sends was created by a local operation or was
delivered to it. A condition on names, contents and the encrypted flag that the Data
meets where it comes in therefore holds of the Data wherever it goes.
-/

namespace RnsIcn

open Effect Fallible EventLoop

/-- A condition on the unpinned name, the content and the encrypted flag of Data. -/
abbrev Policy := Name → Bytes → Bool → Prop

def Policy.Admits (K : Policy) (d : Data) : Prop :=
  K d.name.withoutContentHash d.content d.metadata.encrypted

/-- The Data differ at most in the signature and in when it was made. -/
structure Data.Resigned (d d' : Data) : Prop where
  name : d'.name = d.name
  content : d'.content = d.content
  contentHash : d'.metadata.contentHash = d.metadata.contentHash
  encrypted : d'.metadata.encrypted = d.metadata.encrypted

theorem Policy.Admits.resigned {K : Policy} {d d' : Data} (h : K.Admits d) (hd : d.Resigned d') :
    K.Admits d' := by
  rw [Policy.Admits, hd.name, hd.content, hd.encrypted]
  exact h

def ContentStore.Meets (K : Policy) (cs : ContentStore) : Prop :=
  ∀ key row, cs.content.get? key = some row → ∃ n : Name, n.Encodable ∧ n.contentHash = none ∧
    row.nameBytes = n.encode ∧ K n row.contentBytes row.metadataJson.encrypted

namespace ContentStore.Meets

variable {K : Policy} {cs cs' : ContentStore} {d : Data}

theorem mono (h : cs.Meets K) (hsub : ContentStore.Sub cs' cs) : cs'.Meets K :=
  fun key row hr => h key row (hsub key row hr)

variable [Hashlib]

theorem serves (h : cs.Meets K) (hd : cs.Serves d) : K.Admits d := by
  obtain ⟨key, row, now, hr, -, hn, hd⟩ := hd
  obtain ⟨n, he, hp, hb, hk⟩ := h key row hr
  obtain rfl := Name.fromBytes_encode_eq he hp (hb ▸ hn)
  have hunpinned : d.name.withoutContentHash = d.name := by
    rw [Name.withoutContentHash, ← hp]
  rw [Policy.Admits, hunpinned, hd]
  exact hk

theorem insert {n : Name} {now : ℕ} (h : cs.Meets K)
    (hk : K n.withoutContentHash d.content d.metadata.encrypted) :
    (cs.apply (.insert n d now)).Meets K := by
  intro key row hr
  rcases ContentStore.get?_apply_insert hr with hr | ⟨he, -, ⟨ttl, rfl⟩, -⟩
  · exact h key row hr
  · exact ⟨n.withoutContentHash, he, rfl, rfl, hk⟩

theorem apply {op : StoreOp} (h : cs.Meets K) (hop : Server.storesNothing op = true) :
    (cs.apply op).Meets K := h.mono (Server.apply_sub cs hop)

end ContentStore.Meets

namespace Forwarder

/-- The condition holds of the Data that calls of `express` have got. -/
structure Holds (K : Policy) (s : Forwarder) : Prop where
  consistent : s.Consistent
  got : ∀ c d, Got d c s.loop → K.Admits d

variable [Hashlib] {K : Policy} {s t : Forwarder} {l : Label}

theorem Holds.step (h : s.Holds K) (hcs : s.cs.Meets K)
    (hl : ∀ d ∈ l.answers s, K.Admits d) (hs : step s l = some t) : t.Holds K :=
  ⟨step_consistent hs h.consistent, got_step h.consistent h.got
    (fun _ _ _ hlook => hcs.serves (csLookup_serves hlook)) hl hs⟩

end Forwarder

namespace Server

/-- The condition holds of all Data that the server stores, has handed to faces, queues for
subscribers or is about to answer with. -/
structure Confined (K : Policy) (s : Server) : Prop where
  rows : s.forwarder.cs.Meets K
  held : s.forwarder.Holds K
  sent : ∀ face d, (face, Packet.data d) ∈ s.sent → K.Admits d
  queued : ∀ e ∈ s.offlineQueue.items, ∀ d ∈ e.2, K.Admits d

variable {K : Policy} {s t : Server} {d : Data}

def outflow (s : Server) : ContentStore × EventLoop × Pit × List (FaceId × Packet) ×
    Dict Name (List Data) :=
  (s.forwarder.cs, s.forwarder.loop, s.forwarder.pit, s.sent, s.offlineQueue)

theorem Confined.frame (h : Confined K s) (he : t.outflow = s.outflow) : Confined K t := by
  obtain ⟨hcs, he⟩ := Prod.mk.inj he
  obtain ⟨hloop, he⟩ := Prod.mk.inj he
  obtain ⟨hpit, he⟩ := Prod.mk.inj he
  obtain ⟨hsent, hqueue⟩ := Prod.mk.inj he
  refine ⟨hcs ▸ h.rows, ⟨⟨hloop ▸ h.held.consistent.loop, hpit ▸ h.held.consistent.hashFree⟩,
    fun c d hg => h.held.got c d (hloop ▸ hg)⟩, hsent ▸ h.sent, hqueue ▸ h.queued⟩

theorem keeps_outflow {g : Server → Server} (h : ∀ s, (g s).outflow = s.outflow) :
    Keeps (Confined K) (modify g : Handler Unit) :=
  Keeps.modify fun s hs => hs.frame (h s)

theorem Confined.store (h : Confined K s) {cs : ContentStore} (hcs : cs.Meets K) :
    Confined K (s.withStore cs) :=
  ⟨hcs, ⟨⟨h.held.consistent.loop, h.held.consistent.hashFree⟩, h.held.got⟩, h.sent, h.queued⟩

theorem keeps_send (face : FaceId) {p : Packet} (hp : ∀ d, p = .data d → K.Admits d) :
    Keeps (Confined K) (send face p) := by
  refine Keeps.get.bind fun s => ?_
  split
  · refine (Keeps.ofExcept _).bind fun _ => Keeps.modify fun s hs => ?_
    refine ⟨hs.rows, hs.held, fun face' d hd => ?_, hs.queued⟩
    rcases List.mem_cons.mp hd with he | hd
    · exact hp d (Prod.mk.inj he).2.symm
    · exact hs.sent face' d hd
  · exact Keeps.pure _

theorem keeps_sendData (face : FaceId) (hd : K.Admits d) :
    Keeps (Confined K) (send face (.data d)) :=
  keeps_send face fun d' he => by
    obtain rfl := Packet.data.inj he
    exact hd

theorem keeps_trySend (face : FaceId) (hd : K.Admits d) {otherwise : Handler Unit}
    (h : Keeps (Confined K) otherwise) : Keeps (Confined K) (trySend face d otherwise) :=
  (keeps_sendData face hd).tryCatch fun _ => h

theorem keeps_suspend (h : Suspended) : Keeps (Confined K) (suspend h) :=
  keeps_outflow fun _ => rfl

theorem keeps_resumed (h : Suspended) : Keeps (Confined K) (resumed h) :=
  keeps_outflow fun _ => rfl

theorem keeps_create (n : Name) (content : Bytes) : Keeps (Confined K) (create n content) :=
  keeps_outflow fun _ => rfl

theorem keeps_maybeSendNack (i : Interest) (face : FaceId) :
    Keeps (Confined K) (maybeSendNack i face) := by
  refine Keeps.get.bind fun s => ?_
  split
  · exact keeps_send face fun _ h => by cases h
  · exact Keeps.pure _

theorem keeps_enqueueForFace (face : FaceId) (hd : K.Admits d) :
    Keeps (Confined K) (enqueueForFace face d) := by
  refine Keeps.modify fun s hs => ⟨hs.rows, hs.held, hs.sent, ?_⟩
  have hfold (l : List (Name × List FaceId)) (q : Dict Name (List Data))
      (hq : ∀ e ∈ q.items, ∀ d ∈ e.2, K.Admits d) :
      ∀ e ∈ (l.foldl (fun q e => q.set e.1 ((q.get? e.1).getD [] ++ [d])) q).items,
        ∀ d ∈ e.2, K.Admits d := by
    induction l generalizing q with
    | nil => exact hq
    | cons x l ih =>
      refine ih _ fun e he d' hd' => ?_
      rcases Dict.mem_items_set.mp he with rfl | ⟨he, -⟩
      · rcases List.mem_append.mp hd' with hd' | hd'
        · cases hx : q.get? x.1 with
          | none => simp [hx] at hd'
          | some ds =>
            rw [hx] at hd'
            exact hq _ (Dict.get?_eq_some.mp hx) d' hd'
        · obtain rfl := List.mem_singleton.mp hd'
          exact hd
      · exact hq e he d' hd'
  exact hfold _ _ hs.queued

theorem keeps_apsPublish (hd : K.Admits d) : Keeps (Confined K) (apsPublish d) := by
  refine Keeps.get.bind fun s => Keeps.forM fun face _ => ?_
  split
  · exact keeps_trySend face hd (keeps_enqueueForFace face hd)
  · exact keeps_enqueueForFace face hd

theorem keeps_drain (stream : Name) (face : FaceId) : Keeps (Confined K) (drain stream face) := by
  refine Triple.bind_get fun s hs => ?_
  split
  · have hqueued : ∀ d ∈ (s.offlineQueue.get? stream).getD [], K.Admits d := by
      cases hq : s.offlineQueue.get? stream with
      | none => simp
      | some ds => exact hs.queued _ (Dict.get?_eq_some.mp hq)
    refine Triple.bind (Q := fun _ => Confined K) (Triple.modify fun t ht => ?_) fun _ =>
      Keeps.forM fun d hd => keeps_trySend face (hqueued d hd) (Keeps.pure _)
    subst ht
    exact ⟨hs.rows, hs.held, hs.sent, fun e he => hs.queued e (Dict.mem_items_filter.mp he).1⟩
  · exact Triple.pure fun t ht => ht ▸ hs

theorem keeps_answerForwarded (c : CallId) (face : FaceId) (i : Interest) {phase : Phase}
    (hd : ∀ d, phase = .returned (some d) → K.Admits d) :
    Keeps (Confined K) (answerForwarded c face i phase) := by
  refine (keeps_resumed _).bind fun _ => ?_
  split
  · exact keeps_sendData face (hd _ rfl)
  · exact Keeps.throw _
  · exact keeps_maybeSendNack i face

theorem keeps_propagate (hd : K.Admits d) (excludeFace : Option FaceId) :
    Keeps (Confined K) (propagate d excludeFace) :=
  Keeps.get.bind fun _ => Keeps.forM fun face _ => keeps_trySend face hd (Keeps.pure _)

theorem keeps_apsSubscribe (face : FaceId) (streams : List Name) :
    Keeps (Confined K) (apsSubscribe face streams) :=
  Keeps.forM fun _ _ => keeps_send face fun _ h => by cases h

theorem keeps_propagateToNewPeer (face : FaceId) (streams : List Name) :
    Keeps (Confined K) (propagateToNewPeer face streams) := by
  refine Keeps.get.bind fun s => ?_
  split
  · exact (keeps_apsSubscribe face streams).bind fun _ => (Keeps.ofExcept _).bind fun _ =>
      keeps_apsSubscribe face _
  · exact Keeps.pure _

theorem keeps_syncFromPeer (addr : Bytes) (face : FaceId) (nonce : Bytes) :
    Keeps (Confined K) (syncFromPeer addr face nonce) := by
  refine (Keeps.ofExcept _).bind fun name => Keeps.get.bind fun s => ?_
  split
  · refine Keeps.tryCatch ?_ fun _ => Keeps.pure _
    exact (keeps_send face fun _ h => by cases h).bind fun _ => keeps_suspend _
  · exact Keeps.pure _

theorem keeps_finishSync (face : FaceId) (streams : List Name) :
    Keeps (Confined K) (finishSync face streams) :=
  (keeps_resumed _).bind fun _ => keeps_apsSubscribe face streams

theorem keeps_handlePeerHandshake (p : PropPeer) (face : FaceId) (nonce : Bytes)
    (streams : List Name) : Keeps (Confined K) (handlePeerHandshake p face nonce streams) := by
  refine Keeps.bind (keeps_outflow fun _ => rfl)
    fun _ => (Keeps.ofExcept _).bind fun peerPrefix => ?_
  refine Keeps.bind (keeps_outflow fun _ => rfl) fun _ => ?_
  split
  · exact (keeps_propagateToNewPeer face streams).bind fun _ => keeps_syncFromPeer _ face nonce
  · exact keeps_syncFromPeer _ face nonce

variable [Hashlib]

theorem Confined.forwarder {l : Forwarder.Label} {fw : Forwarder} (h : Confined K s)
    (hl : ∀ d ∈ l.answers s.forwarder, K.Admits d)
    (hop : ∀ n d now, s.forwarder.storeOp l = some (.insert n d now) →
      K n.withoutContentHash d.content d.metadata.encrypted)
    (hs : s.forwarder.step l = some fw) : Confined K { s with forwarder := fw } := by
  refine ⟨?_, h.held.step h.rows hl hs, h.sent, h.queued⟩
  change fw.cs.Meets K
  rw [Forwarder.step_cs hs]
  cases hstore : s.forwarder.storeOp l with
  | none => exact h.rows
  | some op =>
    by_cases hn : storesNothing op = true
    · exact h.rows.apply hn
    · cases op with
      | insert n d now => exact h.rows.insert (hop n d now hstore)
      | _ => exact absurd rfl hn

theorem keeps_onStore {op : StoreOp} (h : storesNothing op = true) :
    Keeps (Confined K) (onStore op) :=
  Keeps.modify fun _ hs => hs.store (hs.rows.apply h)

theorem csGet_admits (n : Name) : Triple (Confined K) (csGet n)
    (fun r s => Confined K s ∧ ∀ d ∈ r, K.Admits d) (Confined K) := by
  refine Triple.bind_get fun s hs => ?_
  refine Triple.bind (Q := fun _ => Confined K) ((keeps_onStore rfl).pre fun t ht => ht ▸ hs)
    fun _ => Triple.ofExcept (fun r t hr ht => ⟨ht, ?_⟩) fun _ ht => ht
  rintro d rfl
  have hmeets : (s.forwarder.cs.apply (.get n s.forwarder.time)).Meets K := hs.rows.apply rfl
  exact hmeets.serves (ContentStore.read_serves hr)

theorem csGetPrefix_admits (n : Name) (child : ChildSelector) (minSequence : Option ℕ) :
    Triple (Confined K) (csGetPrefix n child minSequence)
    (fun r s => Confined K s ∧ ∀ d ∈ r, K.Admits d) (Confined K) := by
  refine Triple.bind_get fun s hs => ?_
  refine Triple.bind (Q := fun _ => Confined K) ((keeps_onStore rfl).pre fun t ht => ht ▸ hs)
    fun _ => Triple.ofExcept (fun r t hr ht => ⟨ht, ?_⟩) fun _ ht => ht
  rintro d rfl
  obtain ⟨key, row, hrow, hv, hn, hd, -⟩ := ContentStore.readPrefix_serves hr
  have hmeets : (s.forwarder.cs.apply (.getPrefix n child minSequence s.forwarder.time)).Meets K :=
    hs.rows.apply rfl
  exact hmeets.serves ⟨key, row, s.forwarder.time, hrow, hv, hn, hd⟩

theorem keeps_csInsert {n : Name} (hd : K n.withoutContentHash d.content d.metadata.encrypted) :
    Keeps (Confined K) (csInsert n d) := by
  refine Keeps.get.bind fun s => Keeps.bind ?_ fun _ => Keeps.ofExcept _
  exact Keeps.modify fun _ hs => hs.store (hs.rows.insert hd)

theorem maybeSign_resigned {I : Server → Prop}
    (hI : ∀ s d, I s → I { s with signed := d :: s.signed }) (d : Data) :
    Triple I (maybeSign d) (fun d' s => I s ∧ d.Resigned d') I := by
  refine Triple.bind_get fun s hs => ?_
  split
  · exact Triple.pure fun t ht => ⟨ht ▸ hs, ⟨rfl, rfl, rfl, rfl⟩⟩
  · split
    · refine Triple.bind (Q := fun d' t => I t ∧ d.Resigned d') ?_ fun d' => ?_
      · refine Triple.ofExcept (fun d' t hd ht => ⟨ht ▸ hs, ?_⟩) fun t ht => ht ▸ hs
        obtain ⟨sig, -, rfl⟩ := Data.sign_eq_ok hd
        exact ⟨rfl, rfl, rfl, rfl⟩
      · refine Triple.bind (Q := fun _ t => I t ∧ d.Resigned d')
          (Triple.modify fun t ht => ⟨hI t d' ht.1, ht.2⟩) fun _ => Triple.pure fun _ h => h
    · exact Triple.pure fun t ht => ⟨ht ▸ hs, ⟨rfl, rfl, rfl, rfl⟩⟩

theorem maybeSign_admits (hd : K.Admits d) :
    Triple (Confined K) (maybeSign d) (fun d' s => Confined K s ∧ K.Admits d') (Confined K) :=
  (maybeSign_resigned (fun _ _ h => h.frame rfl) d).post fun _ _ h => ⟨h.1, hd.resigned h.2⟩

theorem maybeSignOpt_admits (r : Option Data) :
    Triple (fun s => Confined K s ∧ ∀ d ∈ r, K.Admits d) (maybeSignOpt r)
    (fun r s => Confined K s ∧ ∀ d ∈ r, K.Admits d) (Confined K) := by
  cases r with
  | none => exact Triple.pure fun _ hs => hs
  | some d =>
    intro s hs
    refine Triple.bind (maybeSign_admits (hs.2 d rfl)) (fun d' => ?_) s hs.1
    refine Triple.pure fun t ht => ⟨ht.1, fun e he => ?_⟩
    obtain rfl := Option.some.inj he
    exact ht.2

theorem csLookup_admits (i : Interest) : Triple (Confined K) (csLookup i)
    (fun r s => Confined K s ∧ ∀ d ∈ r, K.Admits d) (Confined K) := by
  refine Triple.bind Keeps.get fun s => ?_
  split
  · refine (csGetPrefix_admits i.name i.child i.minSequence).bind fun r =>
      (maybeSignOpt_admits r).bind fun r' => ?_
    exact Triple.pure fun t ht =>
      ⟨ht.1, fun d hd => ht.2 d (Option.eq_some_of_filter_eq_some hd)⟩
  · exact (csGet_admits i.name).bind maybeSignOpt_admits

theorem serveFromCs_admits (i : Interest) : Triple (Confined K) (serveFromCs i)
    (fun r s => Confined K s ∧ ∀ d ∈ r, K.Admits d) (Confined K) := by
  refine Triple.bind Keeps.get fun s => (csLookup_admits i).bind fun r => ?_
  exact Triple.pure fun t ht =>
    ⟨ht.1, fun d hd => ht.2 d (Option.eq_some_of_filter_eq_some hd)⟩

theorem keeps_handleInterest (i : Interest) (face : FaceId) (nonce : Bytes) :
    Keeps (Confined K) (handleInterest i face nonce) := by
  refine (serveFromCs_admits i).bind fun hit => ?_
  cases hit with
  | some d =>
    intro s hs
    exact keeps_sendData face (hs.2 d rfl) s hs.1
  | none =>
    refine Triple.pre (P := Confined K) ?_ fun _ hs => hs.1
    refine Keeps.get.bind fun s => (Keeps.ofExcept _).bind fun name => ?_
    split
    · exact keeps_suspend _
    · refine (keeps_suspend _).bind fun _ => Keeps.modify fun s hs => ?_
      refine hs.forwarder (l := .express i face nonce) (fun d hd => by cases hd) ?_ rfl
      intro n d now ho
      have hop := storeOp_isInternal (l := .express i face nonce) rfl ho
      simp [storesNothing] at hop

theorem keeps_replay (face : FaceId) (n : Name) : Keeps (Confined K) (replay face n) := by
  refine (csGet_admits n).bind fun r => (maybeSignOpt_admits r).bind fun r => ?_
  cases r with
  | none => exact Triple.pure fun _ hs => hs.1
  | some d =>
    intro s hs
    exact keeps_sendData face (hs.2 d rfl) s hs.1

theorem keeps_handleSubscribe (sub : APSubscribe) (face : FaceId) :
    Keeps (Confined K) (handleSubscribe sub face) := by
  refine Keeps.bind (keeps_outflow fun _ => rfl) fun _ => ?_
  split
  · refine Keeps.get.bind fun s => (Keeps.ofExcept _).bind fun names => ?_
    exact (Keeps.forM fun n _ => keeps_replay face n).bind fun _ => keeps_drain _ face
  · exact keeps_drain _ face

theorem keeps_receiveData (hd : K.Admits d) (face : FaceId) (cacheUnsolicited : Bool) :
    Keeps (Confined K) (receiveData d face cacheUnsolicited) := by
  refine Keeps.get.bind fun s => Keeps.bind ?_ fun _ => Keeps.ofExcept _
  refine Triple.modify fun t ht => ?_
  refine ht.forwarder (l := .receiveData d face cacheUnsolicited) (fun d' hd' => ?_) ?_ rfl
  · simp only [Forwarder.Label.answers] at hd'
    split at hd'
    · exact Option.some.inj hd' ▸ hd
    · cases hd'
  · intro n d' now ho
    obtain ⟨rfl, rfl, -⟩ := StoreOp.insert.inj (Forwarder.eq_insert_of_receiveData ho)
    exact hd

theorem keeps_applyInvalidate (v : Invalidate) (exclude : Option FaceId) :
    Keeps (Confined K) (applyInvalidate v exclude) := by
  have hstore : Keeps (Confined K) (csInvalidate v.name v.isPrefix) :=
    Keeps.get.bind fun _ => (keeps_onStore rfl).bind fun _ => Keeps.ofExcept _
  refine hstore.bind fun _ => (Keeps.ofExcept _).bind fun _ => Keeps.get.bind fun s => ?_
  exact Keeps.forM fun face _ => keeps_send face fun _ h => by cases h

theorem keeps_invalidationIsFresh (v : Invalidate) :
    Keeps (Confined K) (invalidationIsFresh v) := by
  refine Keeps.get.bind fun s => (Keeps.ofExcept _).bind fun key => ?_
  split
  · exact Keeps.pure _
  · exact Keeps.bind (keeps_outflow fun _ => rfl) fun _ => Keeps.pure _

theorem keeps_handleInvalidate (v : Invalidate) (face : FaceId) :
    Keeps (Confined K) (handleInvalidate v face) := by
  refine Keeps.get.bind fun s => ?_
  split
  · refine (keeps_invalidationIsFresh v).bind fun fresh => ?_
    split
    · exact keeps_applyInvalidate v _
    · exact Keeps.pure _
  · exact Keeps.pure _

theorem keeps_invalidate (n : Name) (byPrefix : Bool) :
    Keeps (Confined K) (invalidate n byPrefix) := by
  refine Keeps.get.bind fun s => ?_
  split
  · exact Keeps.throw _
  · exact (Keeps.ofExcept _).bind fun v => (keeps_invalidationIsFresh v).bind fun _ =>
      keeps_applyInvalidate v none

/-- What `_publish_latest_pointer` reads of the settings. -/
def pointerSettings (s : Server) : Bytes × ℕ := (s.rnsAddr, s.metaFreshnessPeriod)

theorem latestPointer_congr {e : Data} {sequence : Option ℕ} {latestUnder : Option Name} (n : Name)
    (hs : t.pointerSettings = s.pointerSettings)
    (hd : e.metadata.contentHash = d.metadata.contentHash) :
    t.latestPointer n e sequence latestUnder = s.latestPointer n d sequence latestUnder := by
  obtain ⟨haddr, hperiod⟩ := Prod.mk.inj hs
  simp only [latestPointer, hd, haddr, hperiod]

/-- The Data of an event that a local operation creates or that comes from outside. -/
def brings (s : Server) : Label → List Data
  | .incoming _ raw drawn =>
    match parsePacket raw with
    | .ok (.data d) => [d]
    | .ok (.interest i) => if isHealthInterest i.name then [Data.new i.name drawn.health] else []
    | _ => []
  | .resource payload => (resourceData payload).toList
  | .manifest _ text | .publishManifest text =>
    match s.manifestName with
    | .ok name => [(Data.new name text).withSequence 1]
    | .error _ => []
  | .publishContent n content encrypted sequence latestUnder =>
    let d := edition n content encrypted sequence
    match s.latestPointer n d sequence latestUnder with
    | .ok (some p) => [d, p.data]
    | _ => [d]
  | .publishPost n content encrypted sequence latestUnder =>
    let d := edition n content encrypted (some sequence)
    match s.latestPointer n d (some sequence) latestUnder with
    | .ok (some p) => [d, p.data]
    | _ => [d]
  | .publishPushed d => [d]
  | _ => []

/-- What publishing does with its Data keeps `J`, which fixes the settings that are read, as long as
they are read, and `E` to the end. -/
structure Publishes (s : Server) (J E : Server → Prop) (P : Data → Prop) : Prop where
  settings : ∀ t, J t → t.pointerSettings = s.pointerSettings
  done : ∀ t, J t → E t
  create : ∀ n content, Keeps J (create n content)
  sign : ∀ d, P d → Triple J (maybeSign d) (fun d' t => (J t ∧ P d') ∧ d.Resigned d') E
  insert : ∀ d, P d → Triple J (csInsert d.name d) (fun _ => J) E
  push : ∀ d, P d → Keeps E (apsPublish d)
  propagate : ∀ d, P d → Keeps E (propagate d)

namespace Publishes

variable {J E : Server → Prop} {P : Data → Prop} {n : Name} {content : Bytes} {encrypted : Bool}
  {latestUnder : Option Name}

theorem create_insert (h : Publishes s J E P) (hd : P d) (n : Name) (content : Bytes) :
    Triple J (Server.create n content >>= fun _ => csInsert d.name d) (fun _ => J) E :=
  Triple.bind ((h.create n content).conseq (fun _ h => h) (fun _ _ h => h) h.done)
    fun _ => h.insert d hd

theorem latestPointer {e : Data} {sequence : Option ℕ} (h : Publishes s J E P)
    (hd : e.metadata.contentHash = d.metadata.contentHash)
    (hp : ∀ p, s.latestPointer n d sequence latestUnder = .ok (some p) → P p.data) :
    Triple J (publishLatestPointer n e sequence latestUnder) (fun _ => J) E := by
  rw [publishLatestPointer_eq]
  refine Triple.bind_get fun t ht => ?_
  rw [latestPointer_congr n (h.settings t ht) hd]
  refine Triple.bind (Q := fun r t => J t ∧ ∀ p ∈ r, P p.data) ?_ fun r => ?_
  · refine Triple.ofExcept (fun r u hr hu => ⟨hu ▸ ht, ?_⟩) fun u hu => hu ▸ h.done t ht
    rintro p rfl
    exact hp p hr
  · cases r with
    | none => exact Triple.pure fun _ h => h.1
    | some p => exact fun u hu => h.create_insert (hu.2 p rfl) _ _ u hu.1

theorem publishContent {sequence : Option ℕ} (h : Publishes s J E P)
    (hd : ∀ d ∈ s.brings (.publishContent n content encrypted sequence latestUnder), P d) :
    Triple J (publishContent n content encrypted sequence latestUnder) (fun _ => E) E := by
  have hname := (edition_name n content encrypted sequence).1
  have hedition : P (edition n content encrypted sequence) := by
    refine hd _ ?_
    simp only [brings]
    split <;> simp
  have hinsert := h.create_insert hedition n content
  rw [hname] at hinsert
  refine (hinsert.bind fun _ => h.latestPointer rfl fun p hp => ?_).post fun _ => h.done
  exact hd _ (by simp [brings, hp])

theorem publishPost {sequence : ℕ} (h : Publishes s J E P)
    (hd : ∀ d ∈ s.brings (.publishPost n content encrypted sequence latestUnder), P d) :
    Triple J (publishPost n content encrypted sequence latestUnder) (fun _ => E) E := by
  have hname := (edition_name n content encrypted (some sequence)).1
  have hedition : P (edition n content encrypted (some sequence)) := by
    refine hd _ ?_
    simp only [brings]
    split <;> simp
  refine Triple.bind (Q := fun _ => J)
    ((h.create n content).conseq (fun _ h => h) (fun _ _ h => h) h.done) fun _ => ?_
  refine (h.sign _ hedition).bind fun d t ht => ?_
  obtain ⟨⟨ht, hpd⟩, hsigned⟩ := ht
  have hinsert := h.insert d hpd
  rw [hsigned.name, hname] at hinsert
  refine Triple.bind hinsert (fun _ => ?_) t ht
  refine Triple.bind (Q := fun _ => E) ?_ fun _ => (h.push d hpd).bind fun _ => h.propagate d hpd
  refine (h.latestPointer hsigned.contentHash fun p hp => ?_).post fun _ => h.done
  exact hd _ (by simp [brings, hp])

theorem publishPushed (h : Publishes s J E P) (hd : P d) :
    Triple J (publishPushed d) (fun _ => E) E := by
  refine Triple.bind (Q := fun _ => J)
    ((h.create d.name d.content).conseq (fun _ h => h) (fun _ _ h => h) h.done) fun _ => ?_
  refine (h.sign d hd).bind fun d' t ht => ?_
  refine Triple.bind (h.insert d' ht.1.2) (fun _ => ?_) t ht.1.1
  exact ((h.push d' ht.1.2).bind fun _ => h.propagate d' ht.1.2).pre h.done

theorem publishManifest {text : Bytes} (h : Publishes s J E P)
    (hd : ∀ d ∈ s.brings (.publishManifest text), P d) :
    Triple J (publishManifest text) (fun _ => E) E := by
  refine Triple.bind_get fun t ht => ?_
  have hname : t.manifestName = s.manifestName := by
    rw [manifestName, manifestName, (Prod.mk.inj (h.settings t ht)).1]
  rw [hname]
  cases hn : s.manifestName with
  | error e => exact Triple.throw fun u hu => hu ▸ h.done t ht
  | ok name =>
    have hmanifest : P ((Data.new name text).withSequence 1) := hd _ (by simp [brings, hn])
    intro u hu
    exact ((h.create_insert hmanifest name text).post fun _ => h.done) u (hu ▸ ht)

end Publishes

/-- The condition holds, and the settings are those that the code started from. -/
def Publishing (K : Policy) (s t : Server) : Prop :=
  Confined K t ∧ t.pointerSettings = s.pointerSettings

theorem Publishing.publishes : Publishes s (Publishing K s) (Confined K) K.Admits where
  settings _ h := h.2
  done _ h := h.1
  create n content := (keeps_create n content).and (Keeps.modify fun _ h => h)
  sign d hd := (maybeSign_resigned (I := Publishing K s) (fun _ _ h => ⟨h.1.frame rfl, h.2⟩)
    d).conseq (fun _ h => h) (fun _ _ h => ⟨⟨h.1, hd.resigned h.2⟩, h.2⟩) fun _ h => h.1
  insert d hd := by
    have hkeep : Keeps (fun t => t.pointerSettings = s.pointerSettings) (csInsert d.name d) :=
      Keeps.get.bind fun _ => Keeps.bind (Keeps.modify fun _ h => h) fun _ => Keeps.ofExcept _
    exact ((keeps_csInsert hd).and hkeep).conseq (fun _ h => h) (fun _ _ h => h) fun _ h => h.1
  push _ hd := keeps_apsPublish hd
  propagate _ hd := keeps_propagate hd none

theorem publishContent_confined {n : Name} {content : Bytes} {encrypted : Bool}
    {sequence : Option ℕ} {latestUnder : Option Name} (h : Confined K s)
    (hd : ∀ d ∈ s.brings (.publishContent n content encrypted sequence latestUnder), K.Admits d) :
    Confined K (after (publishContent n content encrypted sequence latestUnder) s) :=
  (Publishing.publishes.publishContent hd).after ⟨h, rfl⟩

theorem publishPost_confined {n : Name} {content : Bytes} {encrypted : Bool} {sequence : ℕ}
    {latestUnder : Option Name} (h : Confined K s)
    (hd : ∀ d ∈ s.brings (.publishPost n content encrypted sequence latestUnder), K.Admits d) :
    Confined K (after (publishPost n content encrypted sequence latestUnder) s) :=
  (Publishing.publishes.publishPost hd).after ⟨h, rfl⟩

theorem answerManifest_confined {face : FaceId} {text : Bytes} (h : Confined K s)
    (hd : ∀ d ∈ s.brings (.manifest face text), K.Admits d) :
    Confined K (after (answerManifest face text) s) := by
  refine Triple.after (P := fun t => Confined K t ∧ t.rnsAddr = s.rnsAddr) ?_ ⟨h, rfl⟩
  refine Triple.bind (Q := fun _ t => Confined K t ∧ t.rnsAddr = s.rnsAddr)
    (Triple.modify fun t ht => ⟨ht.1.frame rfl, ht.2⟩) fun _ => ?_
  refine Triple.bind (Q := fun d t => Confined K t ∧ K.Admits d) ?_ fun d => ?_
  · refine Triple.bind_get fun t ht => ?_
    have hname : t.manifestName = s.manifestName := by rw [manifestName, manifestName, ht.2]
    rw [hname]
    cases hn : s.manifestName with
    | error e => exact Triple.throw fun u hu => hu ▸ ht.1
    | ok name =>
      have hadmits : K.Admits ((Data.new name text).withSequence 1) := hd _ (by simp [brings, hn])
      intro u hu
      exact Triple.bind (keeps_create name text) (fun _ => maybeSign_admits hadmits) u (hu ▸ ht.1)
  · intro t ht
    exact ((keeps_csInsert ht.2).bind fun _ => keeps_sendData face ht.2) t ht.1

theorem Confined.step {l : Label} (h : Confined K s) (hd : ∀ d ∈ s.brings l, K.Admits d)
    (hs : s.step l = some t) : Confined K t := by
  cases l with
  | incoming face raw drawn =>
    obtain rfl := Option.some.inj hs
    rw [handleIncoming]
    simp only [brings] at hd
    cases hp : parsePacket raw with
    | error e => exact h
    | ok p =>
      rw [hp] at hd
      cases p with
      | data d =>
        have hadmits := hd d (List.mem_singleton.mpr rfl)
        refine Triple.after (P := Confined K) (Triple.bind Keeps.get fun s' => ?_) h
        split
        · exact (keeps_receiveData hadmits face true).bind fun _ => keeps_propagate hadmits _
        · exact keeps_receiveData hadmits face false
      | interest i =>
        simp only [handlePacket]
        split
        · rename_i hhealth
          exact (keeps_sendData face (hd _ (by simp [hhealth]))).after h
        · exact (keeps_handleInterest i face _).after h
      | subscribe sub => exact (keeps_handleSubscribe sub face).after h
      | peer p => exact (keeps_handlePeerHandshake p face _ _).after h
      | invalidate v => exact (keeps_handleInvalidate v face).after h
      | capPeer c => exact h.frame rfl
      | nack n =>
        exact h.forwarder (l := .receiveNack n.name face) (fun d hd => by cases hd)
          (fun _ _ _ ho => by cases ho) rfl
  | resource payload =>
    obtain rfl := Option.some.inj hs
    rw [handleResource]
    cases hr : resourceData payload with
    | none => exact h
    | some d => exact (keeps_csInsert (hd d (by simp [brings, hr]))).after h
  | forwarded c =>
    obtain ⟨⟨face, i⟩, -, hs⟩ := Option.bind_eq_some_iff.mp hs
    obtain ⟨call, hc, hs⟩ := Option.bind_eq_some_iff.mp hs
    have hgot (d : Data) (hp : call.phase = .returned (some d)) : K.Admits d :=
      h.held.got c d ⟨call, hc, .inl hp⟩
    split at hs
    · rename_i r hr
      refine Option.some.inj hs ▸ (keeps_answerForwarded c face i fun d hp => ?_).after h
      exact hgot d (hr.trans hp)
    · exact Option.some.inj hs ▸ (keeps_answerForwarded c face i fun d hp => by cases hp).after h
    · cases hs
  | manifest face text =>
    rw [Server.step] at hs
    split at hs
    · obtain rfl := Option.some.inj hs
      exact answerManifest_confined h hd
    · cases hs
  | synced face streams =>
    rw [Server.step] at hs
    split at hs
    · obtain rfl := Option.some.inj hs
      exact (keeps_finishSync face streams).after h
    · cases hs
  | publishContent n content encrypted sequence latestUnder =>
    exact Option.some.inj hs ▸ publishContent_confined h hd
  | publishPost n content encrypted sequence latestUnder =>
    exact Option.some.inj hs ▸ publishPost_confined h hd
  | publishPushed d =>
    have hadmits : K.Admits d := hd d (by simp [brings])
    exact Option.some.inj hs ▸ (Publishing.publishes.publishPushed hadmits).after ⟨h, rfl⟩
  | publishManifest text =>
    exact Option.some.inj hs ▸ (Publishing.publishes.publishManifest hd).after ⟨h, rfl⟩
  | invalidate n byPrefix => exact Option.some.inj hs ▸ (keeps_invalidate n byPrefix).after h
  | forwarder l =>
    rw [Server.step] at hs
    split at hs
    · rename_i hin
      obtain ⟨fw, hfw, rfl⟩ := Option.map_eq_some_iff.mp hs
      refine h.forwarder (fun d hd => ?_) (fun n d now ho => ?_) hfw
      · cases l <;> first | cases hd | cases hin
      · exact absurd (storeOp_isInternal hin ho) (by simp [storesNothing])
    · cases hs
  | openFace => exact Option.some.inj hs ▸ h.frame rfl
  | closeFace face => exact Option.some.inj hs ▸ h.frame rfl

end Server

end RnsIcn
