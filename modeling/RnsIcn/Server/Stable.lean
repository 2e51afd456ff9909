import RnsIcn.Forwarder.Steps
import RnsIcn.Server.Core
import RnsIcn.Store.Names

/-! # What the code of a server may change

A property is stable if it survives the few changes that the handlers are made of.
Every step then preserves it, unless Data from outside is stored. The created
names and contents justify what local operations store and sign.
-/

namespace RnsIcn

open Effect Fallible

namespace Server

variable {s t : Server} {d : Data} {C : List (Name × Bytes)} {I : Server → Prop}

def withStore (s : Server) (cs : ContentStore) : Server :=
  { s with forwarder := { s.forwarder with cs } }

/-- The server without its PIT and routes, its waiting handlers, what it knows of its peers and
subscribers and what it sent. -/
def core (s : Server) : Server :=
  { s with
    forwarder := { cs := s.forwarder.cs }
    peerFeatures := .empty, peers := .empty, subscriptions := .empty, offlineQueue := .empty
    suspended := [], sent := [] }

theorem core_forwarder {fw : Forwarder} {cs : ContentStore} (h : fw.cs = cs) :
    { s with forwarder := fw }.core = (s.withStore cs).core := by
  rw [← h]
  rfl

theorem storeOp_isInternal {fw : Forwarder} {l : Forwarder.Label} {op : StoreOp}
    (hl : isInternal l = true) (h : fw.storeOp l = some op) : storesNothing op = true := by
  cases l with
  | express i inFace nonce =>
    simp only [Forwarder.storeOp] at h
    split at h
    · cases h
    · split at h <;> cases h <;> rfl
  | receiveData => cases hl
  | store op' => cases h; exact hl
  | _ => cases h

theorem fromBytes_of_resourceData {payload : Bytes} (h : resourceData payload = some d) :
    ∃ b, Data.fromBytes b = .ok d := by
  cases payload with
  | nil => cases h
  | cons tag inner =>
    simp only [resourceData] at h
    split at h
    · exact ⟨inner, Fallible.toOption_eq_some.mp h⟩
    · cases h

/-- The Data from outside that a delivery would store: that of a Resource, of a peer, or of an
answer to a pending Interest. -/
def deliveredData (s : Server) : Label → Option Data
  | .incoming face raw _ =>
    match parsePacket raw with
    | .ok (.data d) =>
      if (s.forwarder.storeOp (.receiveData d face (s.peers.contains face))).isSome then some d
      else none
    | _ => none
  | .resource payload => resourceData payload
  | _ => none

theorem fromBytes_of_deliveredData {l : Label} (h : s.deliveredData l = some d) :
    ∃ b, Data.fromBytes b = .ok d := by
  cases l with
  | incoming face raw drawn =>
    simp only [deliveredData] at h
    split at h
    · rename_i d' hp
      split at h
      · exact ⟨raw, Option.some.inj h ▸ parsePacket_data hp⟩
      · cases h
    · cases h
  | resource payload => exact fromBytes_of_resourceData h
  | _ => cases h

variable [Hashlib]

theorem apply_sub {op : StoreOp} (cs : ContentStore) (h : storesNothing op = true) :
    ContentStore.Sub (cs.apply op) cs := by
  intro k row hr
  suffices hop : ¬ ContentStore.Overwrites k op from ContentStore.apply_get? hop hr
  cases op <;> simp_all [ContentStore.Overwrites, storesNothing]

def Signable (s : Server) (d : Data) : Prop :=
  s.forwarder.cs.Serves d ∨ (d.name.withoutContentHash, d.content) ∈ s.created

/-- The invalidation whose epoch an event may record: one that the verifier accepts, or an own
one. -/
def considered (s : Server) : Label → Option Invalidate
  | .incoming _ raw _ =>
    match parsePacket raw with
    | .ok (.invalidate v) => if s.invalidationVerifier.any (· v) then some v else none
    | _ => none
  | .invalidate n byPrefix => s.signer.bind fun signer =>
      (Invalidate.sign { name := n, epoch := s.forwarder.time, isPrefix := byPrefix }
        signer).toOption
  | _ => none

/-- The property allows the epoch of `v` to be recorded where it is above the recorded one. -/
def Allows (I : Server → Prop) (s : Server) (v : Invalidate) : Prop :=
  ∀ key, ContentStore.nameHash v.name = .ok key →
    (∀ e ∈ s.seenInvalidations.get? key, e < v.epoch) →
    I { s with seenInvalidations := s.seenInvalidations.set key v.epoch }

/-- The property survives every change that the code makes, but for storing Data from outside and
for recording the epoch of an invalidation. -/
structure Stable (I : Server → Prop) : Prop where
  frame : ∀ s t, t.core = s.core → I s → I t
  delete : ∀ s op, storesNothing op = true → I s → I (s.withStore (s.forwarder.cs.apply op))
  create : ∀ s n content, I s → I { s with created := (n, content) :: s.created }
  insert : ∀ s n d now, (n.withoutContentHash, d.content) ∈ s.created → I s →
    I (s.withStore (s.forwarder.cs.apply (.insert n d now)))
  sign : ∀ s d d', s.Signable d → d.signature = none → d.name.rnsAddr = s.rnsAddr →
    d'.name = d.name → d'.content = d.content → I s → I { s with signed := d' :: s.signed }
  openFace : ∀ s, I s → I (after openFace s)
  closeFace : ∀ s face, I s → I (after (cleanupClosedFace face) s)

namespace Stable

theorem keeps_frame (hI : Stable I) {g : Server → Server} (h : ∀ s, (g s).core = s.core) :
    Keeps I (modify g : Handler Unit) :=
  Keeps.modify fun s => hI.frame s (g s) (h s)

theorem keeps_send (hI : Stable I) (face : FaceId) (p : Packet) : Keeps I (send face p) := by
  refine Keeps.get.bind fun s => ?_
  split
  · exact (Keeps.ofExcept _).bind fun _ => hI.keeps_frame fun _ => rfl
  · exact Keeps.pure _

theorem keeps_trySend (hI : Stable I) (face : FaceId) (d : Data) {otherwise : Handler Unit}
    (h : Keeps I otherwise) : Keeps I (trySend face d otherwise) :=
  (hI.keeps_send face _).tryCatch fun _ => h

theorem keeps_suspend (hI : Stable I) (h : Suspended) : Keeps I (suspend h) :=
  hI.keeps_frame fun _ => rfl

theorem keeps_resumed (hI : Stable I) (h : Suspended) : Keeps I (resumed h) :=
  hI.keeps_frame fun _ => rfl

theorem keeps_maybeSendNack (hI : Stable I) (i : Interest) (face : FaceId) :
    Keeps I (maybeSendNack i face) := by
  refine Keeps.get.bind fun s => ?_
  split
  · exact hI.keeps_send face _
  · exact Keeps.pure _

theorem keeps_answerForwarded (hI : Stable I) (c : CallId) (face : FaceId) (i : Interest)
    (phase : Phase) : Keeps I (answerForwarded c face i phase) := by
  refine (hI.keeps_resumed _).bind fun _ => ?_
  split
  · exact hI.keeps_send face _
  · exact Keeps.throw _
  · exact hI.keeps_maybeSendNack i face

theorem keeps_enqueueForFace (hI : Stable I) (face : FaceId) (d : Data) :
    Keeps I (enqueueForFace face d) :=
  hI.keeps_frame fun _ => rfl

theorem keeps_apsPublish (hI : Stable I) (d : Data) : Keeps I (apsPublish d) := by
  refine Keeps.get.bind fun s => Keeps.forM fun face _ => ?_
  split
  · exact hI.keeps_trySend face d (hI.keeps_enqueueForFace face d)
  · exact hI.keeps_enqueueForFace face d

theorem keeps_drain (hI : Stable I) (stream : Name) (face : FaceId) :
    Keeps I (drain stream face) := by
  refine Keeps.get.bind fun s => ?_
  split
  · refine Keeps.bind ?_ fun _ => Keeps.forM fun d _ => hI.keeps_trySend face d (Keeps.pure _)
    exact hI.keeps_frame fun _ => rfl
  · exact Keeps.pure _

theorem keeps_propagate (hI : Stable I) (d : Data) (excludeFace : Option FaceId) :
    Keeps I (propagate d excludeFace) :=
  Keeps.get.bind fun _ => Keeps.forM fun face _ => hI.keeps_trySend face d (Keeps.pure _)

theorem keeps_apsSubscribe (hI : Stable I) (face : FaceId) (streams : List Name) :
    Keeps I (apsSubscribe face streams) :=
  Keeps.forM fun _ _ => hI.keeps_send face _

theorem keeps_propagateToNewPeer (hI : Stable I) (face : FaceId) (streams : List Name) :
    Keeps I (propagateToNewPeer face streams) := by
  refine Keeps.get.bind fun s => ?_
  split
  · exact (hI.keeps_apsSubscribe face streams).bind fun _ => (Keeps.ofExcept _).bind fun _ =>
      hI.keeps_apsSubscribe face _
  · exact Keeps.pure _

theorem keeps_syncFromPeer (hI : Stable I) (addr : Bytes) (face : FaceId) (nonce : Bytes) :
    Keeps I (syncFromPeer addr face nonce) := by
  refine (Keeps.ofExcept _).bind fun name => Keeps.get.bind fun s => ?_
  split
  · refine Keeps.tryCatch ?_ fun _ => Keeps.pure _
    exact (hI.keeps_send face _).bind fun _ => hI.keeps_suspend _
  · exact Keeps.pure _

theorem keeps_finishSync (hI : Stable I) (face : FaceId) (streams : List Name) :
    Keeps I (finishSync face streams) :=
  (hI.keeps_resumed _).bind fun _ => hI.keeps_apsSubscribe face streams

theorem keeps_handlePeerHandshake (hI : Stable I) (p : PropPeer) (face : FaceId) (nonce : Bytes)
    (streams : List Name) : Keeps I (handlePeerHandshake p face nonce streams) := by
  refine Keeps.bind (hI.keeps_frame fun _ => rfl)
    fun _ => (Keeps.ofExcept _).bind fun peerPrefix => ?_
  refine Keeps.bind (hI.keeps_frame fun _ => rfl) fun _ => ?_
  split
  · exact (hI.keeps_propagateToNewPeer face streams).bind fun _ =>
      hI.keeps_syncFromPeer _ face nonce
  · exact hI.keeps_syncFromPeer _ face nonce

theorem keeps_onStore (hI : Stable I) {op : StoreOp} (h : storesNothing op = true) :
    Keeps I (onStore op) :=
  Keeps.modify fun s => hI.delete s op h

theorem create_triple (hI : Stable I) (n : Name) (content : Bytes) :
    Triple I (Server.create n content)
    (fun _ s => I s ∧ (n.withoutContentHash, content) ∈ s.created) I :=
  Triple.modify fun s h => ⟨hI.create s _ _ h, List.mem_cons_self⟩

theorem csGet_triple (hI : Stable I) (n : Name) : Triple I (csGet n)
    (fun r s => I s ∧ ∀ d ∈ r, s.Signable d) I := by
  refine Triple.bind_get fun s hs => ?_
  refine Triple.bind (Q := fun _ t => I t ∧
    t.forwarder.cs = s.forwarder.cs.purgeExpired s.forwarder.time) ?_ fun _ => ?_
  · refine Triple.modify fun s' h => ?_
    subst h
    exact ⟨hI.delete s' (.get n s'.forwarder.time) rfl hs, rfl⟩
  · refine Triple.ofExcept (fun r t hr ht => ⟨ht.1, ?_⟩) fun t ht => ht.1
    rintro d rfl
    exact .inl (ht.2 ▸ ContentStore.read_serves hr)

theorem csGetPrefix_triple (hI : Stable I) (n : Name) (child : ChildSelector)
    (minSequence : Option ℕ) : Triple I (csGetPrefix n child minSequence)
    (fun r s => I s ∧ ∀ d ∈ r, s.Signable d) I := by
  refine Triple.bind_get fun s hs => ?_
  refine Triple.bind (Q := fun _ t => I t ∧
    t.forwarder.cs = s.forwarder.cs.purgeExpired s.forwarder.time) ?_ fun _ => ?_
  · refine Triple.modify fun s' h => ?_
    subst h
    exact ⟨hI.delete s' (.getPrefix n child minSequence s'.forwarder.time) rfl hs, rfl⟩
  · refine Triple.ofExcept (fun r t hr ht => ⟨ht.1, ?_⟩) fun t ht => ht.1
    rintro d rfl
    obtain ⟨key, row, hrow, hv, hn, hd, -⟩ := ContentStore.readPrefix_serves hr
    exact .inl (ht.2 ▸ ⟨key, row, s.forwarder.time, hrow, hv, hn, hd⟩)

theorem maybeSign_triple (hI : Stable I) (d : Data) :
    Triple (fun s => I s ∧ s.created = C ∧ s.Signable d) (maybeSign d)
    (fun d' s => I s ∧ s.created = C ∧ d'.name = d.name ∧ d'.content = d.content) I := by
  refine Triple.bind_get fun s hs => ?_
  obtain ⟨hs, hc, ho⟩ := hs
  split
  · exact Triple.pure fun t ht => by subst ht; exact ⟨hs, hc, rfl, rfl⟩
  · split
    · rename_i signer _ hown
      refine Triple.bind (Q := fun d' t => t = s ∧ d'.name = d.name ∧ d'.content = d.content)
        ?_ fun d' => ?_
      · refine Triple.ofExcept (fun d' t hd ht => ⟨ht, ?_⟩) fun t ht => by subst ht; exact hs
        obtain ⟨sig, -, rfl⟩ := Data.sign_eq_ok hd
        exact ⟨rfl, rfl⟩
      · refine Triple.bind (Q := fun _ t => I t ∧ t.created = C ∧ d'.name = d.name ∧
          d'.content = d.content) ?_ fun _ => Triple.pure fun _ h => h
        refine Triple.modify fun t ht => ?_
        obtain ⟨rfl, hn, hcontent⟩ := ht
        exact ⟨hI.sign t d d' ho hown.1 hown.2 hn hcontent hs, hc, hn, hcontent⟩
    · exact Triple.pure fun t ht => by subst ht; exact ⟨hs, hc, rfl, rfl⟩

theorem maybeSignOpt_triple (hI : Stable I) (r : Option Data) :
    Triple (fun s => I s ∧ ∀ d ∈ r, s.Signable d) (maybeSignOpt r) (fun _ => I) I := by
  cases r with
  | none => exact Triple.pure fun s hs => hs.1
  | some d =>
    intro s hs
    exact Triple.bind ((hI.maybeSign_triple (C := s.created) d).post fun _ _ h => h.1)
      (fun d' => Triple.pure fun _ h => h) s ⟨hs.1, rfl, hs.2 d rfl⟩

theorem maybeSign_created (hI : Stable I) {n : Name} {c : Bytes} (d : Data) (hn : d.name = n)
    (hcontent : d.content = c) :
    Triple (fun s => I s ∧ (n.withoutContentHash, c) ∈ s.created) (maybeSign d)
    (fun d' s => (I s ∧ (n.withoutContentHash, c) ∈ s.created) ∧ d'.name = n ∧
      d'.content = c) I := by
  intro s hs
  subst hn hcontent
  exact (hI.maybeSign_triple (C := s.created) d).post (fun d' t h =>
    ⟨⟨h.1, by rw [h.2.1]; exact hs.2⟩, h.2.2⟩) s ⟨hs.1, rfl, .inr hs.2⟩

theorem csInsert_created (hI : Stable I) {n : Name} {content : Bytes} (d : Data)
    (hcontent : d.content = content) :
    Triple (fun s => I s ∧ (n.withoutContentHash, content) ∈ s.created) (csInsert n d)
    (fun _ => I) I := by
  subst hcontent
  refine Triple.bind_get fun s hs => ?_
  refine Triple.bind (Q := fun _ => I) ?_ fun _ => Keeps.ofExcept _
  refine Triple.modify fun t ht => ?_
  subst ht
  exact hI.insert t n d t.forwarder.time hs.2 hs.1

theorem keeps_csLookup (hI : Stable I) (i : Interest) : Keeps I (csLookup i) := by
  refine Keeps.get.bind fun s => ?_
  split
  · exact (hI.csGetPrefix_triple i.name i.child i.minSequence).bind fun r =>
      (hI.maybeSignOpt_triple r).bind fun _ => Keeps.pure _
  · exact (hI.csGet_triple i.name).bind hI.maybeSignOpt_triple

theorem keeps_serveFromCs (hI : Stable I) (i : Interest) : Keeps I (serveFromCs i) :=
  Keeps.get.bind fun _ => (hI.keeps_csLookup i).bind fun _ => Keeps.pure _

theorem forwarder (hI : Stable I) {fw : Forwarder} {op : Option StoreOp}
    (hcs : fw.cs = (op.map s.forwarder.cs.apply).getD s.forwarder.cs)
    (hop : ∀ o ∈ op, storesNothing o = true) (h : I s) : I { s with forwarder := fw } := by
  cases op with
  | none => exact hI.frame s _ (core_forwarder hcs) h
  | some o =>
    exact hI.frame (s.withStore (s.forwarder.cs.apply o)) _ (core_forwarder hcs)
      (hI.delete s o (hop o rfl) h)

theorem keeps_handleInterest (hI : Stable I) (i : Interest) (face : FaceId) (nonce : Bytes) :
    Keeps I (handleInterest i face nonce) := by
  refine (hI.keeps_serveFromCs i).bind fun hit => ?_
  cases hit with
  | some d => exact hI.keeps_send face _
  | none =>
    refine Keeps.get.bind fun s => (Keeps.ofExcept _).bind fun name => ?_
    split
    · exact hI.keeps_suspend _
    · refine (hI.keeps_suspend _).bind fun _ => Keeps.modify fun s hs => ?_
      refine hI.forwarder (Forwarder.express_cs ..) (fun o ho => ?_) hs
      exact storeOp_isInternal (l := .express i face nonce) rfl ho

theorem keeps_answerManifest (hI : Stable I) (face : FaceId) (text : Bytes) :
    Keeps I (answerManifest face text) := by
  refine (hI.keeps_resumed _).bind fun _ => ?_
  refine Triple.bind (Q := fun d s => I s ∧ (d.name.withoutContentHash, d.content) ∈ s.created)
    ?_ fun d => ?_
  · refine Triple.bind Keeps.get fun s => Triple.bind (Keeps.ofExcept _) fun name => ?_
    refine (hI.create_triple name text).bind fun _ => ?_
    have hsign := hI.maybeSign_created (n := name) (c := text)
      ((Data.new name text).withSequence 1) rfl rfl
    exact hsign.post fun d t h => ⟨h.1.1, by rw [h.2.1, h.2.2]; exact h.1.2⟩
  · exact (hI.csInsert_created d rfl).bind fun _ => hI.keeps_send face _

theorem keeps_replay (hI : Stable I) (face : FaceId) (n : Name) : Keeps I (replay face n) := by
  refine (hI.csGet_triple n).bind fun r => (hI.maybeSignOpt_triple r).bind fun r => ?_
  cases r with
  | none => exact Keeps.pure _
  | some d => exact hI.keeps_send face _

theorem keeps_handleSubscribe (hI : Stable I) (sub : APSubscribe) (face : FaceId) :
    Keeps I (handleSubscribe sub face) := by
  refine Keeps.bind (hI.keeps_frame fun _ => rfl) fun _ => ?_
  split
  · refine Keeps.get.bind fun s => (Keeps.ofExcept _).bind fun names => ?_
    exact (Keeps.forM fun n _ => hI.keeps_replay face n).bind fun _ => hI.keeps_drain _ face
  · exact hI.keeps_drain _ face

theorem keeps_applyInvalidate (hI : Stable I) (v : Invalidate) (exclude : Option FaceId) :
    Keeps I (applyInvalidate v exclude) := by
  have hstore : Keeps I (csInvalidate v.name v.isPrefix) :=
    Keeps.get.bind fun _ => (hI.keeps_onStore rfl).bind fun _ => Keeps.ofExcept _
  refine hstore.bind fun _ => (Keeps.ofExcept _).bind fun _ => Keeps.get.bind fun s => ?_
  exact Keeps.forM fun face _ => hI.keeps_send face _

theorem invalidationIsFresh_triple (v : Invalidate) :
    Triple (fun s => I s ∧ Allows I s v) (invalidationIsFresh v) (fun _ => I) I := by
  refine Triple.bind_get fun s hs => ?_
  refine Triple.bind (Q := fun key t => t = s ∧ ContentStore.nameHash v.name = .ok key)
    (Triple.ofExcept (fun _ _ hk h => ⟨h, hk⟩) ?_) fun key => ?_
  · rintro t rfl
    exact hs.1
  · split
    · exact Triple.pure fun t ht => by rw [ht.1]; exact hs.1
    · rename_i hfresh
      refine Triple.bind (Q := fun _ => I) (Triple.modify fun t ht => ?_) fun _ => Keeps.pure _
      obtain ⟨rfl, hk⟩ := ht
      refine hs.2 key hk fun e he => ?_
      rw [he, Option.any_some, decide_eq_true_eq, not_le] at hfresh
      exact hfresh

theorem handleInvalidate_triple (hI : Stable I) (v : Invalidate) (face : FaceId) :
    Triple (fun s => I s ∧ (s.invalidationVerifier.any (· v) = true → Allows I s v))
    (handleInvalidate v face) (fun _ => I) I := by
  refine Triple.bind_get fun s hs => ?_
  split
  · rename_i hv
    refine Triple.bind (Q := fun _ => I) ?_ fun fresh => ?_
    · exact (invalidationIsFresh_triple v).pre fun t ht => by subst ht; exact ⟨hs.1, hs.2 hv⟩
    · split
      · exact hI.keeps_applyInvalidate v _
      · exact Keeps.pure _
  · exact Triple.pure fun t ht => by subst ht; exact hs.1

theorem invalidate_triple (hI : Stable I) (n : Name) (byPrefix : Bool) :
    Triple (fun s => I s ∧ ∀ v, s.considered (.invalidate n byPrefix) = some v → Allows I s v)
    (invalidate n byPrefix) (fun _ => I) I := by
  refine Triple.bind_get fun s hs => ?_
  split
  · exact Triple.throw fun t ht => by subst ht; exact hs.1
  · rename_i signer hsigner
    refine Triple.bind (Q := fun v t => t = s ∧ Allows I s v) ?_ fun v => ?_
    · refine Triple.ofExcept (fun v t hv ht => ⟨ht, hs.2 v ?_⟩) fun t ht => by subst ht; exact hs.1
      simp [considered, hsigner, hv, Except.toOption]
    · refine Triple.bind (Q := fun _ => I) ?_ fun _ => hI.keeps_applyInvalidate v _
      exact (invalidationIsFresh_triple v).pre fun t ht => by
        obtain ⟨rfl, hv⟩ := ht
        exact ⟨hs.1, hv⟩

theorem keeps_publishLatestPointer (hI : Stable I) (n : Name) (d : Data) (sequence : Option ℕ)
    (latestUnder : Option Name) : Keeps I (publishLatestPointer n d sequence latestUnder) := by
  refine Keeps.get.bind fun s => ?_
  split
  · exact Keeps.pure _
  · split
    · exact Keeps.pure _
    · refine (Keeps.ofExcept _).bind fun collection => (Keeps.ofExcept _).bind fun target => ?_
      refine (Keeps.ofExcept _).bind fun metaName => (Keeps.ofExcept _).bind fun payload => ?_
      refine (hI.create_triple metaName payload).bind fun _ => hI.csInsert_created _ ?_
      cases sequence <;> rfl

end Stable

theorem edition_name (n : Name) (content : Bytes) (encrypted : Bool) (sequence : Option ℕ) :
    (edition n content encrypted sequence).name = n ∧
      (edition n content encrypted sequence).content = content := by
  cases sequence <;> exact ⟨rfl, rfl⟩

namespace Stable

theorem keeps_publishContent (hI : Stable I) (n : Name) (content : Bytes) (encrypted : Bool)
    (sequence : Option ℕ) (latestUnder : Option Name) :
    Keeps I (publishContent n content encrypted sequence latestUnder) := by
  refine (hI.create_triple n content).bind fun _ => ?_
  exact (hI.csInsert_created _ (edition_name ..).2).bind fun _ =>
    hI.keeps_publishLatestPointer n _ sequence latestUnder

theorem keeps_publishPost (hI : Stable I) (n : Name) (content : Bytes) (encrypted : Bool)
    (sequence : ℕ) (latestUnder : Option Name) :
    Keeps I (publishPost n content encrypted sequence latestUnder) := by
  refine (hI.create_triple n content).bind fun _ => ?_
  obtain ⟨hn, hc⟩ := edition_name n content encrypted (some sequence)
  refine (hI.maybeSign_created _ hn hc).bind fun d => ?_
  intro s hs
  obtain ⟨hs, -, hd⟩ := hs
  refine Triple.bind (hI.csInsert_created d hd) (fun _ => ?_) s hs
  refine (hI.keeps_publishLatestPointer n d (some sequence) latestUnder).bind fun _ => ?_
  exact (hI.keeps_apsPublish d).bind fun _ => hI.keeps_propagate d none

theorem keeps_publishPushed (hI : Stable I) (d : Data) : Keeps I (publishPushed d) := by
  refine (hI.create_triple d.name d.content).bind fun _ => ?_
  refine (hI.maybeSign_created d rfl rfl).bind fun d' => ?_
  intro s hs
  obtain ⟨hs, hn, hc⟩ := hs
  rw [← hn] at hs
  refine Triple.bind (hI.csInsert_created d' hc) (fun _ => ?_) s hs
  exact (hI.keeps_apsPublish d').bind fun _ => hI.keeps_propagate d' none

theorem keeps_publishManifest (hI : Stable I) (text : Bytes) : Keeps I (publishManifest text) := by
  refine Triple.bind Keeps.get fun s => Triple.bind (Keeps.ofExcept _) fun name => ?_
  exact (hI.create_triple name text).bind fun _ => hI.csInsert_created _ rfl

theorem receiveData_triple (hI : Stable I) (d : Data) (face : FaceId) (cacheUnsolicited : Bool) :
    Triple (fun s => I s ∧
      ((s.forwarder.storeOp (.receiveData d face cacheUnsolicited)).isSome = true →
        I (s.withStore (s.forwarder.cs.apply (.insert d.name d s.forwarder.time)))))
    (receiveData d face cacheUnsolicited) (fun _ => I) I := by
  refine Triple.bind_get fun s hs => ?_
  refine Triple.bind (Q := fun _ => I) ?_ fun _ => Keeps.ofExcept _
  refine Triple.modify fun t ht => ?_
  subst ht
  have hcs := Forwarder.receiveData_cs t.forwarder d face cacheUnsolicited
  cases hop : t.forwarder.storeOp (.receiveData d face cacheUnsolicited) with
  | none =>
    rw [hop] at hcs
    exact hI.frame t _ (core_forwarder hcs) hs.1
  | some op =>
    obtain rfl := Forwarder.eq_insert_of_receiveData hop
    rw [hop] at hcs
    exact hI.frame (t.withStore (t.forwarder.cs.apply (.insert d.name d t.forwarder.time))) _
      (core_forwarder hcs) (hs.2 (by rw [hop]; rfl))

/-- A step preserves a stable property if the Data that it takes in may be stored and the epoch
that it records may be recorded. -/
theorem step (hI : Stable I) {l : Label} (h : I s)
    (hd : ∀ d, s.deliveredData l = some d →
      I (s.withStore (s.forwarder.cs.apply (.insert d.name d s.forwarder.time))))
    (hv : ∀ v, s.considered l = some v → Allows I s v) (hs : s.step l = some t) : I t := by
  cases l with
  | incoming face raw drawn =>
    obtain rfl := Option.some.inj hs
    rw [handleIncoming]
    cases hp : parsePacket raw with
    | error e => exact h
    | ok p =>
      cases p with
      | data d =>
        refine Triple.after (P := (· = s)) ?_ rfl
        refine Triple.bind_get fun s' hs' => ?_
        subst hs'
        have hpre : (s'.forwarder.storeOp (.receiveData d face (s'.peers.contains face))).isSome →
            I (s'.withStore (s'.forwarder.cs.apply (.insert d.name d s'.forwarder.time))) :=
          fun hop => hd d (by simp [deliveredData, hp, hop])
        split
        · rename_i hc
          rw [hc] at hpre
          refine Triple.bind (Q := fun _ => I) ?_ fun _ => hI.keeps_propagate d _
          exact (hI.receiveData_triple d face true).pre fun t ht => by subst ht; exact ⟨h, hpre⟩
        · rename_i hc
          rw [Bool.not_eq_true] at hc
          rw [hc] at hpre
          exact (hI.receiveData_triple d face false).pre fun t ht => by subst ht; exact ⟨h, hpre⟩
      | interest i =>
        simp only [handlePacket]
        split
        · exact (hI.keeps_send face _).after h
        · exact (hI.keeps_handleInterest i face _).after h
      | subscribe sub => exact (hI.keeps_handleSubscribe sub face).after h
      | peer p => exact (hI.keeps_handlePeerHandshake p face _ _).after h
      | invalidate v =>
        refine (hI.handleInvalidate_triple v face).after ⟨h, fun hok => hv v ?_⟩
        simp [considered, hp, hok]
      | capPeer c => exact hI.frame s _ rfl h
      | nack n => exact hI.frame s _ rfl h
  | resource payload =>
    obtain rfl := Option.some.inj hs
    rw [handleResource]
    cases hr : resourceData payload with
    | none => exact h
    | some d =>
      refine Triple.after (P := (· = s)) (Triple.bind_get fun s' hs' => ?_) rfl
      refine Triple.bind (Q := fun _ => I) ?_ fun _ => Keeps.ofExcept _
      refine Triple.modify fun t ht => ?_
      subst hs' ht
      exact hd d hr
  | forwarded c =>
    obtain ⟨⟨face, i⟩, -, hs⟩ := Option.bind_eq_some_iff.mp hs
    obtain ⟨call, -, hs⟩ := Option.bind_eq_some_iff.mp hs
    split at hs
    · exact Option.some.inj hs ▸ (hI.keeps_answerForwarded c face i _).after h
    · exact Option.some.inj hs ▸ (hI.keeps_answerForwarded c face i _).after h
    · cases hs
  | manifest face text =>
    rw [Server.step] at hs
    split at hs
    · obtain rfl := Option.some.inj hs
      exact (hI.keeps_answerManifest face text).after h
    · cases hs
  | synced face streams =>
    rw [Server.step] at hs
    split at hs
    · obtain rfl := Option.some.inj hs
      exact (hI.keeps_finishSync face streams).after h
    · cases hs
  | publishContent n content encrypted sequence latestUnder =>
    exact Option.some.inj hs ▸
      (hI.keeps_publishContent n content encrypted sequence latestUnder).after h
  | publishPost n content encrypted sequence latestUnder =>
    exact Option.some.inj hs ▸
      (hI.keeps_publishPost n content encrypted sequence latestUnder).after h
  | publishPushed d => exact Option.some.inj hs ▸ (hI.keeps_publishPushed d).after h
  | publishManifest text => exact Option.some.inj hs ▸ (hI.keeps_publishManifest text).after h
  | invalidate n byPrefix =>
    exact Option.some.inj hs ▸ (hI.invalidate_triple n byPrefix).after ⟨h, hv⟩
  | forwarder l =>
    rw [Server.step] at hs
    split at hs
    · rename_i hin
      obtain ⟨fw, hfw, rfl⟩ := Option.map_eq_some_iff.mp hs
      exact hI.forwarder (Forwarder.step_cs hfw) (fun o ho => storeOp_isInternal hin ho) h
    · cases hs
  | openFace => exact Option.some.inj hs ▸ hI.openFace s h
  | closeFace face => exact Option.some.inj hs ▸ hI.closeFace s face h

end Stable

end Server

end RnsIcn
