import RnsIcn.Forwarder.Raising
import RnsIcn.Server.Outflow
import RnsIcn.Server.Propagation

/-! # Handlers that raise nothing

What a server reads from its store, sends and answers with can be encoded, so long as all
that comes in can. Its handlers then raise only for integers that the database cannot bind.
-/

namespace RnsIcn

open Effect Fallible EventLoop Transition

/-- The signed Data fits its fields if the signer makes signatures of the right length. -/
theorem Data.Fits.sign_isOk [Hashlib] {d : Data} (h : d.Fits) {signer : Bytes → Bytes} {now : ℕ}
    (hsigner : ∀ m, (signer m).length = SIGNATURE_BYTES) (hnow : now < 2 ^ 63) :
    ∃ d', d.sign signer now = .ok d' ∧ d'.Fits ∧ d'.name = d.name ∧
      (d.Bindable → d'.Bindable) := by
  have hstamp : d.metadata.signedAt.getD now < 256 ^ 8 := by
    cases hs : d.metadata.signedAt with
    | none => exact hnow.trans (by decide)
    | some x => exact h.metadata.signedAt x hs
  set stamped : Data :=
    { d with metadata := { d.metadata with signedAt := some (d.metadata.signedAt.getD now) } }
    with hstamped
  have hfits : stamped.Fits := ⟨h.name, h.content, h.signature, h.metadata.contentHash,
    h.metadata.sequence, h.metadata.age, h.metadata.freshnessPeriod,
    fun x hx => Option.some.inj hx ▸ hstamp⟩
  have hsigned : stamped.signedHash = .ok (blake2b stamped.envelope) := hfits.signedHash
  refine ⟨{ stamped with signature := some (signer (blake2b stamped.envelope)) }, ?_, ?_⟩
  · simp only [sign, Option.getD_none, ← hstamped, hsigned, bind, Except.bind]
    rw [if_neg (not_not.mpr (hsigner _))]
    rfl
  · exact ⟨⟨hfits.name, hfits.content, fun sig hs => Option.some.inj hs ▸ hsigner _,
      hfits.metadata⟩, rfl, fun hb => ⟨hb.sequence, hb.age, hb.freshnessPeriod⟩⟩

namespace Server

variable {s t : Server} {d : Data} {face : FaceId} {n : Name}

def InTime (s : Server) : Prop := s.forwarder.cs.InTime s.forwarder.time

/-- All that the handlers read can be encoded, and no call that a handler waits for has raised. -/
structure Healthy (s : Server) : Prop where
  rows : s.forwarder.cs.Fits
  consistent : s.forwarder.Consistent
  got : ∀ c d, Got d c s.forwarder.loop → d.Fits
  waits : ∀ c face i, .forwarding c face i ∈ s.suspended → i.name.Fits ∧ s.forwarder.Awaited c
  addr : s.rnsAddr.length = RNS_ADDR_BYTES
  signer : ∀ signer ∈ s.signer, ∀ m, (signer m).length = SIGNATURE_BYTES

/-- A handler can run. -/
def Ready (s : Server) : Prop := Healthy s ∧ s.InTime

def vitals (s : Server) : (ContentStore × EventLoop × Pit × ℕ) × Bytes ×
    Option (Bytes → Bytes) × List Suspended :=
  ((s.forwarder.cs, s.forwarder.loop, s.forwarder.pit, s.forwarder.time), s.rnsAddr, s.signer,
    s.suspended)

theorem Healthy.frame (h : Healthy s) (he : t.vitals = s.vitals) : Healthy t := by
  simp only [vitals, Prod.mk.injEq] at he
  obtain ⟨⟨hcs, hloop, hpit, -⟩, haddr, hsigner, hsuspended⟩ := he
  refine ⟨hcs ▸ h.rows, ⟨hloop ▸ h.consistent.loop, hpit ▸ h.consistent.hashFree⟩,
    fun c d hg => h.got c d (hloop ▸ hg), fun c face i hc => ?_, haddr ▸ h.addr,
    hsigner ▸ h.signer⟩
  rw [Forwarder.Awaited, hloop]
  exact h.waits c face i (hsuspended ▸ hc)

theorem Ready.frame (h : Ready s) (he : t.vitals = s.vitals) : Ready t := by
  refine ⟨h.1.frame he, ?_⟩
  simp only [vitals, Prod.mk.injEq] at he
  rw [InTime, he.1.1, he.1.2.2.2]
  exact h.2

def Framed (I : Server → Prop) : Prop := ∀ s t, t.vitals = s.vitals → I s → I t

theorem ready_framed : Framed Ready := fun _ _ he h => h.frame he

theorem Framed.safe_frame {I : Server → Prop} (hI : Framed I) {g : Server → Server}
    (h : ∀ s, (g s).vitals = s.vitals) : Safe I (modify g : Handler Unit) :=
  Safe.modify fun s hs => hI _ _ (h s) hs

theorem safe_frame {g : Server → Server} (h : ∀ s, (g s).vitals = s.vitals) :
    Safe Ready (modify g : Handler Unit) :=
  ready_framed.safe_frame h

theorem safe_create (n : Name) (content : Bytes) : Safe Ready (create n content) :=
  safe_frame fun _ => rfl

theorem safe_sendEncoded (face : FaceId) {p : Packet} (hp : ∃ b, p.toBytes = .ok b) :
    Safe Ready (send face p) := by
  refine Safe.get.bind fun s => ?_
  split
  · exact (Safe.ofExcept hp).bind fun _ => safe_frame fun _ => rfl
  · exact Safe.pure _

theorem safe_send (face : FaceId) {p : Packet} (hp : p.Fits) : Safe Ready (send face p) :=
  safe_sendEncoded face hp.toBytes_isOk

section Framed

variable {I : Server → Prop}

theorem Framed.keeps_send (hI : Framed I) (face : FaceId) (p : Packet) :
    Keeps I (send face p) := by
  refine Keeps.get.bind fun s => ?_
  split
  · exact (Keeps.ofExcept _).bind fun _ => Keeps.modify fun s hs => hI s _ rfl hs
  · exact Keeps.pure _

theorem Framed.safe_trySend (hI : Framed I) (face : FaceId) (d : Data)
    {otherwise : Handler Unit} (h : Safe I otherwise) : Safe I (trySend face d otherwise) :=
  Safe.tryCatch (hI.keeps_send face _) fun _ => h

theorem Framed.safe_apsPublish (hI : Framed I) (d : Data) : Safe I (apsPublish d) := by
  refine Safe.get.bind fun s => Safe.forM fun face _ => ?_
  have henqueue : Safe I (enqueueForFace face d) := hI.safe_frame fun _ => rfl
  split
  · exact hI.safe_trySend face d henqueue
  · exact henqueue

theorem Framed.safe_propagate (hI : Framed I) (d : Data) (excludeFace : Option FaceId) :
    Safe I (propagate d excludeFace) :=
  Safe.get.bind fun _ => Safe.forM fun face _ => hI.safe_trySend face d (Safe.pure _)

end Framed

theorem safe_apsPublish (d : Data) : Safe Ready (apsPublish d) := ready_framed.safe_apsPublish d

theorem safe_propagate (d : Data) (excludeFace : Option FaceId) :
    Safe Ready (propagate d excludeFace) :=
  ready_framed.safe_propagate d excludeFace

theorem safe_drain (stream : Name) (face : FaceId) : Safe Ready (drain stream face) := by
  refine Safe.get.bind fun s => ?_
  split
  · refine Safe.bind (safe_frame fun _ => rfl) fun _ => ?_
    exact Safe.forM fun d _ => ready_framed.safe_trySend face d (Safe.pure _)
  · exact Safe.pure _

def Subscribable (n : Name) : Prop :=
  ∃ b, APSubscribe.toBytes { name := n.withoutContentHash } = .ok b

theorem subscribable_of_fits (h : n.Fits) : Subscribable n :=
  Packet.Fits.toBytes_isOk (p := .subscribe { name := n.withoutContentHash }) h.unpinned

theorem safe_apsSubscribe (face : FaceId) {streams : List Name}
    (h : ∀ n ∈ streams, Subscribable n) : Safe Ready (apsSubscribe face streams) :=
  Safe.forM fun n hn => safe_sendEncoded face (p := .subscribe _) (h n hn)

theorem safe_resumed (h : Suspended) : Safe Ready (resumed h) := by
  refine Safe.modify fun s hs => ⟨⟨hs.1.rows, hs.1.consistent, hs.1.got, ?_, hs.1.addr,
    hs.1.signer⟩, hs.2⟩
  exact fun c face i hc => hs.1.waits c face i (List.mem_of_mem_erase hc)

theorem safe_suspend {h : Suspended} (hh : ∀ c face i, h ≠ .forwarding c face i) :
    Safe Ready (suspend h) := by
  refine Safe.modify fun s hs => ⟨⟨hs.1.rows, hs.1.consistent, hs.1.got, fun c face i hc => ?_,
    hs.1.addr, hs.1.signer⟩, hs.2⟩
  rcases List.mem_cons.mp hc with hc | hc
  · exact absurd hc.symm (hh c face i)
  · exact hs.1.waits c face i hc

theorem safe_maybeSendNack {i : Interest} (hi : i.name.Fits) (face : FaceId) :
    Safe Ready (maybeSendNack i face) := by
  refine Safe.get.bind fun s => ?_
  split
  · exact safe_send face (p := .nack _) hi
  · exact Safe.pure _

theorem safe_answerForwarded {c : CallId} {i : Interest} {phase : Phase} (face : FaceId)
    (hi : i.name.Fits) (hd : ∀ d, phase = .returned (some d) → d.Fits)
    (hphase : ∀ e, phase ≠ .raised e) : Safe Ready (answerForwarded c face i phase) := by
  refine (safe_resumed _).bind fun _ => ?_
  split
  · exact safe_send face (p := .data _) (hd _ rfl)
  · exact absurd rfl (hphase _)
  · exact safe_maybeSendNack hi face

theorem safe_finishSync (face : FaceId) {streams : List Name}
    (h : ∀ n ∈ streams, Subscribable n) : Safe Ready (finishSync face streams) :=
  (safe_resumed _).bind fun _ => safe_apsSubscribe face h

theorem name_new_isOk {addr : Bytes} (h : addr.length = RNS_ADDR_BYTES) (path : List Bytes) :
    Name.new addr path = .ok ⟨addr, path, none⟩ := by
  rw [Name.new, if_neg (not_not.mpr h)]

theorem manifest_fits {addr : Bytes} (h : addr.length = RNS_ADDR_BYTES) :
    Name.Fits ⟨addr, [MANIFEST_LABEL], none⟩ := by
  refine ⟨⟨show 2 < 256 by decide, fun comp hc => ?_⟩, show 2 ≤ MAX_COMPONENTS by decide, nofun⟩
  rcases List.mem_cons.mp hc with rfl | hc
  · rw [h]
    decide
  · rw [List.mem_singleton.mp hc]
    decide

theorem safe_propagateToNewPeer (face : FaceId) {streams : List Name}
    (h : ∀ n ∈ streams, Subscribable n) : Safe Ready (propagateToNewPeer face streams) := by
  refine Triple.bind_get fun s hs => ?_
  have haddr := hs.1.addr
  refine Triple.pre (P := Ready) ?_ fun t ht => ht ▸ hs
  split
  · rw [manifestName, name_new_isOk haddr]
    refine (safe_apsSubscribe face h).bind fun _ => Safe.bind_ok ⟨_, rfl⟩ fun n hn => ?_
    obtain rfl := Except.ok.inj hn
    refine safe_apsSubscribe face fun m hm => ?_
    rw [List.mem_singleton.mp hm]
    exact subscribable_of_fits (manifest_fits haddr)
  · exact Safe.pure _

theorem safe_syncFromPeer {addr : Bytes} (h : addr.length = RNS_ADDR_BYTES) (face : FaceId)
    (nonce : Bytes) : Safe Ready (syncFromPeer addr face nonce) := by
  rw [syncFromPeer, name_new_isOk h]
  refine (Safe.ofExcept ⟨_, rfl⟩).bind fun name => Safe.get.bind fun s => ?_
  split
  · refine Safe.tryCatch ?_ fun _ => Safe.pure _
    exact (ready_framed.keeps_send face _).bind fun _ =>
      (safe_suspend fun _ _ _ h => by cases h).keeps
  · exact Safe.pure _

theorem safe_handlePeerHandshake {p : PropPeer} (hp : p.Fits) (face : FaceId) (nonce : Bytes)
    {streams : List Name} (h : ∀ n ∈ streams, Subscribable n) :
    Safe Ready (handlePeerHandshake p face nonce streams) := by
  rw [handlePeerHandshake, name_new_isOk hp.rnsAddr]
  refine Safe.bind (safe_frame fun _ => rfl) fun _ => (Safe.ofExcept ⟨_, rfl⟩).bind fun _ => ?_
  refine Safe.bind (safe_frame fun _ => rfl) fun _ => ?_
  split
  · exact (safe_propagateToNewPeer face h).bind fun _ => safe_syncFromPeer hp.rnsAddr face nonce
  · exact safe_syncFromPeer hp.rnsAddr face nonce

variable [Hashlib]

theorem Ready.store {op : StoreOp} (h : Ready s) (hop : storesNothing op = true) :
    Ready (s.withStore (s.forwarder.cs.apply op)) :=
  ⟨⟨h.1.rows.mono (apply_sub _ hop), ⟨h.1.consistent.loop, h.1.consistent.hashFree⟩, h.1.got,
    h.1.waits, h.1.addr, h.1.signer⟩, h.2.apply op⟩

theorem safe_onStore {op : StoreOp} (h : storesNothing op = true) : Safe Ready (onStore op) :=
  Safe.modify fun _ hs => hs.store h

theorem keeps_ready_csInvalidate (n : Name) (byPrefix : Bool) :
    Keeps Ready (csInvalidate n byPrefix) :=
  Keeps.get.bind fun _ => (safe_onStore rfl).keeps.bind fun _ => Keeps.ofExcept _

theorem safe_csInvalidate (hn : n.Encodable) (byPrefix : Bool) :
    Safe Ready (csInvalidate n byPrefix) := by
  refine Safe.get.bind fun s => (safe_onStore rfl).bind fun _ => Safe.ofExcept ⟨(), ?_⟩
  rw [ContentStore.invalidate, ContentStore.nameHash_eq_ok.mpr ⟨hn, rfl⟩]
  rfl

theorem Ready.insert (hlen : ∀ b, (blake2b b).length = CONTENT_HASH_BYTES) (h : Ready s)
    (hn : n.Fits) (hd : d.Fits) (now : ℕ) :
    Ready (s.withStore (s.forwarder.cs.apply (.insert n d now))) :=
  ⟨⟨h.1.rows.insert hlen hn hd, ⟨h.1.consistent.loop, h.1.consistent.hashFree⟩, h.1.got,
    h.1.waits, h.1.addr, h.1.signer⟩, h.2.apply _⟩

theorem keeps_ready_csInsert (hlen : ∀ b, (blake2b b).length = CONTENT_HASH_BYTES) (hn : n.Fits)
    (hd : d.Fits) : Keeps Ready (csInsert n d) := by
  refine Keeps.get.bind fun s => Keeps.bind ?_ fun _ => Keeps.ofExcept _
  exact Keeps.modify fun t ht => ht.insert hlen hn hd _

theorem safe_csInsert (hlen : ∀ b, (blake2b b).length = CONTENT_HASH_BYTES) (hd : d.Fits)
    (hbind : d.Bindable) (haddr : d.name.rnsAddr.length = RNS_ADDR_BYTES) :
    Safe Ready (csInsert d.name d) := by
  refine Triple.bind_get fun s hs => ?_
  refine Triple.bind (Q := fun _ => Ready)
    (Triple.modify fun t ht => ht ▸ hs.insert hlen hd.name hd _) fun _ => ?_
  obtain ⟨cs, hcs⟩ := ContentStore.insert_bindable hs.2 hd.name hd hbind haddr
  exact Safe.ofExcept ⟨(), by rw [hcs]; rfl⟩

/-- The code answers with Data that can be encoded, if it answers, and does not raise. -/
def Answers (m : Handler (Option Data)) : Prop :=
  Triple Ready m (fun r s => Ready s ∧ ∀ d ∈ r, d.Fits) fun _ => False

theorem csGet_answers (hn : n.Fits) : Answers (csGet n) := by
  refine Triple.bind_get fun s hs => ?_
  refine Triple.bind (Q := fun _ => Ready) ((safe_onStore rfl).pre fun t ht => ht ▸ hs) fun _ => ?_
  refine Triple.ofExcept_ok (ContentStore.read_isOk hs.1.rows.purge hn) fun r t hr ht => ⟨ht, ?_⟩
  rintro d rfl
  exact ContentStore.read_fits hs.1.rows.purge hs.2.1 hr

theorem csGetPrefix_answers {child : ChildSelector} {minSequence : Option ℕ} (hn : n.Fits)
    (hfloor : child ≠ .none → ∀ x ∈ minSequence, x < 2 ^ 63) :
    Answers (csGetPrefix n child minSequence) := by
  refine Triple.bind_get fun s hs => ?_
  refine Triple.bind (Q := fun _ => Ready) ((safe_onStore rfl).pre fun t ht => ht ▸ hs) fun _ => ?_
  refine Triple.ofExcept_ok (ContentStore.readPrefix_isOk hs.1.rows.purge hn hfloor)
    fun r t hr ht => ⟨ht, ?_⟩
  rintro d rfl
  exact ContentStore.readPrefix_fits hs.1.rows.purge hs.2.1 hr

theorem maybeSign_fits (hd : d.Fits) :
    Triple Ready (maybeSign d) (fun d' s => Ready s ∧ d'.Fits ∧ d'.name = d.name ∧
      (d.Bindable → d'.Bindable)) fun _ => False := by
  refine Triple.bind_get fun s hs => ?_
  have hunsigned : Triple (· = s) (pure d : Handler Data) (fun d' s => Ready s ∧ d'.Fits ∧
      d'.name = d.name ∧ (d.Bindable → d'.Bindable)) fun _ => False :=
    Triple.pure fun t ht => ⟨ht ▸ hs, hd, rfl, fun h => h⟩
  split
  · exact hunsigned
  · rename_i signer hsigner
    split
    · obtain ⟨d', hsign, hd'⟩ := hd.sign_isOk (hs.1.signer signer hsigner) hs.2.1
      refine Triple.bind (Q := fun e t => Ready t ∧ e = d') ?_ fun e => ?_
      · exact Triple.ofExcept_ok ⟨d', hsign⟩ fun e t he ht => ⟨ht ▸ hs, (ok_inj hsign he).symm⟩
      · refine Triple.bind (Q := fun _ t => Ready t ∧ e = d')
          (Triple.modify fun t ht => ⟨ht.1.frame rfl, ht.2⟩) fun _ => Triple.pure ?_
        rintro t ⟨ht, rfl⟩
        exact ⟨ht, hd'⟩
    · exact hunsigned

theorem maybeSignOpt_answers (r : Option Data) :
    Triple (fun s => Ready s ∧ ∀ d ∈ r, d.Fits) (maybeSignOpt r)
    (fun r s => Ready s ∧ ∀ d ∈ r, d.Fits) fun _ => False := by
  cases r with
  | none => exact Triple.pure fun _ hs => hs
  | some d =>
    intro s hs
    refine Triple.bind (maybeSign_fits (hs.2 d rfl)) (fun d' => ?_) s hs.1
    refine Triple.pure fun t ht => ⟨ht.1, fun e he => ?_⟩
    obtain rfl := Option.some.inj he
    exact ht.2.1

theorem csLookup_answers {i : Interest} (hi : i.name.Fits) (hbind : i.Bindable) :
    Answers (csLookup i) := by
  refine Triple.bind Safe.get fun s => ?_
  split
  · rename_i hunder
    refine (csGetPrefix_answers hi (hbind hunder)).bind fun r =>
      (maybeSignOpt_answers r).bind fun r' => ?_
    exact Triple.pure fun t ht =>
      ⟨ht.1, fun d hd => ht.2 d (Option.eq_some_of_filter_eq_some hd)⟩
  · exact (csGet_answers hi).bind maybeSignOpt_answers

theorem serveFromCs_answers {i : Interest} (hi : i.name.Fits) (hbind : i.Bindable) :
    Answers (serveFromCs i) := by
  refine Triple.bind Safe.get fun s => (csLookup_answers hi hbind).bind fun r => ?_
  exact Triple.pure fun t ht =>
    ⟨ht.1, fun d hd => ht.2 d (Option.eq_some_of_filter_eq_some hd)⟩

theorem safe_replay (face : FaceId) (hn : n.Fits) : Safe Ready (replay face n) := by
  refine (csGet_answers hn).bind fun r => (maybeSignOpt_answers r).bind fun r => ?_
  cases r with
  | none => exact Triple.pure fun _ hs => hs.1
  | some d =>
    intro s hs
    exact safe_send face (p := .data d) (hs.2 d rfl) s hs.1

theorem safe_handleSubscribe (sub : APSubscribe) (face : FaceId) :
    Safe Ready (handleSubscribe sub face) := by
  refine Safe.bind (safe_frame fun _ => rfl) fun _ => ?_
  split
  · refine Triple.bind_get fun s hs => ?_
    obtain ⟨names, hnames, hfits⟩ := ContentStore.entryNames_isOk hs.1.rows
    refine Triple.pre (P := Ready) (Safe.bind_ok ⟨names, hnames⟩ fun l hl => ?_) fun t ht => ht ▸ hs
    obtain rfl := ok_inj hnames hl
    refine Safe.bind (Safe.forM fun n hn => ?_) fun _ => safe_drain _ face
    exact safe_replay face (hfits n (List.mem_of_mem_filter hn))
  · exact safe_drain _ face

theorem keeps_ready_invalidationIsFresh (v : Invalidate) :
    Keeps Ready (invalidationIsFresh v) := by
  refine Keeps.get.bind fun s => (Keeps.ofExcept _).bind fun key => ?_
  split
  · exact Keeps.pure _
  · exact Keeps.bind (Keeps.modify fun s hs => hs.frame rfl) fun _ => Keeps.pure _

theorem safe_invalidationIsFresh {v : Invalidate} (hv : v.name.Encodable) :
    Safe Ready (invalidationIsFresh v) := by
  refine Safe.get.bind fun s => ?_
  refine (Safe.ofExcept ⟨_, ContentStore.nameHash_eq_ok.mpr ⟨hv, rfl⟩⟩).bind fun key => ?_
  split
  · exact Safe.pure _
  · exact Safe.bind (safe_frame fun _ => rfl) fun _ => Safe.pure _

theorem keeps_ready_applyInvalidate (v : Invalidate) (exclude : Option FaceId) :
    Keeps Ready (applyInvalidate v exclude) := by
  refine (keeps_ready_csInvalidate _ _).bind fun _ => (Keeps.ofExcept _).bind fun _ =>
    Keeps.get.bind fun s => ?_
  exact Keeps.forM fun face _ => ready_framed.keeps_send face _

theorem safe_applyInvalidate {v : Invalidate} (hv : v.Fits) (exclude : Option FaceId) :
    Safe Ready (applyInvalidate v exclude) := by
  have hencode : ∃ b, v.toBytes = .ok b := Packet.Fits.toBytes_isOk (p := .invalidate v) hv
  refine (safe_csInvalidate hv.name.encodable _).bind fun _ => (Safe.ofExcept hencode).bind fun _ =>
    Safe.get.bind fun s => ?_
  exact Safe.forM fun face _ => safe_send face (p := .invalidate v) hv

theorem safe_handleInvalidate {v : Invalidate} (hv : v.Fits) (face : FaceId) :
    Safe Ready (handleInvalidate v face) := by
  refine Safe.get.bind fun s => ?_
  split
  · refine (safe_invalidationIsFresh hv.name.encodable).bind fun fresh => ?_
    split
    · exact safe_applyInvalidate hv _
    · exact Safe.pure _
  · exact Safe.pure _

theorem keeps_ready_invalidate (n : Name) (byPrefix : Bool) :
    Keeps Ready (invalidate n byPrefix) := by
  refine Keeps.get.bind fun s => ?_
  split
  · exact Keeps.throw _
  · exact (Keeps.ofExcept _).bind fun v => (keeps_ready_invalidationIsFresh v).bind fun _ =>
      keeps_ready_applyInvalidate v none

/-- A step of the forwarder keeps the server healthy, if what comes in can be encoded and no send
raises. -/
theorem Healthy.forwarder {l : Forwarder.Label} {fw : Forwarder}
    (hlen : ∀ b, (blake2b b).length = CONTENT_HASH_BYTES) (h : Healthy s)
    (hnow : s.forwarder.time < 2 ^ 63) (hl : ∀ d ∈ l.answers s.forwarder, d.Fits)
    (hop : ∀ n d now, s.forwarder.storeOp l = some (.insert n d now) → n.Fits ∧ d.Fits)
    (hsend : ∀ c e, l ≠ .sendRaised c e) (hs : s.forwarder.step l = some fw) :
    Healthy { s with forwarder := fw } := by
  refine ⟨?_, Forwarder.step_consistent hs h.consistent, ?_, fun c face i hc => ?_, h.addr,
    h.signer⟩
  · change fw.cs.Fits
    rw [Forwarder.step_cs hs]
    cases hstore : s.forwarder.storeOp l with
    | none => exact h.rows
    | some op =>
      by_cases hn : storesNothing op = true
      · exact h.rows.mono (apply_sub _ hn)
      · cases op with
        | insert n d now =>
          obtain ⟨hname, hd⟩ := hop n d now hstore
          exact h.rows.insert hlen hname hd
        | _ => exact absurd rfl hn
  · exact Forwarder.got_step h.consistent h.got
      (fun i cs d hlook => Forwarder.csLookup_fits h.rows hnow hlook) hl hs
  · obtain ⟨hi, hcall⟩ := h.waits c face i hc
    exact ⟨hi, hcall.step h.consistent (hsend c) hs⟩

theorem Ready.express {i : Interest} (hlen : ∀ b, (blake2b b).length = CONTENT_HASH_BYTES)
    (h : Ready s) (hi : i.Fits) (hbind : i.Bindable) (face : FaceId) (nonce : Bytes) :
    Healthy { s with
      suspended := .forwarding s.forwarder.loop.nextCall face i :: s.suspended
      forwarder := s.forwarder.express i face nonce } := by
  have hstep : Healthy { s with forwarder := s.forwarder.express i face nonce } := by
    refine h.1.forwarder hlen (l := .express i face nonce) h.2.1 (fun d hd => by cases hd) ?_
      (fun c e h => by cases h) rfl
    intro n d now ho
    have hop := storeOp_isInternal (l := .express i face nonce) rfl ho
    simp [storesNothing] at hop
  refine ⟨hstep.rows, hstep.consistent, hstep.got, fun c face' i' hc => ?_, hstep.addr,
    hstep.signer⟩
  rcases List.mem_cons.mp hc with he | hc
  · obtain ⟨rfl, rfl, rfl⟩ := Suspended.forwarding.inj he
    refine ⟨hi.name, Forwarder.awaited_express ?_ (Forwarder.csLookup_isOk h.1.rows hi.name hbind)⟩
    exact Packet.Fits.toBytes_isOk (p := .interest i') hi
  · exact hstep.waits c face' i' hc

theorem handleInterest_returns {i : Interest}
    (hlen : ∀ b, (blake2b b).length = CONTENT_HASH_BYTES) (hi : i.Fits) (hbind : i.Bindable)
    (face : FaceId) (nonce : Bytes) :
    Triple Ready (handleInterest i face nonce) (fun _ => Healthy) fun _ => False := by
  refine (serveFromCs_answers hi.name hbind).bind fun hit => ?_
  cases hit with
  | some d =>
    intro s hs
    exact (safe_send face (p := .data d) (hs.2 d rfl)).post (fun _ _ h => h.1) s hs.1
  | none =>
    refine Triple.pre (P := Ready) ?_ fun _ hs => hs.1
    refine Triple.bind_get fun s hs => ?_
    rw [manifestName, name_new_isOk hs.1.addr]
    refine Triple.bind (Q := fun _ t => t = s) (Triple.ofExcept_ok ⟨_, rfl⟩ fun _ _ _ ht => ht)
      fun name => ?_
    split
    · exact (safe_suspend fun _ _ _ h => by cases h).conseq (fun t ht => ht ▸ hs)
        (fun _ _ h => h.1) fun _ h => h
    · refine Triple.bind (Q := fun _ t => t = { s with
        suspended := .forwarding s.forwarder.loop.nextCall face i :: s.suspended })
        (Triple.modify fun t ht => ht ▸ rfl) fun _ => Triple.modify fun t ht => ?_
      obtain rfl := ht
      exact hs.express hlen hi hbind face nonce

theorem receiveData_returns (hlen : ∀ b, (blake2b b).length = CONTENT_HASH_BYTES) (hd : d.Fits)
    (haddr : d.name.rnsAddr.length = RNS_ADDR_BYTES) {unsolicited : Bool} :
    Triple (fun s => Ready s ∧
      ((s.forwarder.storeOp (.receiveData d face unsolicited)).isSome → d.Bindable))
      (receiveData d face unsolicited) (fun _ => Ready) fun _ => False := by
  refine Triple.bind_get fun s hs => ?_
  have hready : Ready { s with forwarder := s.forwarder.receiveData d face unsolicited } := by
    refine ⟨hs.1.1.forwarder hlen (l := .receiveData d face unsolicited) hs.1.2.1 ?_ ?_ ?_ rfl, ?_⟩
    · intro d' hd'
      simp only [Forwarder.Label.answers] at hd'
      split at hd'
      · exact Option.some.inj hd' ▸ hd
      · cases hd'
    · intro n d' now ho
      obtain ⟨rfl, rfl, -⟩ := StoreOp.insert.inj (Forwarder.eq_insert_of_receiveData ho)
      exact ⟨hd.name, hd⟩
    · intro c e h
      cases h
    · obtain ⟨htime, hdefault, hprefix⟩ :=
        Forwarder.receiveData_settings s.forwarder d face unsolicited
      change ContentStore.InTime _ _
      rw [ContentStore.InTime, htime, hdefault, hprefix]
      exact hs.1.2
  refine Triple.bind (Q := fun _ => Ready) (Triple.modify fun t ht => ht ▸ hready) fun _ =>
    Triple.ofExcept_ok ?_ fun _ _ _ ht => ht
  have hinsert : d.Bindable → ∃ r, discard (s.forwarder.cs.insert d.name d s.forwarder.time) =
      .ok r := by
    intro hbind
    obtain ⟨cs, hcs⟩ := ContentStore.insert_bindable hs.1.2 hd.name hd hbind haddr
    exact ⟨(), by rw [hcs]; rfl⟩
  obtain ⟨m, hm⟩ := Forwarder.answeredName_isOk s.forwarder.pit (n := d.name.withoutContentHash)
    haddr
  have hbind := hs.2
  simp only [Forwarder.storeOp, hm] at hbind
  simp only [Forwarder.receiveOutcome, hm]
  cases m with
  | some m => exact hinsert (hbind rfl)
  | none =>
    cases unsolicited with
    | true => exact hinsert (hbind rfl)
    | false => exact ⟨(), rfl⟩

/-- The Data of the store that `_build_manifest_entries` makes its entries of. -/
def manifestData : Handler (List Data) := do
  let s ← get
  let names ← ofExcept s.forwarder.cs.entryNames
  let found ← (names.filter fun n => n.startsWith ⟨s.rnsAddr, [], none⟩ && !n.isRoot).mapM csGet
  return found.filterMap id

theorem manifestData_returns :
    Triple Ready manifestData (fun ds _ => ∀ d ∈ ds, d.Fits) fun _ => False := by
  refine Triple.bind_get fun s hs => ?_
  obtain ⟨names, hnames, hfits⟩ := ContentStore.entryNames_isOk hs.1.rows
  refine Triple.bind (Q := fun l t => l = names ∧ t = s)
    (Triple.ofExcept_ok ⟨names, hnames⟩ fun l t hl ht => ⟨ok_inj hl hnames, ht⟩) fun l => ?_
  refine Triple.bind (Q := fun found t => Ready t ∧ ∀ r ∈ found, ∀ d ∈ r, d.Fits) ?_ fun found => ?_
  · rintro t ⟨rfl, rfl⟩
    refine Triple.mapM (fun n hn => ?_) t hs
    exact csGet_answers (hfits n (List.mem_of_mem_filter hn))
  · refine Triple.pure fun t ht d hd => ?_
    obtain ⟨r, hr, he⟩ := List.mem_filterMap.mp hd
    exact ht.2 r hr d he

theorem manifest_bindable (hlen : ∀ b, (blake2b b).length = CONTENT_HASH_BYTES)
    {addr text : Bytes} (haddr : addr.length = RNS_ADDR_BYTES) (htext : text.length < 256 ^ 4) :
    ((Data.new ⟨addr, [MANIFEST_LABEL], none⟩ text).withSequence 1).Fits ∧
      ((Data.new ⟨addr, [MANIFEST_LABEL], none⟩ text).withSequence 1).Bindable := by
  have hone (x : ℕ) (hx : x ∈ some 1) : x = 1 := (Option.some.inj hx).symm
  refine ⟨⟨manifest_fits haddr, htext, nofun, ?_⟩, ?_⟩
  · refine ⟨fun x hx => Option.some.inj hx ▸ hlen text, fun x hx => ?_, nofun, nofun, nofun⟩
    rw [hone x hx]
    decide
  · refine ⟨fun x hx => ?_, nofun, nofun⟩
    rw [hone x hx]
    decide

theorem safe_answerManifest (hlen : ∀ b, (blake2b b).length = CONTENT_HASH_BYTES)
    (face : FaceId) {text : Bytes} (htext : text.length < 256 ^ 4) :
    Safe Ready (answerManifest face text) := by
  refine (safe_resumed _).bind fun _ => ?_
  refine Triple.bind (Q := fun d t => Ready t ∧ d.Fits ∧ d.Bindable ∧
    d.name.rnsAddr.length = RNS_ADDR_BYTES) ?_ fun d => ?_
  · refine Triple.bind_get fun s hs => ?_
    have haddr := hs.1.addr
    obtain ⟨hfits, hbind⟩ := manifest_bindable hlen haddr htext
    rw [manifestName, name_new_isOk haddr]
    refine Triple.bind (Q := fun name t => Ready t ∧ name = ⟨s.rnsAddr, [MANIFEST_LABEL], none⟩)
      (Triple.ofExcept_ok ⟨_, rfl⟩ fun _ t h ht => ⟨ht ▸ hs, (Except.ok.inj h).symm⟩) fun name => ?_
    rintro t ⟨ht, rfl⟩
    refine Triple.bind (safe_create _ text) (fun _ => ?_) t ht
    refine (maybeSign_fits hfits).post fun d t ht => ⟨ht.1, ht.2.1, ht.2.2.2 hbind, ?_⟩
    rw [ht.2.2.1]
    exact haddr
  · rintro s ⟨hs, hfits, hbind, haddr⟩
    exact ((safe_csInsert hlen hfits hbind haddr).bind fun _ =>
      safe_send face (p := .data d) hfits) s hs

end Server

end RnsIcn
