import RnsIcn.Client.Latest
import RnsIcn.Server.Pointer
import RnsIcn.Server.Signing

/-! # The latest version is the producer's

A producer signs no Data under a reserved pointer name but the pointers that it has
published. Whatever the network answers, a client that knows the producer's key takes
from a pointer only a target that the producer has written there, and returns only
Data with the content that the target is pinned to.
-/

namespace RnsIcn

open Transition Fallible

/-- A producer, with what its key has signed, the pointers that it has published, and what has been
encrypted. -/
structure Producer [Hashlib] where
  addr : Bytes
  validate : Validator
  data : Set Data
  invalidations : Set Invalidate := ∅
  capabilities : Set Capability := ∅
  pointers : Set Pointer
  ciphertexts : Set Bytes := ∅
  published : ∀ p ∈ pointers, p.Published
  pointers_only : ∀ d ∈ data, ∀ collection,
    Discovery.metaName collection = .ok d.name.withoutContentHash → ∃ p ∈ pointers, p.ServedAs d

variable [Hashlib]

namespace Producer

inductive Signs (P : Producer) : Bytes → Prop where
  | data {d : Data} {m : Bytes} : d ∈ P.data → d.signedBytes = .ok m → Signs P m
  | invalidate {v : Invalidate} {m : Bytes} : v ∈ P.invalidations → v.signedBytes = .ok m →
      Signs P m
  | capability {c : Capability} : c ∈ P.capabilities → Signs P c.signedBytes

/-- Ideal primitives: a hash has 32 bytes, a valid signature was made by the key, and a token opens
only if it was made by encryption, which no part of a pointer was. -/
structure Ideal (P : Producer) (a : Access) : Prop where
  digest : ∀ b, (blake2b b).length = CONTENT_HASH_BYTES
  signature : ∀ sig h, P.validate sig h = true → ∃ m, P.Signs m ∧ blake2b m = h
  token : ∀ cek c plaintext, a.openToken cek c = some plaintext → c ∈ P.ciphertexts
  apart : ∀ d ∈ P.data, ∀ p ∈ P.pointers, p.ServedAs d → ∀ c ∈ P.ciphertexts,
    ¬ c <+: d.content ++ Data.trailer d.metadata

/-- The hash of the signed bytes of `e` is that of no other byte string that the key has signed. -/
def NoCollision (P : Producer) (e : Data) : Prop :=
  ∀ b m, e.signedBytes = .ok b → P.Signs m → blake2b b = blake2b m → b = m

/-- The producer has written `target` into a pointer for the collection. -/
def Points (P : Producer) (collection target : Name) : Prop :=
  ∃ p ∈ P.pointers, p.collection.withoutContentHash = collection.withoutContentHash ∧
    p.target = target

variable {P : Producer} {a : Access} {e d : Data} {n collection target : Name} {b : Bytes}

omit [Hashlib] in
theorem domain_of_signedBytes (h : e.signedBytes = .ok b) :
    ∃ rest, b = DATA_DOMAIN ++ rest := by
  obtain ⟨-, rfl⟩ := Data.signedBytes_eq_ok.mp h
  exact ⟨_, rfl⟩

/-- Signed bytes of Data that the key has signed are those of Data that it has signed. -/
theorem signed_data (hb : e.signedBytes = .ok b) (hm : P.Signs b) :
    ∃ d ∈ P.data, d.signedBytes = .ok b := by
  obtain ⟨rest, hrest⟩ := domain_of_signedBytes hb
  cases hm with
  | data hd hm => exact ⟨_, hd, hm⟩
  | @invalidate v _ _ hm =>
    simp only [Invalidate.signedBytes, bind_eq_ok, pure_eq_ok] at hm
    obtain ⟨_, -, _, -, rfl⟩ := hm
    simp [INVALIDATE_DOMAIN, DATA_DOMAIN] at hrest
  | capability _ => simp [Capability.signedBytes, CAP_DOMAIN, DATA_DOMAIN] at hrest

/-- Data with a valid signature under a pointer name has the signed bytes of a pointer that the
producer has published for a collection of that pointer name. -/
theorem pointer_of_verified (hideal : P.Ideal a) (hn : Discovery.metaName collection = .ok n)
    (hname : e.name.withoutContentHash = n) (hverify : e.verifySignature P.validate = .ok true)
    (hfree : P.NoCollision e) : ∃ d ∈ P.data, ∃ p ∈ P.pointers, p.ServedAs d ∧
      p.collection.withoutContentHash = collection.withoutContentHash ∧ d.Names p.target ∧
      d.name.Encodable ∧ e.name.Encodable ∧ d.envelope = e.envelope := by
  rw [Data.verifySignature] at hverify
  split at hverify
  · cases hverify
  · simp only [bind_eq_ok, pure_eq_ok, Data.signedHash] at hverify
    obtain ⟨_, ⟨b, hb, rfl⟩, hvalid⟩ := hverify
    obtain ⟨m, hm, hhash⟩ := hideal.signature _ _ hvalid
    obtain rfl := hfree b m hb hm hhash.symm
    obtain ⟨d, hd, hdb⟩ := signed_data hb hm
    obtain ⟨hdsign, hdenv⟩ := Data.signedBytes_eq_ok.mp hdb
    obtain ⟨hesign, heenv⟩ := Data.signedBytes_eq_ok.mp hb
    have henv : d.envelope = e.envelope := hdenv.symm.trans heenv
    have hcomp : d.name.components = e.name.components :=
      (Name.encode_append_inj hdsign.name hesign.name (List.append_cancel_left henv)).1
    have hsame : d.name.withoutContentHash = e.name.withoutContentHash :=
      Name.eq_of_components hcomp rfl
    have hdn : d.name.withoutContentHash = n := hsame.trans hname
    obtain ⟨p, hp, hserved⟩ := P.pointers_only d hd collection (hdn ▸ hn)
    obtain ⟨hnames, hmeta⟩ := (P.published p hp).names hserved hideal.digest
    have hunpinned : d.name.withoutContentHash = d.name :=
      Name.eq_of_components rfl hnames.unpinned.symm
    exact ⟨d, hd, p, hp, hserved,
      Discovery.metaName_inj (hunpinned ▸ hmeta) (hdn ▸ hn), hnames, hdsign.name,
      hesign.name, henv⟩

/-- The target that is read from an accepted pointer is one that the producer has written. -/
theorem points_of_pointer (hideal : P.Ideal a) {r : LatestRequest}
    (hn : Discovery.metaName r.collection = .ok n) (hname : e.name.withoutContentHash = n)
    (hhash : ∀ h ∈ e.metadata.contentHash, blake2b e.content = h)
    (hverify : e.verifySignature P.validate = .ok true) (hfree : P.NoCollision e)
    {identities : Bytes → Option Validator} {now : ℕ}
    (ht : r.targetOf (a.maybeDecrypt identities now e) = some target) :
    P.Points r.collection target := by
  obtain ⟨d, hd, p, hp, hserved, hcoll, hnames, hdn, hen, henv⟩ :=
    pointer_of_verified hideal hn hname hverify hfree
  rcases a.maybeDecrypt_cases identities now e with he | ⟨-, -, cek, hopen⟩
  · rw [he] at ht
    have hlen : ∀ h ∈ e.metadata.contentHash, h.length = CONTENT_HASH_BYTES :=
      fun h hh => hhash h hh ▸ hideal.digest _
    exact ⟨p, hp, hcoll,
      (hnames.target_eq hdn hen hlen henv (LatestRequest.targetOf_eq_some ht).1).symm⟩
  · -- The content is cut from a pointer, so it does not decrypt.
    obtain ⟨-, hcut⟩ := hnames.cut hdn hen henv
    exact absurd ⟨_, hcut⟩ (hideal.apart d hd p hp hserved _ (hideal.token _ _ _ hopen))

theorem Points.pinned (h : P.Points collection target) : ∃ pin, target.contentHash = some pin := by
  obtain ⟨p, hp, -, rfl⟩ := h
  obtain ⟨s, n, d, sequence, latestUnder, hbuilt⟩ := P.published p hp
  obtain ⟨-, -, -, -, pin, -, -, htarget⟩ := Server.latestPointer_eq_ok hbuilt
  exact ⟨pin, by rw [htarget]⟩

end Producer

namespace LatestCall

variable {P : Producer} {s t : LatestCall} {l : Label} {r : LatestRequest} {d : Data}
  {target : Name}

/-- A call that starts knows the key of the producer, and no other key is made known for it.
`express` returns Data of the name that was asked for, up to pins, and hashes do not collide. -/
def Assumed (P : Producer) (s : LatestCall) : Label → Prop
  | .call r => r.collection.rnsAddr = P.addr ∧
      s.client.verifier.identities P.addr = some P.validate
  | .client _ l => (∀ n e, s.client.expressed l = some (n, e) →
      e.name.withoutContentHash = n.withoutContentHash ∧ P.NoCollision e) ∧
      ∀ validate, l = .own (.announce P.addr validate) → validate = P.validate
  | .resume => True

/-- The call waits for the fetch of a request, and `Q` holds of what it returns. -/
def Awaits (s : LatestCall) (f : FetchId) (request : FetchRequest) (Q : Data → Prop) : Prop :=
  f < s.client.nextFetch ∧ ∃ fetch, s.client.fetches f = some fetch ∧ fetch.request = request ∧
    ∀ d, fetch.phase = .returned (some d) → Q d

/-- `d` is what the client makes of Data that `express` has returned for the target. Its content
before decryption is what the target is pinned to. -/
def Fetched (s : LatestCall) (target : Name) (d : Data) : Prop :=
  ∃ e, (target, e) ∈ s.expressed ∧ target.contentHash = some (blake2b e.content) ∧
    e.name.withoutContentHash = target.withoutContentHash ∧
    ∃ identities now, d = s.access.maybeDecrypt identities now e

def Trusted (P : Producer) (s : LatestCall) : Prop :=
  match s.phase with
  | .pointer r f => r.collection.rnsAddr = P.addr ∧
      s.client.verifier.identities P.addr = some P.validate ∧
      ∃ metaName, Discovery.metaName r.collection = .ok metaName ∧
        s.Awaits f (r.pointerRequest metaName) fun d => ∀ target, r.targetOf d = some target →
          P.Points r.collection target
  | .target r target f => P.Points r.collection target ∧
      target.startsWith r.collection = true ∧
      s.Awaits f (r.targetRequest target) (s.Fetched target)
  | .returned r .pointer (some d) => ∃ target, P.Points r.collection target ∧
      target.startsWith r.collection = true ∧ s.Fetched target d
  | _ => True

omit [Hashlib] in
theorem awaits_await (s : LatestCall) (request : FetchRequest) (phase : FetchId → LatestPhase)
    (Q : Data → Prop) : (s.await request phase).Awaits s.client.nextFetch request Q :=
  ⟨Nat.lt_succ_self _, { request }, Function.update_self .., rfl, nofun⟩

/-- An event of the client keeps what is known of a fetch, if it holds of what is returned. -/
theorem Awaits.feed {f : FetchId} {request : FetchRequest} {Q Q' : Data → Prop} {now : ℕ}
    {l : Client.Feed} {client : Client} (h : s.Awaits f request Q) (ht : t.client = client)
    (hs : (s.clientAt now).feed l = some client) (hkeep : ∀ d, Q d → Q' d)
    (hnew : ∀ d, (s.clientAt now).Accepts l request d → Q' d) : t.Awaits f request Q' := by
  obtain ⟨hlt, fetch, hf, rfl, hq⟩ := h
  obtain ⟨hlt', fetch', hf', ha⟩ := Client.feed_advances hs hlt hf
  subst ht
  refine ⟨hlt', fetch', hf', ?_⟩
  cases ha with
  | same => exact ⟨rfl, fun d hd => hkeep d (hq d hd)⟩
  | goesOn hgo => exact ⟨hgo.request, fun d hd => absurd hd (hgo.phase d)⟩
  | @accepts d' hacc =>
    refine ⟨rfl, fun d hd => ?_⟩
    obtain rfl : d' = d := Option.some.inj (FetchPhase.returned.inj hd)
    exact hnew d' hacc

theorem Fetched.mono (h : s.Fetched target d) (ha : t.access = s.access)
    (hl : ∀ x ∈ s.expressed, x ∈ t.expressed) : t.Fetched target d := by
  obtain ⟨e, he, hpin, hname, identities, now, hd⟩ := h
  exact ⟨e, hl _ he, hpin, hname, identities, now, ha ▸ hd⟩

theorem trusted_call (hok : Assumed P s (.call r)) (hs : s.call r = some t) : Trusted P t := by
  rw [call] at hs
  split at hs
  · split at hs
    · obtain rfl := Option.some.inj hs
      trivial
    · rename_i metaName hn
      obtain rfl := Option.some.inj hs
      exact ⟨hok.1, hok.2, metaName, hn, awaits_await ..⟩
  · cases hs

theorem trusted_resume (h : Trusted P s) (hs : s.resume = some t) : Trusted P t := by
  rw [resume] at hs
  rw [Trusted] at h
  split at hs
  · rename_i r f hphase
    simp only [hphase] at h
    obtain ⟨-, -, metaName, -, -, fetch, hf, -, hq⟩ := h
    obtain ⟨fetch', hf', hs⟩ := Option.bind_eq_some_iff.mp hs
    obtain rfl := Option.some.inj (hf.symm.trans hf')
    split at hs
    · rename_i pointer hret
      split at hs
      · rename_i target ht
        obtain ⟨d, rfl, ht⟩ := Option.bind_eq_some_iff.mp ht
        obtain rfl := Option.some.inj hs
        exact ⟨hq d hret target ht, (LatestRequest.targetOf_eq_some ht).2, awaits_await ..⟩
      · obtain rfl := Option.some.inj hs
        trivial
    · obtain rfl := Option.some.inj hs
      trivial
    · cases hs
  · rename_i r target f hphase
    simp only [hphase] at h
    obtain ⟨hpoints, hstarts, -, fetch, hf, -, hq⟩ := h
    obtain ⟨fetch', hf', hs⟩ := Option.bind_eq_some_iff.mp hs
    obtain rfl := Option.some.inj (hf.symm.trans hf')
    split at hs
    · rename_i result hret
      obtain rfl := Option.some.inj hs
      cases result with
      | none => trivial
      | some d => exact ⟨target, hpoints, hstarts, hq d hret⟩
    · obtain rfl := Option.some.inj hs
      trivial
    · cases hs
  · obtain ⟨fetch, -, hs⟩ := Option.bind_eq_some_iff.mp hs
    split at hs
    · obtain rfl := Option.some.inj hs
      trivial
    · obtain rfl := Option.some.inj hs
      trivial
    · cases hs
  · cases hs

theorem known_of_feed {now : ℕ} {l : Client.Feed} {client : Client}
    (hok : Assumed P s (.client now l)) (hs : (s.clientAt now).feed l = some client)
    (h : s.client.verifier.identities P.addr = some P.validate) :
    client.verifier.identities P.addr = some P.validate := by
  rcases Client.feed_identities hs with he | ⟨addr, validate, rfl, he⟩
  · exact he ▸ h
  · rw [he, Function.update_apply]
    split
    · rename_i haddr
      subst haddr
      rw [hok.2 validate rfl]
    · exact h

theorem trusted_client {now : ℕ} {l : Client.Feed} (hideal : P.Ideal s.access)
    (hok : Assumed P s (.client now l)) (h : Trusted P s)
    (hs : s.step (.client now l) = some t) : Trusted P t := by
  obtain ⟨client, hc, rfl⟩ := Option.map_eq_some_iff.mp hs
  have hkeep {target : Name} {d : Data} (hd : s.Fetched target d) :
      Fetched { s with client, expressed := (s.client.expressed l).toList ++ s.expressed }
        target d :=
    hd.mono rfl fun _ hx => List.mem_append_right _ hx
  rw [Trusted] at h ⊢
  cases hphase : s.phase with
  | pointer r f =>
    simp only [hphase] at h ⊢
    obtain ⟨haddr, hknown, metaName, hn, hawait⟩ := h
    refine ⟨haddr, known_of_feed hok hc hknown, metaName, hn,
      hawait.feed rfl hc (fun _ hq => hq) fun d hacc target ht => ?_⟩
    obtain ⟨e, v, he, rfl, hcheck⟩ := hacc
    obtain ⟨hname, hfree⟩ := hok.1 _ _ he
    obtain ⟨hhash, -, horigin⟩ := Verifier.checkFetched_accepted hcheck
    obtain ⟨-, validate, hid, hverify⟩ :=
      (Verifier.checkOrigin_accepted horigin).1.required rfl
    have hmeta : e.name.withoutContentHash = metaName :=
      hname.trans (Name.eq_of_components rfl (Discovery.metaName_eq_ok hn).1.symm)
    have hcomp : metaName.components = r.collection.components ++ [Discovery.META_LABEL] :=
      (Discovery.metaName_eq_ok hn).2
    have hfrom : e.name.rnsAddr = P.addr := by
      rw [← haddr, ← (List.cons.inj hcomp).1, ← hmeta]
      rfl
    have hid' : s.client.verifier.identities P.addr = some validate := hfrom ▸ hid
    obtain rfl : validate = P.validate := Option.some.inj (hid'.symm.trans hknown)
    exact Producer.points_of_pointer hideal hn hmeta hhash hverify hfree ht
  | target r target f =>
    simp only [hphase] at h ⊢
    obtain ⟨hpoints, hstarts, hawait⟩ := h
    refine ⟨hpoints, hstarts, hawait.feed rfl hc (fun _ hd => hkeep hd) fun d hacc => ?_⟩
    obtain ⟨e, v, he, rfl, hcheck⟩ := hacc
    obtain ⟨hhash, hpinned, -⟩ := Verifier.checkFetched_accepted hcheck
    obtain ⟨pin, hpin⟩ := hpoints.pinned
    refine ⟨e, List.mem_append_left _ (Option.mem_toList.mpr he), ?_, (hok.1 _ _ he).1, _, now, rfl⟩
    rw [hhash pin (hpinned pin hpin)]
    exact hpin
  | returned r path result =>
    simp only [hphase] at h ⊢
    cases path with
    | pointer =>
      cases result with
      | none => trivial
      | some d =>
        obtain ⟨target, hpoints, hstarts, hd⟩ := h
        exact ⟨target, hpoints, hstarts, hkeep hd⟩
    | selector => trivial
  | idle => trivial
  | selector r f => trivial
  | raised e => trivial

theorem trusted_step (hideal : P.Ideal s.access) (hok : Assumed P s l) (h : Trusted P s)
    (hs : s.step l = some t) : Trusted P t := by
  cases l with
  | call r => exact trusted_call hok hs
  | client now l => exact trusted_client hideal hok h hs
  | resume => exact trusted_resume h hs

theorem step_access (hs : s.step l = some t) : t.access = s.access := by
  cases l with
  | call r =>
    change s.call r = some t at hs
    rw [call] at hs
    split at hs
    · split at hs <;> exact (Option.some.inj hs) ▸ rfl
    · cases hs
  | client now l =>
    obtain ⟨client, -, rfl⟩ := Option.map_eq_some_iff.mp hs
    rfl
  | resume =>
    change s.resume = some t at hs
    rw [resume] at hs
    split at hs
    · obtain ⟨fetch, -, hs⟩ := Option.bind_eq_some_iff.mp hs
      split at hs
      · split at hs <;> exact (Option.some.inj hs) ▸ rfl
      · exact (Option.some.inj hs) ▸ rfl
      · cases hs
    · obtain ⟨fetch, -, hs⟩ := Option.bind_eq_some_iff.mp hs
      split at hs
      · exact (Option.some.inj hs) ▸ rfl
      · exact (Option.some.inj hs) ▸ rfl
      · cases hs
    · obtain ⟨fetch, -, hs⟩ := Option.bind_eq_some_iff.mp hs
      split at hs
      · exact (Option.some.inj hs) ▸ rfl
      · exact (Option.some.inj hs) ▸ rfl
      · cases hs
    · cases hs

/-- Whatever the network answers, a call that returns Data by way of a pointer returns what
`express` has returned for a target that the producer has written into a pointer for the
collection. The content before decryption is the one that the target is pinned to, and the name is
that of the target and lies under the collection. -/
theorem latest_authenticated {ls : List Label} (hideal : P.Ideal s.access)
    (hrun : Run step (Assumed P) s ls t) (hs : s.phase = .idle)
    (ht : t.phase = .returned r .pointer (some d)) :
    ∃ p ∈ P.pointers, p.collection.withoutContentHash = r.collection.withoutContentHash ∧
      (∃ e, (p.target, e) ∈ t.expressed ∧ p.target.contentHash = some (blake2b e.content) ∧
        ∃ identities now, d = t.access.maybeDecrypt identities now e) ∧
      d.name.withoutContentHash = p.target.withoutContentHash ∧
      d.name.startsWith r.collection = true := by
  have hinv : P.Ideal t.access ∧ Trusted P t := by
    refine hrun.invariant (I := fun s => P.Ideal s.access ∧ Trusted P s)
      ⟨hideal, by rw [Trusted, hs]; trivial⟩ fun u l v hu hok hstep => ?_
    exact ⟨step_access hstep ▸ hu.1, trusted_step hu.1 hok hu.2 hstep⟩
  have htrust := hinv.2
  rw [Trusted, ht] at htrust
  obtain ⟨target, ⟨p, hp, hcoll, rfl⟩, hstarts, e, he, hpin, hname, identities, now, rfl⟩ := htrust
  refine ⟨p, hp, hcoll, ⟨e, he, hpin, identities, now, rfl⟩, ?_, ?_⟩
  · rw [Access.maybeDecrypt_name]
    exact hname
  · have hsame : e.name.withoutContentHash.components = p.target.withoutContentHash.components := by
      rw [hname]
    have hcomp : e.name.components = p.target.components := hsame
    rw [Access.maybeDecrypt_name, Name.startsWith, Name.len, hcomp]
    exact hstarts

open Server

def post : Data :=
  letI := Data.paddedHash
  edition postName [0x68, 0x69] false (some 1)

def postPointer : Pointer where
  collection := ⟨List.replicate 16 1, [], none⟩
  target := { postName with contentHash := post.metadata.contentHash }
  data :=
    letI := Data.paddedHash
    ((Data.new ⟨List.replicate 16 1, [Discovery.META_LABEL], none⟩
      (Discovery.META_FMT :: ({ postName with contentHash := post.metadata.contentHash } :
        Name).encode)).withSequence 1).withFreshnessPeriod 15

def servedPointer : Data :=
  { postPointer.data with
    signature := some (List.replicate 64 7)
    metadata := { postPointer.data.metadata with signedAt := some 5 } }

/-- The same signed bytes with the hash and the sequence moved into the content. -/
def reshapedPointer : Data :=
  { servedPointer with
    content := servedPointer.content ++ servedPointer.metadata.contentHash.getD [] ++
      Data.tagged 0x01 servedPointer.metadata.sequence
    metadata := { signedAt := some 5 } }

omit [Hashlib] in
theorem postPointer_published :
    letI := Data.paddedHash
    postPointer.Published :=
  letI := Data.paddedHash
  ⟨publisher, postName, post, some 1, none, rfl⟩

def postKey : Validator :=
  letI := Data.paddedHash
  fun _ h => h == blake2b servedPointer.envelope

def postProducer : @Producer Data.paddedHash :=
  letI := Data.paddedHash
  { addr := List.replicate 16 1
    validate := postKey
    data := {servedPointer}
    pointers := {postPointer}
    published := fun _ hp => hp ▸ postPointer_published
    pointers_only := fun _ hd _ _ => ⟨postPointer, rfl, hd ▸
      ⟨{}, fun _ => List.replicate 64 7, 5, rfl⟩⟩ }

omit [Hashlib] in
theorem postProducer_ideal :
    letI := Data.paddedHash
    postProducer.Ideal {} := by
  let := Data.paddedHash
  refine ⟨Data.length_paddedHash, fun sig h hvalid => ?_, nofun, fun _ _ _ _ _ c hc => ?_⟩
  · exact ⟨_, .data rfl rfl, (beq_iff_eq.mp hvalid).symm⟩
  · exact absurd hc (Set.notMem_empty c)

omit [Hashlib] in
theorem signs_iff {m : Bytes} :
    letI := Data.paddedHash
    postProducer.Signs m ↔ m = servedPointer.envelope := by
  let := Data.paddedHash
  constructor
  · intro h
    cases h with
    | data hd hm =>
      obtain rfl : _ = servedPointer := hd
      exact (Except.ok.inj hm).symm
    | invalidate hv _ => cases hv
    | capability hc => cases hc
  · rintro rfl
    exact .data rfl rfl

omit [Hashlib] in
theorem reshaped_free :
    letI := Data.paddedHash
    postProducer.NoCollision reshapedPointer := by
  rintro b m hb hm -
  rw [signs_iff.mp hm]
  exact (Except.ok.inj hb).symm

omit [Hashlib] in
theorem post_free :
    letI := Data.paddedHash
    postProducer.NoCollision post := by
  intro b m hb hm hhash
  rw [signs_iff.mp hm, ← Except.ok.inj hb] at hhash
  exact absurd hhash (by decide)

def rootRequest : LatestRequest where
  collection := ⟨List.replicate 16 1, [], none⟩

/-- The key is made known, the call gets the reshaped pointer, and then the post. -/
def readLatest : List Label :=
  [.client 0 (.own (.announce (List.replicate 16 1) postKey)), .call rootRequest,
    .client 1 (.own (.attempt 0 1 (List.replicate 8 5) (List.replicate 8 6))),
    .client 2 (.answered 0 reshapedPointer), .resume,
    .client 3 (.own (.attempt 1 1 (List.replicate 8 7) (List.replicate 8 8))),
    .client 4 (.answered 1 post), .resume]

def freshCall : LatestCall where
  client := {}

def calledAfter (count : ℕ) : LatestCall :=
  letI := Data.paddedHash
  (exec step freshCall (readLatest.take count)).getD freshCall

omit [Hashlib] in
theorem assumed_quiet {s : LatestCall} {now : ℕ} {l : Client.Feed} :
    letI := Data.paddedHash
    s.client.expressed l = none →
      (∀ validate, l = .own (.announce (List.replicate 16 1) validate) →
        validate = postKey) → Assumed postProducer s (.client now l) := by
  intro hnone hkey
  refine ⟨fun _ _ he => ?_, hkey⟩
  rw [hnone] at he
  cases he

omit [Hashlib] in
theorem assumed_answer {s : LatestCall} {now : ℕ} {f : FetchId} {n : Name} {e : Data} :
    letI := Data.paddedHash
    s.client.expressed (.answered f e) = some (n, e) →
      e.name.withoutContentHash = n.withoutContentHash → postProducer.NoCollision e →
        Assumed postProducer s (.client now (.answered f e)) := by
  intro he hname hfree
  refine ⟨fun n' e' he' => ?_, nofun⟩
  obtain ⟨rfl, rfl⟩ := Prod.mk.inj (Option.some.inj (he.symm.trans he'))
  exact ⟨hname, hfree⟩

omit [Hashlib] in
set_option maxRecDepth 4000 in
theorem readLatest_run :
    letI := Data.paddedHash
    Run step (Assumed postProducer) freshCall readLatest (calledAfter 8) := by
  let := Data.paddedHash
  have hannounced : Assumed postProducer freshCall
      (.client 0 (.own (.announce (List.replicate 16 1) postKey))) :=
    assumed_quiet rfl fun _ h => by cases h; rfl
  have hknown : Assumed postProducer (calledAfter 1) (.call rootRequest) := ⟨rfl, rfl⟩
  have hpointer : Assumed postProducer (calledAfter 3) (.client 2 (.answered 0 reshapedPointer)) :=
    assumed_answer (n := postPointer.data.name) rfl rfl reshaped_free
  have hpost : Assumed postProducer (calledAfter 6) (.client 4 (.answered 1 post)) :=
    assumed_answer (n := postPointer.target) rfl rfl post_free
  have hstep (k : ℕ) (l : Label) (t : LatestCall) (h : step (calledAfter k) l = some t)
      (ht : t = calledAfter (k + 1)) : step (calledAfter k) l = some (calledAfter (k + 1)) :=
    ht ▸ h
  exact .cons hannounced (hstep 0 _ _ rfl rfl) <|
    .cons hknown (hstep 1 _ _ rfl rfl) <| .cons (assumed_quiet rfl nofun) (hstep 2 _ _ rfl rfl) <|
    .cons hpointer (hstep 3 _ _ rfl rfl) <| .cons trivial (hstep 4 _ _ rfl rfl) <|
    .cons (assumed_quiet rfl nofun) (hstep 5 _ _ rfl rfl) <|
    .cons hpost (hstep 6 _ _ rfl rfl) <| .cons trivial (hstep 7 _ _ rfl rfl) (.nil _)

omit [Hashlib] in
set_option maxRecDepth 4000 in
theorem reshaped_pointer_read :
    letI := Data.paddedHash
    (calledAfter 8).phase = .returned rootRequest .pointer (some post) ∧
      ∃ p ∈ postProducer.pointers,
        p.collection.withoutContentHash = rootRequest.collection.withoutContentHash ∧
        (∃ e, (p.target, e) ∈ (calledAfter 8).expressed ∧
          p.target.contentHash = some (blake2b e.content) ∧
          ∃ identities now, post = (calledAfter 8).access.maybeDecrypt identities now e) ∧
        post.name.withoutContentHash = p.target.withoutContentHash ∧
        post.name.startsWith rootRequest.collection = true :=
  letI := Data.paddedHash
  ⟨rfl, latest_authenticated postProducer_ideal readLatest_run rfl rfl⟩

end LatestCall

end RnsIcn
