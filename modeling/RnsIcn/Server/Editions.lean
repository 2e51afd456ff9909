import RnsIcn.Client.Capability
import RnsIcn.Server.Raising
import RnsIcn.Store.Recency

/-! # The editions of a collection

Each edition that is published under a collection replaces the pointer to its latest
version. The new pointer names the edition that was published last, whatever the
sequences of the earlier ones are.
-/

namespace RnsIcn

open Effect Fallible Transition

/-- The arguments of `publish_content` with a sequence, or of `publish_post`. The content is what is
left of it after encryption. -/
structure Publication where
  name : Name
  content : Bytes
  encrypted : Bool := false
  sequence : ℕ
  latestUnder : Option Name := none
  post : Bool := false
  deriving DecidableEq, Repr

/-- The collection whose pointer the call refreshes. -/
def Publication.collection (e : Publication) (rnsAddr : Bytes) : Option Name :=
  if e.latestUnder = none ∧ e.name.len ≤ 1 then none
  else (e.latestUnder.elim (Name.new rnsAddr e.name.path.dropLast) .ok).toOption

structure Publisher where
  server : Server
  editions : List Publication := []

namespace Publisher

inductive Label where
  | publish (e : Publication)
  | tick (ms time : ℕ)

variable [Hashlib]

def handler (e : Publication) : Handler Unit :=
  if e.post then
    Server.publishPost e.name e.content e.encrypted e.sequence e.latestUnder
  else Server.publishContent e.name e.content e.encrypted (some e.sequence) e.latestUnder

def step (s : Publisher) : Label → Option Publisher
  | .publish e =>
    match exec (handler e) s.server with
    | (.ok _, server) => some { server, editions := e :: s.editions }
    | (.error _, server) => some { s with server }
  | .tick ms time =>
    (s.server.step (.forwarder (.tick ms time))).map fun server => { s with server }

/-- The events of the server. -/
def Label.label : Label → Server.Label
  | .publish e =>
    if e.post then .publishPost e.name e.content e.encrypted e.sequence e.latestUnder
    else .publishContent e.name e.content e.encrypted (some e.sequence) e.latestUnder
  | .tick ms time => .forwarder (.tick ms time)

theorem step_publish (s : Publisher) (e : Publication) :
    s.step (.publish e) = match exec (handler e) s.server with
      | (.ok _, server) => some { server, editions := e :: s.editions }
      | (.error _, server) => some { s with server } := rfl

def ticked (s : Server) (ms time : ℕ) : Server :=
  { s with forwarder := { s.forwarder with
      loop := { s.forwarder.loop with monotonic := s.forwarder.loop.monotonic + ms }
      time } }

theorem step_tick (s : Publisher) (ms time : ℕ) :
    s.step (.tick ms time) = some { s with server := ticked s.server ms time } := rfl

theorem step_server {s t : Publisher} {l : Label} (hs : s.step l = some t) :
    s.server.step l.label = some t.server := by
  cases l with
  | publish e =>
    have hafter : after (handler e) s.server = t.server := by
      rw [step_publish] at hs
      rw [after]
      rcases hx : exec (handler e) s.server with ⟨_ | _, u⟩ <;> rw [hx] at hs <;>
        exact Option.some.inj hs ▸ rfl
    rw [← hafter]
    cases hpost : e.post <;> simp only [Label.label, handler, hpost] <;> rfl
  | tick ms time =>
    rw [step_tick] at hs
    obtain rfl := Option.some.inj hs
    rfl

def pointerKey (c : Name) : Except PyError Bytes := do
  ContentStore.nameHash (← Discovery.metaName c)

/-- The pointer of the collection that is stored names an edition of the greatest sequence among
those published, and it has that sequence. -/
def NamesLatest (s : Publisher) (c : Name) : Prop :=
  s.editions ≠ [] → ∃ key row, pointerKey c = .ok key ∧
    s.server.forwarder.cs.content.get? key = some row ∧
    ∃ e ∈ s.editions, (∀ e' ∈ s.editions, e'.sequence ≤ e.sequence) ∧
      row.sequence = some e.sequence ∧ Discovery.decodeMeta row.contentBytes =
        .ok { e.name with contentHash := some (blake2b e.content) }

/-- The call is one for the collection, its name can be read back, what follows the edition can be
stored as well, and the pointer is not evicted on the way. -/
structure Undisturbed (c : Name) (s : Publisher) (e : Publication) : Prop where
  collection : e.collection s.server.rnsAddr = some c
  readable : e.name.len ≤ MAX_COMPONENTS
  whole : (∃ cs, s.server.forwarder.cs.insert e.name
      (Server.edition e.name e.content e.encrypted (some e.sequence))
      s.server.forwarder.time = .ok cs) →
    ∃ p cs, s.server.latestPointer e.name
        (Server.edition e.name e.content e.encrypted (some e.sequence)) (some e.sequence)
        e.latestUnder = .ok (some p) ∧
      s.server.forwarder.cs.insert p.data.name p.data s.server.forwarder.time = .ok cs
  capacity : 0 < s.server.forwarder.cs.max ∧
    s.server.forwarder.cs.content.size ≤ s.server.forwarder.cs.max
  room : s.server.forwarder.cs.content.size + 2 ≤ s.server.forwarder.cs.max ∨
    ∀ key row, s.server.forwarder.cs.content.get? key = some row →
      row.insertedAt ≤ s.server.forwarder.time

/-- A call that returns has a lower sequence than one before it. -/
def Backfills (s : Publisher) : Label → Prop
  | .publish e => (exec (handler e) s.server).1 = .ok () ∧
      ∃ e' ∈ s.editions, e.sequence < e'.sequence
  | .tick .. => False

instance (s : Publisher) : DecidablePred s.Backfills
  | .publish e => inferInstanceAs (Decidable ((exec (handler e) s.server).1 = .ok () ∧
      ∃ e' ∈ s.editions, e.sequence < e'.sequence))
  | .tick .. => inferInstanceAs (Decidable False)

/-- The store of the server is `cs`, and what a pointer is made of is as in `s`. -/
structure Holds (s : Server) (cs : ContentStore) (t : Server) : Prop where
  store : t.forwarder.cs = cs
  time : t.forwarder.time = s.forwarder.time
  settings : t.pointerSettings = s.pointerSettings

variable {s t : Publisher} {v : Server} {cs cs' : ContentStore} {c : Name} {e : Publication}
  {n : Name} {d d' : Data}

omit [Hashlib] in
theorem keeps_create (n : Name) (content : Bytes) : Keeps (Holds v cs) (Server.create n content) :=
  Keeps.modify fun _ h => ⟨h.store, h.time, h.settings⟩

theorem csInsert_holds (hi : cs.insert n d v.forwarder.time = .ok cs') :
    Triple (Holds v cs) (Server.csInsert n d) (fun _ => Holds v cs') fun _ => False := by
  intro u hu
  rw [Server.exec_csInsert, hu.store, hu.time, hi]
  exact ⟨by simp [ContentStore.apply, hi], hu.time, hu.settings⟩

theorem csInsert_raises {err : PyError} (hi : cs.insert n d v.forwarder.time = .error err) :
    Triple (Holds v cs) (Server.csInsert n d) (fun _ _ => False) (Holds v cs) := by
  intro u hu
  rw [Server.exec_csInsert, hu.store, hu.time, hi]
  exact ⟨by simp [ContentStore.apply, hi], hu.time, hu.settings⟩

theorem insert_signed_isOk {signer : Bytes → Bytes} {now time : ℕ} {signedAt : Option ℕ}
    (hd : d.sign signer now signedAt = .ok d') (h : ∃ u, cs.insert n d' time = .ok u) :
    ∃ u, cs.insert n d time = .ok u := by
  obtain ⟨sig, -, rfl⟩ := Data.sign_eq_ok hd
  obtain ⟨u, h⟩ := h
  simp only [ContentStore.insert, bind_eq_ok, pure_eq_ok] at h ⊢
  obtain ⟨nameBytes, hn, ⟨⟩, hb, prefixes, hp, -⟩ := h
  exact ⟨_, nameBytes, hn, ⟨⟩, hb, prefixes, hp, rfl⟩

theorem Undisturbed.room_after (h : Undisturbed c s e)
    (hi : s.server.forwarder.cs.insert e.name d s.server.forwarder.time = .ok cs) :
    0 < cs.max ∧ cs.content.size ≤ cs.max ∧ (cs.content.size < cs.max ∨
      ∀ key row, cs.content.get? key = some row →
        row.insertedAt ≤ s.server.forwarder.time) := by
  have happly : s.server.forwarder.cs.apply (.insert e.name d s.server.forwarder.time) = cs := by
    simp [ContentStore.apply, hi]
  have hmax : cs.max = s.server.forwarder.cs.max := by rw [← happly, ContentStore.apply_max]
  refine ⟨hmax ▸ h.capacity.1, ContentStore.insert_size_le hi, ?_⟩
  rcases h.room with hroom | hroom
  · left
    have hsize := ContentStore.size_insert_le hi
    omega
  · right
    intro key row hr
    rw [← happly] at hr
    rcases ContentStore.get?_apply_insert hr with hold | ⟨-, -, ⟨ttl, rfl⟩, -⟩
    · exact hroom key row hold
    · exact le_rfl

theorem publishLatestPointer_holds {sequence : Option ℕ} {latestUnder : Option Name} {p : Pointer}
    (hp : v.latestPointer n d sequence latestUnder = .ok (some p))
    (hi : cs.insert p.data.name p.data v.forwarder.time = .ok cs') :
    Triple (Holds v cs) (Server.publishLatestPointer n d sequence latestUnder)
      (fun _ => Holds v cs') fun _ => False := by
  rw [Server.publishLatestPointer_eq]
  refine Triple.bind_get fun t ht => ?_
  rw [Server.latestPointer_congr n ht.settings rfl, hp]
  refine Triple.bind (Q := fun r u => r = some p ∧ Holds v cs u) ?_ fun r => ?_
  · exact Triple.ofExcept_ok ⟨_, rfl⟩ fun r u hr hu => ⟨(Except.ok.inj hr).symm, hu ▸ ht⟩
  · refine fun u hu => ?_
    obtain ⟨rfl, hu⟩ := hu
    refine Triple.bind (Q := fun _ => Holds v cs) ?_ (fun _ => csInsert_holds hi) u hu
    exact Triple.modify fun _ h => ⟨h.store, h.time, h.settings⟩

def Stored (c : Name) (e : Publication) (t : Server) : Prop :=
  ∃ key row, pointerKey c = .ok key ∧ t.forwarder.cs.content.get? key = some row ∧
    row.sequence = some e.sequence ∧ Discovery.decodeMeta row.contentBytes =
      .ok { e.name with contentHash := some (blake2b e.content) }

theorem stored_framed : Server.Framed (Stored c e) := by
  intro s t he hs
  simp only [Server.vitals, Prod.mk.injEq] at he
  unfold Stored
  rw [he.1.1]
  exact hs

omit [Hashlib] in
theorem latestPointer_of_collection [Hashlib] {p : Pointer}
    (hc : e.collection v.rnsAddr = some c)
    (hp : v.latestPointer e.name d (some e.sequence) e.latestUnder = .ok (some p)) :
    p.collection = c ∧ p.data.metadata.sequence = some e.sequence := by
  rw [Server.latestPointer] at hp
  split at hp
  · cases hp
  · split at hp
    · cases hp
    · rename_i hroot
      simp only [bind_eq_ok, pure_eq_ok, Option.some.injEq] at hp
      obtain ⟨collection, hcol, target, -, metaName, -, payload, -, rfl⟩ := hp
      rw [Publication.collection, if_neg hroot, hcol] at hc
      exact ⟨Option.some.inj hc, rfl⟩

theorem Undisturbed.stored {p : Pointer} {u : Server} (h : Undisturbed c s e)
    (hd : d.metadata.contentHash = some (blake2b e.content))
    (hp : s.server.latestPointer e.name d (some e.sequence) e.latestUnder = .ok (some p))
    (he : s.server.forwarder.cs.insert e.name d' s.server.forwarder.time = .ok cs)
    (hi : cs.insert p.data.name p.data s.server.forwarder.time = .ok cs')
    (hu : Holds s.server cs' u) : Stored c e u := by
  obtain ⟨hcol, hseq⟩ := latestPointer_of_collection h.collection hp
  obtain ⟨hname, hpayload, -, -, pin, hlen, hpin, htarget⟩ := Server.latestPointer_eq_ok hp
  obtain ⟨hmax, hsize, hroom⟩ := h.room_after he
  have hrow := ContentStore.get?_insert_self hi hsize hmax hroom
  obtain ⟨nameBytes, -, hb, -⟩ := ContentStore.insert_eq_ok hi
  have hfree : p.data.name.withoutContentHash = p.data.name :=
    Name.eq_of_components rfl (Discovery.metaName_eq_ok hname).1.symm
  obtain rfl : pin = blake2b e.content := Option.some.inj (hpin.symm.trans hd)
  refine ⟨_, _, ?_, hu.store ▸ hrow, hseq, ?_⟩
  · have hkey : ContentStore.nameHash p.data.name = .ok (blake2b p.data.name.encode) :=
      ContentStore.nameHash_eq_ok.mpr ⟨hfree ▸ (Name.toBytes_eq_ok.mp hb).1, rfl⟩
    rw [pointerKey, ← hcol, hname, hfree]
    exact hkey
  · have hfits : p.target.Fits := by
      refine ⟨(Discovery.encodeMeta_eq_ok.mp hpayload).1, ?_, ?_⟩
      · rw [htarget]
        exact h.readable
      · rw [htarget]
        rintro _ ⟨⟩
        exact hlen
    rw [← htarget]
    exact Discovery.decodeMeta_encodeMeta hfits hpayload

theorem Undisturbed.insert_triple (h : Undisturbed c s e)
    (hd : d' = Server.edition e.name e.content e.encrypted (some e.sequence) ∨
      ∃ signer now signedAt, (Server.edition e.name e.content e.encrypted
        (some e.sequence)).sign signer now signedAt = .ok d') :
    Triple (Holds s.server s.server.forwarder.cs) (do
        Server.csInsert e.name d'
        Server.publishLatestPointer e.name d' (some e.sequence) e.latestUnder)
      (fun _ => Stored c e) fun t => t.forwarder.cs = s.server.forwarder.cs := by
  set d := Server.edition e.name e.content e.encrypted (some e.sequence)
  have hhash : d'.metadata.contentHash = d.metadata.contentHash := by
    rcases hd with rfl | ⟨signer, now, signedAt, hsign⟩
    · rfl
    · obtain ⟨sig, -, rfl⟩ := Data.sign_eq_ok hsign
      rfl
  cases hi : s.server.forwarder.cs.insert e.name d' s.server.forwarder.time with
  | error err =>
    refine Triple.bind (Q := fun _ _ => False) ?_ fun _ _ hf => hf.elim
    exact (csInsert_raises hi).conseq (fun _ h => h) (fun _ _ h => h) fun _ h => h.store
  | ok cs₁ =>
    have hstored : ∃ u, s.server.forwarder.cs.insert e.name d s.server.forwarder.time = .ok u := by
      rcases hd with rfl | ⟨signer, now, signedAt, hsign⟩
      · exact ⟨cs₁, hi⟩
      · exact insert_signed_isOk hsign ⟨cs₁, hi⟩
    obtain ⟨p, _, hp, hpi⟩ := h.whole hstored
    obtain ⟨hd₁, hp₁⟩ := ContentStore.insert_ttls hi
    obtain ⟨cs₂, hi₂⟩ := ContentStore.insert_isOk hd₁ hp₁ ⟨_, hpi⟩
    have hp' : s.server.latestPointer e.name d' (some e.sequence) e.latestUnder =
        .ok (some p) := (Server.latestPointer_congr e.name rfl hhash).trans hp
    have hfinal := (publishLatestPointer_holds hp' hi₂).post fun _ _ hu =>
      h.stored hhash hp' hi hi₂ hu
    exact ((csInsert_holds hi).bind fun _ => hfinal).conseq (fun _ h => h) (fun _ _ h => h)
      fun _ h => h.elim

theorem maybeSign_holds (d : Data) : Triple (Holds v cs) (Server.maybeSign d)
    (fun d' t => Holds v cs t ∧ (d' = d ∨ ∃ signer now signedAt,
      d.sign signer now signedAt = .ok d')) (Holds v cs) := by
  refine Triple.bind_get fun s hs => ?_
  split
  · exact Triple.pure fun t ht => ⟨ht ▸ hs, .inl rfl⟩
  · split
    · refine Triple.bind (Q := fun d' t => Holds v cs t ∧ ∃ signer now signedAt,
        d.sign signer now signedAt = .ok d') ?_ fun d' => ?_
      · exact Triple.ofExcept (fun d' t hd ht => ⟨ht ▸ hs, _, _, _, hd⟩) fun t ht => ht ▸ hs
      · refine Triple.bind (Q := fun _ t => Holds v cs t ∧ ∃ signer now signedAt,
          d.sign signer now signedAt = .ok d') ?_ fun _ => Triple.pure fun _ h => h.imp_right .inr
        exact Triple.modify fun t ht => ⟨⟨ht.1.store, ht.1.time, ht.1.settings⟩, ht.2⟩
    · exact Triple.pure fun t ht => ⟨ht ▸ hs, .inl rfl⟩

/-- A call stores its edition with the pointer to it and returns, or it raises and stores
nothing. -/
theorem Undisturbed.handler_triple (h : Undisturbed c s e) :
    Triple (Holds s.server s.server.forwarder.cs) (handler e) (fun _ => Stored c e)
      fun t => t.forwarder.cs = s.server.forwarder.cs := by
  have hkeeps : Keeps (Holds s.server s.server.forwarder.cs)
      (Server.create e.name e.content) := keeps_create e.name e.content
  have hcreate := hkeeps.conseq (fun _ h => h) (fun _ _ h => h) fun _ h => h.store
  unfold handler
  split
  · refine hcreate.bind fun _ => ?_
    have hmaybe : Triple (Holds s.server s.server.forwarder.cs) (Server.maybeSign _) _ _ :=
      maybeSign_holds (Server.edition e.name e.content e.encrypted (some e.sequence))
    have hsign := hmaybe.conseq (fun _ h => h) (fun _ _ h => h) fun _ h => h.store
    refine hsign.bind fun d' t ht => ?_
    have hpush : Safe (Stored c e) (do
        Server.apsPublish d'
        Server.propagate d') :=
      (stored_framed.safe_apsPublish d').bind fun _ => stored_framed.safe_propagate d' none
    have hall := (h.insert_triple ht.2).bind fun _ =>
      hpush.conseq (fun _ h => h) (fun _ _ h => h) fun _ h => h.elim
    rw [bind_assoc] at hall
    exact hall t ht.1
  · exact hcreate.bind fun _ => h.insert_triple (.inl rfl)

theorem Undisturbed.step_cases (h : Undisturbed c s e) (hs : s.step (.publish e) = some t) :
    ((exec (handler e) s.server).1 = .ok () ∧ t.editions = e :: s.editions ∧
      Stored c e t.server) ∨
    ((exec (handler e) s.server).1 ≠ .ok () ∧ t.editions = s.editions ∧
      t.server.forwarder.cs = s.server.forwarder.cs) := by
  have htriple := h.handler_triple s.server ⟨rfl, rfl, rfl⟩
  rw [step_publish] at hs
  rcases hx : exec (handler e) s.server with ⟨err | ⟨⟩, u⟩
  · rw [hx] at hs htriple
    obtain rfl := Option.some.inj hs
    exact .inr ⟨nofun, rfl, htriple⟩
  · rw [hx] at hs htriple
    obtain rfl := Option.some.inj hs
    exact .inl ⟨rfl, rfl, htriple⟩

/-- The calls are undisturbed ones for the collection. -/
def Steady (c : Name) (s : Publisher) : Label → Prop
  | .publish e => Undisturbed c s e
  | .tick .. => True

theorem NamesLatest.of_store (h : s.NamesLatest c) (he : t.editions = s.editions)
    (hcs : t.server.forwarder.cs = s.server.forwarder.cs) : t.NamesLatest c := by
  unfold NamesLatest
  rw [he, hcs]
  exact h

theorem namesLatest_step {l : Label} (h : s.NamesLatest c) (hl : s.Steady c l)
    (hs : s.step l = some t) (hb : ¬ s.Backfills l) : t.NamesLatest c := by
  cases l with
  | tick ms time =>
    rw [step_tick] at hs
    obtain rfl := Option.some.inj hs
    exact h
  | publish e =>
    rcases hl.step_cases hs with ⟨hret, he, key, row, hkey, hrow, hseq, hdecode⟩ | ⟨-, he, hcs⟩
    · intro _
      refine ⟨key, row, hkey, hrow, e, he ▸ List.mem_cons_self, fun e' he' => ?_, hseq, hdecode⟩
      rw [he] at he'
      rcases List.mem_cons.mp he' with rfl | he'
      · exact le_rfl
      · exact not_lt.mp fun hlt => hb ⟨hret, e', he', hlt⟩
    · exact h.of_store he hcs

theorem not_namesLatest_of_backfills {l : Label} (hl : s.Steady c l) (hs : s.step l = some t)
    (hb : s.Backfills l) : ¬ t.NamesLatest c := by
  cases l with
  | tick => exact hb.elim
  | publish e =>
    obtain ⟨hret, e', he', hlt⟩ := hb
    rcases hl.step_cases hs with ⟨-, he, key, row, hkey, hrow, hseq, -⟩ | ⟨hraise, -⟩
    · intro h
      obtain ⟨key', row', hkey', hrow', top, -, htop, hseq', -⟩ := h (by simp [he])
      obtain rfl := ok_inj hkey hkey'
      obtain rfl := Option.some.inj (hrow.symm.trans hrow')
      have hsame : e.sequence = top.sequence := Option.some.inj (hseq.symm.trans hseq')
      have hle := htop e' (he ▸ List.mem_cons_of_mem _ he')
      omega
    · exact absurd hret hraise

/-- After each call the pointer of the collection names an edition of the greatest sequence so far,
exactly if no call that returns has a lower sequence than one before it. -/
theorem pointer_names_latest_iff {ls : List Label} (hr : Run step (Steady c) s ls t)
    (hs : s.editions = []) :
    (∀ x ∈ trace step s ls, x.2.2.NamesLatest c) ↔
      ∀ x ∈ trace step s ls, ¬ x.1.Backfills x.2.1 := by
  have hfirst : s.NamesLatest c := fun hne => absurd hs hne
  exact hr.trace_invariant_iff (J := fun _ => True) trivial hfirst (fun _ _ _ h _ _ => h)
    (fun _ _ _ _ hi hok hs hb => namesLatest_step hi hok hs hb)
    fun _ _ _ _ hok hs hb => not_namesLatest_of_backfills hok hs hb

def post (k : ℕ) : Publication where
  name := ⟨List.replicate 16 1, [[UInt8.ofNat k]], none⟩
  content := [UInt8.ofNat k]
  sequence := k
  post := true

def postRoot : Name := ⟨List.replicate 16 1, [], none⟩

def unpublished : Publisher where
  server := { rnsAddr := List.replicate 16 1 }

def roomy (s : Publisher) : Label → Bool
  | .publish e => e.collection s.server.rnsAddr == some postRoot && e.name.len ≤ MAX_COMPONENTS &&
      (match s.server.latestPointer e.name
        (Server.edition e.name e.content e.encrypted (some e.sequence)) (some e.sequence)
        e.latestUnder with
      | .ok (some p) => (s.server.forwarder.cs.insert p.data.name p.data
          s.server.forwarder.time).toOption.isSome
      | _ => false) &&
      s.server.forwarder.cs.content.size + 2 ≤ s.server.forwarder.cs.max
  | .tick .. => true

theorem steady_of_roomy {l : Label} (h : s.roomy l = true) : s.Steady postRoot l := by
  cases l with
  | tick => trivial
  | publish e =>
    simp only [roomy, Bool.and_eq_true, decide_eq_true_eq, beq_iff_eq] at h
    obtain ⟨⟨⟨hcol, hlen⟩, hwhole⟩, hroom⟩ := h
    refine ⟨hcol, hlen, fun _ => ?_, ⟨by omega, by omega⟩, .inl hroom⟩
    split at hwhole
    · rename_i p hp
      refine ⟨p, ?_⟩
      cases hi : s.server.forwarder.cs.insert p.data.name p.data s.server.forwarder.time with
      | error err =>
        rw [hi] at hwhole
        cases hwhole
      | ok cs => exact ⟨cs, hp, rfl⟩
    · cases hwhole

def posted (ks : List ℕ) : Publisher :=
  letI := Data.paddedHash
  (Transition.exec step unpublished (ks.map fun k => .publish (post k))).getD unpublished

omit [Hashlib] in
theorem posted_run {ks : List ℕ} :
    letI := Data.paddedHash
    (Transition.exec step unpublished (ks.map fun k => .publish (post k))).isSome = true →
      (trace step unpublished (ks.map fun k => .publish (post k))).all
        (fun x => x.1.roomy x.2.1) = true →
      Run step (Steady postRoot) unpublished (ks.map fun k => .publish (post k)) (posted ks) :=
  letI := Data.paddedHash
  fun hsome hall => run_of_exec_check roomy (fun _ _ => steady_of_roomy)
    ((Option.some_get hsome).symm.trans (congrArg some (Option.get_eq_getD ..))) hall

omit [Hashlib] in
theorem ordered_posts_named :
    letI := Data.paddedHash
    (posted [1, 2]).editions = [post 2, post 1] ∧
      ∀ x ∈ trace step unpublished [.publish (post 1), .publish (post 2)],
        x.2.2.NamesLatest postRoot := by
  let := Data.paddedHash
  have hrun := @posted_run [1, 2] (by decide +kernel) (by decide +kernel)
  have hordered : (trace step unpublished [.publish (post 1), .publish (post 2)]).all
      (fun x => ¬ x.1.Backfills x.2.1) = true := by decide +kernel
  refine ⟨by decide +kernel, (pointer_names_latest_iff hrun rfl).mpr fun x hx => ?_⟩
  exact of_decide_eq_true (List.all_eq_true.mp hordered x hx)

omit [Hashlib] in
/-- A post with a lower sequence than the one before it takes the pointer over. -/
theorem backfilled_post_named :
    letI := Data.paddedHash
    Run step (Steady postRoot) unpublished [.publish (post 2), .publish (post 1)]
        (posted [2, 1]) ∧
      (posted [2, 1]).editions = [post 1, post 2] ∧ ¬ (posted [2, 1]).NamesLatest postRoot := by
  let := Data.paddedHash
  have hrun := @posted_run [2, 1] (by decide +kernel) (by decide +kernel)
  refine ⟨hrun, by decide +kernel, ?_⟩
  cases hrun with
  | cons _ hs hr =>
    cases hr with
    | cons hok hs' hr' =>
      cases hr'
      obtain rfl := Option.some.inj hs
      exact not_namesLatest_of_backfills hok hs' (by decide +kernel)

end Publisher

end RnsIcn
