import RnsIcn.Content.Text
import RnsIcn.Server.Directory
import RnsIcn.Server.Entries
import RnsIcn.Server.Floor

/-! # The served manifest

A server answers an Interest for its manifest from the store, if the store has one, and
otherwise makes one, stores it and sends it. A stored manifest is not made anew when
content is published, and all manifests have one sequence.
-/

namespace RnsIcn

open Effect Fallible Grouping Transition

/-- The own entries of a manifest that is being made, and the server they were gathered from. -/
structure Draft where
  origin : Server
  own : List ManifestEntry

/-- A manifest that was made: its draft, what the downstream peers answered and when. -/
structure Version extends Draft where
  downstream : Dict Bytes Manifest
  now : ℕ

def Version.text (v : Version) : Except PyError Bytes :=
  Manifest.toJson <$> Manifest.aggregate v.origin.rnsAddr v.own v.downstream v.now

structure Answer where
  data : Data
  server : Server

/-- A server that publishes and is asked for its manifest. The drafts are those of the handlers that
wait for the downstream peers, `stored` is what the manifest in the store was made of, and the
answers are newest first. -/
structure Curator where
  server : Server
  drafts : List (FaceId × Draft) := []
  stored : Option Version := none
  answers : List Answer := []

namespace Curator

inductive Label where
  | publish (l : Server.Label)
  | publishManifest
  | interest (face : FaceId) (i : Interest)
  | answer (k : ℕ) (downstream : Dict Bytes Manifest)
  | tick (ms time : ℕ)

def isPublish : Server.Label → Bool
  | .publishContent .. | .publishPost .. | .publishPushed .. => true
  | _ => false

variable [Hashlib]

/-- `handle_interest` for the manifest, up to the wait for the downstream peers. -/
def gather (face : FaceId) : Handler (List ManifestEntry) := do
  let own ← Server.buildManifestEntries
  Server.suspend (.buildingManifest face)
  return own

/-- What `handle_interest` does with the text of the manifest before it sends the Data. -/
def insertManifest (face : FaceId) (text : Bytes) : Handler Data := do
  Server.resumed (.buildingManifest face)
  let d ← Server.buildManifestData text
  Server.csInsert d.name d
  return d

theorem answerManifest_eq (face : FaceId) (text : Bytes) : Server.answerManifest face text =
    insertManifest face text >>= fun d => Server.send face (.data d) := by
  unfold Server.answerManifest insertManifest
  simp only [bind_assoc, pure_bind]

/-- The Data is sent from the state `u` of the server, as an answer if it is a manifest. -/
def sends (s : Curator) (face : FaceId) (d : Data) (u : Server) : Curator :=
  match exec (Server.send face (.data d)) u with
  | (.ok _, server) =>
    if face ∈ u.faces ∧ s.server.manifestName = .ok d.name then
      { s with server, answers := ⟨d, s.server⟩ :: s.answers }
    else { s with server }
  | (.error _, server) => { s with server }

def interest (s : Curator) (face : FaceId) (i : Interest) : Curator :=
  match exec (Server.serveFromCs i) s.server with
  | (.ok (some d), u) => s.sends face d u
  | (.ok none, u) =>
    match exec (gather face) u with
    | (.ok own, server) => { s with server, drafts := (face, ⟨u, own⟩) :: s.drafts }
    | (.error _, server) => { s with server }
  | (.error _, server) => { s with server }

def version (s : Curator) (draft : Draft) (downstream : Dict Bytes Manifest) : Version :=
  { draft with downstream, now := s.server.forwarder.time }

def answer (s : Curator) (face : FaceId) (v : Version) : Curator :=
  match v.text with
  | .error _ => { s with server := after (Server.resumed (.buildingManifest face)) s.server }
  | .ok text =>
    match exec (insertManifest face text) s.server with
    | (.ok d, u) => { s.sends face d u with stored := some v }
    | (.error _, server) => { s with server }

def publishManifest (s : Curator) : Curator :=
  match exec Server.buildManifestEntries s.server with
  | (.error _, server) => { s with server }
  | (.ok own, u) =>
    let v := s.version ⟨s.server, own⟩ .empty
    match v.text with
    | .error _ => { s with server := u }
    | .ok text =>
      match exec (Server.publishManifest text) u with
      | (.ok _, server) => { s with server, stored := some v }
      | (.error _, server) => { s with server }

def step (s : Curator) : Label → Option Curator
  | .publish l =>
    if isPublish l then (s.server.step l).map fun server => { s with server } else none
  | .publishManifest => some s.publishManifest
  | .interest face i =>
    if s.server.manifestName = .ok i.name then some (s.interest face i) else none
  | .answer k downstream =>
    s.drafts[k]?.map fun (face, draft) =>
      answer { s with drafts := s.drafts.eraseIdx k } face (s.version draft downstream)
  | .tick ms time =>
    (s.server.step (.forwarder (.tick ms time))).map fun server => { s with server }

omit [Hashlib] in
theorem server_sends (s : Curator) (face : FaceId) (d : Data) (u : Server) :
    (s.sends face d u).server = after (Server.send face (.data d)) u := by
  unfold sends after
  rcases exec (Server.send face (.data d)) u with ⟨_ | _, v⟩
  · rfl
  · simp only
    split <;> rfl

theorem server_answer (s : Curator) (face : FaceId) {v : Version} {text : Bytes}
    (hv : v.text = .ok text) :
    (s.answer face v).server = after (Server.answerManifest face text) s.server := by
  unfold answer after
  simp only [hv, answerManifest_eq, exec_bind]
  rcases exec (insertManifest face text) s.server with ⟨_ | d, u⟩
  · rfl
  · exact server_sends s face d u

end Curator

/-- The own name can be read from the store. -/
def Server.Live [Hashlib] (s : Server) (n : Name) : Prop :=
  s.owns n = true ∧ ∃ d, s.reading n = some d ∧ d.name = n

namespace Version

/-- The label of an entry for a downstream peer or for what one of them has. -/
def PeerLabel (v : Version) (label : String) : Prop :=
  ∃ p ∈ v.downstream.items, (Manifest.reference p.1).label = label ∨
    ∃ e ∈ p.2.content, peerLabel p.1 e.label = label

/-- The label is that of an own name that could be read when the entries were gathered, or one of a
downstream peer. -/
def Knows [Hashlib] (v : Version) (label : String) : Prop :=
  (∃ n, v.origin.Live n ∧ n.label = label) ∨ v.PeerLabel label

end Version

/-- The entries are those of the own names that could be read. -/
def Draft.Faithful [Hashlib] (d : Draft) : Prop :=
  ∀ label, (∃ e ∈ d.own, e.label = label) ↔ ∃ n, d.origin.Live n ∧ n.label = label

namespace Curator

variable [Hashlib] {s t : Curator} {u w : Server} {d : Data} {face : FaceId} {i : Interest}
  {v : Version} {text : Bytes}

/-- Each manifest that was sent lists the labels of the own names that were stored when it was sent,
and a manifest that differs from an earlier one has a larger sequence. -/
def Current (s : Curator) : Prop :=
  (∀ a ∈ s.answers, ∀ n, a.server.Stores n → Lists a.data.content n.label) ∧
    s.answers.Pairwise fun later earlier => later.data.content ≠ earlier.data.content →
      ∃ q ∈ later.data.metadata.sequence, ∃ q' ∈ earlier.data.metadata.sequence, q' < q

/-- The version knows the label of every own name that is stored now, and it is the one that was
sent so far. -/
structure UpToDate (s : Curator) (v : Version) : Prop where
  knows : ∀ n, s.server.Stores n → v.Knows n.label
  sole : ∀ a ∈ s.answers, v.text = .ok a.data.content

/-- Nothing is published under the name of the manifest. A manifest that the store answers with, or
that is made, is up to date. -/
def Timely (s : Curator) : Label → Prop
  | .publish l => ∀ d ∈ s.server.brings l, s.server.manifestName ≠ .ok d.name.withoutContentHash
  | .interest _ i => ∀ d, s.server.found i = .ok (some d) → s.server.manifestName = .ok d.name →
      ∀ v ∈ s.stored, s.UpToDate v
  | .answer k downstream => ∀ x ∈ s.drafts[k]?, s.UpToDate (s.version x.2 downstream)
  | .publishManifest | .tick .. => True

def Clean (s : Curator) : Label → Prop
  | .publish l => s.Timely (.publish l)
  | _ => True

def copyOf (name : Except PyError Name) (stored : Option Version) : Policy := fun n content _ =>
  name = .ok n → ∃ v ∈ stored, v.text = .ok content

/-- What is stored under the name of the manifest was made of `stored`, and drafts and versions have
the entries of the stores that they were gathered from. -/
structure Agrees (s : Curator) : Prop where
  represented : s.server.forwarder.cs.Represented
  copy : s.server.forwarder.cs.Meets (copyOf s.server.manifestName s.stored)
  stored : ∀ v ∈ s.stored, v.toDraft.Faithful
  drafts : ∀ x ∈ s.drafts, x.2.Faithful

omit [Hashlib] in
theorem lists_text (hv : v.text = .ok text) (label : String) :
    Lists text label ↔ (∃ e ∈ v.own, e.label = label) ∨ v.PeerLabel label := by
  unfold Version.text at hv
  obtain ⟨m, hm, rfl⟩ := map_eq_ok.mp hv
  rw [lists_toJson, Manifest.exists_label_aggregate hm]
  rfl

theorem lists_iff_knows (hv : v.text = .ok text) (h : v.toDraft.Faithful) (label : String) :
    Lists text label ↔ v.Knows label := by
  rw [lists_text hv, h label]
  rfl

theorem mem_names_of_live {names : List Name} {n : Name}
    (hnames : u.forwarder.cs.entryNames = .ok names) (hn : u.Live n) : n ∈ names := by
  obtain ⟨-, d, hr, rfl⟩ := hn
  have hget : (u.forwarder.cs.get d.name u.forwarder.time).2 = .ok (some d) := by
    unfold Server.reading at hr
    cases hx : (u.forwarder.cs.get d.name u.forwarder.time).2 with
    | error e =>
      rw [hx] at hr
      cases hr
    | ok r =>
      rw [hx] at hr
      exact congrArg Except.ok hr
  obtain ⟨row, hans, hparse, -⟩ := ContentStore.get_eq_some_iff.mp hget
  refine mem_results_of_mapM_eq_ok hnames (List.mem_filter.mpr ⟨?_, hans.verified⟩) hparse
  exact List.mem_map_of_mem (Dict.get?_eq_some.mp hans.get)

theorem exists_label_entriesOf {names : List Name} {label : String}
    (h : u.forwarder.cs.Represented) (hnames : u.forwarder.cs.entryNames = .ok names) :
    (∃ e ∈ u.entriesOf names, e.label = label) ↔ ∃ n, u.Live n ∧ n.label = label := by
  have hgroup (e : ManifestEntry) (label : String) (g : Data × List Data)
      (he : e = ManifestEntry.ofGroup u.forwarder.time label g) : e.label = label := by
    rw [he]
    unfold ManifestEntry.ofGroup
    split <;> rfl
  constructor
  · rintro ⟨e, he, rfl⟩
    obtain ⟨label, g, hg, he⟩ := Server.mem_entriesOf.mp he
    have hfirst : g.1 ∈ withKey label (u.labelled names) := by
      rw [hg]
      exact List.mem_cons_self
    obtain ⟨n, hn, ho, hl, hr⟩ := Server.exists_reading_of_mem_withKey hfirst
    have hname := (Server.get_of_mem_entryNames h hnames hn).2.2 g.1 hr
    exact ⟨n, ⟨ho, g.1, hr, hname⟩, hl.trans (hgroup e label g he).symm⟩
  · rintro ⟨n, hn, rfl⟩
    have hmem := mem_names_of_live hnames hn
    obtain ⟨ho, d, hr, -⟩ := hn
    have hfiled : d ∈ withKey n.label (u.labelled names) := by
      rw [Server.withKey_labelled, List.mem_filterMap]
      exact ⟨n, List.mem_filter.mpr ⟨hmem, by simp [ho]⟩, hr⟩
    cases hg : withKey n.label (u.labelled names) with
    | nil =>
      rw [hg] at hfiled
      cases hfiled
    | cons d ds =>
      refine ⟨_, Server.mem_entriesOf.mpr ⟨n.label, (d, ds), hg, rfl⟩, ?_⟩
      exact hgroup _ _ _ rfl

/-- The address is this one, and the rows of the store meet the condition. -/
structure Keeping (K : Policy) (addr : Bytes) (t : Server) : Prop where
  represented : t.forwarder.cs.Represented
  meets : t.forwarder.cs.Meets K
  addr : t.rnsAddr = addr

section Keeping

variable {K : Policy} {addr : Bytes}

theorem keeping_framed : Server.Framed (Keeping K addr) := by
  intro s t he h
  simp only [Server.vitals, Prod.mk.injEq] at he
  exact ⟨he.1.1 ▸ h.represented, he.1.1 ▸ h.meets, he.2.1.trans h.addr⟩

theorem Keeping.store {op : StoreOp} (h : Keeping K addr u)
    (hop : Server.storesNothing op = true) :
    Keeping K addr (u.withStore (u.forwarder.cs.apply op)) :=
  ⟨h.represented.apply op, h.meets.apply hop, h.addr⟩

theorem keeps_onStore {op : StoreOp} (hop : Server.storesNothing op = true) :
    Keeps (Keeping K addr) (Server.onStore op) :=
  Keeps.modify fun _ h => h.store hop

theorem maybeSignOpt_resigned (r : Option Data) :
    Triple (Keeping K addr) (Server.maybeSignOpt r)
      (fun r' t => Keeping K addr t ∧ ∀ d ∈ r', ∃ d₀ ∈ r, d₀.Resigned d) (Keeping K addr) := by
  cases r with
  | none => exact Triple.pure fun _ h => ⟨h, nofun⟩
  | some d =>
    have hsign := Server.maybeSign_resigned (I := Keeping K addr)
      (fun _ _ h => ⟨h.represented, h.meets, h.addr⟩) d
    refine Triple.bind hsign fun d' => Triple.pure fun t ht => ⟨ht.1, ?_⟩
    rintro e ⟨⟩
    exact ⟨d, rfl, ht.2⟩

theorem serveFromCs_resigned (h : Keeping K addr u) (i : Interest) :
    Triple (· = u) (Server.serveFromCs i) (fun r t => Keeping K addr t ∧
      ∀ d ∈ r, ∃ d₀, u.found i = .ok (some d₀) ∧ d₀.Resigned d) (Keeping K addr) := by
  have hread {m : Handler (Option Data)} {x : Except PyError (Option Data)} (hx : x = u.found i)
      (hkeep : Keeps (Keeping K addr) m)
      (hm : Triple (· = u) m (fun raw t => t.forwarder = u.forwarder.swept ∧ x = .ok raw)
        fun t => t.forwarder = u.forwarder.swept) :
      Triple (· = u) m (fun raw t => Keeping K addr t ∧ u.found i = .ok raw)
        (Keeping K addr) :=
    (Triple.and hkeep hm).conseq (fun _ ht => ⟨ht ▸ h, ht⟩) (fun _ _ ht => ⟨ht.1, hx ▸ ht.2.2⟩)
      fun _ ht => ht.1
  have hsigned (raw : Option Data) :
      Triple (fun t => Keeping K addr t ∧ u.found i = .ok raw) (Server.maybeSignOpt raw)
        (fun r t => Keeping K addr t ∧ ∀ d ∈ r, ∃ d₀, u.found i = .ok (some d₀) ∧ d₀.Resigned d)
        (Keeping K addr) := by
    rintro t ⟨ht, hraw⟩
    refine (maybeSignOpt_resigned raw).post (fun r t' ht' => ⟨ht'.1, fun d hd => ?_⟩) t ht
    obtain ⟨d₀, rfl, hd₀⟩ := ht'.2 d hd
    exact ⟨d₀, hraw, hd₀⟩
  have hlookup : Triple (· = u) (Server.csLookup i) (fun r t => Keeping K addr t ∧
      ∀ d ∈ r, ∃ d₀, u.found i = .ok (some d₀) ∧ d₀.Resigned d) (Keeping K addr) := by
    refine Triple.bind_get fun t ht => ?_
    subst ht
    split
    · rename_i hunder
      have hkeep : Keeps (Keeping K addr)
          (Server.csGetPrefix i.name i.child i.minSequence) :=
        Keeps.get.bind fun _ => (keeps_onStore rfl).bind fun _ => Keeps.ofExcept _
      refine (hread ?_ hkeep (Server.csGetPrefix_swept i.name i.child i.minSequence)).bind
        fun raw => (hsigned raw).bind fun r => Triple.pure fun t ht => ⟨ht.1, fun d hd => ?_⟩
      · rw [Server.found, if_pos hunder]
      · exact ht.2 d (Option.eq_some_of_filter_eq_some hd)
    · rename_i hexact
      have hkeep : Keeps (Keeping K addr) (Server.csGet i.name) :=
        Keeps.get.bind fun _ => (keeps_onStore rfl).bind fun _ => Keeps.ofExcept _
      refine (hread ?_ hkeep (Server.csGet_swept i.name)).bind hsigned
      rw [Server.found, if_neg hexact]
  refine Triple.bind_get fun t ht => ?_
  subst ht
  refine hlookup.bind fun r => Triple.pure fun t' ht' => ⟨ht'.1, fun d hd => ?_⟩
  exact ht'.2 d (Option.eq_some_of_filter_eq_some hd)

theorem found_serves {d : Data} (h : u.found i = .ok (some d)) : u.forwarder.cs.Serves d := by
  have hsub : ContentStore.Sub (u.forwarder.cs.purgeExpired u.forwarder.time) u.forwarder.cs :=
    ContentStore.deleteRows_sub u.forwarder.cs _
  unfold Server.found at h
  split at h
  · obtain ⟨key, row, hrow, hv, hn, hd, -⟩ := ContentStore.readPrefix_serves h
    exact ContentStore.Serves.of_sub ⟨key, row, u.forwarder.time, hrow, hv, hn, hd⟩ hsub
  · exact (ContentStore.read_serves h).of_sub hsub

theorem built (h : Keeping K addr u) : Triple (· = u) Server.buildManifestEntries
    (fun own t => Keeping K addr t ∧ Draft.Faithful ⟨u, own⟩) (Keeping K addr) := by
  have hsame {e : PyError} (he : exec Server.buildManifestEntries u = (.error e, u)) :
      Triple (· = u) Server.buildManifestEntries
        (fun own t => Keeping K addr t ∧ Draft.Faithful ⟨u, own⟩) (Keeping K addr) := by
    intro t ht
    subst ht
    rw [he]
    exact h
  by_cases haddr : u.rnsAddr.length = RNS_ADDR_BYTES
  · cases hnames : u.forwarder.cs.entryNames with
    | error e =>
      refine hsame (e := e) ?_
      unfold Server.buildManifestEntries
      simp only [exec_bind, exec_get, exec_ofExcept, Server.name_new_isOk haddr, hnames]
    | ok names =>
      refine (Server.buildManifestEntries_returns h.represented haddr hnames).conseq
        (fun _ h => h) (fun own t ht => ⟨?_, ?_⟩) fun _ hf => hf.elim
      · rcases ht.1 with rfl | rfl
        · exact h
        · exact h.store (show Server.storesNothing (.purgeExpired u.forwarder.time) = true from rfl)
      · intro label
        rw [ht.2]
        exact exists_label_entriesOf h.represented hnames
  · refine hsame (e := .nameError "RNS address must be 16 bytes") ?_
    unfold Server.buildManifestEntries
    simp only [exec_bind, exec_get, exec_ofExcept, Name.new, if_pos haddr]

theorem gathered (h : Keeping K addr u) (face : FaceId) : Triple (· = u) (gather face)
    (fun own t => Keeping K addr t ∧ Draft.Faithful ⟨u, own⟩) (Keeping K addr) := by
  refine (built h).bind fun own => ?_
  refine Triple.bind (Q := fun _ t => Keeping K addr t ∧ Draft.Faithful ⟨u, own⟩) ?_
    fun _ => Triple.pure fun _ h => h
  exact Triple.modify fun _ h => ⟨⟨h.1.represented, h.1.meets, h.1.addr⟩, h.2⟩

theorem keeping_publishes (K : Policy) (addr : Bytes) (s : Server) :
    Server.Publishes s (fun t => Keeping K addr t ∧ t.pointerSettings = s.pointerSettings)
      (Keeping K addr) K.Admits where
  settings _ h := h.2
  done _ h := h.1
  create n content := Keeps.modify fun _ h => ⟨⟨h.1.represented, h.1.meets, h.1.addr⟩, h.2⟩
  sign d hd :=
    (Server.maybeSign_resigned (fun _ _ h => ⟨⟨h.1.represented, h.1.meets, h.1.addr⟩, h.2⟩)
      d).conseq (fun _ h => h) (fun _ _ h => ⟨⟨h.1, hd.resigned h.2⟩, h.2⟩) fun _ h => h.1
  insert d hd := by
    refine Triple.bind_get fun t ht => ?_
    refine Triple.bind (Q := fun _ t => Keeping K addr t ∧ t.pointerSettings = s.pointerSettings)
      ?_ fun _ => Triple.ofExcept (fun _ _ _ h => h) fun _ h => h.1
    refine Triple.modify fun t' ht' => ?_
    subst ht'
    exact ⟨⟨ht.1.represented.apply (.insert d.name d t'.forwarder.time), ht.1.meets.insert hd,
      ht.1.addr⟩, ht.2⟩
  push d _ := (keeping_framed.safe_apsPublish d).keeps
  propagate d _ := (keeping_framed.safe_propagate d none).keeps

end Keeping

section Insert

variable {addr : Bytes} {stored : Option Version} {name : Name}

/-- After the insertion of the manifest of a version the store has that of no other version. -/
theorem csInsert_copy (hv : v.text = .ok d.content) :
    Triple (Keeping (copyOf (.ok name) stored) addr) (Server.csInsert name d)
      (fun _ => Keeping (copyOf (.ok name) (some v)) addr)
      (Keeping (copyOf (.ok name) stored) addr) := by
  refine Triple.bind_get fun u hu => ?_
  cases hi : u.forwarder.cs.insert name d u.forwarder.time with
  | error e =>
    have hsame : u.forwarder.cs.apply (.insert name d u.forwarder.time) = u.forwarder.cs := by
      unfold ContentStore.apply
      simp only [hi]
      rfl
    refine Triple.bind (Q := fun _ => Keeping (copyOf (.ok name) stored) addr) ?_ fun _ =>
      Triple.throw fun _ h => h
    refine Triple.modify fun t ht => ?_
    subst ht
    rw [hsame]
    exact hu
  | ok cs =>
    have happly : u.forwarder.cs.apply (.insert name d u.forwarder.time) = cs := by
      unfold ContentStore.apply
      simp only [hi]
      rfl
    have hrep : cs.Represented := hu.represented.insert hi
    refine Triple.bind (Q := fun _ => Keeping (copyOf (.ok name) (some v)) addr) ?_ fun _ =>
      Triple.ofExcept_ok ⟨_, rfl⟩ fun _ _ _ h => h
    refine Triple.modify fun t ht => ?_
    subst ht
    rw [happly]
    refine ⟨hrep, fun key row hr => ?_, hu.addr⟩
    obtain ⟨m, hm⟩ := hrep.row key row hr
    refine ⟨m, hm.encodable, hm.unpinned, hm.nameBytes, fun hname => ⟨v, rfl, ?_⟩⟩
    obtain rfl := Except.ok.inj hname
    obtain ⟨nameBytes, prefixes, hb, -, -, count, rfl⟩ := ContentStore.insert_eq_ok hi
    obtain ⟨he, rfl⟩ := Name.toBytes_eq_ok.mp hb
    have hfree : name.withoutContentHash = name := by
      rw [Name.withoutContentHash, ← hm.unpinned]
    obtain ⟨hm, -⟩ := ContentStore.holdsRow_deleteRows.mp hm
    rcases (ContentStore.holdsRow_upsert he rfl rfl rfl).mp hm with ⟨-, -, rfl⟩ | ⟨hkey, hm⟩
    · exact hv
    · exact absurd (hfree.symm ▸ hm.key) hkey

theorem insertManifest_triple (face : FaceId) (hv : v.text = .ok text) :
    Triple (Keeping (copyOf (Name.new addr [MANIFEST_LABEL]) stored) addr)
      (insertManifest face text)
      (fun d t => Keeping (copyOf (Name.new addr [MANIFEST_LABEL]) (some v)) addr t ∧
        Name.new addr [MANIFEST_LABEL] = .ok d.name ∧ d.content = text)
      (Keeping (copyOf (Name.new addr [MANIFEST_LABEL]) stored) addr) := by
  refine Triple.bind (Q := fun _ => Keeping (copyOf (Name.new addr [MANIFEST_LABEL]) stored) addr)
    (Triple.modify fun _ h => ⟨h.represented, h.meets, h.addr⟩) fun _ => ?_
  refine Triple.bind (Q := fun d t =>
    Keeping (copyOf (Name.new addr [MANIFEST_LABEL]) stored) addr t ∧
      Name.new addr [MANIFEST_LABEL] = .ok d.name ∧ d.content = text) ?_ fun d => ?_
  · refine Triple.bind_get fun u hu => ?_
    have hname : u.manifestName = Name.new addr [MANIFEST_LABEL] := by
      unfold Server.manifestName
      rw [hu.addr]
    rw [hname]
    cases hn : Name.new addr [MANIFEST_LABEL] with
    | error e =>
      rw [hn] at hu
      exact Triple.throw fun t ht => ht ▸ hu
    | ok name =>
      rw [hn] at hu
      refine Triple.bind (Q := fun n t => Keeping (copyOf (.ok name) stored) addr t ∧ n = name)
        (Triple.ofExcept_ok ⟨_, rfl⟩ fun n t h ht => ⟨ht ▸ hu, (Except.ok.inj h).symm⟩)
        fun n => ?_
      rintro t ⟨ht, rfl⟩
      refine Triple.bind (Q := fun _ => Keeping (copyOf (.ok n) stored) addr)
        (Triple.modify fun _ h => ⟨h.represented, h.meets, h.addr⟩) (fun _ => ?_) t ht
      refine (Server.maybeSign_resigned (fun _ _ h => ⟨h.represented, h.meets, h.addr⟩)
        ((Data.new n text).withSequence 1)).post fun d t h => ⟨h.1, ?_, h.2.content⟩
      exact congrArg _ h.2.name.symm
  · rintro u ⟨hu, hname, hcontent⟩
    rw [hname] at hu ⊢
    refine Triple.bind (csInsert_copy (v := v) (hcontent ▸ hv)) (fun _ => ?_) u hu
    exact Triple.pure fun t ht => ⟨ht, rfl, hcontent⟩

theorem publishManifest_triple (hv : v.text = .ok text) :
    Triple (Keeping (copyOf (Name.new addr [MANIFEST_LABEL]) stored) addr)
      (Server.publishManifest text)
      (fun _ => Keeping (copyOf (Name.new addr [MANIFEST_LABEL]) (some v)) addr)
      (Keeping (copyOf (Name.new addr [MANIFEST_LABEL]) stored) addr) := by
  refine Triple.bind_get fun u hu => ?_
  have hname : u.manifestName = Name.new addr [MANIFEST_LABEL] := by
    unfold Server.manifestName
    rw [hu.addr]
  rw [hname]
  cases hn : Name.new addr [MANIFEST_LABEL] with
  | error e =>
    rw [hn] at hu
    exact Triple.throw fun t ht => ht ▸ hu
  | ok name =>
    rw [hn] at hu
    refine Triple.bind (Q := fun n t => Keeping (copyOf (.ok name) stored) addr t ∧ n = name)
      (Triple.ofExcept_ok ⟨_, rfl⟩ fun n t h ht => ⟨ht ▸ hu, (Except.ok.inj h).symm⟩) fun n => ?_
    rintro t ⟨ht, rfl⟩
    refine Triple.bind (Q := fun _ => Keeping (copyOf (.ok n) stored) addr)
      (Triple.modify fun _ h => ⟨h.represented, h.meets, h.addr⟩) (fun _ => ?_) t ht
    exact csInsert_copy (d := (Data.new n text).withSequence 1) hv

end Insert

theorem Agrees.keeping (h : s.Agrees) :
    Keeping (copyOf (Name.new s.server.rnsAddr [MANIFEST_LABEL]) s.stored) s.server.rnsAddr
      s.server :=
  ⟨h.represented, h.copy, rfl⟩

theorem agrees_of_keeping (addr : Bytes)
    (h : Keeping (copyOf (Name.new addr [MANIFEST_LABEL]) s.stored) addr s.server)
    (hstored : ∀ v ∈ s.stored, v.toDraft.Faithful) (hdrafts : ∀ x ∈ s.drafts, x.2.Faithful) :
    s.Agrees := by
  obtain ⟨hrep, hmeets, rfl⟩ := h
  exact ⟨hrep, hmeets, hstored, hdrafts⟩

omit [Hashlib] in
theorem sends_cases (s : Curator) (face : FaceId) (d : Data) (u : Server) :
    (s.sends face d u).drafts = s.drafts ∧ (s.sends face d u).stored = s.stored ∧
      ((s.sends face d u).answers = s.answers ∨ s.server.manifestName = .ok d.name ∧
        (s.sends face d u).answers = ⟨d, s.server⟩ :: s.answers) := by
  unfold sends
  rcases exec (Server.send face (.data d)) u with ⟨_ | _, w⟩
  · exact ⟨rfl, rfl, .inl rfl⟩
  · dsimp only
    split
    · rename_i hsent
      exact ⟨rfl, rfl, .inr ⟨hsent.2, rfl⟩⟩
    · exact ⟨rfl, rfl, .inl rfl⟩

theorem keeping_sends {K : Policy} {addr : Bytes} (h : Keeping K addr u) :
    Keeping K addr (s.sends face d u).server := by
  rw [server_sends]
  exact (keeping_framed.keeps_send face _).after h

/-- What an Interest for the manifest makes of the curator: it is answered from the store, or
nothing is answered. -/
theorem interest_cases (h : s.Agrees) (face : FaceId) (i : Interest) :
    (s.interest face i).Agrees ∧ (s.interest face i).stored = s.stored ∧
      ((s.interest face i).answers = s.answers ∨
        ∃ d d₀, s.server.found i = .ok (some d₀) ∧ d₀.Resigned d ∧
          s.server.manifestName = .ok d.name ∧
          (s.interest face i).answers = ⟨d, s.server⟩ :: s.answers) := by
  have hserve := serveFromCs_resigned h.keeping i s.server rfl
  unfold interest
  rcases hx : exec (Server.serveFromCs i) s.server with ⟨_ | _ | d, u⟩
  · rw [hx] at hserve
    exact ⟨agrees_of_keeping _ hserve h.stored h.drafts, rfl, .inl rfl⟩
  · rw [hx] at hserve
    have hgather := gathered hserve.1 face u rfl
    simp only
    rcases hy : exec (gather face) u with ⟨_ | own, w⟩
    · rw [hy] at hgather
      exact ⟨agrees_of_keeping _ hgather h.stored h.drafts, rfl, .inl rfl⟩
    · rw [hy] at hgather
      refine ⟨agrees_of_keeping _ hgather.1 h.stored ?_, rfl, .inl rfl⟩
      exact List.forall_mem_cons.mpr ⟨hgather.2, h.drafts⟩
  · rw [hx] at hserve
    obtain ⟨d₀, hfound, hsigned⟩ := hserve.2 d rfl
    obtain ⟨hdrafts, hstored, hanswers⟩ := s.sends_cases face d u
    dsimp only
    refine ⟨agrees_of_keeping s.server.rnsAddr ?_ ?_ ?_, hstored, ?_⟩
    · rw [hstored]
      exact keeping_sends hserve.1
    · rw [hstored]
      exact h.stored
    · rw [hdrafts]
      exact h.drafts
    · exact hanswers.imp_right fun ha => ⟨d, d₀, hfound, hsigned, ha⟩

/-- What is served under the name of the manifest is the text of the stored version. -/
theorem text_of_found {d₀ : Data} (h : s.Agrees) (hf : s.server.found i = .ok (some d₀))
    (hsigned : d₀.Resigned d) (hname : s.server.manifestName = .ok d.name) :
    ∃ v ∈ s.stored, v.text = .ok d.content := by
  have hadmits : (copyOf s.server.manifestName s.stored).Admits d₀ :=
    h.copy.serves (found_serves hf)
  have hfree : d.name.withoutContentHash = d.name := by
    rw [Name.new_eq_ok hname]
    rfl
  refine hsigned.content ▸ hadmits ?_
  rw [hname, ← hsigned.name, hfree]

/-- What the end of a draft makes of the curator: the version is stored, and it may be sent. -/
theorem answer_cases (h : s.Agrees) (hv : v.toDraft.Faithful) (face : FaceId) :
    (s.answer face v).Agrees ∧ ((s.answer face v).answers = s.answers ∨
      ∃ d, v.text = .ok d.content ∧ (s.answer face v).answers = ⟨d, s.server⟩ :: s.answers) := by
  unfold answer
  cases htext : v.text with
  | error e =>
    refine ⟨agrees_of_keeping s.server.rnsAddr ?_ h.stored h.drafts, .inl rfl⟩
    exact ⟨h.represented, h.copy, rfl⟩
  | ok text =>
    have hinsert := insertManifest_triple face htext s.server h.keeping
    simp only
    rcases hx : exec (insertManifest face text) s.server with ⟨_ | d, u⟩
    · rw [hx] at hinsert
      exact ⟨agrees_of_keeping _ hinsert h.stored h.drafts, .inl rfl⟩
    · rw [hx] at hinsert
      obtain ⟨hu, -, rfl⟩ := hinsert
      obtain ⟨hdrafts, -, hanswers⟩ := s.sends_cases face d u
      refine ⟨agrees_of_keeping _ (keeping_sends hu) ?_ (hdrafts ▸ h.drafts), ?_⟩
      · rintro _ ⟨⟩
        exact hv
      · exact hanswers.imp_right fun ha => ⟨d, rfl, ha.2⟩

theorem publishManifest_cases (h : s.Agrees) :
    s.publishManifest.Agrees ∧ s.publishManifest.answers = s.answers := by
  have hbuilt := built h.keeping s.server rfl
  unfold publishManifest
  rcases hx : exec Server.buildManifestEntries s.server with ⟨_ | own, u⟩
  · rw [hx] at hbuilt
    exact ⟨agrees_of_keeping _ hbuilt h.stored h.drafts, rfl⟩
  · rw [hx] at hbuilt
    simp only
    cases htext : (s.version ⟨s.server, own⟩ .empty).text with
    | error e => exact ⟨agrees_of_keeping _ hbuilt.1 h.stored h.drafts, rfl⟩
    | ok text =>
      have hpublish := publishManifest_triple htext u hbuilt.1
      simp only
      rcases hy : exec (Server.publishManifest text) u with ⟨_ | _, w⟩
      · rw [hy] at hpublish
        exact ⟨agrees_of_keeping _ hpublish h.stored h.drafts, rfl⟩
      · rw [hy] at hpublish
        refine ⟨agrees_of_keeping _ hpublish ?_ h.drafts, rfl⟩
        rintro _ ⟨⟩
        exact hbuilt.2

theorem step_publish_cases {l : Server.Label} (h : s.Agrees) (hl : s.Timely (.publish l))
    (hs : s.step (.publish l) = some t) : t.Agrees ∧ t.answers = s.answers := by
  have hadmits : ∀ d ∈ s.server.brings l,
      (copyOf (Name.new s.server.rnsAddr [MANIFEST_LABEL]) s.stored).Admits d :=
    fun d hd hname => absurd hname (hl d hd)
  have hpublish := keeping_publishes (copyOf (Name.new s.server.rnsAddr [MANIFEST_LABEL]) s.stored)
    s.server.rnsAddr s.server
  have hdone {server : Server} (hk : Keeping (copyOf (Name.new s.server.rnsAddr [MANIFEST_LABEL])
      s.stored) s.server.rnsAddr server) : ({ s with server } : Curator).Agrees :=
    agrees_of_keeping _ hk h.stored h.drafts
  rw [step] at hs
  cases l with
  | publishContent =>
    obtain rfl := Option.some.inj hs
    exact ⟨hdone ((hpublish.publishContent hadmits).after ⟨h.keeping, rfl⟩), rfl⟩
  | publishPost =>
    obtain rfl := Option.some.inj hs
    exact ⟨hdone ((hpublish.publishPost hadmits).after ⟨h.keeping, rfl⟩), rfl⟩
  | publishPushed d =>
    obtain rfl := Option.some.inj hs
    exact ⟨hdone ((hpublish.publishPushed (hadmits d (by simp [Server.brings]))).after
      ⟨h.keeping, rfl⟩), rfl⟩
  | _ => cases hs

/-- A step under whose condition nothing is published under the name of the manifest keeps the
agreement. -/
theorem step_agrees {l : Label} (h : s.Agrees) (hl : s.Clean l) (hs : s.step l = some t) :
    t.Agrees := by
  cases l with
  | publish l => exact (step_publish_cases h hl hs).1
  | publishManifest =>
    obtain rfl := Option.some.inj hs
    exact (publishManifest_cases h).1
  | interest face i =>
    rw [step] at hs
    split at hs
    · obtain rfl := Option.some.inj hs
      exact (interest_cases h face i).1
    · cases hs
  | answer k downstream =>
    obtain ⟨⟨face, draft⟩, hdraft, rfl⟩ := Option.map_eq_some_iff.mp hs
    have hrest : ({ s with drafts := s.drafts.eraseIdx k } : Curator).Agrees :=
      ⟨h.represented, h.copy, h.stored, fun x hx => h.drafts x (List.mem_of_mem_eraseIdx hx)⟩
    exact (answer_cases hrest (h.drafts _ (List.mem_of_getElem? hdraft)) face).1
  | tick ms time =>
    obtain rfl := Option.some.inj hs
    exact ⟨h.represented, h.copy, h.stored, h.drafts⟩

theorem Timely.clean {l : Label} (h : s.Timely l) : s.Clean l := by
  cases l with
  | publish => exact h
  | _ => trivial

/-- An answer with the text of an up-to-date version is current, after what was sent before. -/
theorem Current.cons (h : s.Current) (hv : v.text = .ok d.content) (hf : v.toDraft.Faithful)
    (hup : s.UpToDate v) (ht : t.answers = ⟨d, s.server⟩ :: s.answers) : t.Current := by
  refine ⟨fun a ha n hn => ?_, ?_⟩
  · rw [ht] at ha
    rcases List.mem_cons.mp ha with rfl | ha
    · exact (lists_iff_knows hv hf n.label).mpr (hup.knows n hn)
    · exact h.1 a ha n hn
  · rw [ht]
    refine .cons (fun a ha hne => ?_) h.2
    exact absurd (ok_inj hv (hup.sole a ha)) hne

theorem Current.of_answers (h : s.Current) (ht : t.answers = s.answers) : t.Current := by
  unfold Current
  rw [ht]
  exact h

theorem step_current {l : Label} (h : s.Agrees) (hc : s.Current) (hl : s.Timely l)
    (hs : s.step l = some t) : t.Current := by
  cases l with
  | publish l => exact hc.of_answers (step_publish_cases h hl hs).2
  | publishManifest =>
    obtain rfl := Option.some.inj hs
    exact hc.of_answers (publishManifest_cases h).2
  | interest face i =>
    rw [step] at hs
    split at hs
    · obtain rfl := Option.some.inj hs
      obtain ⟨-, -, ha | ⟨d, d₀, hfound, hsigned, hname, ha⟩⟩ := interest_cases h face i
      · exact hc.of_answers ha
      · obtain ⟨v, hv, htext⟩ := text_of_found h hfound hsigned hname
        have hup := hl d₀ hfound (hsigned.name ▸ hname) v hv
        exact hc.cons htext (h.stored v hv) hup ha
    · cases hs
  | answer k downstream =>
    obtain ⟨⟨face, draft⟩, hdraft, rfl⟩ := Option.map_eq_some_iff.mp hs
    have hrest : ({ s with drafts := s.drafts.eraseIdx k } : Curator).Agrees :=
      ⟨h.represented, h.copy, h.stored, fun x hx => h.drafts x (List.mem_of_mem_eraseIdx hx)⟩
    have hf : (s.version draft downstream).toDraft.Faithful :=
      h.drafts _ (List.mem_of_getElem? hdraft)
    rcases (answer_cases hrest hf face).2 with ha | ⟨d, htext, ha⟩
    · exact hc.of_answers ha
    · exact hc.cons htext hf (hl _ hdraft) ha
  | tick ms time =>
    obtain rfl := Option.some.inj hs
    exact hc

/-- In a run whose answers come from up-to-date versions, each manifest that is sent is current. -/
theorem manifests_current {ls : List Label} (hr : Run step Timely s ls t) (h : s.Agrees)
    (hs : s.answers = []) : t.Current := by
  have hfirst : s.Current := by
    refine ⟨fun a ha => ?_, ?_⟩
    · rw [hs] at ha
      cases ha
    · rw [hs]
      exact .nil
  refine (hr.invariant (I := fun s => s.Agrees ∧ s.Current) ⟨h, hfirst⟩ ?_).2
  exact fun _ _ _ hi hl hs => ⟨step_agrees hi.1 hl.clean hs, step_current hi.1 hi.2 hl hs⟩

def curator : Curator :=
  letI := Data.paddedHash
  { server := { Server.stocked [Server.page [] none] with faces := [7] } }

def asked : Interest where
  name := ⟨List.replicate 16 1, [MANIFEST_LABEL], none⟩
  nonce := []

def reached (ls : List Label) : Curator :=
  letI := Data.paddedHash
  ls.foldl (fun s l => (s.step l).getD s) curator

def firstAsked : List Label := [.interest 7 asked, .answer 0 .empty]

def moreName : Name := ⟨List.replicate 16 1, [[0x6d, 0x6f, 0x72, 0x65]], none⟩

def publishMore : Label :=
  letI := Data.paddedHash
  .publish (.publishPushed (Data.new moreName [0x2a]))

/-- Then Data under that name is published. -/
def published : List Label := firstAsked ++ [publishMore]

omit [Hashlib] in
theorem step_reached {ls : List Label} {l : Label} :
    letI := Data.paddedHash
    ((reached ls).step l).isSome = true → (reached ls).step l = some (reached (ls ++ [l])) := by
  let := Data.paddedHash
  intro hs
  unfold reached
  rw [List.foldl_append]
  exact (Option.some_get hs).symm.trans (congrArg some (Option.get_eq_getD ..))

omit [Hashlib] in
theorem reached_snoc {ok : Curator → Label → Prop} {ls : List Label} {l : Label} :
    letI := Data.paddedHash
    Run step ok curator ls (reached ls) → ok (reached ls) l →
      ((reached ls).step l).isSome = true →
        Run step ok curator (ls ++ [l]) (reached (ls ++ [l])) :=
  letI := Data.paddedHash
  fun h hok hs => h.snoc hok (step_reached hs)

omit [Hashlib] in
theorem curator_agrees :
    letI := Data.paddedHash
    curator.Agrees := by
  let := Data.paddedHash
  have hnames : curator.server.forwarder.cs.entryNames = .ok [(Server.page [] none).name] := by
    decide +kernel
  have hrep : curator.server.forwarder.cs.Represented := Server.represented_stocked _
  refine ⟨hrep, fun key row hr => ?_, nofun, nofun⟩
  obtain ⟨n, hn⟩ := hrep.row key row hr
  have hv : curator.server.forwarder.cs.content.values.all ContentStore.verifyContent = true := by
    decide +kernel
  have hmem := (Server.mem_entryNames_iff hrep hnames).mpr ⟨key, row, hn,
    List.all_eq_true.mp hv row (List.mem_map_of_mem (Dict.get?_eq_some.mp hr))⟩
  refine ⟨n, hn.encodable, hn.unpinned, hn.nameBytes, fun hname => ?_⟩
  rw [List.mem_singleton.mp hmem] at hname
  exact absurd hname (by decide)

theorem timely_first {n : Name} (h : s.Agrees)
    (hnames : s.server.forwarder.cs.entryNames = .ok [n])
    (hlabels : s.drafts[0]?.map (fun x => x.2.own.map ManifestEntry.label) = some [n.label])
    (hnone : s.answers.isEmpty = true) : s.Timely (.answer 0 .empty) := by
  intro x hx
  constructor
  · intro m hm
    have hmem := (Server.mem_entryNames_iff h.represented hnames).mpr hm.2
    obtain rfl := List.mem_singleton.mp hmem
    rw [Option.mem_def.mp hx, Option.map_some] at hlabels
    have hlabel : m.label ∈ x.2.own.map ManifestEntry.label := by
      rw [Option.some.inj hlabels]
      exact List.mem_singleton_self _
    exact .inl ((h.drafts x (List.mem_of_getElem? hx) _).mp (List.mem_map.mp hlabel))
  · intro a ha
    rw [List.isEmpty_iff.mp hnone] at ha
    exact absurd ha List.not_mem_nil

theorem timely_of_not_found (h : (s.server.found i).toOption.join.isNone = true) :
    s.Timely (.interest face i) := by
  intro d hd
  rw [hd] at h
  cases h

omit [Hashlib] in
theorem first_manifest_current :
    letI := Data.paddedHash
    (reached firstAsked).answers.length = 1 ∧ (reached firstAsked).Current := by
  let := Data.paddedHash
  have hasked : Run step Timely curator [.interest 7 asked] (reached [.interest 7 asked]) :=
    reached_snoc (.nil _) (timely_of_not_found (by decide +kernel)) (by decide +kernel)
  have hagrees : (reached [.interest 7 asked]).Agrees :=
    hasked.invariant curator_agrees fun _ _ _ hi hl hs => step_agrees hi hl.clean hs
  have hmade : (reached [.interest 7 asked]).Timely (.answer 0 .empty) :=
    timely_first (n := (Server.page [] none).name) hagrees (by decide +kernel) (by decide +kernel)
      (by decide +kernel)
  have hrun : Run step Timely curator firstAsked (reached firstAsked) :=
    reached_snoc hasked hmade (by decide +kernel)
  exact ⟨by decide +kernel, manifests_current hrun curator_agrees rfl⟩

/-- A manifest that is served again does not list a label that its version does not have. -/
theorem not_current_of_served {n : Name} {labels : List String} (h : s.Agrees)
    (hs : s.step (.interest face i) = some t) (hlen : t.answers.length ≠ s.answers.length)
    (hstored : s.stored.map (fun v => (v.own.map ManifestEntry.label, v.downstream.items.isEmpty)) =
      some (labels, true)) (hn : s.server.Stores n) (hlabel : n.label ∉ labels) :
    ¬ t.Current := by
  rw [step] at hs
  split at hs
  · obtain rfl := Option.some.inj hs
    intro hcurrent
    obtain ⟨-, -, ha | ⟨d, d₀, hfound, hsigned, hname, ha⟩⟩ := interest_cases h face i
    · exact hlen (congrArg List.length ha)
    · obtain ⟨v, hv, htext⟩ := text_of_found h hfound hsigned hname
      rw [Option.mem_def.mp hv] at hstored
      obtain ⟨rfl, hempty⟩ := Prod.mk.inj (Option.some.inj hstored)
      have hlists := hcurrent.1 ⟨d, s.server⟩ (ha ▸ List.mem_cons_self) n hn
      rcases (lists_text htext n.label).mp hlists with hown | ⟨p, hp, -⟩
      · exact hlabel (List.mem_map.mpr hown)
      · rw [List.isEmpty_iff.mp hempty] at hp
        cases hp
  · cases hs

instance (s : Curator) : DecidablePred s.Clean
  | .publish l => inferInstanceAs (Decidable (∀ d ∈ s.server.brings l,
      s.server.manifestName ≠ .ok d.name.withoutContentHash))
  | .publishManifest | .interest .. | .answer .. | .tick .. => inferInstanceAs (Decidable True)

omit [Hashlib] in
/-- The second Interest is answered with the manifest of before, which does not list the label
`more`. -/
theorem second_manifest_stale :
    letI := Data.paddedHash
    Run step Clean curator (published ++ [.interest 7 asked])
        (reached (published ++ [.interest 7 asked])) ∧
      ¬ (reached (published ++ [.interest 7 asked])).Current := by
  let := Data.paddedHash
  have hsteps : (curator.step (.interest 7 asked)).isSome = true ∧
      ((reached [.interest 7 asked]).step (.answer 0 .empty)).isSome = true ∧
      ((reached firstAsked).step publishMore).isSome = true ∧
      (reached firstAsked).Clean publishMore ∧
      ((reached published).step (.interest 7 asked)).isSome = true := by
    decide +kernel
  obtain ⟨hasked, hmade, hmore, hclean, hagain⟩ := hsteps
  have hfacts : (reached published).server.forwarder.cs.entryNames =
        .ok [(Server.page [] none).name, asked.name, moreName] ∧
      (reached (published ++ [.interest 7 asked])).answers.length ≠
        (reached published).answers.length ∧
      (reached published).stored.map (fun v =>
        (v.own.map ManifestEntry.label, v.downstream.items.isEmpty)) = some (["notes"], true) ∧
      (reached published).server.owns moreName = true := by
    decide +kernel
  obtain ⟨hnames, hlen, hstored, howns⟩ := hfacts
  have hrun : Run step Clean curator published (reached published) :=
    reached_snoc (reached_snoc (reached_snoc (.nil _) trivial hasked) trivial hmade) hclean hmore
  have hagrees : (reached published).Agrees :=
    hrun.invariant curator_agrees fun _ _ _ hi hl hs => step_agrees hi hl hs
  refine ⟨reached_snoc hrun trivial hagain, ?_⟩
  have hstores : (reached published).server.Stores moreName :=
    ⟨howns, (Server.mem_entryNames_iff hagrees.represented hnames).mp (by simp)⟩
  exact not_current_of_served hagrees (step_reached hagain) hlen hstored hstores
    (by decide +kernel)

end Curator

end RnsIcn
