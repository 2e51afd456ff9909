import RnsIcn.Content.Manifest
import RnsIcn.Lib.Grouping
import RnsIcn.Server.OfflineDelivery
import RnsIcn.Server.Raising
import RnsIcn.Store.Selection

/-! # The entries of the manifest

The own names of the store are grouped by the text of their first label, and each group
becomes one entry under the name of its first Data. A peer that subscribes to the entries
is replayed what they cover, which is the whole group only if it extends that name.
-/

namespace RnsIcn

open Effect Fallible Grouping

def REPLACEMENT : Char := Char.ofNat 0xFFFD

/-- A character that is not read to its end: the bytes owed, the range of the next one and the
bits so far. -/
structure PartialChar where
  owed : ℕ
  least : UInt8
  most : UInt8
  bits : ℕ
  deriving DecidableEq, Repr

/-- What a byte between characters decodes to, and the character that it begins. -/
def firstByte (b : UInt8) : List Char × Option PartialChar :=
  if b < 0x80 then ([Char.ofNat b.toNat], none)
  else if b < 0xC2 then ([REPLACEMENT], none)
  else if b < 0xE0 then ([], some ⟨1, 0x80, 0xBF, b.toNat - 0xC0⟩)
  else if b < 0xF0 then
    ([], some ⟨2, if b = 0xE0 then 0xA0 else 0x80, if b = 0xED then 0x9F else 0xBF, b.toNat - 0xE0⟩)
  else if b < 0xF5 then
    ([], some ⟨3, if b = 0xF0 then 0x90 else 0x80, if b = 0xF4 then 0x8F else 0xBF, b.toNat - 0xF0⟩)
  else ([REPLACEMENT], none)

/-- The decoder: the longest part of a character that breaks off is replaced as one. -/
def decodeFrom : Option PartialChar → Bytes → List Char
  | none, [] => []
  | some _, [] => [REPLACEMENT]
  | none, b :: bs => (firstByte b).1 ++ decodeFrom (firstByte b).2 bs
  | some p, b :: bs =>
    if p.least ≤ b ∧ b ≤ p.most then
      let bits := 64 * p.bits + (b.toNat - 0x80)
      if p.owed ≤ 1 then Char.ofNat bits :: decodeFrom none bs
      else decodeFrom (some ⟨p.owed - 1, 0x80, 0xBF, bits⟩) bs
    else REPLACEMENT :: ((firstByte b).1 ++ decodeFrom (firstByte b).2 bs)

def decodeUtf8Replace (b : Bytes) : String := String.ofList (decodeFrom none b)

/-- The label that a name is grouped under. -/
def Name.label (n : Name) : String := decodeUtf8Replace (n.path.headD [])

namespace ManifestEntry

/-- The entry of a group of Data: a stream if one of them has a sequence. -/
def ofGroup (now : ℕ) (label : String) (g : Data × List Data) : ManifestEntry :=
  match (g.1 :: g.2).filterMap fun d => d.metadata.sequence with
  | [] =>
    { kind := .blob, label, name := g.1.name.withoutContentHash
      contentHash := g.1.metadata.contentHash, size := some g.1.content.length }
  | seq :: seqs =>
    { kind := .stream, label, name := g.1.name.withoutContentHash
      latestSequence := some (seqs.foldl max seq : ℕ), totalItems := some (seqs.length + 1 : ℕ)
      startTime := some (now - (seqs.length + 1 : ℕ) * 60), endTime := some now }

/-- The entry stands for the name: a stream for all that extends it, a blob for itself. -/
def Covers (e : ManifestEntry) (n : Name) : Prop :=
  match e.kind with
  | .stream => n.startsWith e.name = true
  | .blob => n = e.name
  | .manifest => False

theorem Covers.startsWith {e : ManifestEntry} {n : Name} (h : e.Covers n) :
    n.startsWith e.name = true := by
  unfold Covers at h
  split at h
  · exact h
  · rw [h]
    exact Name.startsWith_iff.mpr (List.prefix_refl _)
  · exact h.elim

theorem covers_ofGroup {now : ℕ} {label : String} {g : Data × List Data} {n : Name} :
    (ofGroup now label g).Covers n ↔ n = g.1.name.withoutContentHash ∨
      n.startsWith g.1.name.withoutContentHash = true ∧
        ∃ d ∈ g.1 :: g.2, d.metadata.sequence.isSome = true := by
  have hself (m : Name) : m.startsWith m = true := Name.startsWith_iff.mpr (List.prefix_refl _)
  cases hseq : (g.1 :: g.2).filterMap fun d => d.metadata.sequence with
  | nil =>
    have hnone : ¬ ∃ d ∈ g.1 :: g.2, d.metadata.sequence.isSome = true := by
      rintro ⟨d, hd, hs⟩
      have hd := List.filterMap_eq_nil_iff.mp hseq d hd
      rw [hd] at hs
      cases hs
    unfold ofGroup Covers
    simp only [hseq, hnone, and_false, or_false]
  | cons seq seqs =>
    have hsome : ∃ d ∈ g.1 :: g.2, d.metadata.sequence.isSome = true := by
      have hmem : seq ∈ (g.1 :: g.2).filterMap fun d => d.metadata.sequence := by
        rw [hseq]
        exact List.mem_cons_self
      obtain ⟨d, hd, hs⟩ := List.mem_filterMap.mp hmem
      exact ⟨d, hd, by rw [hs]; rfl⟩
    unfold ofGroup Covers
    simp only [hseq]
    constructor
    · intro h
      exact .inr ⟨h, hsome⟩
    · rintro (rfl | ⟨h, -⟩)
      · exact hself _
      · exact h

end ManifestEntry

namespace Server

variable [Hashlib] {s t v : Server} {d : Data} {face : FaceId} {n m : Name}

def owns (s : Server) (n : Name) : Bool := n.startsWith ⟨s.rnsAddr, [], none⟩ && !n.isRoot

def reading (s : Server) (n : Name) : Option Data :=
  (s.forwarder.cs.get n s.forwarder.time).2.toOption.join

def fileName (groups : Dict String (Data × List Data)) (n : Name) :
    Handler (Dict String (Data × List Data)) := do
  match ← csGet n with
  | none => return groups
  | some d => return file groups n.label d

def buildManifestEntries : Handler (List ManifestEntry) := do
  let s ← get
  let ourPrefix ← ofExcept (Name.new s.rnsAddr)
  let names ← ofExcept s.forwarder.cs.entryNames
  let own := names.filter fun n => n.startsWith ourPrefix && !n.isRoot
  let groups ← own.foldlM fileName .empty
  return groups.items.map fun (label, g) => ManifestEntry.ofGroup s.forwarder.time label g

/-- The name is the server's own and has a row whose content matches its hash. -/
def Stores (s : Server) (n : Name) : Prop :=
  s.owns n = true ∧ ∃ key row, s.forwarder.cs.HoldsRow n key row ∧
    ContentStore.verifyContent row = true

theorem mem_entryNames_iff {names : List Name} (h : s.forwarder.cs.Represented)
    (hnames : s.forwarder.cs.entryNames = .ok names) : n ∈ names ↔
      ∃ key row, s.forwarder.cs.HoldsRow n key row ∧ ContentStore.verifyContent row = true := by
  constructor
  · intro hn
    obtain ⟨row, hrow, hparse⟩ := mem_of_mapM_eq_ok hnames hn
    obtain ⟨hmem, hv⟩ := List.mem_filter.mp hrow
    obtain ⟨⟨key, row⟩, hitem, rfl⟩ := List.mem_map.mp hmem
    obtain ⟨m, hm⟩ := h.row key row (Dict.get?_eq_some.mpr hitem)
    have hname : n = m := Name.fromBytes_encode_eq hm.encodable hm.unpinned (hm.nameBytes ▸ hparse)
    exact ⟨key, row, hname ▸ hm, hv⟩
  · rintro ⟨key, row, hrow, hv⟩
    have hmem : row ∈ s.forwarder.cs.content.values.filter ContentStore.verifyContent :=
      List.mem_filter.mpr ⟨List.mem_map_of_mem (Dict.get?_eq_some.mp hrow.get), hv⟩
    obtain ⟨m, hm⟩ := isOk_of_mapM_eq_ok hnames hmem
    have hname : m = n :=
      Name.fromBytes_encode_eq hrow.encodable hrow.unpinned (hrow.nameBytes ▸ hm)
    exact hname ▸ mem_results_of_mapM_eq_ok hnames hmem hm

theorem get_of_mem_entryNames {names : List Name} (h : s.forwarder.cs.Represented)
    (hnames : s.forwarder.cs.entryNames = .ok names) (hn : n ∈ names) :
    (s.forwarder.cs.get n s.forwarder.time).2 = .ok (s.reading n) ∧
      n.contentHash = none ∧ ∀ d ∈ s.reading n, d.name = n := by
  obtain ⟨key, row, hrow, hv⟩ := (mem_entryNames_iff h hnames).mp hn
  have hmem : row ∈ s.forwarder.cs.content.values.filter ContentStore.verifyContent :=
    List.mem_filter.mpr ⟨List.mem_map_of_mem (Dict.get?_eq_some.mp hrow.get), hv⟩
  obtain ⟨m, hm⟩ := isOk_of_mapM_eq_ok hnames hmem
  have hunpinned : n.withoutContentHash = n := by rw [Name.withoutContentHash, ← hrow.unpinned]
  have hkey : ContentStore.nameHash n.withoutContentHash = .ok key := by
    rw [hunpinned, hrow.key]
    exact ContentStore.nameHash_eq_ok.mpr ⟨hrow.encodable, rfl⟩
  have hget : ∃ r, (s.forwarder.cs.get n s.forwarder.time).2 = .ok r := by
    rw [ContentStore.get, ContentStore.read, hkey]
    simp only [bind, Except.bind]
    split
    · exact ⟨_, rfl⟩
    · rename_i row' hrow'
      obtain rfl : row' = row :=
        Option.some.inj ((ContentStore.get?_purgeExpired.mp hrow').1.symm.trans hrow.get)
      simp only [hm]
      split
      · exact ⟨_, rfl⟩
      · split <;> exact ⟨_, rfl⟩
  obtain ⟨r, hr⟩ := hget
  have hreading : s.reading n = r := by
    rw [reading, hr]
    rfl
  refine ⟨hreading ▸ hr, hrow.unpinned, fun d hd => ?_⟩
  rw [hreading, Option.mem_def] at hd
  rw [hd] at hr
  obtain ⟨row', hans, hd, -⟩ := ContentStore.get_eq_some_iff.mp hr
  have hsame : row' = row := by
    have hget := hans.get
    rw [hunpinned, ← hrow.key, hrow.get] at hget
    exact (Option.some.inj hget).symm
  subst hsame
  exact Name.fromBytes_encode_eq hrow.encodable hrow.unpinned (hrow.nameBytes ▸ hd)

/-- The property leaves the store as in `v` or as the sweep of `v` leaves it, and allows the
sweep. -/
structure Sweeping (v : Server) (I : Server → Prop) : Prop where
  time : ∀ s, I s → s.forwarder.time = v.forwarder.time
  store : ∀ s, I s → s.forwarder.cs = v.forwarder.cs ∨
    s.forwarder.cs = v.forwarder.cs.purgeExpired v.forwarder.time
  sweep : ∀ s, I s → I (s.withStore (v.forwarder.cs.purgeExpired v.forwarder.time))

omit [Hashlib] in
theorem Sweeping.purge {I : Server → Prop} (hI : Sweeping v I) (hs : I s) :
    s.forwarder.cs.purgeExpired s.forwarder.time =
      v.forwarder.cs.purgeExpired v.forwarder.time := by
  rw [hI.time s hs]
  rcases hI.store s hs with hcs | hcs
  · rw [hcs]
  · rw [hcs]
    refine ContentStore.purgeExpired_eq_self fun key row hr => ?_
    exact (ContentStore.get?_purgeExpired.mp hr).2

theorem Sweeping.keeps_csGet {I : Server → Prop} (hI : Sweeping v I) (n : Name) :
    Keeps I (csGet n) := by
  refine Triple.bind_get fun s hs => Triple.bind (Q := fun _ => I) ?_ fun _ => Keeps.ofExcept _
  refine Triple.modify fun t ht => ?_
  subst ht
  change I (t.withStore (t.forwarder.cs.purgeExpired t.forwarder.time))
  rw [hI.purge hs]
  exact hI.sweep t hs

theorem Sweeping.csGet {I : Server → Prop} (hI : Sweeping v I)
    (hn : (v.forwarder.cs.get n v.forwarder.time).2 = .ok (v.reading n)) :
    Triple I (csGet n) (fun r s => I s ∧ r = v.reading n) fun _ => False := by
  refine Triple.bind_get fun s hs => ?_
  have hpurge := hI.purge hs
  have hget : (s.forwarder.cs.get n s.forwarder.time).2 = .ok (v.reading n) := by
    rw [← hn, ContentStore.get, ContentStore.get, hpurge, hI.time s hs]
  refine Triple.bind (Q := fun _ => I) ?_ fun _ => ?_
  · refine Triple.modify fun t ht => ?_
    subst ht
    change I (t.withStore (t.forwarder.cs.purgeExpired t.forwarder.time))
    rw [hpurge]
    exact hI.sweep t hs
  · exact Triple.ofExcept_ok ⟨_, hget⟩ fun r t hr ht => ⟨ht, ok_inj hr hget⟩

def Swept (v s : Server) : Prop :=
  s = v ∨ s = v.withStore (v.forwarder.cs.purgeExpired v.forwarder.time)

omit [Hashlib] in
theorem Swept.sweeping (v : Server) : Sweeping v (Swept v) where
  time s h := by
    rcases h with rfl | rfl <;> rfl
  store s h := by
    rcases h with rfl | rfl
    · exact .inl rfl
    · exact .inr rfl
  sweep s h := by
    rcases h with rfl | rfl <;> exact .inr rfl

def labelled (s : Server) (names : List Name) : List (String × Data) :=
  (names.filter s.owns).filterMap fun n => (s.reading n).map fun d => (n.label, d)

def entriesOf (s : Server) (names : List Name) : List ManifestEntry :=
  (group (s.labelled names)).items.map fun (label, g) =>
    ManifestEntry.ofGroup s.forwarder.time label g

theorem buildManifestEntries_returns {names : List Name} (h : s.forwarder.cs.Represented)
    (haddr : s.rnsAddr.length = RNS_ADDR_BYTES) (hnames : s.forwarder.cs.entryNames = .ok names) :
    Triple (· = s) buildManifestEntries (fun es t => Swept s t ∧ es = s.entriesOf names)
      fun _ => False := by
  refine Triple.bind_get fun v hv => ?_
  subst hv
  rw [name_new_isOk haddr, hnames]
  refine Triple.bind (Q := fun p t => t = v ∧ p = ⟨v.rnsAddr, [], none⟩)
    (Triple.ofExcept_ok ⟨_, rfl⟩ fun p t hp ht => ⟨ht, (Except.ok.inj hp).symm⟩) fun p => ?_
  refine Triple.bind (Q := fun l t => (t = v ∧ p = ⟨v.rnsAddr, [], none⟩) ∧ l = names)
    (Triple.ofExcept_ok ⟨_, rfl⟩ fun l t hl ht => ⟨ht, (Except.ok.inj hl).symm⟩) fun l => ?_
  rintro t ⟨⟨rfl, rfl⟩, rfl⟩
  have hfile : ∀ groups, ∀ n ∈ l.filter t.owns, Triple (Swept t) (fileName groups n)
      (fun g u => Swept t u ∧ g = (t.reading n).elim groups (file groups n.label))
      fun _ => False := by
    intro groups n hn
    have hget := (get_of_mem_entryNames h hnames (List.mem_of_mem_filter hn)).1
    refine ((Swept.sweeping t).csGet hget).bind fun r => ?_
    cases r with
    | none => exact Triple.pure fun u hu => ⟨hu.1, by rw [← hu.2]; rfl⟩
    | some d => exact Triple.pure fun u hu => ⟨hu.1, by rw [← hu.2]; rfl⟩
  refine Triple.bind (Triple.foldlM hfile) (fun groups => ?_) t (.inl rfl)
  refine Triple.pure fun u hu => ⟨hu.1, ?_⟩
  rw [hu.2, entriesOf, group, labelled, List.foldl_filterMap]
  congr 2
  refine congrArg (fun f => List.foldl f Dict.empty (l.filter t.owns)) ?_
  funext groups n
  cases t.reading n <;> rfl

def sharing (s : Server) (names : List Name) (n : Name) : List Name :=
  names.filter fun m => s.owns m && m.label == n.label && (s.reading m).isSome

def Sequenced (s : Server) (n : Name) : Prop :=
  ∃ d, s.reading n = some d ∧ d.metadata.sequence.isSome = true

/-- The first live name with the label of `n` is `n`, or `n` extends it and one of the live names
with the label has a sequence. -/
def Led (s : Server) (names : List Name) (n : Name) : Prop :=
  ∃ first rest, s.sharing names n = first :: rest ∧
    (n = first ∨ n.startsWith first = true ∧ ∃ m ∈ first :: rest, s.Sequenced m)

theorem withKey_labelled (s : Server) (names : List Name) (label : String) :
    withKey label (s.labelled names) =
      (names.filter fun m => s.owns m && m.label == label).filterMap s.reading := by
  unfold withKey labelled
  induction names with
  | nil => rfl
  | cons m names ih =>
    by_cases ho : s.owns m = true
    · cases hr : s.reading m with
      | none => by_cases hl : m.label = label <;> simp [ho, hr, hl, ih]
      | some d => by_cases hl : m.label = label <;> simp [ho, hr, hl, ih]
    · simp [ho, ih]

theorem map_name_withKey {names : List Name}
    (hread : ∀ m ∈ names, ∀ d ∈ s.reading m, d.name = m) (n : Name) :
    (withKey n.label (s.labelled names)).map Data.name = s.sharing names n := by
  rw [withKey_labelled]
  unfold sharing
  induction names with
  | nil => rfl
  | cons m names ih =>
    rw [List.forall_mem_cons] at hread
    have ih := ih hread.2
    cases hr : s.reading m with
    | none => by_cases ho : (s.owns m && m.label == n.label) = true <;> simp_all
    | some d =>
      have hname := hread.1 d hr
      by_cases ho : (s.owns m && m.label == n.label) = true <;> simp_all

theorem exists_reading_of_mem_withKey {names : List Name} {label : String}
    (hd : d ∈ withKey label (s.labelled names)) :
    ∃ m ∈ names, s.owns m = true ∧ m.label = label ∧ s.reading m = some d := by
  rw [withKey_labelled] at hd
  obtain ⟨m, hm, hr⟩ := List.mem_filterMap.mp hd
  obtain ⟨hm, hp⟩ := List.mem_filter.mp hm
  rw [Bool.and_eq_true, beq_iff_eq] at hp
  exact ⟨m, hm, hp.1, hp.2, hr⟩

omit [Hashlib] in
theorem label_of_startsWith (hm : s.owns m = true) (h : n.startsWith m = true) :
    n.label = m.label := by
  obtain ⟨-, hpath⟩ := List.cons_prefix_cons.mp (Name.startsWith_iff.mp h)
  unfold owns at hm
  rw [Bool.and_eq_true, Bool.not_eq_true'] at hm
  obtain ⟨rest, hrest⟩ := hpath
  unfold Name.label
  cases hp : m.path with
  | nil =>
    have hroot : m.isRoot = true := by simp [Name.isRoot, Name.len, Name.components, hp]
    rw [hm.2] at hroot
    cases hroot
  | cons comp comps => rw [← hrest, hp, List.cons_append, List.headD_cons, List.headD_cons]

theorem mem_entriesOf {names : List Name} {e : ManifestEntry} : e ∈ s.entriesOf names ↔
    ∃ label g, withKey label (s.labelled names) = g.1 :: g.2 ∧
      e = ManifestEntry.ofGroup s.forwarder.time label g := by
  unfold entriesOf
  rw [List.mem_map]
  constructor
  · rintro ⟨⟨label, g⟩, hmem, rfl⟩
    exact ⟨label, g, get?_group.mp (Dict.get?_eq_some.mpr hmem), rfl⟩
  · rintro ⟨label, g, hg, rfl⟩
    exact ⟨(label, g), Dict.get?_eq_some.mp (get?_group.mpr hg), rfl⟩

/-- An entry covers an own name if the first name with its label stands for it. -/
theorem covered_iff_led {names : List Name}
    (hread : ∀ m ∈ names, m.contentHash = none ∧ ∀ d ∈ s.reading m, d.name = m) :
    (∃ e ∈ s.entriesOf names, e.Covers n) ↔ s.Led names n := by
  have hunpinned : ∀ m ∈ names, m.withoutContentHash = m := by
    intro m hm
    rw [Name.withoutContentHash, ← (hread m hm).1]
  have hname (label : String) : ∀ d ∈ withKey label (s.labelled names),
      d.name.withoutContentHash = d.name ∧ s.owns d.name = true ∧ d.name.label = label ∧
        s.reading d.name = some d := by
    intro d hd
    obtain ⟨m, hm, ho, hl, hr⟩ := exists_reading_of_mem_withKey hd
    obtain rfl := (hread m hm).2 d hr
    exact ⟨hunpinned _ hm, ho, hl, hr⟩
  have hsharing := map_name_withKey (fun m hm => (hread m hm).2) n
  constructor
  · rintro ⟨e, he, hc⟩
    obtain ⟨label, g, hg, rfl⟩ := mem_entriesOf.mp he
    obtain ⟨hw, ho, hl, -⟩ := hname label g.1 (by rw [hg]; exact List.mem_cons_self)
    rw [ManifestEntry.covers_ofGroup, hw] at hc
    have hlabel : n.label = label := by
      rcases hc with rfl | ⟨hstart, -⟩
      · exact hl
      · exact (label_of_startsWith ho hstart).trans hl
    rw [hlabel, hg, List.map_cons] at hsharing
    refine ⟨g.1.name, g.2.map Data.name, hsharing.symm, hc.imp_right ?_⟩
    rintro ⟨hstart, d, hd, hseq⟩
    refine ⟨hstart, d.name, List.mem_map_of_mem hd, d, ?_, hseq⟩
    exact (hname label d (hg ▸ hd)).2.2.2
  · rintro ⟨first, rest, hs, hled⟩
    rw [hs] at hsharing
    obtain ⟨d, ds, hg, rfl, rfl⟩ := List.map_eq_cons_iff.mp hsharing
    refine ⟨_, mem_entriesOf.mpr ⟨n.label, (d, ds), hg, rfl⟩, ?_⟩
    rw [ManifestEntry.covers_ofGroup, (hname n.label d (by rw [hg]; exact List.mem_cons_self)).1]
    refine hled.imp_right ?_
    rintro ⟨hstart, m, hm, d', hr, hseq⟩
    obtain ⟨e, he, rfl⟩ := List.mem_map.mp (show m ∈ (d :: ds).map Data.name from hm)
    have hsame := (hname n.label e (hg ▸ he)).2.2.2.symm.trans hr
    exact ⟨hstart, e, he, Option.some.inj hsame ▸ hseq⟩

def Held (v s : Server) : Prop :=
  v.sent <:+ s.sent ∧ s.faces = v.faces ∧ s.forwarder.time = v.forwarder.time ∧
    (s.forwarder.cs = v.forwarder.cs ∨
      s.forwarder.cs = v.forwarder.cs.purgeExpired v.forwarder.time)

omit [Hashlib] in
theorem Held.sweeping (v : Server) : Sweeping v (Held v) where
  time _ h := h.2.2.1
  store _ h := h.2.2.2
  sweep _ h := ⟨h.1, h.2.1, h.2.2.1, .inr rfl⟩

omit [Hashlib] in
theorem keeps_held_send (face : FaceId) (p : Packet) : Keeps (Held v) (send face p) := by
  refine Keeps.get.bind fun s => ?_
  split
  · refine (Keeps.ofExcept _).bind fun _ => Keeps.modify fun s hs => ?_
    exact ⟨hs.1.trans (List.suffix_cons _ _), hs.2⟩
  · exact Keeps.pure _

theorem keeps_held_replay (face : FaceId) (n : Name) : Keeps (Held v) (replay face n) := by
  refine ((Held.sweeping v).keeps_csGet n).bind fun r => ?_
  have hsign : Keeps (Held v) (maybeSignOpt r) := by
    cases r with
    | none => exact Keeps.pure _
    | some d =>
      have hd := maybeSign_resigned (I := Held v) (fun _ _ h => h) d
      exact Triple.bind (hd.post fun _ _ h => h.1) fun _ => Triple.pure fun _ h => h
  refine hsign.bind fun r => ?_
  cases r with
  | none => exact Keeps.pure _
  | some d => exact keeps_held_send face _

omit [Hashlib] in
theorem keeps_held_drain (stream : Name) (face : FaceId) : Keeps (Held v) (drain stream face) := by
  refine Keeps.get.bind fun s => ?_
  split
  · refine Keeps.bind (Keeps.modify fun _ h => h) fun _ => Keeps.forM fun d _ => ?_
    exact Keeps.tryCatch (keeps_held_send face _) fun _ => Keeps.pure _
  · exact Keeps.pure _

theorem keeps_held_handleSubscribe (sub : APSubscribe) (face : FaceId) :
    Keeps (Held v) (handleSubscribe sub face) := by
  refine Keeps.bind (Keeps.modify fun _ h => h) fun _ => ?_
  split
  · refine Keeps.get.bind fun s => (Keeps.ofExcept _).bind fun names => ?_
    exact (Keeps.forM fun n _ => keeps_held_replay face n).bind fun _ => keeps_held_drain _ face
  · exact keeps_held_drain _ face

def Handed (face : FaceId) (d : Data) (v s : Server) : Prop :=
  ∃ d', d.Resigned d' ∧ Received id face d' v s

omit [Hashlib] in
theorem send_hands {d' : Data} (hfits : d'.Fits) (hsigned : d.Resigned d')
    (hface : face ∈ v.faces) : Triple (fun s => Ready s ∧ Held v s) (send face (.data d'))
      (fun _ s => (Ready s ∧ Held v s) ∧ Handed face d v s) fun _ => False := by
  refine Triple.bind_get fun s hs => ?_
  rw [if_pos (by rw [hs.2.2.1]; exact hface)]
  refine Triple.bind (Q := fun _ t => t = s) ?_ fun _ => Triple.modify fun t ht => ?_
  · exact Triple.ofExcept_ok (Packet.Fits.toBytes_isOk (p := .data d') hfits) fun _ _ _ ht => ht
  · subst ht
    obtain ⟨new, hnew⟩ := hs.2.1
    refine ⟨⟨hs.1.frame rfl, hs.2.1.trans (List.suffix_cons _ _), hs.2.2⟩, d', hsigned, ?_⟩
    exact ⟨(face, .data d') :: new, face, by rw [← hnew]; rfl, List.mem_cons_self, rfl⟩

theorem replay_hands (hn : n.Fits)
    (hget : (v.forwarder.cs.get n v.forwarder.time).2 = .ok (v.reading n))
    (hd : v.reading n = some d) (hface : face ∈ v.faces) :
    Triple (fun s => Ready s ∧ Held v s) (replay face n)
      (fun _ s => (Ready s ∧ Held v s) ∧ Handed face d v s) fun _ => False := by
  have hread := ((csGet_answers hn).and ((Held.sweeping v).csGet hget)).conseq (fun _ h => h)
    (fun _ _ h => h) fun _ h => h.1
  refine hread.bind fun r => ?_
  rintro s ⟨⟨hs, hfits⟩, hheld, rfl⟩
  rw [hd]
  have hsign := ((maybeSign_fits (hfits d hd)).and
    (maybeSign_resigned (I := Held v) (fun _ _ h => h) d)).conseq (fun _ h => h)
      (fun _ _ h => h) fun _ h => h.1
  have hopt : Triple (fun s => Ready s ∧ Held v s) (maybeSignOpt (some d))
      (fun r s => (Ready s ∧ Held v s) ∧ ∃ d', r = some d' ∧ d'.Fits ∧ d.Resigned d')
      fun _ => False := by
    refine hsign.bind fun d' => Triple.pure fun t ht => ?_
    exact ⟨⟨ht.1.1, ht.2.1⟩, d', rfl, ht.1.2.1, ht.2.2⟩
  refine hopt.bind (fun r t ht => ?_) s ⟨hs, hheld⟩
  obtain ⟨ht, d', rfl, hfits', hsigned⟩ := ht
  exact send_hands hfits' hsigned hface t ht

omit [Hashlib] in
theorem keeps_handed {m : Handler Unit} (h : ∀ d', Keeps (Received id face d' v) m) :
    Keeps (Handed face d v) m := by
  intro s hs
  obtain ⟨d', hsigned, hd'⟩ := hs
  exact (h d').conseq (fun _ h => h) (fun _ _ h => ⟨d', hsigned, h⟩)
    (fun _ h => ⟨d', hsigned, h⟩) s hd'

/-- A subscription to what a stored name extends is handed what is stored under the name. -/
theorem handleSubscribe_hands {sub : APSubscribe} (hnow : sub.startFromNow = false)
    (hstart : n.startsWith sub.name = true)
    (hget : (v.forwarder.cs.get n v.forwarder.time).2 = .ok (v.reading n))
    (hd : v.reading n = some d) (hname : d.name = n) (hface : face ∈ v.faces) :
    Triple (fun s => Ready s ∧ Held v s) (handleSubscribe sub face)
      (fun _ s => (Ready s ∧ Held v s) ∧ Handed face d v s) fun _ => False := by
  refine Triple.bind (Q := fun _ s => Ready s ∧ Held v s)
    (Triple.modify fun s hs => ⟨hs.1.frame rfl, hs.2⟩) fun _ => ?_
  rw [if_pos (by simp [hnow])]
  refine Triple.bind_get fun s hs => ?_
  obtain ⟨names, hnames, hfits⟩ := ContentStore.entryNames_isOk hs.1.1.rows
  have hmem : n ∈ names.filter (·.startsWith sub.name) := by
    refine List.mem_filter.mpr ⟨?_, hstart⟩
    rw [hd] at hget
    obtain ⟨row, hans, hparse, -⟩ := ContentStore.get_eq_some_iff.mp hget
    have hrow : s.forwarder.cs.content.get? (blake2b n.withoutContentHash.encode) = some row := by
      rcases hs.2.2.2.2 with hcs | hcs
      · rw [hcs]
        exact hans.get
      · rw [hcs]
        exact ContentStore.get?_purgeExpired.mpr ⟨hans.get, hans.live⟩
    have hrows : row ∈ s.forwarder.cs.content.values.filter ContentStore.verifyContent :=
      List.mem_filter.mpr ⟨List.mem_map_of_mem (Dict.get?_eq_some.mp hrow), hans.verified⟩
    exact mem_results_of_mapM_eq_ok hnames hrows (hname ▸ hparse)
  rw [hnames]
  refine Triple.bind (Q := fun l t => t = s ∧ l = names)
    (Triple.ofExcept_ok ⟨_, rfl⟩ fun l t hl ht => ⟨ht, (Except.ok.inj hl).symm⟩) fun l => ?_
  rintro t ⟨rfl, rfl⟩
  have hsafe (m : Name) (hm : m ∈ l.filter (·.startsWith sub.name)) :
      Safe (fun s => Ready s ∧ Held v s) (replay face m) :=
    (safe_replay face (hfits m (List.mem_of_mem_filter hm))).and (keeps_held_replay face m)
  have hmake := replay_hands (hfits n (List.mem_of_mem_filter hmem)) hget hd hface
  refine Triple.bind (Triple.forM_of_mem hmem hsafe hmake fun m hm => ?_) (fun _ => ?_) t hs
  · exact (hsafe m hm).and (keeps_handed fun _ => Received.posting.toSending.keeps_replay face m)
  · exact ((safe_drain _ face).and (keeps_held_drain _ face)).and
      (keeps_handed fun _ => Received.drain sub.name)

/-- Every stored own name is covered by an entry. -/
def ManifestCovers (s : Server) : Prop :=
  ∀ n, s.Stores n → ∃ es e, (exec buildManifestEntries s).1 = .ok es ∧ e ∈ es ∧ e.Covers n

def subscribeAll (face : FaceId) : Handler Unit := do
  let es ← buildManifestEntries
  es.forM fun e => handleSubscribe { name := e.name.withoutContentHash } face

/-- A peer that subscribes to the entries is handed what is stored under each own name. -/
def SyncDelivers (s : Server) (face : FaceId) : Prop :=
  ∀ n d, s.Stores n → s.reading n = some d → Handed face d s (after (subscribeAll face) s)

/-- The names can be listed, and the first of each label stands for all of them. -/
def LabelsLed (s : Server) : Prop :=
  ∀ n, s.Stores n → ∃ names, s.forwarder.cs.entryNames = .ok names ∧ s.Led names n

theorem manifestCovers_iff (h : s.forwarder.cs.Represented)
    (haddr : s.rnsAddr.length = RNS_ADDR_BYTES) : s.ManifestCovers ↔ s.LabelsLed := by
  refine forall_congr' fun n => imp_congr_right fun _ => ?_
  cases hnames : s.forwarder.cs.entryNames with
  | error e =>
    have hraise : (exec buildManifestEntries s).1 = .error e := by
      unfold buildManifestEntries
      simp only [exec_bind, exec_get, exec_ofExcept, name_new_isOk haddr, hnames]
    constructor
    · rintro ⟨es, e', hes, -⟩
      rw [hraise] at hes
      cases hes
    · rintro ⟨names, hok, -⟩
      cases hok
  | ok names =>
    obtain ⟨es, t, hexec, -, rfl⟩ := (buildManifestEntries_returns h haddr hnames).returns rfl
    have hread (m : Name) (hm : m ∈ names) := (get_of_mem_entryNames h hnames hm).2
    rw [hexec]
    constructor
    · rintro ⟨es, e, hes, he, hc⟩
      obtain rfl := Except.ok.inj hes
      exact ⟨names, rfl, (covered_iff_led hread).mp ⟨e, he, hc⟩⟩
    · rintro ⟨names', hok, hled⟩
      obtain rfl := Except.ok.inj hok
      obtain ⟨e, he, hc⟩ := (covered_iff_led hread).mpr hled
      exact ⟨_, e, rfl, he, hc⟩

theorem handed_of_covered {names : List Name} {e : ManifestEntry}
    (h : s.forwarder.cs.Represented) (hready : Ready s) (hface : face ∈ s.faces)
    (hnames : s.forwarder.cs.entryNames = .ok names) (he : e ∈ s.entriesOf names)
    (hc : e.Covers n) (hn : n ∈ names) (hd : s.reading n = some d) :
    Handed face d s (after (subscribeAll face) s) := by
  obtain ⟨hget, -, hname⟩ := get_of_mem_entryNames h hnames hn
  have hbuild : Triple (· = s) buildManifestEntries
      (fun es t => (Ready t ∧ Held s t) ∧ es = s.entriesOf names) fun _ => False := by
    refine (buildManifestEntries_returns h hready.1.addr hnames).post fun es t ht => ⟨?_, ht.2⟩
    rcases ht.1 with rfl | rfl
    · exact ⟨hready, List.suffix_refl _, rfl, rfl, .inl rfl⟩
    · have hpurge : storesNothing (.purgeExpired s.forwarder.time) = true := rfl
      refine ⟨hready.store hpurge, ?_⟩
      exact ⟨List.suffix_refl _, rfl, rfl, .inr rfl⟩
  have hall : Triple (· = s) (subscribeAll face) (fun _ => Handed face d s) fun _ => False := by
    refine hbuild.bind fun es => ?_
    rintro t ⟨ht, rfl⟩
    have hpass (e : ManifestEntry) :
        Safe (fun s' => Ready s' ∧ Held s s')
          (handleSubscribe { name := e.name.withoutContentHash } face) :=
      (safe_handleSubscribe _ face).and (keeps_held_handleSubscribe _ face)
    refine Triple.post (Q := fun _ s' => (Ready s' ∧ Held s s') ∧ Handed face d s s')
      (Triple.forM_of_mem he (fun e' _ => hpass e') ?_ fun e' _ => ?_) (fun _ _ h => h.2) t ht
    · exact handleSubscribe_hands rfl hc.startsWith hget hd (hname d hd) hface
    · exact (hpass e').and (keeps_handed fun _ => Received.handleSubscribe _ face)
  exact Triple.after (hall.conseq (fun _ h => h) (fun _ _ h => h) fun _ h => h.elim) rfl

/-- The own names are covered, and so delivered, if and only if each label is led by its first
name. -/
theorem manifest_covers_store_iff (h : s.forwarder.cs.Represented)
    (haddr : s.rnsAddr.length = RNS_ADDR_BYTES) :
    s.ManifestCovers ∧ (Ready s → ∀ face ∈ s.faces, s.SyncDelivers face) ↔ s.LabelsLed := by
  rw [manifestCovers_iff h haddr]
  refine and_iff_left_of_imp fun hled hready face hface n d hn hd => ?_
  obtain ⟨names, hnames, hled⟩ := hled n hn
  have hread (m : Name) (hm : m ∈ names) := (get_of_mem_entryNames h hnames hm).2
  obtain ⟨e, he, hc⟩ := (covered_iff_led hread).mpr hled
  exact handed_of_covered h hready hface hnames he hc ((mem_entryNames_iff h hnames).mpr hn.2) hd

def stocked (ds : List Data) : Server :=
  letI := Data.paddedHash
  { rnsAddr := List.replicate 16 1
    forwarder := { cs := ds.foldl (fun cs d => cs.apply (.insert d.name d 0)) {} } }

omit [Hashlib] in
theorem represented_stocked (ds : List Data) :
    letI := Data.paddedHash
    (stocked ds).forwarder.cs.Represented := by
  let := Data.paddedHash
  suffices hfold : ∀ cs : ContentStore, cs.Represented →
      (ds.foldl (fun cs d => cs.apply (.insert d.name d 0)) cs).Represented from
    hfold {} (ContentStore.Represented.empty rfl rfl)
  induction ds with
  | nil => exact fun cs h => h
  | cons d ds ih => exact fun cs h => ih _ (h.apply _)

theorem edition_fits (hlen : ∀ b, (blake2b b).length = CONTENT_HASH_BYTES) {n : Name}
    {content : Bytes} {sequence : Option ℕ} (hn : n.Fits) (hc : content.length < 256 ^ 4)
    (hseq : ∀ x ∈ sequence, x < 256 ^ 8) (encrypted : Bool) :
    (edition n content encrypted sequence).Fits := by
  have hhash : ∀ b ∈ some (blake2b content), b.length = CONTENT_HASH_BYTES := by simp [hlen]
  cases sequence with
  | none => exact ⟨hn, hc, nofun, hhash, hseq, nofun, nofun, nofun⟩
  | some x => exact ⟨hn, hc, nofun, hhash, hseq, nofun, nofun, nofun⟩

omit [Hashlib] in
theorem ready_stocked {ds : List Data} (hds : ∀ d ∈ ds, d.Fits) (faces : List FaceId) :
    letI := Data.paddedHash
    Ready { stocked ds with faces } := by
  let := Data.paddedHash
  have hstore (cs : ContentStore) (hfits : cs.Fits) (hin : cs.InTime 0) :
      (ds.foldl (fun cs d => cs.apply (.insert d.name d 0)) cs).Fits ∧
        (ds.foldl (fun cs d => cs.apply (.insert d.name d 0)) cs).InTime 0 := by
    induction ds generalizing cs with
    | nil => exact ⟨hfits, hin⟩
    | cons d ds ih =>
      obtain ⟨hd, hds⟩ := List.forall_mem_cons.mp hds
      exact ih hds _ (hfits.insert Data.length_paddedHash hd.name hd) (hin.apply _)
  obtain ⟨hrows, hin⟩ := hstore {} (fun _ _ hr => by cases hr)
    ⟨by decide, by simp⟩
  refine ⟨⟨hrows, Forwarder.Initial.consistent ⟨rfl, fun _ => rfl, rfl, rfl⟩, ?_, ?_, rfl, ?_⟩, hin⟩
  · rintro c d ⟨call, hc, -⟩
    cases hc
  · intro c face i hm
    cases hm
  · intro signer hs
    cases hs

def page (labels : List Bytes) (sequence : Option ℕ) : Data :=
  edition ⟨List.replicate 16 1, [0x6e, 0x6f, 0x74, 0x65, 0x73] :: labels, none⟩ [0x2a] false
    sequence

omit [Hashlib] in
/-- The second page extends the first, and the first has a sequence. Both are in the manifest and
are handed to the peer on face 1. -/
theorem stream_covered :
    letI := Data.paddedHash
    let s : Server := { stocked [page [] (some 1), page [[0x78]] none] with faces := [1] }
    s.ManifestCovers ∧ s.Stores (page [[0x78]] none).name ∧ s.SyncDelivers 1 := by
  let := Data.paddedHash
  set s : Server := { stocked [page [] (some 1), page [[0x78]] none] with faces := [1] } with hs
  have h : s.forwarder.cs.Represented := represented_stocked _
  have hnames : s.forwarder.cs.entryNames =
      .ok [(page [] none).name, (page [[0x78]] none).name] := by
    decide +kernel
  have hseq : s.Sequenced (page [] none).name := by
    have hany : (s.reading (page [] none).name).any (·.metadata.sequence.isSome) = true := by
      decide +kernel
    exact Option.any_eq_true _ _ |>.mp hany
  have hname (labels : List Bytes) : labels = [] ∨ labels = [[0x78]] → Name.Fits
      ⟨List.replicate 16 1, [0x6e, 0x6f, 0x74, 0x65, 0x73] :: labels, none⟩ := by
    rintro (rfl | rfl) <;> exact ⟨⟨by decide, by decide⟩, by decide, by simp⟩
  have hready : Ready s := ready_stocked (by
    rintro d (_ | ⟨_, _ | ⟨_, ⟨⟩⟩⟩)
    · exact edition_fits Data.length_paddedHash (hname _ (by decide)) (by decide) (by simp) _
    · exact edition_fits Data.length_paddedHash (hname _ (by decide)) (by decide) (by simp) _) [1]
  obtain ⟨hcovers, hdelivers⟩ :=
    (manifest_covers_store_iff h (by decide)).mpr fun n hn => ⟨_, hnames, by
      refine ⟨(page [] none).name, [(page [[0x78]] none).name], ?_⟩
      have hmem := (mem_entryNames_iff h hnames).mpr hn.2
      simp only [List.mem_cons, List.not_mem_nil, or_false] at hmem
      rcases hmem with rfl | rfl
      · exact ⟨by decide +kernel, .inl rfl⟩
      · exact ⟨by decide +kernel, .inr ⟨by decide, _, List.mem_cons_self, hseq⟩⟩⟩
  exact ⟨hcovers, ⟨by decide, (mem_entryNames_iff h hnames).mp (by decide)⟩,
    hdelivers hready 1 List.mem_cons_self⟩

omit [Hashlib] in
/-- Two pages without a sequence share a label, and the second is in no entry. -/
theorem second_page_uncovered :
    letI := Data.paddedHash
    ¬ (stocked [page [[0x78]] none, page [[0x79]] none]).ManifestCovers := by
  let := Data.paddedHash
  set s := stocked [page [[0x78]] none, page [[0x79]] none] with hs
  have h : s.forwarder.cs.Represented := represented_stocked _
  have hnames : s.forwarder.cs.entryNames =
      .ok [(page [[0x78]] none).name, (page [[0x79]] none).name] := by
    decide +kernel
  have hentries : (exec buildManifestEntries s).1.toOption.any
      (·.all fun e => e.kind = .blob ∧ e.name = (page [[0x78]] none).name) = true := by
    decide +kernel
  intro hcovers
  obtain ⟨es, e, hes, he, hc⟩ := hcovers (page [[0x79]] none).name
    ⟨by decide, (mem_entryNames_iff h hnames).mp (by decide)⟩
  rw [hes] at hentries
  obtain ⟨hblob, hname⟩ := of_decide_eq_true (List.all_eq_true.mp hentries e he)
  rw [ManifestEntry.Covers, hblob, hname] at hc
  exact absurd hc (by decide)

end Server

end RnsIcn
