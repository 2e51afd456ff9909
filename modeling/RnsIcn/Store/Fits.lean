import RnsIcn.Store.Names
import RnsIcn.Wire.Relay

/-! # Stores that read without an error

Rows that were written for Data of the widths of the wire are read back as such Data,
and neither reads nor deletions raise. What raises is binding an integer that the
database cannot hold, to insert a row or to ask for a sequence.
-/

namespace RnsIcn

open Fallible

/-- The row of Data that fits its fields, under an unpinned name. -/
structure Row.Fits (row : Row) (n : Name) : Prop where
  name : n.Fits
  unpinned : n.contentHash = none
  nameBytes : row.nameBytes = n.encode
  content : row.contentBytes.length < 256 ^ 4
  contentHash : row.metadataJson.contentHash.length = CONTENT_HASH_BYTES
  sequence : ∀ x ∈ row.metadataJson.sequence, x < 256 ^ 8
  freshnessPeriod : ∀ x ∈ row.freshnessPeriod, x < 256 ^ 8
  periodJson : ∀ x ∈ row.metadataJson.freshnessPeriod, x < 256 ^ 8
  signedAt : ∀ x ∈ row.metadataJson.signedAt, x < 256 ^ 8
  signature : ∀ sig ∈ row.metadataJson.signature, sig.length = SIGNATURE_BYTES

structure Data.Bindable (d : Data) : Prop where
  sequence : ∀ x ∈ d.metadata.sequence, x < 2 ^ 63
  age : d.metadata.freshness.fresh = false → d.metadata.freshness.ageSeconds < 2 ^ 63
  freshnessPeriod : ∀ x ∈ d.metadata.freshnessPeriod, x < 2 ^ 63

/-- The database can bind the sequence that the Interest asks the store for. -/
def Interest.Bindable (i : Interest) : Prop :=
  i.canBePrefix = true → i.child ≠ .none → ∀ x ∈ i.minSequence, x < 2 ^ 63

theorem sqliteInt_of_lt {x : ℕ} (h : x < 2 ^ 63) : sqliteInt x = .ok () := if_pos h

theorem sqliteOptInt_of_lt {x : Option ℕ} (h : ∀ y ∈ x, y < 2 ^ 63) : sqliteOptInt x = .ok () := by
  cases x with
  | none => rfl
  | some y => exact sqliteInt_of_lt (h y rfl)

theorem Name.Fits.unpinned {n : Name} (h : n.Fits) : n.withoutContentHash.Fits where
  encodable := ⟨h.encodable.count, h.encodable.component⟩
  count := h.count
  pin _ hp := by cases hp

theorem Row.Fits.fromBytes {row : Row} {n : Name} (h : row.Fits n) :
    Name.fromBytes row.nameBytes = .ok n := h.nameBytes ▸ h.name.fromBytes

namespace ContentStore

variable {s t : ContentStore} {row : Row} {n : Name} {d : Data} {now : ℕ}

/-- Every row is that of Data that fits its fields. -/
def Fits (s : ContentStore) : Prop :=
  ∀ key row, s.content.get? key = some row → ∃ n, row.Fits n

def InTime (s : ContentStore) (now : ℕ) : Prop :=
  now < 2 ^ 63 ∧ (∀ ttl ∈ s.defaultTtl, now + ttl < 2 ^ 63) ∧
    ∀ e ∈ s.prefixTtls, now + e.2 < 2 ^ 63

theorem Fits.mono (h : s.Fits) (hsub : Sub t s) : t.Fits :=
  fun key row hr => h key row (hsub key row hr)

theorem Fits.purge (h : s.Fits) : (s.purgeExpired now).Fits :=
  h.mono (deleteRows_sub s _)

theorem Fits.row_of_mem (h : s.Fits) {e : Bytes × Row} (he : e ∈ s.content.items) :
    ∃ n, e.2.Fits n := h e.1 e.2 (Dict.get?_eq_some.mpr he)

theorem InTime.computeTtl (h : s.InTime now) {ttl : ℕ} (ht : s.computeTtl n = some ttl) :
    now + ttl < 2 ^ 63 := by
  simp only [ContentStore.computeTtl] at ht
  split at ht
  · rename_i e hfind
    obtain rfl := Option.some.inj ht
    exact h.2.2 _ ((List.mem_insertionSort _).mp (List.mem_of_find?_eq_some hfind))
  · exact h.2.1 ttl ht

theorem InTime.expires (h : s.InTime now) :
    ∀ x ∈ calculateExpiresAt now (s.computeTtl n), x < 2 ^ 63 := by
  intro x hx
  cases ht : s.computeTtl n with
  | none =>
    rw [ht] at hx
    cases hx
  | some ttl =>
    rw [ht, calculateExpiresAt] at hx
    split at hx
    · cases hx
    · exact Option.some.inj hx ▸ h.computeTtl ht

variable [Hashlib]

omit [Hashlib] in
theorem rowData_fits (h : row.Fits n) (hnow : now < 2 ^ 63) : (rowData row n now).Fits where
  name := h.name
  content := h.content
  signature sig hs := by
    rw [rowData, parseSignature, Option.mem_def, Option.filter_eq_some_iff] at hs
    exact h.signature sig hs.1
  metadata := by
    refine ⟨fun x hx => ?_, h.sequence, fun _ => ?_, fun x hx => ?_, h.signedAt⟩
    · exact Option.some.inj hx ▸ h.contentHash
    · exact (Nat.sub_le now _).trans_lt (hnow.trans (by decide))
    · change row.freshnessPeriod.orElse (fun _ => row.metadataJson.freshnessPeriod) = some x at hx
      cases hp : row.freshnessPeriod with
      | none => exact h.periodJson x (by simpa [hp] using hx)
      | some y => exact h.freshnessPeriod x (by simpa [hp] using hx)

theorem read_isOk (h : s.Fits) (hn : n.Fits) : ∃ r, s.read n now = .ok r := by
  have hkey := nameHash_eq_ok.mpr ⟨hn.unpinned.encodable, rfl⟩
  rw [read, hkey]
  simp only [bind, Except.bind]
  split
  · exact ⟨_, rfl⟩
  · rename_i row hrow
    obtain ⟨m, hm⟩ := h _ row hrow
    simp only [hm.fromBytes]
    split
    · exact ⟨_, rfl⟩
    · split <;> exact ⟨_, rfl⟩

theorem read_fits (h : s.Fits) (hnow : now < 2 ^ 63) (hr : s.read n now = .ok (some d)) :
    d.Fits := by
  obtain ⟨key, -, hr⟩ := bind_eq_ok.mp hr
  split at hr
  · cases hr
  · rename_i row hrow
    obtain ⟨m, hm⟩ := h _ row hrow
    obtain ⟨stored, hs, hr⟩ := bind_eq_ok.mp hr
    obtain rfl := ok_inj hm.fromBytes hs
    split at hr
    · cases hr
    · split at hr
      · cases hr
      · exact Option.some.inj (Except.ok.inj hr) ▸ rowData_fits hm hnow

theorem firstValid_isOk {child : ChildSelector} {rows : List Row}
    (h : ∀ row ∈ rows, ∃ n, row.Fits n) : ∃ r, firstValid child now rows = .ok r := by
  induction rows with
  | nil => exact ⟨none, rfl⟩
  | cons row rows ih =>
    rw [List.forall_mem_cons] at h
    obtain ⟨n, hn⟩ := h.1
    rw [firstValid, hn.fromBytes]
    simp only [bind, Except.bind]
    split
    · exact ih h.2
    · split
      · exact ⟨_, rfl⟩
      · exact ih h.2

theorem readPrefix_isOk {child : ChildSelector} {minSequence : Option ℕ} (h : s.Fits)
    (hn : n.Fits) (hfloor : child ≠ .none → ∀ x ∈ minSequence, x < 2 ^ 63) :
    ∃ r, s.readPrefix n child minSequence now = .ok r := by
  have hkey := nameHash_eq_ok.mpr ⟨hn.encodable, rfl⟩
  have hrows : ∀ row ∈ s.prefixRows (blake2b n.encode) child minSequence, ∃ m, row.Fits m := by
    intro row hrow
    obtain ⟨key, hitem, -, -⟩ := mem_prefixRows.mp hrow
    exact h.row_of_mem hitem
  rw [readPrefix, hkey]
  simp only [bind, Except.bind]
  split
  · rename_i hchild
    rw [sqliteOptInt_of_lt (hfloor (by simpa using hchild))]
    exact firstValid_isOk hrows
  · exact firstValid_isOk hrows

theorem readPrefix_fits {child : ChildSelector} {minSequence : Option ℕ} (h : s.Fits)
    (hnow : now < 2 ^ 63) (hr : s.readPrefix n child minSequence now = .ok (some d)) : d.Fits := by
  obtain ⟨key, row, hrow, -, hs, hd, -⟩ := readPrefix_serves hr
  obtain ⟨m, hm⟩ := h key row hrow
  have hname : m = d.name := ok_inj hm.fromBytes hs
  rw [hd]
  exact rowData_fits (hname ▸ hm) hnow

theorem entryNames_isOk (h : s.Fits) : ∃ names, s.entryNames = .ok names ∧
    ∀ m ∈ names, m.Fits := by
  have hrows : ∀ row ∈ s.content.values.filter verifyContent, ∃ n, row.Fits n := by
    intro row hrow
    obtain ⟨e, he, rfl⟩ := List.mem_map.mp (List.mem_of_mem_filter hrow)
    exact h.row_of_mem he
  obtain ⟨names, hnames⟩ := mapM_isOk (f := fun row => Name.fromBytes row.nameBytes)
    fun row hrow => (hrows row hrow).imp fun _ h => h.fromBytes
  refine ⟨names, hnames, fun m hm => ?_⟩
  obtain ⟨row, hrow, hparse⟩ := mem_of_mapM_eq_ok hnames hm
  obtain ⟨n, hn⟩ := hrows row hrow
  exact ok_inj hn.fromBytes hparse ▸ hn.name

theorem makeRow_fits (hlen : ∀ b, (blake2b b).length = CONTENT_HASH_BYTES) (hn : n.Fits)
    (hd : d.Fits) (ttl : Option ℕ) :
    (makeRow n.withoutContentHash.encode d now ttl).Fits n.withoutContentHash where
  name := hn.unpinned
  unpinned := rfl
  nameBytes := rfl
  content := hd.content
  contentHash := Data.length_rowHash hlen hd.metadata.contentHash
  sequence := hd.metadata.sequence
  freshnessPeriod := hd.metadata.freshnessPeriod
  periodJson := hd.metadata.freshnessPeriod
  signedAt := hd.metadata.signedAt
  signature := hd.signature

theorem Fits.insert (hlen : ∀ b, (blake2b b).length = CONTENT_HASH_BYTES) (h : s.Fits)
    (hn : n.Fits) (hd : d.Fits) : (s.apply (.insert n d now)).Fits := by
  intro key row hr
  rcases get?_apply_insert hr with hr | ⟨-, -, ⟨ttl, rfl⟩, -⟩
  · exact h key row hr
  · exact ⟨_, makeRow_fits hlen hn hd ttl⟩

theorem prefixHashes_isOk (haddr : n.rnsAddr.length = RNS_ADDR_BYTES) (hn : n.Encodable) :
    ∃ prefixes, prefixHashes n = .ok prefixes := by
  refine mapM_isOk fun i _ => ⟨blake2b (n.ancestor i).encode, ?_⟩
  have hnew : Name.new n.rnsAddr (n.path.take i) = .ok (n.ancestor i) := by
    rw [Name.new, if_neg (not_not.mpr haddr)]
    rfl
  rw [hnew]
  exact nameHash_eq_ok.mpr ⟨hn.ancestor i, rfl⟩

/-- The insertion raises nothing if the address has its width and the integers can be bound. -/
theorem insert_bindable (h : s.InTime now) (hn : n.Fits) (hd : d.Fits) (hbind : d.Bindable)
    (haddr : n.rnsAddr.length = RNS_ADDR_BYTES) : ∃ t, s.insert n d now = .ok t := by
  obtain ⟨prefixes, hprefixes⟩ := prefixHashes_isOk (n := n.withoutContentHash) haddr
    hn.unpinned.encodable
  have hrow : bindRow (makeRow n.withoutContentHash.encode d now
      (s.computeTtl n.withoutContentHash)) = .ok () := by
    have hage : (if d.metadata.freshness.fresh = true then 0
        else d.metadata.freshness.ageSeconds) < 2 ^ 63 := by
      split
      · decide
      · rename_i hf
        exact hbind.age (by simpa using hf)
    simp only [bindRow, makeRow, sqliteOptInt_of_lt hbind.sequence,
      sqliteOptInt_of_lt hbind.freshnessPeriod, sqliteOptInt_of_lt h.expires, sqliteInt_of_lt hage,
      sqliteInt_of_lt h.1, sqliteInt_of_lt (hd.content.trans (by decide)), bind, Except.bind]
  simp only [insert, hn.unpinned.encodable.toBytes, hrow, hprefixes, bind, Except.bind]
  exact ⟨_, rfl⟩

theorem InTime.apply (h : s.InTime now) (op : StoreOp) : (s.apply op).InTime now := by
  obtain ⟨hdefault, hprefix⟩ := apply_ttls (s := s) op
  rw [InTime, hdefault, hprefix]
  exact h

end ContentStore

end RnsIcn
