import RnsIcn.Store.Represented
import RnsIcn.Store.Serve

/-! # Salvage of a damaged database

The recovery copies both tables into new ones. The copy of a row goes by position,
so it depends on the order of the columns of the old table, and a row that cannot be
read raises in the middle of the scan. When the copy fails, the rows are copied one
by one and the index is not.
-/

namespace RnsIcn

open Fallible

inductive Column where
  | nameHash
  | nameBytes
  | contentBytes
  | contentHash
  | sequence
  | freshness
  | ageSeconds
  | freshnessPeriod
  | metadataJson
  | insertedAt
  | expiresAt
  | sizeBytes
  deriving DecidableEq, Repr

/-- A value of a column. An integer becomes the text of its digits in a `TEXT` column. -/
inductive SqlValue where
  | null
  | integer (n : ℕ)
  | blob (b : Bytes)
  | json (j : MetadataJson)
  | digits (n : ℕ)
  deriving DecidableEq, Repr

inductive SqlError where
  | malformed
  | notNull (c : Column)
  | unique
  deriving DecidableEq, Repr

namespace Column

/-- The columns of `_init_schema`, which are those of the new table as well. -/
def schema : List Column :=
  [nameHash, nameBytes, contentBytes, contentHash, sequence, freshness, ageSeconds,
    freshnessPeriod, metadataJson, insertedAt, expiresAt, sizeBytes]

/-- The columns of the schema before `freshness_period` was introduced. -/
def legacy : List Column := schema.filter (· ≠ freshnessPeriod)

/-- `_migrate_schema`: the new column goes last. -/
def migrate (columns : List Column) : List Column :=
  if freshnessPeriod ∈ columns then columns else columns ++ [freshnessPeriod]

def isNotNull : Column → Bool
  | nameBytes | contentBytes | contentHash | insertedAt | sizeBytes => true
  | _ => false

/-- What a value is stored as: the affinity of the column converts digits and integers. -/
def store : Column → SqlValue → SqlValue
  | metadataJson, .integer n => .digits n
  | metadataJson, v => v
  | nameHash, v | nameBytes, v | contentBytes, v | contentHash, v => v
  | _, .digits n => .integer n
  | _, v => v

def optInteger : Option ℕ → SqlValue
  | none => .null
  | some n => .integer n

def value (key : Bytes) (row : Row) : Column → SqlValue
  | nameHash => .blob key
  | nameBytes => .blob row.nameBytes
  | contentBytes => .blob row.contentBytes
  | contentHash => .blob row.contentHash
  | sequence => optInteger row.sequence
  | freshness => .integer row.freshness.toNat
  | ageSeconds => .integer row.ageSeconds
  | freshnessPeriod => optInteger row.freshnessPeriod
  | metadataJson => .json row.metadataJson
  | insertedAt => .integer row.insertedAt
  | expiresAt => optInteger row.expiresAt
  | sizeBytes => .integer row.sizeBytes

end Column

abbrev TableRow := Column → SqlValue

/-- A database file: what its tables were written with, the order of the columns of `content` and
the rows that can still be read. -/
structure Database where
  store : ContentStore
  columns : List Column := Column.schema
  readable : Bytes → Bool := fun _ => true
  readablePair : Bytes × Bytes → Bool := fun _ => true

structure Salvaged where
  content : List TableRow
  namePrefixes : List (Bytes × Bytes)

namespace Database

/-- The row that `INSERT INTO content_new` makes of the values. -/
def tableRow (values : List SqlValue) : TableRow := fun c =>
  c.store ((values[Column.schema.idxOf c]?).getD .null)

/-- `INSERT INTO content_new VALUES`, with the constraints of the table. -/
def insertRow (content : List TableRow) (values : List SqlValue) :
    Except SqlError (List TableRow) :=
  let row := tableRow values
  match Column.schema.find? fun c => c.isNotNull && row c == .null with
  | some c => .error (.notNull c)
  | none =>
    if content.any fun r => r .nameHash == row .nameHash then .error .unique
    else .ok (content ++ [row])

def selected (db : Database) (e : Bytes × Row) : List SqlValue :=
  db.columns.map (Column.value e.1 e.2)

/-- The next row of a scan, which raises where the row cannot be read. -/
def fetch {α : Type} (readable : Bool) (a : α) : Except SqlError α :=
  if readable then .ok a else .error .malformed

/-- `INSERT INTO content_new SELECT * FROM content` -/
def copyContent (db : Database) : Except SqlError (List TableRow) :=
  db.store.content.items.foldlM
    (fun content e => do insertRow content (← fetch (db.readable e.1) (db.selected e))) []

def insertPair (pairs : List (Bytes × Bytes)) (p : Bytes × Bytes) :
    Except SqlError (List (Bytes × Bytes)) :=
  if p ∈ pairs then .error .unique else .ok (pairs ++ [p])

/-- `INSERT INTO name_prefixes_new SELECT * FROM name_prefixes` -/
def copyPairs (db : Database) : Except SqlError (List (Bytes × Bytes)) :=
  db.store.namePrefixes.foldlM
    (fun pairs p => do insertPair pairs (← fetch (db.readablePair p) p)) []

def tryInsertRow (content : List TableRow) (values : List SqlValue) : List TableRow :=
  match insertRow content values with
  | .ok content => content
  | .error _ => content

def copyRows (db : Database) (content : List TableRow) : Except SqlError (List TableRow) :=
  db.store.content.items.foldlM
    (fun content e => do
      return tryInsertRow content (← fetch (db.readable e.1) (db.selected e))) content

def salvageRecovery (db : Database) : Except SqlError Salvaged :=
  match db.copyContent with
  | .error _ => do return ⟨← db.copyRows [], []⟩
  | .ok content =>
    match db.copyPairs with
    | .error _ => do return ⟨← db.copyRows content, []⟩
    | .ok pairs => .ok ⟨content, pairs⟩

variable {db : Database} {content content' : List TableRow} {values : List SqlValue}

theorem insertRow_eq_ok (h : insertRow content values = .ok content') :
    content' = content ++ [tableRow values] := by
  simp only [insertRow] at h
  split at h
  · cases h
  · split at h
    · cases h
    · exact (Except.ok.inj h).symm

theorem tryInsertRow_cases : tryInsertRow content values = content ∨
    tryInsertRow content values = content ++ [tableRow values] := by
  unfold tryInsertRow
  split
  · rename_i h
    exact .inr (insertRow_eq_ok h)
  · exact .inl rfl

theorem fetch_eq_ok {α : Type} {readable : Bool} {a b : α} :
    fetch readable a = .ok b ↔ readable = true ∧ a = b := ite_ok_eq_ok

/-- Both ways to copy the rows add what was selected, and raise unless all rows can be read. -/
theorem copied_eq_ok {add : List TableRow → List SqlValue → Except SqlError (List TableRow)}
    (hadd : ∀ {c v c'}, add c v = .ok c' → c' = c ∨ c' = c ++ [tableRow v])
    (h : db.store.content.items.foldlM
      (fun c e => do add c (← fetch (db.readable e.1) (db.selected e))) content = .ok content')
    (hcontent : ∀ r ∈ content, ∃ e ∈ db.store.content.items, r = tableRow (db.selected e)) :
    (∀ e ∈ db.store.content.items, db.readable e.1 = true) ∧
      ∀ r ∈ content', ∃ e ∈ db.store.content.items, r = tableRow (db.selected e) := by
  constructor
  · intro e he
    obtain ⟨c, c', hc⟩ := isOk_of_foldlM_eq_ok h he
    obtain ⟨v, hv, -⟩ := bind_eq_ok.mp hc
    exact (fetch_eq_ok.mp hv).1
  · refine foldlM_induction (P := fun content => ∀ r ∈ content, ∃ e ∈ db.store.content.items,
      r = tableRow (db.selected e)) h hcontent fun c e c' he hc hstep r hr => ?_
    obtain ⟨v, hv, hins⟩ := bind_eq_ok.mp hstep
    obtain ⟨-, rfl⟩ := fetch_eq_ok.mp hv
    rcases hadd hins with rfl | rfl
    · exact hc r hr
    · rcases List.mem_append.mp hr with hr | hr
      · exact hc r hr
      · exact ⟨e, he, List.mem_singleton.mp hr⟩

theorem copyContent_eq_ok (h : db.copyContent = .ok content) :
    (∀ e ∈ db.store.content.items, db.readable e.1 = true) ∧
      ∀ r ∈ content, ∃ e ∈ db.store.content.items, r = tableRow (db.selected e) :=
  copied_eq_ok (fun hins => .inr (insertRow_eq_ok hins)) h (List.forall_mem_nil _)

theorem copyRows_eq_ok (h : db.copyRows content = .ok content')
    (hcontent : ∀ r ∈ content, ∃ e ∈ db.store.content.items, r = tableRow (db.selected e)) :
    (∀ e ∈ db.store.content.items, db.readable e.1 = true) ∧
      ∀ r ∈ content', ∃ e ∈ db.store.content.items, r = tableRow (db.selected e) := by
  refine copied_eq_ok (fun hins => ?_) h hcontent
  obtain rfl := pure_eq_ok.mp hins
  exact tryInsertRow_cases

theorem copyPairs_eq_ok {pairs : List (Bytes × Bytes)} (h : db.copyPairs = .ok pairs) :
    ∀ p ∈ db.store.namePrefixes, db.readablePair p = true := by
  intro p hp
  obtain ⟨c, c', hc⟩ := isOk_of_foldlM_eq_ok h hp
  obtain ⟨v, hv, -⟩ := bind_eq_ok.mp hc
  exact (fetch_eq_ok.mp hv).1

/-- A recovery that returns has read every row. It has copied the index if it could read all of it
and has left it empty otherwise. -/
theorem salvageRecovery_eq_ok {t : Salvaged} (h : db.salvageRecovery = .ok t) :
    (∀ e ∈ db.store.content.items, db.readable e.1 = true) ∧
    (∀ r ∈ t.content, ∃ e ∈ db.store.content.items, r = tableRow (db.selected e)) ∧
    ((∀ p ∈ db.store.namePrefixes, db.readablePair p = true) ∨ t.namePrefixes = []) := by
  unfold salvageRecovery at h
  cases hcontent : db.copyContent with
  | error e =>
    simp only [hcontent] at h
    obtain ⟨rows, hrows, ht⟩ := bind_eq_ok.mp h
    obtain rfl := pure_eq_ok.mp ht
    obtain ⟨hread, hfrom⟩ := copyRows_eq_ok hrows (List.forall_mem_nil _)
    exact ⟨hread, hfrom, .inr rfl⟩
  | ok content =>
    simp only [hcontent] at h
    obtain ⟨hread, hfrom⟩ := copyContent_eq_ok hcontent
    cases hpairs : db.copyPairs with
    | error e =>
      simp only [hpairs] at h
      obtain ⟨rows, hrows, ht⟩ := bind_eq_ok.mp h
      obtain rfl := pure_eq_ok.mp ht
      exact ⟨hread, (copyRows_eq_ok hrows hfrom).2, .inr rfl⟩
    | ok pairs =>
      simp only [hpairs] at h
      obtain rfl := Except.ok.inj h
      exact ⟨hread, hfrom, .inl (copyPairs_eq_ok hpairs)⟩

theorem tableRow_schema (key : Bytes) (row : Row) :
    tableRow (Column.schema.map (Column.value key row)) = Column.value key row := by
  have hopt (c : Column) (x : Option ℕ) (hc : c ≠ .metadataJson) :
      c.store (Column.optInteger x) = Column.optInteger x := by
    cases x <;> cases c <;> first | rfl | exact absurd rfl hc
  funext c
  cases c with
  | sequence | freshnessPeriod | expiresAt => exact hopt _ _ (by decide)
  | _ => rfl

/-- After a migration the text of the metadata goes to the column of the freshness period. -/
theorem tableRow_migrated (key : Bytes) (row : Row) :
    tableRow ((Column.migrate Column.legacy).map (Column.value key row)) .freshnessPeriod =
      .json row.metadataJson := rfl

theorem insertRow_schema {key : Bytes} {row : Row}
    (hnew : ∀ r ∈ content, r .nameHash ≠ .blob key) :
    insertRow content (Column.schema.map (Column.value key row)) =
      .ok (content ++ [Column.value key row]) := by
  have hnull : Column.schema.find? (fun c => c.isNotNull && Column.value key row c == .null) =
      none := rfl
  have hfresh : (content.any fun r => r .nameHash == Column.value key row .nameHash) = false := by
    rw [List.any_eq_false]
    intro r hr
    rw [beq_iff_eq]
    exact hnew r hr
  simp only [insertRow, tableRow_schema, hnull, hfresh, Bool.false_eq_true, if_false]

/-- In the order of the schema the bulk copy of readable rows gives the values by column. -/
theorem copyContent_schema (hcols : db.columns = Column.schema)
    (hread : ∀ e ∈ db.store.content.items, db.readable e.1 = true) :
    db.copyContent = .ok (db.store.content.items.map fun e => Column.value e.1 e.2) := by
  have hcopy (l : List (Bytes × Row)) : ∀ acc : List TableRow,
      (∀ e ∈ l, db.readable e.1 = true) → (l.map Prod.fst).Nodup →
      (∀ r ∈ acc, ∀ e ∈ l, r .nameHash ≠ .blob e.1) →
      l.foldlM (fun content e => do insertRow content (← fetch (db.readable e.1) (db.selected e)))
        acc = .ok (acc ++ l.map fun e => Column.value e.1 e.2) := by
    induction l with
    | nil => simp [pure, Except.pure]
    | cons e l ih =>
      intro acc hread hnodup hdisjoint
      rw [List.forall_mem_cons] at hread
      rw [List.map_cons, List.nodup_cons] at hnodup
      rw [List.foldlM_cons, bind_eq_ok]
      refine ⟨acc ++ [Column.value e.1 e.2], ?_, ?_⟩
      · rw [bind_eq_ok]
        refine ⟨db.selected e, fetch_eq_ok.mpr ⟨hread.1, rfl⟩, ?_⟩
        rw [selected, hcols]
        exact insertRow_schema fun r hr => hdisjoint r hr e List.mem_cons_self
      · rw [ih _ hread.2 hnodup.2, List.append_assoc]
        · rfl
        · intro r hr e' he'
          rcases List.mem_append.mp hr with hr | hr
          · exact hdisjoint r hr e' (List.mem_cons_of_mem _ he')
          · rw [List.mem_singleton.mp hr]
            intro heq
            obtain heq := SqlValue.blob.inj heq
            exact hnodup.1 (heq ▸ List.mem_map_of_mem he')
  rw [copyContent, hcopy _ [] hread db.store.content.nodup (List.forall_mem_nil _),
    List.nil_append]

theorem copyPairs_of_readable (hnodup : db.store.namePrefixes.Nodup)
    (hread : ∀ p ∈ db.store.namePrefixes, db.readablePair p = true) :
    db.copyPairs = .ok db.store.namePrefixes := by
  have hcopy (l : List (Bytes × Bytes)) : ∀ acc : List (Bytes × Bytes),
      (∀ p ∈ l, db.readablePair p = true) → (acc ++ l).Nodup →
      l.foldlM (fun pairs p => do insertPair pairs (← fetch (db.readablePair p) p)) acc =
        .ok (acc ++ l) := by
    induction l with
    | nil => simp [pure, Except.pure]
    | cons p l ih =>
      intro acc hread hnodup
      rw [List.forall_mem_cons] at hread
      have hnew : p ∉ acc := fun hp =>
        (List.nodup_append.mp hnodup).2.2 p hp p List.mem_cons_self rfl
      rw [List.foldlM_cons, bind_eq_ok]
      refine ⟨acc ++ [p], ?_, ?_⟩
      · rw [bind_eq_ok]
        exact ⟨p, fetch_eq_ok.mpr ⟨hread.1, rfl⟩, if_neg hnew⟩
      · have happend : acc ++ [p] ++ l = acc ++ p :: l := by simp
        rw [ih _ hread.2 (happend ▸ hnodup), happend]
  rw [copyPairs, hcopy _ [] hread hnodup, List.nil_append]

variable [Hashlib]

/-- Every readable row is there with its values, and every name that is there is indexed under all
of its prefixes. -/
structure Faithful (db : Database) (t : Salvaged) : Prop where
  present : ∀ e ∈ db.store.content.items, db.readable e.1 = true →
    ∃ r ∈ t.content, ∀ c, r c = Column.value e.1 e.2 c
  indexed : ∀ r ∈ t.content, ∀ (n : Name) (key : Bytes), n.Encodable → n.contentHash = none →
    r .nameBytes = .blob n.encode → r .nameHash = .blob key →
      ∀ i < n.len, (blake2b (n.ancestor i).encode, key) ∈ t.namePrefixes

/-- For a database with the tables of a represented store, created by the schema or migrated, the
recovery returns and is faithful exactly if there is nothing to recover or the table has the order
of the schema and every row of both tables can be read. -/
theorem salvage_faithful_iff (hs : db.store.Represented)
    (hcols : db.columns = Column.migrate Column.schema ∨
      db.columns = Column.migrate Column.legacy) :
    (∃ t, db.salvageRecovery = .ok t ∧ db.Faithful t) ↔
      db.store.content.items = [] ∨ db.columns = Column.schema ∧
        (∀ e ∈ db.store.content.items, db.readable e.1 = true) ∧
        ∀ p ∈ db.store.namePrefixes, db.readablePair p = true := by
  constructor
  · rintro ⟨t, ht, hfaithful⟩
    by_cases hitems : db.store.content.items = []
    · exact .inl hitems
    obtain ⟨e, he⟩ := List.exists_mem_of_ne_nil _ hitems
    obtain ⟨hread, hfrom, hpairs⟩ := salvageRecovery_eq_ok ht
    obtain ⟨r, hr, hvalues⟩ := hfaithful.present e he (hread e he)
    refine .inr ⟨?_, hread, hpairs.resolve_right fun hnone => ?_⟩
    · refine hcols.resolve_right fun hmigrated => ?_
      obtain ⟨e', -, rfl⟩ := hfrom r hr
      have hperiod := hvalues .freshnessPeriod
      rw [selected, hmigrated, tableRow_migrated, Column.value] at hperiod
      cases hp : e.2.freshnessPeriod <;> simp [Column.optInteger, hp] at hperiod
    · obtain ⟨n, hn⟩ := hs.row e.1 e.2 (Dict.get?_eq_some.mpr he)
      have hmem := hfaithful.indexed r hr n e.1 hn.encodable hn.unpinned
        ((hvalues .nameBytes).trans (congrArg _ hn.nameBytes)) (hvalues .nameHash) 0
        (Nat.succ_pos _)
      rw [hnone] at hmem
      cases hmem
  · rintro (hitems | ⟨hschema, hread, hpairs⟩)
    · have hindex : db.store.namePrefixes = [] := by
        rw [List.eq_nil_iff_forall_not_mem]
        rintro ⟨h, key⟩ hmem
        obtain ⟨n, row, hrow, -⟩ := (hs.index h key).mp hmem
        have hitem := Dict.get?_eq_some.mp hrow.get
        rw [hitems] at hitem
        cases hitem
      refine ⟨⟨[], []⟩, ?_, ⟨?_, List.forall_mem_nil _⟩⟩
      · simp [salvageRecovery, copyContent, copyPairs, hitems, hindex, pure, Except.pure]
      · rw [hitems]
        exact List.forall_mem_nil _
    · refine ⟨⟨db.store.content.items.map fun e => Column.value e.1 e.2, db.store.namePrefixes⟩,
        ?_, ?_, ?_⟩
      · simp only [salvageRecovery, copyContent_schema hschema hread,
          copyPairs_of_readable hs.nodup hpairs]
      · intro e he _
        exact ⟨_, List.mem_map_of_mem he, fun _ => rfl⟩
      · intro r hr n key hne hnu hbytes hkey i hi
        obtain ⟨e, he, rfl⟩ := List.mem_map.mp hr
        obtain ⟨m, hm⟩ := hs.row e.1 e.2 (Dict.get?_eq_some.mpr he)
        have hname : m = n := by
          apply Name.encode_inj hm.encodable hne
          rw [← hm.nameBytes]
          exact SqlValue.blob.inj hbytes
        obtain rfl := SqlValue.blob.inj hkey
        exact (hs.index _ _).mpr ⟨m, e.2, hm, i, hname ▸ hi, hname ▸ rfl⟩

open ContentStore

def editionFile (columns : List Column) : Database :=
  letI := Data.paddedHash
  { store := holding (signedHi editionName), columns }

omit [Hashlib] in
theorem represented_editionFile (columns : List Column) : letI := Data.paddedHash
    (editionFile columns).store.Represented :=
  letI := Data.paddedHash
  (Represented.empty rfl rfl : Represented {}).apply
    (.insert editionName (signedHi editionName) 0)

omit [Hashlib] in
theorem fresh_file_recovered : letI := Data.paddedHash
    ∃ t, (editionFile Column.schema).salvageRecovery = .ok t ∧
      (editionFile Column.schema).Faithful t :=
  letI := Data.paddedHash
  (salvage_faithful_iff (represented_editionFile _) (.inl rfl)).mpr
    (.inr ⟨rfl, fun _ _ => rfl, fun _ _ => rfl⟩)

omit [Hashlib] in
/-- The row of a migrated file, which can be read, is lost with its index pairs: the copy puts its
missing freshness period into a column that must not be null. -/
theorem migrated_file_lost : letI := Data.paddedHash
    let file := editionFile (Column.migrate Column.legacy)
    (∃ e ∈ file.store.content.items, file.readable e.1 = true) ∧
      file.salvageRecovery = .ok ⟨[], []⟩ ∧
      ¬ ∃ t, file.salvageRecovery = .ok t ∧ file.Faithful t := by
  let := Data.paddedHash
  intro file
  refine ⟨⟨_, List.mem_cons_self, rfl⟩, rfl, ?_⟩
  rintro ⟨t, ht, hfaithful⟩
  obtain rfl : _ = t := Except.ok.inj ht
  obtain ⟨r, hr, -⟩ := hfaithful.present _ List.mem_cons_self rfl
  cases hr

end Database

end RnsIcn
