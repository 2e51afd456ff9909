import Mathlib.Data.List.Sort
import RnsIcn.Lib.Dict
import RnsIcn.Wire.Discovery

/-! # The Content Store

A table of rows keyed by the hash of the unpinned name, and an index of pairs
that relate each prefix of a stored name to its row. Reads first delete the rows
that have expired.
-/

namespace RnsIcn

/-- The `metadata_json` column, as the record that the text encodes. -/
structure MetadataJson where
  contentHash : Bytes
  sequence : Option ℕ
  fresh : Bool
  ageSeconds : ℕ
  freshnessPeriod : Option ℕ
  signedAt : Option ℕ
  encrypted : Bool
  signature : Option Bytes
  deriving DecidableEq, Repr

structure Row where
  nameBytes : Bytes
  contentBytes : Bytes
  contentHash : Bytes
  sequence : Option ℕ
  freshness : Bool
  ageSeconds : ℕ
  freshnessPeriod : Option ℕ
  metadataJson : MetadataJson
  insertedAt : ℕ
  expiresAt : Option ℕ
  sizeBytes : ℕ
  deriving DecidableEq, Repr

structure ContentStore where
  content : Dict Bytes Row := .empty
  namePrefixes : List (Bytes × Bytes) := []
  max : ℕ := 10000
  defaultTtl : Option ℕ := none
  prefixTtls : List (String × ℕ) := []

/-- The integers that sqlite3 binds; a larger one raises `OverflowError`. -/
def sqliteInt (n : ℕ) : Except PyError Unit :=
  if n < 2 ^ 63 then .ok () else .error .overflowError

def sqliteOptInt : Option ℕ → Except PyError Unit
  | none => .ok ()
  | some n => sqliteInt n

/-- `content_hash or blake2b(content)` -/
def Data.rowHash [Hashlib] (d : Data) : Bytes :=
  (d.metadata.contentHash.filter (!·.isEmpty)).getD (blake2b d.content)

theorem Data.rowHash_eq [Hashlib] {d : Data} {b : Bytes} (h : d.metadata.contentHash = some b)
    (hb : b ≠ []) : d.rowHash = b := by
  simp [rowHash, h, Option.filter, hb]

theorem Data.rowHash_none [Hashlib] {d : Data} (h : d.metadata.contentHash = none) :
    d.rowHash = blake2b d.content := by
  simp [rowHash, h]

theorem Data.length_rowHash [Hashlib] {d : Data}
    (hlen : ∀ b, (blake2b b).length = CONTENT_HASH_BYTES)
    (h : ∀ b ∈ d.metadata.contentHash, b.length = CONTENT_HASH_BYTES) :
    d.rowHash.length = CONTENT_HASH_BYTES := by
  cases hc : d.metadata.contentHash with
  | none => rw [rowHash_none hc, hlen]
  | some b =>
    have hb := h b hc
    have hne : b ≠ [] := by
      rintro rfl
      cases hb
    rw [rowHash_eq hc hne, hb]

namespace ContentStore

variable [Hashlib]

/-- `_name_hash` and `_prefix_hash`. -/
def nameHash (n : Name) : Except PyError Bytes := do return blake2b (← n.toBytes)

/-- `_compute_ttl`: the longest configured string that begins the display form. -/
def computeTtl (s : ContentStore) (n : Name) : Option ℕ :=
  let byLength := s.prefixTtls.insertionSort fun x y => y.1.length ≤ x.1.length
  match byLength.find? fun (prefixStr, _) => prefixStr.toList.isPrefixOf n.str.toList with
  | some (_, ttl) => some ttl
  | none => s.defaultTtl

def calculateExpiresAt (insertedAt : ℕ) : Option ℕ → Option ℕ
  | none => none
  | some ttl => if ttl = 0 then none else some (insertedAt + ttl)

/-- The row that `insert` writes for `d` under the encoded name. -/
def makeRow (nameBytes : Bytes) (d : Data) (now : ℕ) (ttl : Option ℕ) : Row :=
  let contentHash := d.rowHash
  let fresh := d.metadata.freshness.fresh
  let ageSeconds := if fresh then 0 else d.metadata.freshness.ageSeconds
  { nameBytes
    contentBytes := d.content
    contentHash
    sequence := d.metadata.sequence
    freshness := fresh
    ageSeconds
    freshnessPeriod := d.metadata.freshnessPeriod
    metadataJson :=
      { contentHash, sequence := d.metadata.sequence, fresh, ageSeconds
        freshnessPeriod := d.metadata.freshnessPeriod, signedAt := d.metadata.signedAt
        encrypted := d.metadata.encrypted, signature := d.signature }
    insertedAt := now
    expiresAt := calculateExpiresAt now ttl
    sizeBytes := d.content.length }

def bindRow (row : Row) : Except PyError Unit := do
  sqliteOptInt row.sequence
  sqliteInt row.ageSeconds
  sqliteOptInt row.freshnessPeriod
  sqliteInt row.insertedAt
  sqliteOptInt row.expiresAt
  sqliteInt row.sizeBytes

/-- The hashes of the names formed by the first `1, …, n.len()` components. -/
def prefixHashes (n : Name) : Except PyError (List Bytes) :=
  (List.range n.len).mapM fun i => do nameHash (← Name.new n.rnsAddr (n.path.take i))

def deleteRow (s : ContentStore) (key : Bytes) : ContentStore :=
  { s with
    content := s.content.erase key
    namePrefixes := s.namePrefixes.filter fun p => p.2 ≠ key }

def deleteRows (s : ContentStore) (keys : List Bytes) : ContentStore :=
  keys.foldl deleteRow s

def lruKeys (s : ContentStore) (count : ℕ) : List Bytes :=
  ((s.content.items.insertionSort fun x y => x.2.insertedAt ≤ y.2.insertedAt).take count).map
    Prod.fst

def evictLruInternal (s : ContentStore) (count : ℕ) : ContentStore :=
  s.deleteRows (s.lruKeys count)

def upsert (s : ContentStore) (key : Bytes) (row : Row) (prefixes : List Bytes) : ContentStore :=
  { s with
    content := s.content.set key row
    namePrefixes :=
      s.namePrefixes.filter (fun p => p.2 ≠ key) ++ prefixes.dedup.map fun h => (h, key) }

/-- `insert` at clock reading `now`. A failure leaves the transaction rolled back. -/
def insert (s : ContentStore) (name : Name) (d : Data) (now : ℕ) :
    Except PyError ContentStore := do
  let name := name.withoutContentHash
  let nameBytes ← name.toBytes
  let row := makeRow nameBytes d now (s.computeTtl name)
  bindRow row
  let prefixes ← prefixHashes name
  let s := s.upsert (blake2b nameBytes) row prefixes
  return if s.max < s.content.size then s.evictLruInternal (s.content.size - s.max) else s

def expiredKeys (s : ContentStore) (now : ℕ) : List Bytes :=
  (s.content.items.filter fun e => e.2.expiresAt.any (· ≤ now)).map Prod.fst

def purgeExpired (s : ContentStore) (now : ℕ) : ContentStore := s.deleteRows (s.expiredKeys now)

def verifyContent (row : Row) : Bool := blake2b row.contentBytes == row.metadataJson.contentHash

/-- `_parse_signature`: an empty signature reads back as none. -/
def parseSignature (row : Row) : Option Bytes :=
  row.metadataJson.signature.filter fun sig => !sig.isEmpty

/-- `_parse_metadata`: freshness is computed from the age of the row. -/
def parseMetadata (row : Row) (now : ℕ) : DataMetadata :=
  let period := row.freshnessPeriod <|> row.metadataJson.freshnessPeriod
  let age := now - row.insertedAt
  { contentHash := some row.metadataJson.contentHash
    sequence := row.metadataJson.sequence
    freshness :=
      { fresh := row.metadataJson.fresh && period.all (age < ·), ageSeconds := age }
    freshnessPeriod := period
    signedAt := row.metadataJson.signedAt
    encrypted := row.metadataJson.encrypted }

def rowData (row : Row) (name : Name) (now : ℕ) : Data where
  name := name
  content := row.contentBytes
  signature := parseSignature row
  metadata := parseMetadata row now

def read (s : ContentStore) (name : Name) (now : ℕ) : Except PyError (Option Data) := do
  let key ← nameHash name.withoutContentHash
  match s.content.get? key with
  | none => return none
  | some row => do
    let storedName ← Name.fromBytes row.nameBytes
    if !verifyContent row then return none
    else if name.contentHash.any fun pin => blake2b row.contentBytes != pin then return none
    else return some (rowData row storedName now)

def get (s : ContentStore) (name : Name) (now : ℕ) :
    ContentStore × Except PyError (Option Data) :=
  let s := s.purgeExpired now
  (s, s.read name now)

def childLe : ChildSelector → Row → Row → Bool
  | .none, x, y => y.insertedAt ≤ x.insertedAt
  | .latest, x, y =>
    y.sequence.getD 0 < x.sequence.getD 0 ||
      (x.sequence == y.sequence && y.insertedAt ≤ x.insertedAt)
  | .oldest, x, y =>
    x.sequence.getD 0 < y.sequence.getD 0 ||
      (x.sequence == y.sequence && y.insertedAt ≤ x.insertedAt)

/-- The `WHERE` clause: a child selector needs a sequence, at least the floor. -/
def childWhere (child : ChildSelector) (minSequence : Option ℕ) (row : Row) : Bool :=
  child == .none || row.sequence.any fun seq => minSequence.all (· ≤ seq)

/-- The rows under a prefix in the order of the query. The join lists them by their key in the
prefix index, and the sort leaves equal rows in that order. -/
def prefixRows (s : ContentStore) (prefixHash : Bytes) (child : ChildSelector)
    (minSequence : Option ℕ) : List Row :=
  (((s.content.items.filter fun e =>
    s.namePrefixes.contains (prefixHash, e.1) && childWhere child minSequence e.2).insertionSort
      fun e f => e.1 ≤ f.1).map Prod.snd).insertionSort fun x y => childLe child x y

omit [Hashlib] in
theorem mem_prefixRows {s : ContentStore} {x : Bytes} {child : ChildSelector} {floor : Option ℕ}
    {row : Row} : row ∈ s.prefixRows x child floor ↔
      ∃ key, (key, row) ∈ s.content.items ∧ (x, key) ∈ s.namePrefixes ∧
        childWhere child floor row = true := by
  simp [prefixRows, and_assoc]

/-- The first row of the query that is not reserved and matches its hash. -/
def firstValid (child : ChildSelector) (now : ℕ) : List Row → Except PyError (Option Data)
  | [] => .ok none
  | row :: rows => do
    let storedName ← Name.fromBytes row.nameBytes
    if child != .none && Discovery.isReserved storedName then firstValid child now rows
    else if verifyContent row then return some (rowData row storedName now)
    else firstValid child now rows

/-- The answer of `get_prefix` from a store whose expired rows are gone. -/
def readPrefix (s : ContentStore) (name : Name) (child : ChildSelector)
    (minSequence : Option ℕ) (now : ℕ) : Except PyError (Option Data) := do
  let prefixHash ← nameHash name
  if child != .none then sqliteOptInt minSequence
  firstValid child now (s.prefixRows prefixHash child minSequence)

def getPrefix (s : ContentStore) (name : Name) (child : ChildSelector)
    (minSequence : Option ℕ) (now : ℕ) : ContentStore × Except PyError (Option Data) :=
  let s := s.purgeExpired now
  (s, s.readPrefix name child minSequence now)

def evictLru (s : ContentStore) (targetCount : ℕ) : ContentStore :=
  s.evictLruInternal (s.content.size - targetCount)

def remove (s : ContentStore) (name : Name) : Except PyError (ContentStore × Bool) := do
  let key ← nameHash name
  return (s.deleteRow key, s.content.contains key)

/-- The keys that `invalidate` deletes: the exact name, or all under a prefix. -/
def invalidatedKeys (s : ContentStore) (hash : Bytes) (byPrefix : Bool) : List Bytes :=
  if byPrefix then (s.namePrefixes.filter fun p => p.1 = hash).map Prod.snd else [hash]

def invalidate (s : ContentStore) (name : Name) (byPrefix : Bool) :
    Except PyError (ContentStore × ℕ) := do
  let keys := s.invalidatedKeys (← nameHash name) byPrefix
  return (s.deleteRows keys, keys.countP s.content.contains)

def contains (s : ContentStore) (name : Name) : Except PyError Bool := do
  return s.content.contains (← nameHash name)

/-- The names of the rows that match their hash, as the `_entries` view lists them. -/
def entryNames (s : ContentStore) : Except PyError (List Name) :=
  (s.content.values.filter verifyContent).mapM fun row => Name.fromBytes row.nameBytes

end ContentStore

end RnsIcn
