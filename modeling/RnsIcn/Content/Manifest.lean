import RnsIcn.Wire.Display
import RnsIcn.Wire.Packet

/-! # Manifests

A manifest lists what a producer publishes, a content manifest the chunks of one large
content. Both travel as JSON, with names in their display form and bytes in hex.
Since `json.loads(json.dumps(d))` is the document `d`, the text is left out here.
-/

namespace RnsIcn

inductive Json where
  | null
  | bool (b : Bool)
  | int (n : ℤ)
  | str (s : String)
  | list (items : List Json)
  | dict (members : List (String × Json))

/-- A key of a dictionary: a string or another value that can be hashed. -/
inductive Key where
  | str (s : String)
  | other (text : String)
  deriving DecidableEq, Repr

namespace Json

def item (d : Json) (key : String) : Except PyError Json :=
  match d with
  | .dict members =>
    match members.lookup key with
    | some v => .ok v
    | none => .error (.keyError key)
  | _ => .error .typeError

/-- `d.get(key)` -/
def get (d : Json) (key : String) : Except PyError (Option Json) :=
  match d with
  | .dict members => .ok (members.lookup key)
  | _ => .error .typeError

def truthy : Json → Bool
  | .null => false
  | .bool b => b
  | .int n => n != 0
  | .str s => !s.isEmpty
  | .list items => !items.isEmpty
  | .dict members => !members.isEmpty

def shown : Json → String
  | .null => "None"
  | .bool b => if b then "True" else "False"
  | .int n => toString n
  | .str s => s
  | .list _ | .dict _ => ""

/-- The value as a key. Python hashes no list and no dictionary, and takes `True` for `1`. -/
def key : Json → Except PyError Key
  | .null => .ok (.other "None")
  | .bool b => .ok (.other (if b then "1" else "0"))
  | .int n => .ok (.other (toString n))
  | .str s => .ok (.str s)
  | .list _ | .dict _ => .error .typeError

def iter : Json → Except PyError (List Json)
  | .list items => .ok items
  | .dict members => .ok (members.map fun m => .str m.1)
  | .str s => .ok (s.toList.map fun c => .str (String.ofList [c]))
  | _ => .error .typeError

def notNull : Json → Option Json
  | .null => none
  | v => some v

def asInt : Json → Except PyError ℤ
  | .int n => .ok n
  | _ => .error .typeError

def asStr : Json → Except PyError String
  | .str s => .ok s
  | _ => .error .typeError

def intItem (d : Json) (key : String) : Except PyError ℤ := do (← d.item key).asInt

def strItem (d : Json) (key : String) : Except PyError String := do (← d.item key).asStr

def listItem (d : Json) (key : String) : Except PyError (List Json) := do (← d.item key).iter

def getInt (d : Json) (key : String) : Except PyError (Option ℤ) := do
  match ← d.get key with
  | none | some .null => return none
  | some v => return some (← v.asInt)

def getOr (d : Json) (key : String) (default : Json) : Except PyError Json := do
  return (← d.get key).getD default

def hexItem (d : Json) (key : String) : Except PyError Bytes := do
  readHex (← d.strItem key).toList

def getTruthy {α : Type} (d : Json) (key : String) (read : String → Except PyError α) :
    Except PyError (Option α) := do
  match (← d.get key).filter truthy with
  | none => return none
  | some v => return some (← read (← v.asStr))

def getHex (d : Json) (key : String) : Except PyError (Option Bytes) :=
  d.getTruthy key fun s => readHex s.toList

def member {α : Type} (key : String) (write : α → Json) (x : Option α) : List (String × Json) :=
  (x.map fun a => (key, write a)).toList

def hex (b : Bytes) : Json := .str (Name.hex b)

def name (n : Name) : Json := .str n.str

end Json

def parseLabel (p : List Char) : Bytes := (fromHex p).getD (encodeUtf8 (String.ofList p))

def parseName (s : String) : Except PyError Name := do
  let s := s.toList.dropWhile (· == '/')
  let (s, contentHash) ← match splitHash s with
    | some (before, after) => do
      let contentHash ← readHex after
      pure (before, some contentHash)
    | none => pure (s, none)
  match (s.splitOn '/').filter (!·.isEmpty) with
  | [] => throw (.manifestError "empty name")
  | addr :: labels =>
    let rnsAddr ← readHex addr
    if rnsAddr.length ≠ RNS_ADDR_BYTES then
      throw (.manifestError "RNS address must be 16 bytes")
    else Name.new rnsAddr (labels.map parseLabel) contentHash

/-- `_parse_name(d[key])` -/
def Json.nameItem (d : Json) (key : String) : Except PyError Name := do
  parseName (← d.strItem key)

/-- A chunk of a manifest. What is read from JSON is not checked, so the fields that are not decoded
may be anything. `null` is `None`. -/
structure ChunkRef where
  label : Json
  contentHash : Bytes
  size : Json
  sequence : Json := .null

namespace ChunkRef

def toDict (c : ChunkRef) : Json :=
  .dict ([("label", c.label), ("content_hash", .hex c.contentHash), ("size", c.size)] ++
    Json.member "sequence" id c.sequence.notNull)

def fromDict (d : Json) : Except PyError ChunkRef := do
  let label ← d.item "label"
  let contentHash ← d.hexItem "content_hash"
  let size ← d.item "size"
  let sequence ← d.getOr "sequence" .null
  return { label, contentHash, size, sequence }

end ChunkRef

structure ContentManifest where
  name : Name
  chunks : List ChunkRef
  totalSize : Json
  contentHash : Option Bytes := none
  sequence : Json := .int 1
  timestamp : Json := .int 0

namespace ContentManifest

def toDict (m : ContentManifest) : Json :=
  .dict ([("name", .name m.name), ("chunks", .list (m.chunks.map ChunkRef.toDict)),
    ("total_size", m.totalSize), ("sequence", m.sequence), ("timestamp", m.timestamp)] ++
    Json.member "content_hash" .hex m.contentHash)

def fromDict (d : Json) : Except PyError ContentManifest := do
  let name ← d.nameItem "name"
  let chunks ← (← d.listItem "chunks").mapM ChunkRef.fromDict
  let totalSize ← d.item "total_size"
  let contentHash ← d.getHex "content_hash"
  let sequence ← d.getOr "sequence" (.int 1)
  let timestamp ← d.getOr "timestamp" (.int 0)
  return { name, chunks, totalSize, contentHash, sequence, timestamp }

/-- `ContentManifest.create` at clock reading `now`, for chunks with integers as sizes. -/
def create (name : Name) (chunks : List ChunkRef) (contentHash : Option Bytes) (sequence : ℤ)
    (now : ℤ) : Except PyError ContentManifest := do
  let sizes ← chunks.mapM fun c => c.size.asInt
  return {
    name, chunks, totalSize := .int sizes.sum, contentHash, sequence := .int sequence
    timestamp := .int now }

end ContentManifest

inductive EntryKind where
  | blob | stream | manifest
  deriving DecidableEq, Repr

namespace EntryKind

def value : EntryKind → String
  | blob => "blob"
  | stream => "stream"
  | manifest => "manifest"

def ofValue (s : String) : Except PyError EntryKind :=
  if s = "blob" then .ok blob
  else if s = "stream" then .ok stream
  else if s = "manifest" then .ok manifest
  else .error (.valueError ("'" ++ s ++ "' is not a valid EntryKind"))

end EntryKind

structure ManifestEntry where
  kind : EntryKind
  label : String
  name : Name
  contentHash : Option Bytes := none
  size : Option ℤ := none
  latestSequence : Option ℤ := none
  totalItems : Option ℤ := none
  startTime : Option ℤ := none
  endTime : Option ℤ := none
  deriving DecidableEq, Repr

namespace ManifestEntry

def toDict (e : ManifestEntry) : Json :=
  .dict ([("kind", .str e.kind.value), ("label", .str e.label), ("name", .name e.name)] ++
    Json.member "content_hash" .hex e.contentHash ++ Json.member "size" .int e.size ++
    Json.member "latest_sequence" .int e.latestSequence ++
    Json.member "total_items" .int e.totalItems ++ Json.member "start_time" .int e.startTime ++
    Json.member "end_time" .int e.endTime)

def fromDict (d : Json) : Except PyError ManifestEntry := do
  let kind ← EntryKind.ofValue (← d.strItem "kind")
  let label ← d.strItem "label"
  let name ← d.nameItem "name"
  let contentHash ← d.getHex "content_hash"
  let size ← d.getInt "size"
  let latestSequence ← d.getInt "latest_sequence"
  let totalItems ← d.getInt "total_items"
  let startTime ← d.getInt "start_time"
  let endTime ← d.getInt "end_time"
  return { kind, label, name, contentHash, size, latestSequence, totalItems, startTime, endTime }

end ManifestEntry

structure Manifest where
  producer : Bytes
  sequence : ℤ
  timestamp : ℤ
  entries : List ManifestEntry := []
  previous : Option Name := none
  deriving DecidableEq, Repr

namespace Manifest

def manifestName (m : Manifest) : Except PyError Name :=
  Name.new m.producer [[0x6d, 0x61, 0x6e, 0x69, 0x66, 0x65, 0x73, 0x74]]

def toDict (m : Manifest) : Json :=
  .dict ([("producer", .hex m.producer), ("sequence", .int m.sequence),
    ("timestamp", .int m.timestamp), ("entries", .list (m.entries.map ManifestEntry.toDict))] ++
    Json.member "previous" .name m.previous)

def fromDict (d : Json) : Except PyError Manifest := do
  let producer ← d.hexItem "producer"
  let sequence ← d.intItem "sequence"
  let timestamp ← d.intItem "timestamp"
  let entries ← (← d.listItem "entries").mapM ManifestEntry.fromDict
  let previous ← d.getTruthy "previous" parseName
  return { producer, sequence, timestamp, entries, previous }

end Manifest

end RnsIcn
