import RnsIcn.Wire.Packet

/-! # Parsing packets

The parsers read a byte string from the left and return what is left of it. Each
packet type names its own error for a buffer that is too short, except where
`struct.unpack` fails first.
-/

namespace RnsIcn

open Fallible

def PyError.text : PyError → String
  | .nameError msg | .interestError msg | .dataError msg | .subscribeError msg
  | .invalidateError msg | .nackError msg | .discoveryError msg | .accessError msg
  | .manifestError msg | .contentManifestError msg | .emptyContentError msg
  | .missingChunkError msg | .hashMismatchError msg | .integrityError msg | .signatureError msg
  | .valueError msg | .runtimeError msg => msg
  | .keyError key => "'" ++ key ++ "'"
  | .unsupportedVersionError version =>
    s!"unsupported protocol version {version} (this build speaks [1])"
  | .indexError => "index out of range"
  | .structError | .overflowError | .timeoutError | .cancelledError | .typeError => ""

def hexStr (n : ℕ) : String := "0x" ++ String.ofList (Nat.toDigits 16 n)

namespace Parse

def readByte (e : PyError) : Bytes → Except PyError (UInt8 × Bytes)
  | [] => .error e
  | b :: data => .ok (b, data)

def readBytes (count : ℕ) (e : PyError) (data : Bytes) : Except PyError (Bytes × Bytes) :=
  if data.length < count then .error e else .ok (data.take count, data.drop count)

def readNat (width : ℕ) (e : PyError) (data : Bytes) : Except PyError (ℕ × Bytes) := do
  let (b, data) ← readBytes width e data
  return (ByteString.toNatBE b, data)

def readVarint (data : Bytes) : Except PyError (ℕ × Bytes) := do
  let (b, data) ← readByte (.interestError "buffer too short for varint") data
  if b < 0xFD then return (b.toNat, data)
  else if b = 0xFD then readNat 2 .structError data
  else if b = 0xFE then readNat 4 .structError data
  else readNat 8 .structError data

def readType (type : PacketType) (label : String) (err : String → PyError) :
    Bytes → Except PyError Bytes
  | [] => .error .indexError
  | b :: data =>
    if b = type.value then .ok data
    else .error (err ("expected " ++ label ++ " type byte, got " ++ hexStr b.toNat))

/-- `_parse_version` -/
def readVersion (err : String → PyError) (data : Bytes) : Except PyError (ℕ × Bytes) := do
  let (b, data) ← readByte (err "buffer too short for protocol version") data
  if b.toNat ∈ SUPPORTED_VERSIONS then return (b.toNat, data)
  else throw (.unsupportedVersionError b.toNat)

def readName (err : String → PyError) (data : Bytes) : Except PyError (Name × Bytes) := do
  let (nameLen, data) ← readVarint data
  let (nameBytes, data) ← readBytes nameLen (err "buffer too short for name") data
  return (← Name.fromBytes nameBytes, data)

def readOpt {α : Type} (isSet : Bool) (read : Bytes → Except PyError (α × Bytes)) (data : Bytes) :
    Except PyError (Option α × Bytes) :=
  if isSet then do
    let (x, data) ← read data
    return (some x, data)
  else .ok (none, data)

def hasFlag (flags mask : UInt8) : Bool := flags &&& mask != 0

end Parse

open Parse

def InterestSelector.fromBytes (data : Bytes) : Except PyError (InterestSelector × Bytes) := do
  let (flags, data) ← readByte (.interestError "buffer too short for selector") data
  if hasFlag flags 0x02 && hasFlag flags 0x04 then
    throw (.interestError "selector sets both LATEST and OLDEST")
  let (minSequence, data) ← readOpt (hasFlag flags 0x01)
    (readNat 8 (.interestError "buffer too short for selector min_sequence")) data
  let child : ChildSelector :=
    if hasFlag flags 0x02 then .latest else if hasFlag flags 0x04 then .oldest else .none
  return ({ minSequence, child }, data)

def Interest.fromBytes (data : Bytes) : Except PyError Interest := do
  let data ← readType .interest "INTEREST" .interestError data
  let (_, data) ← readVersion .interestError data
  let (name, data) ← readName .interestError data
  let (nonce, data) ← readBytes 8 (.interestError "buffer too short for nonce") data
  let (lifetimeMs, data) ← readNat 4 (.interestError "buffer too short for lifetime") data
  let (flags, data) ← readByte (.interestError "buffer too short for flags") data
  let (selector, data) ← readOpt (hasFlag flags 0x04) InterestSelector.fromBytes data
  let (hopLimit, _) ← readOpt (hasFlag flags 0x08)
    (readByte (.interestError "buffer too short for hop_limit")) data
  return {
    name, nonce, lifetimeMs, selector
    canBePrefix := hasFlag flags 0x01
    mustBeFresh := hasFlag flags 0x02
    hopLimit := (hopLimit.map UInt8.toNat).getD DEFAULT_HOP_LIMIT }

/-- `DataMetadata.from_bytes`: what follows the fields is ignored. -/
def DataMetadata.fromBytes (data : Bytes) : Except PyError DataMetadata := do
  let (flags, data) ← readByte (.dataError "buffer too short for metadata") data
  let (contentHash, data) ← readOpt (hasFlag flags 0x01)
    (readBytes 32 (.dataError "buffer too short for content_hash")) data
  let (sequence, data) ← readOpt (hasFlag flags 0x02)
    (readNat 8 (.dataError "buffer too short for sequence")) data
  let (age, data) ← readOpt (hasFlag flags 0x04)
    (readNat 8 (.dataError "buffer too short for staleness")) data
  let (freshnessPeriod, data) ← readOpt (hasFlag flags 0x08)
    (readNat 8 (.dataError "buffer too short for freshness_period")) data
  let (signedAt, _) ← readOpt (hasFlag flags 0x10)
    (readNat 8 (.dataError "buffer too short for signed_at")) data
  return {
    contentHash, sequence, freshnessPeriod, signedAt
    freshness := { fresh := age.isNone, ageSeconds := age.getD 0 }
    encrypted := hasFlag flags 0x20 }

def DataMetadata.read (data : Bytes) : Except PyError (DataMetadata × Bytes) := do
  let (len, data) ← readVarint data
  let (block, data) ← readBytes len (.dataError "buffer too short for metadata") data
  return (← DataMetadata.fromBytes block, data)

def Data.fromBytes (data : Bytes) : Except PyError Data := do
  let data ← readType .data "DATA" .dataError data
  let (_, data) ← readVersion .dataError data
  let (name, data) ← readName .dataError data
  let (contentLen, data) ← readNat 4 (.dataError "buffer too short for content length") data
  let (content, data) ← readBytes contentLen (.dataError "buffer too short for content") data
  let (flags, data) ← readByte (.dataError "buffer too short for flags") data
  let (metadata, data) ← readOpt (hasFlag flags 0x01) DataMetadata.read data
  let (signature, _) ← readOpt (hasFlag flags 0x02)
    (readBytes SIGNATURE_BYTES (.dataError "buffer too short for signature")) data
  return { name, content, signature, metadata := metadata.getD {} }

/-- `APSubscribe.from_bytes` raises its own error for an ill-formed varint or name. -/
def APSubscribe.fromBytes (data : Bytes) : Except PyError APSubscribe := do
  let data ← readType .apsSubscribe "APS_SUBSCRIBE" .subscribeError data
  let (_, data) ← readVersion .subscribeError data
  let (nameLen, data) ← (readVarint data).mapError fun e =>
    match e with
    | .interestError msg => .subscribeError msg
    | e => e
  let (nameBytes, data) ← readBytes nameLen (.subscribeError "buffer too short for name") data
  let name ← (Name.fromBytes nameBytes).mapError fun e =>
    .subscribeError ("invalid name: " ++ e.text)
  let (flags, _) ← readByte (.subscribeError "buffer too short for flags") data
  return { name, startFromNow := hasFlag flags 0x01 }

def PropPeer.fromBytes (data : Bytes) : Except PyError PropPeer := do
  match data with
  | [] => throw (.valueError "expected PROP_PEER type byte, got empty")
  | b :: _ =>
    if b ≠ PacketType.propPeer.value then
      throw (.valueError ("expected PROP_PEER type byte, got " ++ hexStr b.toNat))
  if data.length < 19 then throw (.valueError "buffer too short for PropPeer")
  let (version, data) ← readVersion .valueError (data.drop 1)
  let (rnsAddr, data) ← readBytes 16 .indexError data
  let (flags, _) ← readByte .indexError data
  return { version, rnsAddr, wantsSync := hasFlag flags 0x01 }

def CapPeer.fromBytes (data : Bytes) : Except PyError CapPeer := do
  match data with
  | [] => throw (.valueError "expected CAP_PEER type byte, got empty")
  | b :: _ =>
    if b ≠ PacketType.capPeer.value then
      throw (.valueError ("expected CAP_PEER type byte, got " ++ hexStr b.toNat))
  if data.length < 7 then throw (.valueError "buffer too short for CapPeer")
  let (version, data) ← readVersion .valueError (data.drop 1)
  let (role, data) ← readByte .indexError data
  let (features, _) ← readNat 4 .structError data
  return { version, role := role.toNat, features }

def Invalidate.fromBytes (data : Bytes) : Except PyError Invalidate := do
  let data ← readType .invalidate "INVALIDATE" .invalidateError data
  let (_, data) ← readVersion .invalidateError data
  let (name, data) ← readName .invalidateError data
  let (epoch, data) ← readNat 8 (.invalidateError "buffer too short for epoch") data
  let (flags, data) ← readByte (.invalidateError "buffer too short for flags") data
  let (signature, _) ← readOpt (hasFlag flags 0x02)
    (readBytes SIGNATURE_BYTES (.invalidateError "buffer too short for signature")) data
  return { name, epoch, isPrefix := hasFlag flags 0x01, signature }

def NackReason.ofByte (b : UInt8) : Except PyError NackReason :=
  if b = 0x01 then .ok .noRoute
  else if b = 0x02 then .ok .congestion
  else if b = 0x03 then .ok .noData
  else .error (.nackError ("unknown nack reason: " ++ hexStr b.toNat))

def Nack.fromBytes (data : Bytes) : Except PyError Nack := do
  let data ← readType .nack "NACK" .nackError data
  let (_, data) ← readVersion .nackError data
  let (name, data) ← readName .nackError data
  let (b, _) ← readByte (.nackError "buffer too short for reason") data
  return { name, reason := ← NackReason.ofByte b }

def parsePacket : Bytes → Except PyError Packet
  | [] => .error (.valueError "empty packet data")
  | b :: rest =>
    let data := b :: rest
    if b = PacketType.interest.value then .interest <$> Interest.fromBytes data
    else if b = PacketType.data.value then .data <$> Data.fromBytes data
    else if b = PacketType.apsSubscribe.value then .subscribe <$> APSubscribe.fromBytes data
    else if b = PacketType.propPeer.value then .peer <$> PropPeer.fromBytes data
    else if b = PacketType.capPeer.value then .capPeer <$> CapPeer.fromBytes data
    else if b = PacketType.invalidate.value then .invalidate <$> Invalidate.fromBytes data
    else if b = PacketType.nack.value then .nack <$> Nack.fromBytes data
    else .error (.valueError ("unknown packet type: " ++ hexStr b.toNat))

theorem Parse.readBytes_length {count : ℕ} {e : PyError} {data b rest : Bytes}
    (h : readBytes count e data = .ok (b, rest)) : b.length = count := by
  rw [readBytes, ite_error_eq_ok] at h
  obtain ⟨rfl, -⟩ := Prod.mk.inj (Except.ok.inj h.2)
  rw [List.length_take]
  omega

theorem Data.fromBytes_signature {b sig : Bytes} {d : Data} (h : Data.fromBytes b = .ok d)
    (hs : d.signature = some sig) : sig.length = SIGNATURE_BYTES := by
  simp only [Data.fromBytes, bind_eq_ok, pure_eq_ok, Prod.exists] at h
  obtain ⟨_, -, _, _, -, _, _, -, _, _, -, _, _, -, _, _, -, _, _, -, signature, _, hread, rfl⟩ := h
  obtain rfl : signature = some sig := hs
  rw [readOpt] at hread
  split at hread
  · simp only [bind_eq_ok, pure_eq_ok, Prod.exists] at hread
    obtain ⟨_, _, hb, he⟩ := hread
    obtain ⟨he, -⟩ := Prod.mk.inj he
    exact Option.some.inj he ▸ readBytes_length hb
  · cases hread

theorem Data.fromBytes_name {b : Bytes} {d : Data} (h : Data.fromBytes b = .ok d) :
    d.name.Encodable := by
  simp only [Data.fromBytes, bind_eq_ok, pure_eq_ok, Prod.exists] at h
  obtain ⟨_, -, _, _, -, name, _, hname, _, _, -, _, _, -, _, _, -, _, _, -, _, _, -, rfl⟩ := h
  simp only [readName, bind_eq_ok, pure_eq_ok, Prod.exists] at hname
  obtain ⟨_, _, -, _, _, -, n, hn, he⟩ := hname
  obtain ⟨rfl, -⟩ := Prod.mk.inj he
  exact Name.encodable_of_fromBytes hn

theorem parsePacket_data {raw : Bytes} {d : Data} (h : parsePacket raw = .ok (.data d)) :
    Data.fromBytes raw = .ok d := by
  cases raw with
  | nil => cases h
  | cons b rest =>
    simp only [parsePacket] at h
    repeat' split at h
    all_goals first | cases h | (obtain ⟨x, hx, he⟩ := map_eq_ok.mp h; cases he)
    exact hx

end RnsIcn
