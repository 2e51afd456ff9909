import RnsIcn.Wire.Name

/-! # Packets

Interest, Data and the control packets with their encoders, and the byte strings
that a producer signs. Encoders fail where `struct.pack` does.
-/

namespace RnsIcn

def SIGNATURE_BYTES : ℕ := 64
def PROTOCOL_VERSION : ℕ := 1
def SUPPORTED_VERSIONS : List ℕ := [1]
def DEFAULT_HOP_LIMIT : ℕ := 16

def DATA_DOMAIN : Bytes := [0x69, 0x63, 0x6e, 0x2d, 0x64, 0x61, 0x74, 0x61, 0x01]

def INVALIDATE_DOMAIN : Bytes :=
  [0x69, 0x63, 0x6e, 0x2d, 0x69, 0x6e, 0x76, 0x61, 0x6c, 0x69, 0x64, 0x61, 0x74, 0x65, 0x01]

def structPack (width n : ℕ) : Except PyError Bytes :=
  if n < 256 ^ width then .ok (ByteString.ofNatBE width n) else .error .structError

theorem structPack_of_lt {width n : ℕ} (h : n < 256 ^ width) :
    structPack width n = .ok (ByteString.ofNatBE width n) := if_pos h

def writeVarint (value : ℕ) : Except PyError Bytes :=
  if value < 0xFD then structPack 1 value
  else if value ≤ 0xFFFF then do return 0xFD :: (← structPack 2 value)
  else if value ≤ 0xFFFFFFFF then do return 0xFE :: (← structPack 4 value)
  else do return 0xFF :: (← structPack 8 value)

inductive PacketType where
  | interest | data | apsSubscribe | propPeer | capPeer | invalidate | nack
  deriving DecidableEq, Repr

def PacketType.value : PacketType → UInt8
  | interest => 0x01
  | data => 0x02
  | apsSubscribe => 0x03
  | propPeer => 0x04
  | capPeer => 0x05
  | invalidate => 0x06
  | nack => 0x07

def optField {α : Type} (write : α → Except PyError Bytes) : Option α → Except PyError Bytes
  | none => .ok []
  | some x => write x

def flag (mask : UInt8) (b : Bool) : UInt8 := if b then mask else 0

def header (type : PacketType) (n : Name) : Except PyError Bytes := do
  let nameBytes ← n.toBytes
  let nameLen ← writeVarint nameBytes.length
  return [type.value, UInt8.ofNat PROTOCOL_VERSION] ++ nameLen ++ nameBytes

inductive ChildSelector where
  | none | latest | oldest
  deriving DecidableEq, Repr

structure InterestSelector where
  minSequence : Option ℕ := none
  child : ChildSelector := .none
  deriving DecidableEq, Repr

namespace InterestSelector

def isEmpty (s : InterestSelector) : Bool := s.minSequence.isNone && s.child == .none

def flags (s : InterestSelector) : UInt8 :=
  flag 0x01 s.minSequence.isSome ||| flag 0x02 (s.child == .latest) |||
    flag 0x04 (s.child == .oldest)

def toBytes (s : InterestSelector) : Except PyError Bytes := do
  return s.flags :: (← optField (structPack 8) s.minSequence)

end InterestSelector

structure Interest where
  name : Name
  nonce : Bytes
  lifetimeMs : ℕ := 4000
  canBePrefix : Bool := false
  mustBeFresh : Bool := false
  selector : Option InterestSelector := none
  hopLimit : ℕ := DEFAULT_HOP_LIMIT
  deriving DecidableEq, Repr

namespace Interest

def wireSelector (i : Interest) : Option InterestSelector :=
  i.selector.filter fun s => !s.isEmpty

def flags (i : Interest) : UInt8 :=
  flag 0x01 i.canBePrefix ||| flag 0x02 i.mustBeFresh ||| flag 0x04 i.wireSelector.isSome ||| 0x08

def toBytes (i : Interest) : Except PyError Bytes := do
  let head ← header .interest i.name
  let lifetime ← structPack 4 i.lifetimeMs
  let sel ← optField InterestSelector.toBytes i.wireSelector
  return head ++ i.nonce ++ lifetime ++ [i.flags] ++ sel ++ [UInt8.ofNat i.hopLimit]

def child (i : Interest) : ChildSelector := (i.selector.map InterestSelector.child).getD .none

/-- `selector.min_sequence`, if there is one. -/
def minSequence (i : Interest) : Option ℕ := i.selector.bind InterestSelector.minSequence

end Interest

structure Freshness where
  fresh : Bool := true
  ageSeconds : ℕ := 0
  deriving DecidableEq, Repr

structure DataMetadata where
  contentHash : Option Bytes := none
  sequence : Option ℕ := none
  freshness : Freshness := {}
  freshnessPeriod : Option ℕ := none
  signedAt : Option ℕ := none
  encrypted : Bool := false
  deriving DecidableEq, Repr

namespace DataMetadata

def flags (m : DataMetadata) : UInt8 :=
  flag 0x01 m.contentHash.isSome ||| flag 0x02 m.sequence.isSome |||
    flag 0x04 (!m.freshness.fresh) ||| flag 0x08 m.freshnessPeriod.isSome |||
    flag 0x10 m.signedAt.isSome ||| flag 0x20 m.encrypted

def toBytes (m : DataMetadata) : Except PyError Bytes := do
  let seq ← optField (structPack 8) m.sequence
  let age ← if m.freshness.fresh then pure [] else structPack 8 m.freshness.ageSeconds
  let period ← optField (structPack 8) m.freshnessPeriod
  let stamp ← optField (structPack 8) m.signedAt
  return m.flags :: (m.contentHash.getD [] ++ seq ++ age ++ period ++ stamp)

def isPresent (m : DataMetadata) : Bool :=
  m.contentHash.isSome || m.sequence.isSome || !m.freshness.fresh ||
    m.freshnessPeriod.isSome || m.signedAt.isSome || m.encrypted

end DataMetadata

structure Data where
  name : Name
  content : Bytes
  signature : Option Bytes := none
  metadata : DataMetadata := {}
  deriving DecidableEq, Repr

namespace Data

def toBytes (d : Data) : Except PyError Bytes := do
  let head ← header .data d.name
  let contentLen ← structPack 4 d.content.length
  let block ← if d.metadata.isPresent then do
      let metadata ← d.metadata.toBytes
      let len ← writeVarint metadata.length
      pure (len ++ metadata)
    else pure []
  return head ++ contentLen ++ d.content ++
    [flag 0x01 d.metadata.isPresent ||| flag 0x02 d.signature.isSome] ++ block ++
    d.signature.getD []

variable [Hashlib]

/-- `Data.new`: the content hash is filled in. -/
def new (name : Name) (content : Bytes) : Data :=
  { name, content, metadata := { contentHash := some (blake2b content) } }

def withSequence (d : Data) (seq : ℕ) : Data :=
  { d with metadata := { d.metadata with sequence := some seq } }

def withFreshnessPeriod (d : Data) (seconds : ℕ) : Data :=
  { d with metadata := { d.metadata with freshnessPeriod := some seconds } }

def verifyContentHash (d : Data) : Bool :=
  match d.metadata.contentHash with
  | none => true
  | some h => blake2b d.content == h

def signedTail (m : DataMetadata) : Except PyError Bytes := do
  let seq ← optField (fun n => do return 0x01 :: (← structPack 8 n)) m.sequence
  let stamp ← optField (fun n => do return 0x02 :: (← structPack 8 n)) m.signedAt
  return seq ++ stamp ++ if m.encrypted then [0x03, 0x01] else []

/-- The bytes that `signed_hash` feeds to the hash. -/
def signedBytes (d : Data) : Except PyError Bytes := do
  let nameBytes ← d.name.toBytes
  let tail ← signedTail d.metadata
  return DATA_DOMAIN ++ nameBytes ++ d.content ++ d.metadata.contentHash.getD [] ++ tail

def signedHash (d : Data) : Except PyError Bytes := do return blake2b (← d.signedBytes)

/-- `Data.sign` at clock reading `now`; an already set `signed_at` is kept. -/
def sign (d : Data) (signer : Bytes → Bytes) (now : ℕ) (signedAt : Option ℕ := none) :
    Except PyError Data := do
  let stamp := d.metadata.signedAt.getD (signedAt.getD now)
  let d := { d with metadata := { d.metadata with signedAt := some stamp } }
  let sig := signer (← d.signedHash)
  if sig.length ≠ SIGNATURE_BYTES then
    throw (.dataError s!"signature must be 64 bytes, got {sig.length}")
  return { d with signature := some sig }

open Fallible in
theorem sign_eq_ok {d d' : Data} {signer : Bytes → Bytes} {now : ℕ} {signedAt : Option ℕ}
    (h : d.sign signer now signedAt = .ok d') : ∃ sig, sig.length = SIGNATURE_BYTES ∧
      d' = { d with
        signature := some sig
        metadata := { d.metadata with
          signedAt := some (d.metadata.signedAt.getD (signedAt.getD now)) } } := by
  simp only [sign, bind_eq_ok] at h
  obtain ⟨_, -, h⟩ := h
  split at h
  · obtain ⟨_, h, -⟩ := bind_eq_ok.mp h
    simp at h
  · rename_i hl
    exact ⟨_, not_not.mp hl, (Except.ok.inj h).symm⟩

/-- The `(signed_at, sequence)` key of signed Data that sets one of the two. -/
def freshnessKey (d : Data) : Option (ℕ × ℕ) :=
  if d.signature.isNone then none
  else if d.metadata.signedAt.isNone && d.metadata.sequence.isNone then none
  else some (d.metadata.signedAt.getD 0, d.metadata.sequence.getD 0)

def verifySignature (d : Data) (validator : Bytes → Bytes → Bool) : Except PyError Bool :=
  match d.signature with
  | none => .ok false
  | some sig => do return validator sig (← d.signedHash)

end Data

structure APSubscribe where
  name : Name
  startFromNow : Bool := false
  deriving DecidableEq, Repr

def APSubscribe.toBytes (s : APSubscribe) : Except PyError Bytes := do
  return (← header .apsSubscribe s.name) ++ [flag 0x01 s.startFromNow]

structure PropPeer where
  version : ℕ := PROTOCOL_VERSION
  rnsAddr : Bytes := []
  wantsSync : Bool := false
  deriving DecidableEq, Repr

def PropPeer.toBytes (p : PropPeer) : Except PyError Bytes := do
  let version ← Name.appendByte p.version
  let addr := p.rnsAddr ++ List.replicate (16 - p.rnsAddr.length) 0
  return [PacketType.propPeer.value] ++ version ++ addr.take 16 ++ [flag 0x01 p.wantsSync]

structure CapPeer where
  version : ℕ := PROTOCOL_VERSION
  role : ℕ := 0
  features : ℕ := 0
  deriving DecidableEq, Repr

def CapPeer.toBytes (c : CapPeer) : Except PyError Bytes := do
  let version ← Name.appendByte c.version
  let role ← Name.appendByte c.role
  let features ← structPack 4 c.features
  return [PacketType.capPeer.value] ++ version ++ role ++ features

structure Invalidate where
  name : Name
  epoch : ℕ := 0
  isPrefix : Bool := false
  signature : Option Bytes := none
  deriving DecidableEq, Repr

namespace Invalidate

def toBytes (v : Invalidate) : Except PyError Bytes := do
  let head ← header .invalidate v.name
  let epoch ← structPack 8 v.epoch
  return head ++ epoch ++ [flag 0x01 v.isPrefix ||| flag 0x02 v.signature.isSome] ++
    v.signature.getD []

/-- The bytes that `Invalidate.signed_hash` feeds to the hash. -/
def signedBytes (v : Invalidate) : Except PyError Bytes := do
  let nameBytes ← v.name.toBytes
  let epoch ← structPack 8 v.epoch
  return INVALIDATE_DOMAIN ++ nameBytes ++ epoch ++ [if v.isPrefix then 0x01 else 0x00]

end Invalidate

inductive NackReason where
  | noRoute | congestion | noData
  deriving DecidableEq, Repr

def NackReason.value : NackReason → UInt8
  | noRoute => 0x01
  | congestion => 0x02
  | noData => 0x03

structure Nack where
  name : Name
  reason : NackReason := .noRoute
  deriving DecidableEq, Repr

def Nack.toBytes (n : Nack) : Except PyError Bytes := do
  return (← header .nack n.name) ++ [n.reason.value]

/-- A parsed packet of known type. -/
inductive Packet where
  | interest (i : Interest)
  | data (d : Data)
  | subscribe (s : APSubscribe)
  | peer (p : PropPeer)
  | capPeer (c : CapPeer)
  | invalidate (v : Invalidate)
  | nack (n : Nack)
  deriving DecidableEq, Repr

end RnsIcn
