import RnsIcn.Client.Access
import RnsIcn.Wire.Pointer
import RnsIcn.Wire.Truncated

/-! # Capabilities in files

A capability is stored with the byte strings that it signs and its signature. What is
read from the stored bytes is the capability, and nothing is read if the end of them is
missing. With the packets and the payload of a pointer these are all the formats that
the wire and the disk hold.
-/

namespace RnsIcn

open Fallible Parse Truncation

/-- The names that `Name.to_bytes` can write. -/
instance Name.decidableEncodable (n : Name) : Decidable n.Encodable :=
  decidable_of_iff (n.len < 256 ∧ ∀ comp ∈ n.components, comp.length < 256)
    ⟨fun h => ⟨h.1, h.2⟩, fun h => ⟨h.count, h.component⟩⟩

namespace Capability

/-- `Capability(…)` with the checks of its constructor, and then those of `to_bytes` and
`signed_hash`, which raise for what does not fit its field. -/
def new (producer consumer : Bytes) (scope : Name) (wrappedCek : Bytes) (issuedAt expiresAt : ℕ)
    (signature : Option Bytes) : Except PyError Capability :=
  if producer_length : producer.length = RNS_ADDR_BYTES then
    if consumer_length : consumer.length = RNS_ADDR_BYTES then
      if scope_addr : scope.rnsAddr = producer then
        if scope_encodable : scope.Encodable then
          if times : issuedAt < 256 ^ 8 ∧ expiresAt < 256 ^ 8 then
            if lengths : scope.encode.length < 256 ^ 2 ∧ wrappedCek.length < 256 ^ 2 then
              .ok { producer, consumer, scope, wrappedCek, issuedAt, expiresAt, signature
                    producer_length, consumer_length, scope_addr, scope_encodable, times, lengths }
            else .error .structError
          else .error .structError
        else .error (.valueError "byte must be in range(0, 256)")
      else .error (.accessError "prefix must live under the producer's namespace")
    else .error (.accessError "consumer must be 16 bytes")
  else .error (.accessError "producer must be 16 bytes")

theorem new_self (c : Capability) : new c.producer c.consumer c.scope c.wrappedCek c.issuedAt
    c.expiresAt c.signature = .ok c := by
  rw [new, dif_pos c.producer_length, dif_pos c.consumer_length, dif_pos c.scope_addr,
    dif_pos c.scope_encodable, dif_pos c.times, dif_pos c.lengths]

theorem new_eq_ok {producer consumer : Bytes} {scope : Name} {wrappedCek : Bytes}
    {issuedAt expiresAt : ℕ} {signature : Option Bytes} {c : Capability}
    (h : new producer consumer scope wrappedCek issuedAt expiresAt signature = .ok c) :
    c.producer = producer ∧ c.consumer = consumer ∧ c.scope = scope ∧ c.wrappedCek = wrappedCek ∧
      c.issuedAt = issuedAt ∧ c.expiresAt = expiresAt ∧ c.signature = signature := by
  rw [new] at h
  repeat' split at h
  all_goals cases h
  exact ⟨rfl, rfl, rfl, rfl, rfl, rfl, rfl⟩

def toBytes (c : Capability) : Bytes :=
  c.producer ++ c.consumer ++ ByteString.ofNatBE 8 c.issuedAt ++
    ByteString.ofNatBE 8 c.expiresAt ++ ByteString.ofNatBE 2 c.scope.encode.length ++
    c.scope.encode ++ ByteString.ofNatBE 2 c.wrappedCek.length ++ c.wrappedCek ++
    [if c.signature.isSome then 0x01 else 0x00] ++ c.signature.getD []

def fromBytes (data : Bytes) : Except PyError Capability := do
  if data.length < 2 * RNS_ADDR_BYTES + 16 + 2 then
    throw (.accessError "buffer too short for Capability")
  let (producer, data) ← readBytes RNS_ADDR_BYTES .indexError data
  let (consumer, data) ← readBytes RNS_ADDR_BYTES .indexError data
  let (issuedAt, data) ← readNat 8 .structError data
  let (expiresAt, data) ← readNat 8 .structError data
  let (scopeLen, data) ← readNat 2 .structError data
  let (scopeBytes, data) ← readBytes scopeLen (.accessError "buffer too short for prefix") data
  let scope ← Name.fromBytes scopeBytes
  let (cekLen, data) ← readNat 2 (.accessError "buffer too short for wrapped_cek length") data
  let (wrappedCek, data) ← readBytes cekLen (.accessError "buffer too short for wrapped_cek") data
  let (hasSig, data) ← readByte (.accessError "buffer too short for flag") data
  let (signature, _) ← readOpt (hasSig != 0x00)
    (readBytes SIGNATURE_BYTES (.accessError "buffer too short for signature")) data
  new producer consumer scope wrappedCek issuedAt expiresAt signature

theorem hasSig_flag (c : Capability) :
    ((if c.signature.isSome then 0x01 else 0x00 : UInt8) != 0x00) = c.signature.isSome := by
  cases c.signature.isSome <;> rfl

theorem readNat_ofNatBE {width n : ℕ} (h : n < 256 ^ width) (e : PyError) (rest : Bytes) :
    readNat width e (ByteString.ofNatBE width n ++ rest) = .ok (n, rest) :=
  readNat_append (structPack_of_lt h) e rest

theorem fromBytes_toBytes {c : Capability} (hscope : c.scope.Fits)
    (hsig : ∀ sig ∈ c.signature, sig.length = SIGNATURE_BYTES) : fromBytes c.toBytes = .ok c := by
  have hlong : ¬ c.toBytes.length < 2 * RNS_ADDR_BYTES + 16 + 2 := by
    simp only [toBytes, List.length_append, c.producer_length, c.consumer_length,
      ByteString.length_ofNatBE]
    omega
  have hread : readOpt c.signature.isSome (readBytes SIGNATURE_BYTES
      (.accessError "buffer too short for signature")) (c.signature.getD []) =
        .ok (c.signature, []) := by
    simpa using readSignature hsig (.accessError "buffer too short for signature") []
  rw [fromBytes, if_neg hlong]
  simp only [toBytes, List.append_assoc, readBytes_append c.producer_length,
    readBytes_append c.consumer_length, readNat_ofNatBE c.times.1, readNat_ofNatBE c.times.2,
    readNat_ofNatBE c.lengths.1, readNat_ofNatBE c.lengths.2, readBytes_append rfl,
    hscope.fromBytes, List.cons_append, List.nil_append, readByte, hasSig_flag, hread, new_self,
    bind, Except.bind]

/-- Whether the scope can be read does not matter: what is in front of the cut is the same. -/
theorem detects {c : Capability} (hsig : ∀ sig ∈ c.signature, sig.length ≤ SIGNATURE_BYTES) :
    Detects fromBytes c.toBytes := by
  unfold toBytes
  simp only [List.append_assoc, List.cons_append, List.nil_append]
  refine .unless (fun _ => ⟨_, rfl⟩) ?_
  refine .bind (stable_readBytes _ _) (readBytes_append c.producer_length _ _) ?_
  refine .bind (stable_readBytes _ _) (readBytes_append c.consumer_length _ _) ?_
  refine .bind (stable_readNat _ _) (readNat_ofNatBE c.times.1 _ _) ?_
  refine .bind (stable_readNat _ _) (readNat_ofNatBE c.times.2 _ _) ?_
  refine .bind (stable_readNat _ _) (readNat_ofNatBE c.lengths.1 _ _) ?_
  refine .bind (stable_readBytes _ _) (readBytes_append rfl _ _) ?_
  refine .step fun scope _ => ?_
  refine .bind (stable_readNat _ _) (readNat_ofNatBE c.lengths.2 _ _) ?_
  refine .bind (stable_readBytes _ _) (readBytes_append rfl _ _) ?_
  refine .bind (stable_readByte _) rfl ?_
  exact detects_signature c.hasSig_flag hsig

end Capability

theorem Discovery.decodeMeta_encodeMeta {n : Name} {payload : Bytes} (hn : n.Fits)
    (h : encodeMeta n = .ok payload) : decodeMeta payload = .ok n := by
  obtain ⟨-, rfl⟩ := encodeMeta_eq_ok.mp h
  rw [decodeMeta, if_neg (by simp), hn.fromBytes]

/-- What fits its fields is written and read back: a packet by the dispatcher, up to an empty
selector and the age of fresh Data, a capability, and the target of a pointer. -/
theorem wire_roundTrip :
    (∀ p : Packet, p.Fits → ∃ raw, p.toBytes = .ok raw ∧ parsePacket raw = .ok p.onWire) ∧
    (∀ c : Capability, c.scope.Fits → (∀ sig ∈ c.signature, sig.length = SIGNATURE_BYTES) →
      Capability.fromBytes c.toBytes = .ok c) ∧
    ∀ n : Name, n.Fits → ∃ payload, Discovery.encodeMeta n = .ok payload ∧
      Discovery.decodeMeta payload = .ok n := by
  refine ⟨fun p hp => ?_, fun c hscope hsig => Capability.fromBytes_toBytes hscope hsig,
    fun n hn => ?_⟩
  · obtain ⟨raw, hraw⟩ := hp.toBytes_isOk
    exact ⟨raw, hraw, Packet.read_toBytes hp hraw⟩
  · have hpayload : Discovery.encodeMeta n = .ok (Discovery.META_FMT :: n.encode) :=
      Discovery.encodeMeta_eq_ok.mpr ⟨hn.encodable, rfl⟩
    exact ⟨_, hpayload, Discovery.decodeMeta_encodeMeta hn hpayload⟩

theorem sequenced_roundTrip : ∃ raw, (Packet.data Packet.sequenced).toBytes = .ok raw ∧
    parsePacket raw = .ok (.data Packet.sequenced) :=
  wire_roundTrip.1 (.data Packet.sequenced) Packet.sequenced_fits

/-- What is left of an encoding after a cut is rejected, wherever the cut is: that of a packet by
the dispatcher, and that of a capability that has no signature or one of the length that `sign`
checks. A shorter one would do. -/
theorem truncation_detected :
    (∀ p : Packet, p.Fits → ∃ raw, p.toBytes = .ok raw ∧
      ∀ b, b <+: raw → b ≠ raw → ∃ e, parsePacket b = .error e) ∧
    ∀ c : Capability, (∀ sig ∈ c.signature, sig.length ≤ SIGNATURE_BYTES) →
      ∀ b, b <+: c.toBytes → b ≠ c.toBytes → ∃ e, Capability.fromBytes b = .error e := by
  constructor
  · intro p hp
    obtain ⟨raw, hraw⟩ := hp.toBytes_isOk
    exact ⟨raw, hraw, fun b hb hne => (hp.detects hraw).error_of_cut hb hne⟩
  · intro c hsig b hb hne
    exact (Capability.detects hsig).error_of_cut hb hne

/-- A signed capability for everything under an address. -/
def Capability.signed : Capability where
  producer := List.replicate RNS_ADDR_BYTES 0xAA
  consumer := List.replicate RNS_ADDR_BYTES 0xBB
  scope := { rnsAddr := List.replicate RNS_ADDR_BYTES 0xAA, path := [], contentHash := none }
  wrappedCek := [1, 2, 3]
  signature := some (List.replicate SIGNATURE_BYTES 0)
  producer_length := rfl
  consumer_length := rfl
  scope_addr := rfl
  scope_encodable := by decide
  times := by decide
  lengths := by decide

theorem last_byte_missed :
    (∃ raw, (Packet.data Packet.sequenced).toBytes = .ok raw ∧
      ∃ e, parsePacket raw.dropLast = .error e) ∧
    ∃ e, Capability.fromBytes Capability.signed.toBytes.dropLast = .error e := by
  obtain ⟨hpacket, hcapability⟩ := truncation_detected
  constructor
  · obtain ⟨raw, hraw, hcut⟩ := hpacket (.data Packet.sequenced) Packet.sequenced_fits
    refine ⟨raw, hraw, hcut _ (List.dropLast_prefix raw) fun h => ?_⟩
    obtain ⟨rest, rfl⟩ := Packet.toBytesWith_head ((Packet.toBytesWith_zero _).trans hraw)
    simpa using congrArg List.length h
  · refine hcapability Capability.signed ?_ _ (List.dropLast_prefix _) (by decide)
    rintro sig ⟨⟩
    decide

end RnsIcn
