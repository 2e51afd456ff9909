import RnsIcn.Client.Access
import RnsIcn.Wire.Pointer

/-! # What a signature covers

A producer signs Data, invalidations and capabilities, each behind its own tag. The
signed bytes of an invalidation or of a capability determine all that is signed, and
no two kinds share signed bytes.
-/

namespace RnsIcn

open Fallible

namespace Invalidate

theorem signedBytes_eq_ok {v : Invalidate} {b : Bytes} : v.signedBytes = .ok b ↔
    (v.name.Encodable ∧ v.epoch < 256 ^ 8) ∧
      b = INVALIDATE_DOMAIN ++ (v.name.encode ++
        (ByteString.ofNatBE 8 v.epoch ++ [if v.isPrefix then 0x01 else 0x00])) := by
  simp only [signedBytes, bind_eq_ok, pure_eq_ok, Name.toBytes_eq_ok, structPack_eq_ok,
    List.append_assoc]
  constructor
  · rintro ⟨_, ⟨hn, rfl⟩, _, ⟨he, rfl⟩, rfl⟩
    exact ⟨⟨hn, he⟩, rfl⟩
  · rintro ⟨⟨hn, he⟩, rfl⟩
    exact ⟨_, ⟨hn, rfl⟩, _, ⟨he, rfl⟩, rfl⟩

/-- The epoch and the flag take nine bytes, so what follows the components tells the pin. -/
theorem signedBytes_inj {v w : Invalidate} {b : Bytes} (h : v.signedBytes = .ok b)
    (h' : w.signedBytes = .ok b) :
    v.name = w.name ∧ v.epoch = w.epoch ∧ v.isPrefix = w.isPrefix := by
  obtain ⟨⟨hn, he⟩, rfl⟩ := signedBytes_eq_ok.mp h
  obtain ⟨⟨hn', he'⟩, hb⟩ := signedBytes_eq_ok.mp h'
  obtain ⟨hcomps, hrest⟩ := Name.encode_append_inj hn hn' (List.append_cancel_left hb)
  have hlen : (Name.pinBytes v.name.contentHash).length =
      (Name.pinBytes w.name.contentHash).length := by
    have hall := congrArg List.length hrest
    simp only [List.length_append, ByteString.length_ofNatBE, List.length_singleton] at hall
    omega
  obtain ⟨hpin, hfields⟩ := List.append_inj hrest hlen
  obtain ⟨hepoch, hflag⟩ := List.append_inj hfields (by simp)
  refine ⟨Name.eq_of_components hcomps (Name.pinBytes_inj hpin),
    ByteString.ofNatBE_inj he he' hepoch, ?_⟩
  cases hp : v.isPrefix <;> cases hp' : w.isPrefix <;> simp [hp, hp'] at hflag ⊢

def signedHash [Hashlib] (v : Invalidate) : Except PyError Bytes := do
  return blake2b (← v.signedBytes)

def verifySignature [Hashlib] (v : Invalidate) (validate : Validator) : Except PyError Bool :=
  match v.signature with
  | none => .ok false
  | some sig => do return validate sig (← v.signedHash)

end Invalidate

namespace Capability

/-- Agreement on everything that the producer signs. -/
structure Agree (c c' : Capability) : Prop where
  producer : c.producer = c'.producer
  consumer : c.consumer = c'.consumer
  issuedAt : c.issuedAt = c'.issuedAt
  expiresAt : c.expiresAt = c'.expiresAt
  scope : c.scope = c'.scope
  wrappedCek : c.wrappedCek = c'.wrappedCek

theorem signedBytes_inj {c c' : Capability} (h : c.signedBytes = c'.signedBytes) : c.Agree c' := by
  have hcut := fun (k n m : ℕ) =>
    (ByteString.length_ofNatBE k n).trans (ByteString.length_ofNatBE k m).symm
  simp only [signedBytes, List.append_assoc] at h
  obtain ⟨hproducer, h⟩ := List.append_inj (List.append_cancel_left h)
    (c.producer_length.trans c'.producer_length.symm)
  obtain ⟨hconsumer, h⟩ := List.append_inj h (c.consumer_length.trans c'.consumer_length.symm)
  obtain ⟨hissued, h⟩ := List.append_inj h (hcut 8 _ _)
  obtain ⟨hexpires, h⟩ := List.append_inj h (hcut 8 _ _)
  obtain ⟨hscopeLen, h⟩ := List.append_inj h (hcut 2 _ _)
  obtain ⟨hscope, h⟩ := List.append_inj h
    (ByteString.ofNatBE_inj c.lengths.1 c'.lengths.1 hscopeLen)
  obtain ⟨-, hcek⟩ := List.append_inj h (hcut 2 _ _)
  exact ⟨hproducer, hconsumer, ByteString.ofNatBE_inj c.times.1 c'.times.1 hissued,
    ByteString.ofNatBE_inj c.times.2 c'.times.2 hexpires,
    Name.encode_inj c.scope_encodable c'.scope_encodable hscope, hcek⟩

end Capability

inductive Signable where
  | data (d : Data)
  | invalidate (v : Invalidate)
  | capability (c : Capability)

namespace Signable

/-- The bytes that `signed_hash` feeds to the hash. -/
def signedBytes : Signable → Except PyError Bytes
  | data d => d.signedBytes
  | invalidate v => v.signedBytes
  | capability c => .ok c.signedBytes

def signature : Signable → Option Bytes
  | data d => d.signature
  | invalidate v => v.signature
  | capability c => c.signature

/-- Two Data, or two objects of one kind that agree on everything that is signed. -/
def Agrees : Signable → Signable → Prop
  | data _, data _ => True
  | invalidate v, invalidate w =>
    v.name = w.name ∧ v.epoch = w.epoch ∧ v.isPrefix = w.isPrefix
  | capability c, capability c' => c.Agree c'
  | _, _ => False

def domain : Signable → Bytes
  | data _ => DATA_DOMAIN
  | invalidate _ => INVALIDATE_DOMAIN
  | capability _ => CAP_DOMAIN

variable {x y : Signable} {b : Bytes}

theorem domain_of_signedBytes (h : x.signedBytes = .ok b) : x.domain <+: b := by
  cases x with
  | data d =>
    obtain ⟨-, rfl⟩ := Data.signedBytes_eq_ok.mp h
    exact List.prefix_append ..
  | invalidate v =>
    obtain ⟨-, rfl⟩ := Invalidate.signedBytes_eq_ok.mp h
    exact List.prefix_append ..
  | capability c =>
    obtain rfl : c.signedBytes = b := Except.ok.inj h
    simp only [Capability.signedBytes, List.append_assoc]
    exact List.prefix_append ..

theorem agrees_of_signedBytes (h : x.signedBytes = .ok b) (h' : y.signedBytes = .ok b) :
    x.Agrees y := by
  obtain ⟨rest, hx⟩ := domain_of_signedBytes h
  obtain ⟨rest', hy⟩ := domain_of_signedBytes h'
  have htags := hx.trans hy.symm
  cases x <;> cases y
  case data.data => trivial
  case invalidate.invalidate => exact Invalidate.signedBytes_inj h h'
  case capability.capability c c' =>
    exact Capability.signedBytes_inj (Except.ok.inj (h.trans h'.symm))
  all_goals simp [domain, DATA_DOMAIN, INVALIDATE_DOMAIN, CAP_DOMAIN] at htags

variable [Hashlib] {validate : Validator} {sig : Bytes}

def verifySignature (validate : Validator) : Signable → Except PyError Bool
  | data d => d.verifySignature validate
  | invalidate v => v.verifySignature validate
  | capability c => .ok (c.verifySignature validate)

theorem validate_of_verifySignature (hb : x.signedBytes = .ok b) (hsig : x.signature = some sig)
    (h : x.verifySignature validate = .ok true) : validate sig (blake2b b) = true := by
  cases x with
  | data d =>
    have hs : d.signature = some sig := hsig
    simp only [verifySignature, Data.verifySignature, hs, bind_eq_ok, pure_eq_ok,
      Data.signedHash] at h
    obtain ⟨_, ⟨b', hb', rfl⟩, hvalid⟩ := h
    obtain rfl : b' = b := Except.ok.inj (hb'.symm.trans hb)
    exact hvalid
  | invalidate v =>
    have hs : v.signature = some sig := hsig
    simp only [verifySignature, Invalidate.verifySignature, hs, bind_eq_ok, pure_eq_ok,
      Invalidate.signedHash] at h
    obtain ⟨_, ⟨b', hb', rfl⟩, hvalid⟩ := h
    obtain rfl : b' = b := Except.ok.inj (hb'.symm.trans hb)
    exact hvalid
  | capability c =>
    have hs : c.signature = some sig := hsig
    obtain rfl : c.signedBytes = b := Except.ok.inj hb
    simpa [verifySignature, Capability.verifySignature, hs] using h

/-- The signed bytes determine what is signed, of every kind but Data. A signature that was made on
one object verifies on no other, unless the hash of their signed bytes collides. -/
theorem signatures_apart {signer : Bytes → Bytes} {m m' : Bytes} (hx : x.signedBytes = .ok m)
    (hy : y.signedBytes = .ok m') :
    (m = m' → x.Agrees y) ∧
    ((blake2b m = blake2b m' → m = m') → (∀ h h', validate (signer h) h' = true → h = h') →
      y.signature = some (signer (blake2b m)) → y.verifySignature validate = .ok true →
        x.Agrees y) := by
  have hagrees : m = m' → x.Agrees y := by
    rintro rfl
    exact agrees_of_signedBytes hx hy
  refine ⟨hagrees, fun hfree hideal hsig hverify => hagrees (hfree ?_)⟩
  exact hideal _ _ (validate_of_verifySignature hy hsig hverify)

end Signable

def pinnedPurge (signature : Option Bytes) : Invalidate where
  name := ⟨List.replicate 16 0x0A, [[0x61]], some (List.replicate 32 0x0B)⟩
  epoch := 5
  signature := signature

def openKey : Validator := fun sig h => sig == h

theorem pinnedPurge_agrees :
    letI : Hashlib := ⟨id⟩
    ∃ m, (pinnedPurge none).signedBytes = .ok m ∧
      (Signable.invalidate (pinnedPurge none)).Agrees (.invalidate (pinnedPurge (some m))) := by
  let _ : Hashlib := ⟨id⟩
  obtain ⟨m, hm⟩ : ∃ m, (pinnedPurge none).signedBytes = .ok m := ⟨_, rfl⟩
  have hsame : (pinnedPurge (some m)).signedBytes = .ok m := hm
  have hideal : ∀ h h' : Bytes, openKey (id h) h' = true → h = h' := fun h h' hv => by
    simpa [openKey] using hv
  have hverify : (Signable.invalidate (pinnedPurge (some m))).verifySignature openKey =
      .ok true := by
    have hvalid : openKey m (blake2b m) = true := beq_self_eq_true m
    have hhash : (pinnedPurge (some m)).signedHash = .ok (blake2b m) := by
      rw [Invalidate.signedHash, hsame]
      rfl
    change (do return openKey m (← (pinnedPurge (some m)).signedHash)) = _
    rw [hhash]
    exact congrArg Except.ok hvalid
  exact ⟨m, hm, (Signable.signatures_apart (x := .invalidate (pinnedPurge none))
    (y := .invalidate (pinnedPurge (some m))) hm hsame).2 (fun h => h) hideal rfl hverify⟩

end RnsIcn
