import RnsIcn.Client.Verify

/-! # Restricted content

Content under a restricted prefix is encrypted. A client reads it with a capability
that its producer has signed and that carries the key wrapped for the client. Data
without a usable capability is handed out as it is.
-/

namespace RnsIcn

open Fallible

def CAP_DOMAIN : Bytes :=
  [0x69, 0x63, 0x6e, 0x2d, 0x63, 0x61, 0x70, 0x61, 0x62, 0x69, 0x6c, 0x69, 0x74, 0x79, 0x01]

def CEK_BYTES : ℕ := 32

/-- A capability for the names under `scope`, the `prefix` of the source. What was read from a file
fits its fields. -/
structure Capability where
  producer : Bytes
  consumer : Bytes
  scope : Name
  wrappedCek : Bytes
  issuedAt : ℕ := 0
  expiresAt : ℕ := 0
  signature : Option Bytes := none
  producer_length : producer.length = RNS_ADDR_BYTES
  consumer_length : consumer.length = RNS_ADDR_BYTES
  scope_addr : scope.rnsAddr = producer
  scope_encodable : scope.Encodable
  times : issuedAt < 256 ^ 8 ∧ expiresAt < 256 ^ 8
  lengths : scope.encode.length < 256 ^ 2 ∧ wrappedCek.length < 256 ^ 2

namespace Capability

/-- The bytes that `Capability.signed_hash` feeds to the hash. -/
def signedBytes (c : Capability) : Bytes :=
  CAP_DOMAIN ++ c.producer ++ c.consumer ++ ByteString.ofNatBE 8 c.issuedAt ++
    ByteString.ofNatBE 8 c.expiresAt ++ ByteString.ofNatBE 2 c.scope.encode.length ++
    c.scope.encode ++ ByteString.ofNatBE 2 c.wrappedCek.length ++ c.wrappedCek

def isExpired (c : Capability) (now : ℕ) : Bool := c.expiresAt != 0 && c.expiresAt < now

def covers (c : Capability) (n : Name) (now : ℕ) : Bool :=
  n.startsWith c.scope && !c.isExpired now

def verifySignature [Hashlib] (c : Capability) (validate : Validator) : Bool :=
  c.signature.any fun sig => validate sig (blake2b c.signedBytes)

end Capability

/-- The capabilities of a client, with its `identity.decrypt` and the `Token(cek).decrypt` of the
network stack. -/
structure Access where
  capabilities : List Capability := []
  unwrap : Bytes → Option Bytes := fun _ => none
  openToken : Bytes → Bytes → Option Bytes := fun _ _ => none

namespace Access

def unwrapCek (a : Access) (wrapped : Bytes) : Option Bytes :=
  (a.unwrap wrapped).filter (·.length = CEK_BYTES)

def decryptContent (a : Access) (ciphertext cek : Bytes) : Option Bytes :=
  if cek.length ≠ CEK_BYTES then none else a.openToken cek ciphertext

variable [Hashlib]

/-- What a capability makes of the content, if it is valid and opens it. -/
def plaintext (a : Access) (identities : Bytes → Option Validator) (now : ℕ) (d : Data)
    (c : Capability) : Option Bytes :=
  if !c.covers d.name now then none
  else if (identities c.producer).any fun validate => !c.verifySignature validate then none
  else (a.unwrapCek c.wrappedCek).bind (a.decryptContent d.content)

def maybeDecrypt (a : Access) (identities : Bytes → Option Validator) (now : ℕ) (d : Data) :
    Data :=
  if !d.metadata.encrypted then d
  else
    match (a.capabilities.filter (·.producer = d.name.rnsAddr)).findSome?
        (a.plaintext identities now d) with
    | none => d
    | some plaintext =>
      let out := Data.new d.name plaintext
      { out with metadata := { out.metadata with
          sequence := d.metadata.sequence
          freshness := d.metadata.freshness
          freshnessPeriod := d.metadata.freshnessPeriod
          signedAt := d.metadata.signedAt } }

variable {a : Access} {identities : Bytes → Option Validator} {now : ℕ} {d : Data}

/-- Data is handed out as it is, or under its name with the content that a token opens to. -/
theorem maybeDecrypt_cases (a : Access) (identities : Bytes → Option Validator) (now : ℕ)
    (d : Data) : a.maybeDecrypt identities now d = d ∨
      d.metadata.encrypted = true ∧ (a.maybeDecrypt identities now d).name = d.name ∧
        ∃ cek, a.openToken cek d.content = some (a.maybeDecrypt identities now d).content := by
  rw [maybeDecrypt]
  split
  · exact .inl rfl
  · rename_i henc
    split
    · exact .inl rfl
    · rename_i content hfind
      obtain ⟨c, -, hc⟩ := List.exists_of_findSome?_eq_some hfind
      refine .inr ⟨by simpa using henc, rfl, ?_⟩
      rw [plaintext] at hc
      split at hc
      · cases hc
      · split at hc
        · cases hc
        · obtain ⟨cek, -, hopen⟩ := Option.bind_eq_some_iff.mp hc
          rw [decryptContent] at hopen
          split at hopen
          · cases hopen
          · exact ⟨cek, hopen⟩

@[simp] theorem maybeDecrypt_name : (a.maybeDecrypt identities now d).name = d.name := by
  rcases a.maybeDecrypt_cases identities now d with h | ⟨-, h, -⟩
  · rw [h]
  · exact h

@[simp] theorem maybeDecrypt_sequence :
    (a.maybeDecrypt identities now d).metadata.sequence = d.metadata.sequence := by
  rw [maybeDecrypt]
  split
  · rfl
  · split <;> rfl

end Access

end RnsIcn
