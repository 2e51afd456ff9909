import RnsIcn.Lib.LongestMatch
import RnsIcn.Client.Capability

/-! # Access rules

A producer restricts prefixes of its names. Content under a restricted prefix is
encrypted with a key that is derived from the prefix of the longest rule, and the
consumers of a rule are issued a capability that carries the key of its prefix.
-/

namespace RnsIcn

open Fallible

def CEK_DOMAIN : Bytes :=
  [0x69, 0x63, 0x6e, 0x2d, 0x63, 0x6f, 0x6e, 0x74, 0x65, 0x6e, 0x74, 0x2d, 0x6b, 0x65, 0x79, 0x01]

/-- The primitives of `hashlib` and of the network stack: the 64-byte hash, the keyed hash of 32
bytes, `Token(key).encrypt` with its random bytes, and `encrypt` of the identity with a hash, with
its random bytes. -/
structure Primitives where
  blake2b64 : Bytes → Bytes
  keyed : Bytes → Bytes → Bytes
  sealToken : Bytes → Bytes → Bytes → Bytes
  encryptTo : Bytes → Bytes → Bytes → Bytes

namespace Primitives

def deriveCek (p : Primitives) (privateKey : Bytes) (scope : Name) : Except PyError Bytes := do
  if privateKey.isEmpty then
    throw (.accessError "producer identity has no private key for CEK derivation")
  let secret := p.blake2b64 privateKey
  return p.keyed secret (CEK_DOMAIN ++ (← scope.toBytes))

def encryptContent (p : Primitives) (random plaintext cek : Bytes) : Except PyError Bytes :=
  if cek.length ≠ CEK_BYTES then
    .error (.accessError s!"CEK must be 32 bytes, got {cek.length}")
  else .ok (p.sealToken cek random plaintext)

def wrapCek (p : Primitives) (random cek recipient : Bytes) : Except PyError Bytes :=
  if cek.length ≠ CEK_BYTES then
    .error (.accessError s!"CEK must be 32 bytes, got {cek.length}")
  else .ok (p.encryptTo recipient random cek)

end Primitives

namespace Capability

variable [Hashlib]

def sign (c : Capability) (signer : Bytes → Bytes) : Except PyError Capability :=
  let sig := signer (blake2b c.signedBytes)
  if sig.length ≠ SIGNATURE_BYTES then
    .error (.accessError s!"signature must be 64 bytes, got {sig.length}")
  else .ok { c with signature := some sig }

/-- `Capability.create` for the consumer with a hash, at clock reading `now`. -/
def create (p : Primitives) (privateKey : Bytes) (scope : Name) (consumer random : Bytes)
    (signer : Bytes → Bytes) (producerAddr : Bytes) (ttlSeconds : ℤ) (now : ℕ) :
    Except PyError Capability := do
  let cek ← p.deriveCek privateKey scope
  let expires := if ttlSeconds > 0 then now + ttlSeconds.toNat else 0
  let wrapped ← p.wrapCek random cek consumer
  let c ← new producerAddr consumer scope wrapped now expires none
  c.sign signer

end Capability

/-- One entry of the access list: a restricted prefix and the consumers that may read it. -/
structure AccessRule where
  scope : Name
  consumers : Finset Bytes := ∅

def AccessRule.allows (r : AccessRule) (consumer : Bytes) : Bool := consumer ∈ r.consumers

structure AccessController where
  primitives : Primitives
  privateKey : Bytes
  producerAddr : Bytes
  rules : List AccessRule := []

namespace AccessController

/-- One pass of the loop of `matching_rule`. -/
def longer (n : Name) (best : Option AccessRule) (rule : AccessRule) : Option AccessRule :=
  if n.startsWith rule.scope && best.all (·.scope.len < rule.scope.len) then some rule else best

def matchingRule (c : AccessController) (n : Name) : Option AccessRule :=
  c.rules.foldl (longer n) none

def encryptContent (c : AccessController) (random : Bytes) (n : Name) (plaintext : Bytes) :
    Except PyError (Bytes × Bool) :=
  match c.matchingRule n with
  | none => .ok (plaintext, false)
  | some rule => do
    let cek ← c.primitives.deriveCek c.privateKey rule.scope
    return (← c.primitives.encryptContent random plaintext cek, true)

/-- `issue_capability`: the first rule for exactly the prefix has to list the consumer. -/
def issueCapability [Hashlib] (c : AccessController) (scope : Name) (consumer random : Bytes)
    (signer : Bytes → Bytes) (ttlSeconds : ℤ) (now : ℕ) : Except PyError Capability :=
  match c.rules.find? (·.scope = scope) with
  | none => .error (.accessError s!"no access rule for prefix {scope.str}")
  | some rule =>
    if !rule.allows consumer then .error (.accessError "consumer not authorized for prefix")
    else Capability.create c.primitives c.privateKey scope consumer random signer c.producerAddr
      ttlSeconds now

structure Longest (rules : List AccessRule) (n : Name) (rule : AccessRule) : Prop where
  mem : rule ∈ rules
  matches_scope : n.startsWith rule.scope = true
  longest : ∀ r ∈ rules, n.startsWith r.scope = true → r.scope.len ≤ rule.scope.len

def Found (rules : List AccessRule) (n : Name) : Option AccessRule → Prop
  | none => ∀ r ∈ rules, n.startsWith r.scope = false
  | some rule => Longest rules n rule

theorem found_matchingRule (c : AccessController) (n : Name) :
    Found c.rules n (c.matchingRule n) := by
  have hspec := LongestMatch.scan_spec (fun r : AccessRule => n.startsWith r.scope)
    (fun r => r.scope.len) c.rules
  change Found c.rules n (LongestMatch.scan _ _ c.rules)
  cases hscan : LongestMatch.scan (fun r : AccessRule => n.startsWith r.scope)
    (fun r => r.scope.len) c.rules with
  | none =>
    rw [hscan] at hspec
    exact hspec
  | some rule =>
    rw [hscan] at hspec
    exact ⟨hspec.mem, hspec.matches, hspec.longest⟩

end AccessController

end RnsIcn
