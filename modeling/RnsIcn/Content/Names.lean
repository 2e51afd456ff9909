import RnsIcn.Content.Chunker
import RnsIcn.Wire.Discovery
import RnsIcn.Wire.Relay

/-! # Names that the code builds

The constructor puts no bound on the components and the encoder only the ones of a
byte, while the decoder takes at most 32 of them. A derived name has one more than the
name it is derived from.
-/

namespace RnsIcn

namespace Name

open Fallible

variable [Hashlib]

/-- The names that the code can build, from arguments of its callers and from the wire. -/
inductive Built : Name → Prop where
  | new {addr : Bytes} {path : List Bytes} {hash : Option Bytes} {n : Name} :
      Name.new addr path hash = .ok n → Built n
  | read {b : Bytes} {n : Name} : fromBytes b = .ok n → Built n
  | withContentHash {m n : Name} {hash : Bytes} :
      Built m → m.withContentHash hash = .ok n → Built n
  | withoutContentHash {m : Name} : Built m → Built m.withoutContentHash
  | chunk {m : Name} {content : Bytes} {chunkSize : ℕ+} {sequence created : ℤ}
      {signer : Option (Bytes → Bytes)} {now : ℕ → ℕ} {r : Chunker.ChunkResult} {d : Data} :
      Built m → Chunker.chunkContent content m chunkSize sequence signer now created = .ok r →
      d ∈ r.dataPackets → Built d.name
  | metaName {m n : Name} : Built m → Discovery.metaName m = .ok n → Built n
  | catalogName {m n : Name} : Built m → Discovery.catalogName m = .ok n → Built n
  | manifestName {m : Manifest} {n : Name} : m.manifestName = .ok n → Built n
  | parsed {s : String} {n : Name} : parseName s = .ok n → Built n
  | ofString {s : String} {n : Name} : fromString s = .ok n → Built n

variable {n m : Name} {b : Bytes}

def Pinned (n : Name) : Prop := ∀ h ∈ n.contentHash, h.length = CONTENT_HASH_BYTES

omit [Hashlib] in
theorem Pinned.new {addr : Bytes} {path : List Bytes} {hash : Option Bytes}
    (h : Name.new addr path hash = .ok n) : n.Pinned := by
  cases hash with
  | none =>
    obtain rfl := Except.ok.inj (ite_error_eq_ok.mp h).2
    exact nofun
  | some x =>
    obtain ⟨hlen, he⟩ := ite_error_eq_ok.mp (ite_error_eq_ok.mp h).2
    obtain rfl := Except.ok.inj he
    rintro _ ⟨⟩
    exact not_not.mp hlen

omit [Hashlib] in
theorem Pinned.withContentHash {hash : Bytes} (h : m.withContentHash hash = .ok n) :
    n.Pinned := by
  obtain ⟨hlen, he⟩ := ite_error_eq_ok.mp h
  obtain rfl := Except.ok.inj he
  rintro _ ⟨⟩
  exact not_not.mp hlen

omit [Hashlib] in
theorem Pinned.readLabels {addr : Bytes} {path : List Bytes} {labels : List (List Char)}
    (h : readLabels addr path labels = .ok n) : n.Pinned := by
  induction labels generalizing path with
  | nil => exact .new h
  | cons p labels ih =>
    rw [Name.readLabels] at h
    cases hp : splitHash p with
    | none => simp only [hp] at h; exact ih h
    | some parts =>
      simp only [hp] at h
      obtain ⟨hash, -, h⟩ := bind_eq_ok.mp h
      exact .new h

omit [Hashlib] in
theorem Pinned.fromString {s : String} (h : fromString s = .ok n) : n.Pinned := by
  unfold Name.fromString at h
  split at h
  · split at h
    · cases h
    · split at h
      · cases h
      · exact .readLabels h
  · cases h

omit [Hashlib] in
theorem Pinned.ofParts {parts : List (List Char)} {hash : Option Bytes}
    (h : (match parts with
      | [] => throw (PyError.manifestError "empty name")
      | addr :: labels => do
        let rnsAddr ← readHex addr
        if rnsAddr.length ≠ RNS_ADDR_BYTES then
          throw (PyError.manifestError "RNS address must be 16 bytes")
        else Name.new rnsAddr (labels.map parseLabel) hash) = .ok n) : n.Pinned := by
  cases parts with
  | nil => cases h
  | cons addr labels =>
    obtain ⟨rnsAddr, -, h⟩ := bind_eq_ok.mp h
    split at h
    · cases h
    · exact .new h

omit [Hashlib] in
theorem Pinned.parseName {s : String} (h : parseName s = .ok n) : n.Pinned := by
  unfold RnsIcn.parseName at h
  cases hp : splitHash (s.toList.dropWhile (· == '/')) with
  | none =>
    simp only [hp] at h
    obtain ⟨_, -, h⟩ := bind_eq_ok.mp h
    exact .ofParts h
  | some parts =>
    simp only [hp] at h
    obtain ⟨hash, -, h⟩ := bind_eq_ok.mp h
    obtain ⟨_, -, h⟩ := bind_eq_ok.mp h
    exact .ofParts h

theorem Built.pinned (h : Built n) : n.Pinned := by
  cases h with
  | new h => exact .new h
  | read h => exact (fits_of_fromBytes h).pin
  | withContentHash _ h => exact .withContentHash h
  | withoutContentHash _ => exact nofun
  | chunk _ h hd =>
    obtain ⟨index, chunkBytes, ref, hpass⟩ := Chunker.packet_of_chunkContent h hd
    exact .new (Chunker.name_of_chunkPacket hpass)
  | metaName _ h => exact .new h
  | catalogName _ h => exact .new h
  | manifestName h => exact .new h
  | parsed h => exact .parseName h
  | ofString h => exact .fromString h

omit [Hashlib] in
theorem len_le_of_fromBytes (h : fromBytes b = .ok n) : n.len ≤ MAX_COMPONENTS :=
  (fits_of_fromBytes h).count

/-- A name that was built and encoded is decoded exactly if it has at most 32 components. -/
theorem built_read_back_iff (hn : Built n) (hb : n.toBytes = .ok b) :
    fromBytes b = .ok n ↔ n.len ≤ MAX_COMPONENTS := by
  obtain ⟨he, rfl⟩ := toBytes_eq_ok.mp hb
  exact ⟨len_le_of_fromBytes, fun hlen => fromBytes_encode he hlen hn.pinned⟩

end Name

namespace Name

def unlabelled (labels : ℕ) : Name := ⟨List.replicate 16 0x01, List.replicate labels [], none⟩

theorem unlabelled_read_back : letI := Data.paddedHash
    fromBytes (unlabelled 2).encode = .ok (unlabelled 2) :=
  letI := Data.paddedHash
  have hnew : Name.new (List.replicate 16 0x01) [[], []] none = .ok (unlabelled 2) := rfl
  (built_read_back_iff (.new hnew) rfl).mpr (by decide)

/-- The latest-version pointer of a name that can be decoded need not be. -/
theorem deepMeta_undecodable : letI := Data.paddedHash
    ∃ n b, fromBytes (unlabelled 31).encode = .ok (unlabelled 31) ∧
      Discovery.metaName (unlabelled 31) = .ok n ∧ Built n ∧ n.toBytes = .ok b ∧
      fromBytes b = .error (.nameError "invalid component count: 33") := by
  let := Data.paddedHash
  exact ⟨_, _, rfl, rfl, .metaName (.read (b := (unlabelled 31).encode) rfl) rfl, rfl, rfl⟩

end Name

end RnsIcn
