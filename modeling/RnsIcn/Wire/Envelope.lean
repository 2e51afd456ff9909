import RnsIcn.Wire.Packet

/-! # The Data signature envelope

The signed bytes concatenate the name, the content and optional fields without
framing the content. Two Data with the same signed bytes agree exactly when they
carry the same optional parts, so bytes can be moved between the content and the
fields around it.
-/

namespace RnsIcn

open Fallible

theorem structPack_eq_ok {width n : ℕ} {b : Bytes} :
    structPack width n = .ok b ↔ n < 256 ^ width ∧ b = ByteString.ofNatBE width n := by
  rw [structPack, ite_ok_eq_ok, eq_comm (b := b)]

namespace Data

structure Signable (d : Data) : Prop where
  name : d.name.Encodable
  sequence : ∀ n ∈ d.metadata.sequence, n < 256 ^ 8
  signedAt : ∀ n ∈ d.metadata.signedAt, n < 256 ^ 8

/-- A wire name, a 32-byte content hash and 64-bit `sequence` and `signed_at`. -/
structure WellFormed (d : Data) : Prop where
  name : d.name.WellFormed
  contentHash : ∀ h ∈ d.metadata.contentHash, h.length = CONTENT_HASH_BYTES
  sequence : ∀ n ∈ d.metadata.sequence, n < 256 ^ 8
  signedAt : ∀ n ∈ d.metadata.signedAt, n < 256 ^ 8

theorem WellFormed.signable {d : Data} (h : d.WellFormed) : d.Signable :=
  ⟨h.name.encodable, h.sequence, h.signedAt⟩

def tagged (tag : UInt8) : Option ℕ → Bytes
  | none => []
  | some n => tag :: ByteString.ofNatBE 8 n

@[simp] theorem tagged_none (tag : UInt8) : tagged tag none = [] := rfl

def encryptedBytes (b : Bool) : Bytes := if b then [0x03, 0x01] else []

def trailer (m : DataMetadata) : Bytes :=
  m.contentHash.getD [] ++
    (tagged 0x01 m.sequence ++ (tagged 0x02 m.signedAt ++ encryptedBytes m.encrypted))

def envelope (d : Data) : Bytes :=
  DATA_DOMAIN ++ (d.name.encode ++ (d.content ++ trailer d.metadata))

theorem optField_tagged_eq_ok {tag : UInt8} {x : Option ℕ} {b : Bytes} :
    optField (fun n => do return tag :: (← structPack 8 n)) x = .ok b ↔
      (∀ n ∈ x, n < 256 ^ 8) ∧ b = tagged tag x := by
  cases x with
  | none => simp [optField, tagged, eq_comm]
  | some n =>
    simp only [optField, bind_eq_ok, structPack_eq_ok, pure_eq_ok, tagged, Option.mem_def,
      Option.some.injEq, forall_eq']
    constructor
    · rintro ⟨_, ⟨h, rfl⟩, rfl⟩; exact ⟨h, rfl⟩
    · rintro ⟨h, rfl⟩; exact ⟨_, ⟨h, rfl⟩, rfl⟩

theorem signedBytes_eq_ok {d : Data} {b : Bytes} :
    d.signedBytes = .ok b ↔ d.Signable ∧ b = d.envelope := by
  simp only [signedBytes, signedTail, bind_eq_ok, pure_eq_ok, Name.toBytes_eq_ok,
    optField_tagged_eq_ok]
  constructor
  · rintro ⟨_, ⟨hn, rfl⟩, _, ⟨_, ⟨hs, rfl⟩, _, ⟨ht, rfl⟩, rfl⟩, rfl⟩
    exact ⟨⟨hn, hs, ht⟩, by simp [envelope, trailer, encryptedBytes]⟩
  · rintro ⟨⟨hn, hs, ht⟩, rfl⟩
    exact ⟨_, ⟨hn, rfl⟩, _, ⟨_, ⟨hs, rfl⟩, _, ⟨ht, rfl⟩, rfl⟩,
      by simp [envelope, trailer, encryptedBytes]⟩

theorem Signable.signedBytes {d : Data} (h : d.Signable) : d.signedBytes = .ok d.envelope :=
  signedBytes_eq_ok.mpr ⟨h, rfl⟩

structure Layout where
  pinned : Bool
  hashed : Bool
  sequenced : Bool
  stamped : Bool
  encrypted : Bool
  deriving DecidableEq, Repr

def layout (d : Data) : Layout where
  pinned := d.name.contentHash.isSome
  hashed := d.metadata.contentHash.isSome
  sequenced := d.metadata.sequence.isSome
  stamped := d.metadata.signedAt.isSome
  encrypted := d.metadata.encrypted

/-- Agreement on everything that the producer means to sign. -/
structure Agree (d e : Data) : Prop where
  name : d.name = e.name
  content : d.content = e.content
  sequence : d.metadata.sequence = e.metadata.sequence
  signedAt : d.metadata.signedAt = e.metadata.signedAt
  encrypted : d.metadata.encrypted = e.metadata.encrypted

theorem length_tagged (tag : UInt8) (x : Option ℕ) :
    (tagged tag x).length = if x.isSome then 9 else 0 := by
  cases x <;> simp [tagged]

theorem length_encryptedBytes (b : Bool) : (encryptedBytes b).length = if b then 2 else 0 := by
  cases b <;> rfl

theorem length_pinBytes {h : Option Bytes} (hl : ∀ b ∈ h, b.length = CONTENT_HASH_BYTES) :
    (Name.pinBytes h).length = if h.isSome then 33 else 0 := by
  cases h with
  | none => rfl
  | some b => simp [Name.pinBytes, hl b rfl, CONTENT_HASH_BYTES]

theorem length_contentHash {h : Option Bytes} (hl : ∀ b ∈ h, b.length = CONTENT_HASH_BYTES) :
    (h.getD []).length = if h.isSome then 32 else 0 := by
  cases h with
  | none => rfl
  | some b => simp [hl b rfl, CONTENT_HASH_BYTES]

theorem tagged_inj {tag : UInt8} {x y : Option ℕ} (hx : ∀ n ∈ x, n < 256 ^ 8)
    (hy : ∀ n ∈ y, n < 256 ^ 8) (h : tagged tag x = tagged tag y) : x = y := by
  cases x <;> cases y <;> simp only [tagged, List.cons.injEq, true_and, reduceCtorEq] at h
  · rfl
  · rw [ByteString.ofNatBE_inj (hx _ rfl) (hy _ rfl) h]

theorem contentHash_inj {x y : Option Bytes} (hs : x.isSome = y.isSome)
    (h : x.getD [] = y.getD []) : x = y := by
  cases x <;> cases y <;> simp_all

section Pair

variable {d e : Data}

/-- With equal signed bytes the components agree and so does all that follows them. -/
theorem envelope_split (hd : d.WellFormed) (he : e.WellFormed) (h : d.envelope = e.envelope) :
    d.name.components = e.name.components ∧
      Name.pinBytes d.name.contentHash ++ (d.content ++ trailer d.metadata) =
        Name.pinBytes e.name.contentHash ++ (e.content ++ trailer e.metadata) :=
  Name.encode_append_inj hd.name.encodable he.name.encodable (List.append_cancel_left h)

theorem length_trailer (hd : d.WellFormed) :
    (trailer d.metadata).length =
      (if d.layout.hashed then 32 else 0) + ((if d.layout.sequenced then 9 else 0) +
        ((if d.layout.stamped then 9 else 0) + (if d.layout.encrypted then 2 else 0))) := by
  rw [trailer, List.length_append, List.length_append, List.length_append, length_tagged,
    length_tagged, length_encryptedBytes, length_contentHash hd.contentHash]
  rfl

theorem trailer_inj (hd : d.WellFormed) (he : e.WellFormed) (hl : d.layout = e.layout)
    (h : trailer d.metadata = trailer e.metadata) :
    d.metadata.contentHash = e.metadata.contentHash ∧
      d.metadata.sequence = e.metadata.sequence ∧ d.metadata.signedAt = e.metadata.signedAt ∧
        d.metadata.encrypted = e.metadata.encrypted := by
  have hh : d.metadata.contentHash.isSome = e.metadata.contentHash.isSome :=
    congrArg Layout.hashed hl
  have hs : d.metadata.sequence.isSome = e.metadata.sequence.isSome :=
    congrArg Layout.sequenced hl
  have ht : d.metadata.signedAt.isSome = e.metadata.signedAt.isSome :=
    congrArg Layout.stamped hl
  obtain ⟨h₁, h⟩ := List.append_inj h (by
    rw [length_contentHash hd.contentHash, length_contentHash he.contentHash, hh])
  obtain ⟨h₂, h⟩ := List.append_inj h (by rw [length_tagged, length_tagged, hs])
  obtain ⟨h₃, -⟩ := List.append_inj h (by rw [length_tagged, length_tagged, ht])
  exact ⟨contentHash_inj hh h₁, tagged_inj hd.sequence he.sequence h₂,
    tagged_inj hd.signedAt he.signedAt h₃, congrArg Layout.encrypted hl⟩

theorem agree_of_layout (hd : d.WellFormed) (he : e.WellFormed) (h : d.envelope = e.envelope)
    (hl : d.layout = e.layout) : Agree d e := by
  obtain ⟨hc, hrest⟩ := envelope_split hd he h
  have hpin : d.name.contentHash.isSome = e.name.contentHash.isSome :=
    congrArg Layout.pinned hl
  obtain ⟨hp, hbody⟩ := List.append_inj hrest (by
    rw [length_pinBytes hd.name.pin, length_pinBytes he.name.pin, hpin])
  obtain ⟨hcontent, htrailer⟩ := List.append_inj' hbody (by
    rw [length_trailer hd, length_trailer he, hl])
  obtain ⟨-, hs, ht, henc⟩ := trailer_inj hd he hl htrailer
  obtain ⟨ha, hpath⟩ := Name.components_inj hc
  have hname : d.name = e.name := by
    have := Name.pinBytes_inj hp
    cases hdn : d.name; cases hen : e.name; simp_all
  exact ⟨hname, hcontent, hs, ht, henc⟩

theorem layout_of_agree (hd : d.WellFormed) (he : e.WellFormed) (h : d.envelope = e.envelope)
    (ha : Agree d e) : d.layout = e.layout := by
  -- Agreement leaves only the content hash open; its bytes are then equal, so its presence is.
  have hbytes : d.metadata.contentHash.getD [] = e.metadata.contentHash.getD [] := by
    simpa [envelope, trailer, ha.name, ha.content, ha.sequence, ha.signedAt, ha.encrypted]
      using h
  have hlen := congrArg List.length hbytes
  rw [length_contentHash hd.contentHash, length_contentHash he.contentHash] at hlen
  have hsome : d.metadata.contentHash.isSome = e.metadata.contentHash.isSome := by
    cases hx : d.metadata.contentHash.isSome <;> cases hy : e.metadata.contentHash.isSome <;>
      simp [hx, hy] at hlen ⊢
  simp [layout, hsome, ha.name, ha.sequence, ha.signedAt, ha.encrypted]

theorem agree_iff_layout (hd : d.WellFormed) (he : e.WellFormed) (h : d.envelope = e.envelope) :
    Agree d e ↔ d.layout = e.layout :=
  ⟨layout_of_agree hd he h, agree_of_layout hd he h⟩

end Pair

/-- No pin, no content hash and none of the optional fields. -/
def Bare (d : Data) : Prop := d.layout = ⟨false, false, false, false, false⟩

instance (d : Data) : Decidable d.Bare := inferInstanceAs (Decidable (_ = _))

theorem Bare.trailer {d : Data} (h : d.Bare) :
    d.name.contentHash = none ∧ Data.trailer d.metadata = [] := by
  simp only [Bare, layout, Layout.mk.injEq, Option.isSome_eq_false_iff, Option.isNone_iff_eq_none]
    at h
  obtain ⟨hp, hh, hs, ht, he⟩ := h
  simp [Data.trailer, hp, hh, hs, ht, he, encryptedBytes]

/-- Content that does not begin like a pin nor end like a signed field. -/
structure Unframed [Hashlib] (content : Bytes) : Prop where
  pin : ∀ t, content = HASH_DISCRIMINATOR :: t → t.length < CONTENT_HASH_BYTES
  hash : ∀ c, content ≠ c ++ blake2b c
  sequence : ∀ c v, v.length = 8 → content ≠ c ++ 0x01 :: v
  signedAt : ∀ c v, v.length = 8 → content ≠ c ++ 0x02 :: v
  encrypted : ∀ c, content ≠ c ++ [0x03, 0x01]

/-- Unpinned Data of the same components as `d` with content `c` and metadata `m`. -/
def recast (d : Data) (c : Bytes) (m : DataMetadata) : Data where
  name := d.name.withoutContentHash
  content := c
  signature := d.signature
  metadata := m

def unwrapped (d : Data) : Data :=
  d.recast (Name.pinBytes d.name.contentHash ++ (d.content ++ trailer d.metadata)) {}

theorem WellFormed.recast {d : Data} (h : d.WellFormed) (c : Bytes) {m : DataMetadata}
    (hh : ∀ b ∈ m.contentHash, b.length = CONTENT_HASH_BYTES)
    (hs : ∀ n ∈ m.sequence, n < 256 ^ 8) (ht : ∀ n ∈ m.signedAt, n < 256 ^ 8) :
    (d.recast c m).WellFormed :=
  ⟨⟨h.name.addr, h.name.count, h.name.component, by simp [Data.recast, Name.withoutContentHash]⟩,
    hh, hs, ht⟩

theorem envelope_eq_of_split {d e : Data} (hc : d.name.components = e.name.components)
    (h : Name.pinBytes d.name.contentHash ++ (d.content ++ trailer d.metadata) =
      Name.pinBytes e.name.contentHash ++ (e.content ++ trailer e.metadata)) :
    d.envelope = e.envelope := by
  simp only [envelope, Name.encode, hc, List.append_assoc, h]

theorem trailer_empty : trailer {} = [] := rfl

theorem envelope_unwrapped (d : Data) : d.envelope = d.unwrapped.envelope :=
  envelope_eq_of_split rfl (by
    simp [unwrapped, recast, Name.withoutContentHash, Name.pinBytes, trailer_empty])

theorem tagged_toNatBE (tag : UInt8) {v : Bytes} (hv : v.length = 8) :
    tagged tag (some (ByteString.toNatBE v)) = tag :: v := by
  rw [tagged, ← hv, ByteString.ofNatBE_toNatBE]

theorem toNatBE_lt_of_length {v : Bytes} (hv : v.length = 8) :
    ByteString.toNatBE v < 256 ^ 8 := hv ▸ ByteString.toNatBE_lt v

theorem signedBytes_eq_iff {d e : Data} (hd : d.WellFormed) (he : e.WellFormed) :
    d.signedBytes = e.signedBytes ↔ d.envelope = e.envelope := by
  rw [hd.signable.signedBytes, he.signable.signedBytes, Except.ok.injEq]

section Single

variable [Hashlib] {d e : Data}

/-- No well-formed Data with matching hash and the same signed bytes disagrees with `d`. -/
def Unforgeable (d : Data) : Prop :=
  ∀ e : Data, e.WellFormed → e.verifyContentHash = true → d.signedBytes = e.signedBytes →
    Agree d e

theorem Unforgeable.layout_eq (h : d.Unforgeable) (hd : d.WellFormed) (he : e.WellFormed)
    (hv : e.verifyContentHash = true) (heq : d.envelope = e.envelope) : d.layout = e.layout :=
  layout_of_agree hd he heq (h e he hv ((signedBytes_eq_iff hd he).mpr heq))

theorem Unforgeable.bare (h : d.Unforgeable) (hd : d.WellFormed) : d.Bare :=
  h.layout_eq hd (hd.recast _ (by simp) (by simp) (by simp)) rfl (envelope_unwrapped d)

theorem Unforgeable.recast_bare (h : d.Unforgeable) (hd : d.WellFormed) {c : Bytes}
    {m : DataMetadata} (hw : (d.recast c m).WellFormed)
    (hv : (d.recast c m).verifyContentHash = true) (hc : d.content = c ++ trailer m) :
    (d.recast c m).Bare := by
  obtain ⟨hpin, htrailer⟩ := (h.bare hd).trailer
  have heq : d.envelope = (d.recast c m).envelope :=
    envelope_eq_of_split rfl (by
      simp [recast, Name.withoutContentHash, hpin, htrailer, Name.pinBytes, hc])
  rw [Bare, ← h.layout_eq hd hw hv heq]
  exact h.bare hd

theorem Unforgeable.unframed (hlen : ∀ b, (blake2b b).length = CONTENT_HASH_BYTES)
    (h : d.Unforgeable) (hd : d.WellFormed) : Unframed d.content := by
  constructor
  · intro t ht
    by_contra hlt
    obtain ⟨hpin, htrailer⟩ := (h.bare hd).trailer
    let e : Data := ⟨⟨d.name.rnsAddr, d.name.path, some (t.take CONTENT_HASH_BYTES)⟩,
      t.drop CONTENT_HASH_BYTES, none, {}⟩
    have he : e.WellFormed := ⟨⟨hd.name.addr, hd.name.count, hd.name.component, by
      simp [e]; omega⟩, by simp [e], by simp [e], by simp [e]⟩
    have heq : d.envelope = e.envelope := envelope_eq_of_split rfl (by
      simp [e, hpin, htrailer, ht, Name.pinBytes, trailer_empty])
    have hl := h.layout_eq hd he rfl heq
    rw [h.bare hd] at hl
    exact absurd (congrArg Layout.pinned hl) (by simp [e, layout])
  · intro c hc
    have hb := h.recast_bare hd (m := { contentHash := some (blake2b c) })
      (hd.recast c (by simp [hlen]) (by simp) (by simp)) (by simp [recast, verifyContentHash])
      (by simpa [trailer, encryptedBytes] using hc)
    exact absurd (congrArg Layout.hashed hb) (by simp [recast, layout])
  · intro c v hv hc
    have hb := h.recast_bare hd (m := { sequence := some (ByteString.toNatBE v) })
      (hd.recast c (by simp) (by simpa using toNatBE_lt_of_length hv) (by simp)) rfl
      (by simpa [trailer, tagged_toNatBE _ hv, encryptedBytes] using hc)
    exact absurd (congrArg Layout.sequenced hb) (by simp [recast, layout])
  · intro c v hv hc
    have hb := h.recast_bare hd (m := { signedAt := some (ByteString.toNatBE v) })
      (hd.recast c (by simp) (by simp) (by simpa using toNatBE_lt_of_length hv)) rfl
      (by simpa [trailer, tagged_toNatBE _ hv, encryptedBytes] using hc)
    exact absurd (congrArg Layout.stamped hb) (by simp [recast, layout])
  · intro c hc
    have hb := h.recast_bare hd (m := { encrypted := true })
      (hd.recast c (by simp) (by simp) (by simp)) rfl
      (by simpa [trailer, encryptedBytes] using hc)
    exact absurd (congrArg Layout.encrypted hb) (by simp [recast, layout])

/-- Data that begins the same bytes as bare Data with unframed content is bare too. -/
theorem bare_of_unframed (hd : d.WellFormed) (he : e.WellFormed)
    (hv : e.verifyContentHash = true) (hb : d.Bare) (hu : Unframed d.content)
    (heq : d.envelope = e.envelope) : e.Bare := by
  obtain ⟨hpin, htrailer⟩ := hb.trailer
  obtain ⟨-, hsplit⟩ := envelope_split hd he heq
  rw [hpin, htrailer] at hsplit
  simp only [Name.pinBytes_none, List.nil_append, List.append_nil] at hsplit
  have h₀ : e.name.contentHash = none := by
    cases hp : e.name.contentHash with
    | none => rfl
    | some p =>
      rw [hp, Name.pinBytes_some, List.cons_append] at hsplit
      have hlt := hu.pin _ hsplit
      rw [List.length_append, he.name.pin p hp] at hlt
      omega
  rw [h₀, Name.pinBytes_none, List.nil_append, trailer] at hsplit
  have h₁ : e.metadata.encrypted = false := by
    cases hx : e.metadata.encrypted with
    | false => rfl
    | true =>
      refine absurd ?_ (hu.encrypted (e.content ++ (e.metadata.contentHash.getD [] ++
        (tagged 0x01 e.metadata.sequence ++ tagged 0x02 e.metadata.signedAt))))
      rw [hsplit, hx]; simp [encryptedBytes]
  have h₂ : e.metadata.signedAt = none := by
    cases hx : e.metadata.signedAt with
    | none => rfl
    | some n =>
      refine absurd ?_ (hu.signedAt (e.content ++ (e.metadata.contentHash.getD [] ++
        tagged 0x01 e.metadata.sequence)) (ByteString.ofNatBE 8 n) (by simp))
      rw [hsplit, hx, h₁]; simp [encryptedBytes, tagged]
  have h₃ : e.metadata.sequence = none := by
    cases hx : e.metadata.sequence with
    | none => rfl
    | some n =>
      refine absurd ?_ (hu.sequence (e.content ++ e.metadata.contentHash.getD [])
        (ByteString.ofNatBE 8 n) (by simp))
      rw [hsplit, hx, h₁, h₂]; simp [encryptedBytes, tagged]
  have h₄ : e.metadata.contentHash = none := by
    cases hx : e.metadata.contentHash with
    | none => rfl
    | some b =>
      refine absurd ?_ (hu.hash e.content)
      have hb : blake2b e.content = b := by simpa [verifyContentHash, hx] using hv
      rw [hsplit, hx, h₁, h₂, h₃, hb]; simp [encryptedBytes, tagged]
  simp [Bare, layout, h₀, h₁, h₂, h₃, h₄]

theorem unforgeable_iff (hlen : ∀ b, (blake2b b).length = CONTENT_HASH_BYTES)
    (hd : d.WellFormed) : d.Unforgeable ↔ d.Bare ∧ Unframed d.content := by
  constructor
  · exact fun h => ⟨h.bare hd, h.unframed hlen hd⟩
  · rintro ⟨hb, hu⟩ e he hv hs
    have heq := (signedBytes_eq_iff hd he).mp hs
    exact agree_of_layout hd he heq (hb.trans (bare_of_unframed hd he hv hb hu heq).symm)

end Single

/-- Equal signed bytes force agreement, over all well-formed Data with matching hashes. -/
def EnvelopeInjective [Hashlib] : Prop :=
  ∀ d e : Data, d.WellFormed → e.WellFormed → d.verifyContentHash = true →
    e.verifyContentHash = true → d.signedBytes = e.signedBytes → Agree d e

/-- Signed bytes determine Data of one layout, and nothing more: two Data with the same bytes
agree exactly when they carry the same optional parts, and `d` agrees with all of them exactly
when it is bare and its content does not read as a pin or a field. -/
theorem signed_bytes_agree_iff [Hashlib]
    (hlen : ∀ b, (blake2b b).length = CONTENT_HASH_BYTES) {d : Data} (hd : d.WellFormed) :
    (∀ e : Data, e.WellFormed → e.verifyContentHash = true → d.signedBytes = e.signedBytes →
      (Agree d e ↔ d.layout = e.layout)) ∧
    ((∀ e : Data, e.WellFormed → e.verifyContentHash = true → d.signedBytes = e.signedBytes →
      Agree d e) ↔ d.Bare ∧ Unframed d.content) :=
  ⟨fun _ he _ hs => agree_iff_layout hd he ((signedBytes_eq_iff hd he).mp hs),
    unforgeable_iff hlen hd⟩

@[reducible] def paddedHash : Hashlib := ⟨fun b => (b ++ List.replicate 32 0).take 32⟩

theorem length_paddedHash (b : Bytes) : (paddedHash.blake2b b).length = CONTENT_HASH_BYTES := by
  simp [blake2b, CONTENT_HASH_BYTES]

def sealedEdition : Data where
  name := ⟨List.replicate 16 0x01, [[0x61]], none⟩
  content := [0x68, 0x69]
  metadata := { sequence := some 7, signedAt := some 1 }

/-- The same signed bytes with the sequence field moved into the content. -/
def strippedEdition : Data where
  name := ⟨List.replicate 16 0x01, [[0x61]], none⟩
  content := [0x68, 0x69, 0x01, 0, 0, 0, 0, 0, 0, 0, 7]
  metadata := { signedAt := some 1 }

theorem sealedEdition_wellFormed : sealedEdition.WellFormed :=
  ⟨⟨rfl, by decide, by decide, by simp [sealedEdition]⟩, by simp [sealedEdition],
    by simp [sealedEdition], by simp [sealedEdition]⟩

theorem strippedEdition_wellFormed : strippedEdition.WellFormed :=
  ⟨⟨rfl, by decide, by decide, by simp [strippedEdition]⟩, by simp [strippedEdition],
    by simp [strippedEdition], by simp [strippedEdition]⟩

theorem sealed_edition_forgeable : ¬ @Unforgeable paddedHash sealedEdition := fun h =>
  absurd ((@signed_bytes_agree_iff paddedHash length_paddedHash _
    sealedEdition_wellFormed).2.mp h).1 (by decide)

/-- A relay can strip the sequence of a signed edition and keep its signed bytes. -/
theorem envelope_not_injective :
    (sealedEdition.signedBytes = strippedEdition.signedBytes ∧
      sealedEdition.metadata.sequence ≠ strippedEdition.metadata.sequence) ∧
    ¬ ∃ H : Hashlib, @EnvelopeInjective H := by
  have hbytes : sealedEdition.signedBytes = strippedEdition.signedBytes := rfl
  have hseq : sealedEdition.metadata.sequence ≠ strippedEdition.metadata.sequence := by decide
  refine ⟨⟨hbytes, hseq⟩, fun ⟨H, h⟩ => hseq ?_⟩
  exact (h _ _ sealedEdition_wellFormed strippedEdition_wellFormed rfl rfl hbytes).sequence

end Data

end RnsIcn
