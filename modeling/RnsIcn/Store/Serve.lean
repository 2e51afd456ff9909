import RnsIcn.Store.Run
import RnsIcn.Wire.Envelope

/-! # Serving signed Data from the Content Store

A row keeps the content, the signed fields and the signature of the Data it was
written from. It does not keep the pin of the name nor the absence of a content
hash, and both are among the signed bytes.
-/

namespace RnsIcn

open Fallible

namespace Data

variable [Hashlib]

/-- The copy of `d` that a store holds: an unpinned name and always a content hash. -/
def cachedCopy (d : Data) : Data :=
  { d with
    name := d.name.withoutContentHash
    metadata := { d.metadata with
      contentHash := some d.rowHash } }

/-- The signed bytes of `d` and of its cached copy are no collision of the hash. -/
def CopyDistinct (d : Data) : Prop :=
  ∀ x y, d.signedBytes = .ok x → d.cachedCopy.signedBytes = .ok y → blake2b x = blake2b y → x = y

/-- `e` carries what the producer signed in `d`, its signature and the hash it is for. -/
structure Verifiable (d e : Data) : Prop where
  content : e.content = d.content
  sequence : e.metadata.sequence = d.metadata.sequence
  signedAt : e.metadata.signedAt = d.metadata.signedAt
  encrypted : e.metadata.encrypted = d.metadata.encrypted
  signature : e.signature = d.signature
  signedHash : e.signedHash = d.signedHash

theorem Verifiable.verifySignature {d e : Data} (h : Verifiable d e)
    (validator : Bytes → Bytes → Bool) :
    e.verifySignature validator = d.verifySignature validator := by
  rw [Data.verifySignature, Data.verifySignature, h.signature, h.signedHash]

theorem WellFormed.cachedCopy (hlen : ∀ b, (blake2b b).length = CONTENT_HASH_BYTES) {d : Data}
    (h : d.WellFormed) : d.cachedCopy.WellFormed :=
  h.recast d.content (m := d.cachedCopy.metadata) (by
    simp [Data.cachedCopy, Data.length_rowHash hlen h.contentHash]) h.sequence h.signedAt

/-- The cached copy has the signed bytes of `d` when `d` is unpinned and has a content hash. -/
theorem envelope_cachedCopy_iff (hlen : ∀ b, (blake2b b).length = CONTENT_HASH_BYTES) {d : Data}
    (h : d.WellFormed) : d.cachedCopy.envelope = d.envelope ↔
      d.name.contentHash = none ∧ d.metadata.contentHash.isSome = true := by
  constructor
  · intro he
    have hl := congrArg List.length (envelope_split (h.cachedCopy hlen) h he).2
    have hlay : d.cachedCopy.layout = { d.layout with pinned := false, hashed := true } := rfl
    have hcon : d.cachedCopy.content.length = d.content.length := rfl
    simp only [List.length_append, length_pinBytes h.name.pin,
      length_pinBytes (h.cachedCopy hlen).name.pin, length_trailer h,
      length_trailer (h.cachedCopy hlen), hlay, hcon] at hl
    -- The copy has 32 bytes of hash and no pin; `d` has 33 of pin, 32 of hash, both or neither.
    cases hp : d.name.contentHash <;> cases hc : d.metadata.contentHash <;>
      simp [Data.cachedCopy, layout, Name.withoutContentHash, hp, hc] at hl ⊢
    omega
  · rintro ⟨hp, hc⟩
    obtain ⟨b, hb⟩ := Option.isSome_iff_exists.mp hc
    have hne : b ≠ [] := by
      rintro rfl
      cases h.contentHash _ hb
    exact envelope_eq_of_split rfl (by
      simp [Data.cachedCopy, Name.withoutContentHash, trailer, hp, hb, rowHash_eq hb hne])

theorem signedHash_cachedCopy_iff (hlen : ∀ b, (blake2b b).length = CONTENT_HASH_BYTES) {d : Data}
    (h : d.WellFormed) (hcopy : d.CopyDistinct) : d.cachedCopy.signedHash = d.signedHash ↔
      d.name.contentHash = none ∧ d.metadata.contentHash.isSome = true := by
  have hs := h.signable.signedBytes
  have hsc := (h.cachedCopy hlen).signable.signedBytes
  rw [← envelope_cachedCopy_iff hlen h, Data.signedHash, Data.signedHash, hs, hsc]
  constructor
  · intro he
    exact (hcopy _ _ hs hsc (Except.ok.inj he).symm).symm
  · intro he
    rw [he]

end Data

namespace ContentStore

section Serve

variable [Hashlib] {s s₁ t : ContentStore} {d : Data} {now now' : ℕ} {key : Bytes}

theorem row_of_insert (hkey : nameHash d.name.withoutContentHash = .ok key)
    (hins : s.insert d.name d now = .ok s₁) (hheld : s₁.content.contains key = true) :
    ∃ nameBytes ttl, d.name.withoutContentHash.toBytes = .ok nameBytes ∧
      s₁.content.get? key = some (makeRow nameBytes d now ttl) := by
  obtain ⟨nameBytes, prefixes, hn, -, -, count, rfl⟩ := insert_eq_ok hins
  obtain ⟨row, hr⟩ := Dict.contains_iff.mp hheld
  have hk : key = blake2b nameBytes := by
    simpa [nameHash, hn, pure, Except.pure, bind, Except.bind] using hkey.symm
  have hu := evictLruInternal_sub _ count _ _ hr
  rw [get?_upsert, if_pos hk] at hu
  exact ⟨nameBytes, _, hn, hr.trans hu.symm⟩

theorem verifyContent_makeRow (hv : d.verifyContentHash = true) (nameBytes : Bytes)
    (ttl : Option ℕ) : verifyContent (makeRow nameBytes d now ttl) = true := by
  cases hc : d.metadata.contentHash with
  | none => simp [verifyContent, makeRow, Data.rowHash_none hc]
  | some b =>
    by_cases hb : b = []
    · simp [verifyContent, makeRow, Data.rowHash, hc, hb, Option.filter]
    · simpa [verifyContent, makeRow, Data.rowHash_eq hc hb, Data.verifyContentHash, hc] using hv

/-- The row of signed Data is served with the signed fields of its cached copy. -/
theorem verifiable_rowData {sig : Bytes} (hsig : d.signature = some sig)
    (hsl : sig.length = SIGNATURE_BYTES) (nameBytes : Bytes) (ttl : Option ℕ)
    (h : d.cachedCopy.signedHash = d.signedHash) :
    Data.Verifiable d
      (rowData (makeRow nameBytes d now ttl) d.name.withoutContentHash now') where
  content := rfl
  sequence := rfl
  signedAt := rfl
  encrypted := rfl
  signature := by
    have hne : sig ≠ [] := by rintro rfl; cases hsl
    simp [rowData, parseSignature, makeRow, hsig, hne]
  signedHash := h

/-- The read of a held row of `d`: it answers unless the request has a pin it does not meet. -/
theorem get_of_row (hd : d.WellFormed) (hv : d.verifyContentHash = true) {nameBytes : Bytes}
    {ttl : Option ℕ} (hkey : nameHash d.name.withoutContentHash = .ok key)
    (hn : d.name.withoutContentHash.toBytes = .ok nameBytes)
    (hr : (t.purgeExpired now').content.get? key = some (makeRow nameBytes d now ttl)) :
    (t.get d.name now').2 = .ok (if d.name.contentHash.any (blake2b d.content != ·) then none
      else some (rowData (makeRow nameBytes d now ttl) d.name.withoutContentHash now')) := by
  have hname : Name.fromBytes nameBytes = .ok d.name.withoutContentHash := by
    obtain ⟨he, rfl⟩ := Name.toBytes_eq_ok.mp hn
    exact Name.fromBytes_encode he hd.name.count (by simp [Name.withoutContentHash])
  rw [get]
  simp only [read, hkey, bind, Except.bind, hr]
  rw [show (makeRow nameBytes d now ttl).nameBytes = nameBytes from rfl, hname]
  simp only [verifyContent_makeRow hv, Bool.not_true, Bool.false_eq_true, if_false]
  rw [show (makeRow nameBytes d now ttl).contentBytes = d.content from rfl]
  split <;> rfl

/-- Signed Data that a store holds is served in verifiable form exactly when its name carries no
pin and it names its content hash. -/
theorem served_verifiable_iff (hlen : ∀ b, (blake2b b).length = CONTENT_HASH_BYTES)
    {sig : Bytes} {ops : List StoreOp} (hd : d.WellFormed) (hsig : d.signature = some sig)
    (hsl : sig.length = SIGNATURE_BYTES) (hv : d.verifyContentHash = true)
    (hcopy : d.CopyDistinct) (hkey : nameHash d.name.withoutContentHash = .ok key)
    (hins : s.insert d.name d now = .ok s₁) (hheld : s₁.content.contains key = true)
    (hrun : Transition.Run step (Spares key) s₁ ops t) (hlast : Spares key t (.get d.name now')) :
    (∃ e, (t.get d.name now').2 = .ok (some e) ∧ Data.Verifiable d e) ↔
      d.name.contentHash = none ∧ d.metadata.contentHash.isSome = true := by
  obtain ⟨nameBytes, ttl, hn, hr⟩ := row_of_insert hkey hins hheld
  have hrow : (t.purgeExpired now').content.get? key = some (makeRow nameBytes d now ttl) :=
    hlast.get? (get?_of_run hrun hr)
  rw [get_of_row hd hv hkey hn hrow, ← Data.signedHash_cachedCopy_iff hlen hd hcopy]
  constructor
  · rintro ⟨e, he, hve⟩
    split at he
    · cases he
    · obtain rfl := Option.some.inj (Except.ok.inj he)
      exact hve.signedHash
  · intro h
    have hpin := ((Data.signedHash_cachedCopy_iff hlen hd hcopy).mp h).1
    exact ⟨rowData (makeRow nameBytes d now ttl) d.name.withoutContentHash now',
      by simp [hpin], verifiable_rowData hsig hsl nameBytes ttl h⟩

end Serve

def twice (hash : Bytes) : Bytes := hash ++ hash

def signedHi (name : Name) : Data :=
  letI := Data.paddedHash
  let d : Data :=
    { name, content := [0x68, 0x69]
      metadata :=
        { contentHash := some (blake2b [0x68, 0x69]), sequence := some 0, signedAt := some 1 } }
  { d with signature := some (twice (blake2b d.envelope)) }

def editionName : Name := ⟨List.replicate 16 0x01, [[0x61]], none⟩

def chunkName : Name :=
  { editionName with contentHash := some (Data.paddedHash.blake2b [0x68, 0x69]) }

def holding (d : Data) : ContentStore :=
  letI := Data.paddedHash
  ContentStore.apply {} (.insert d.name d 0)

theorem signedHi_edition_wellFormed : (signedHi editionName).WellFormed :=
  ⟨⟨rfl, by decide, by decide, by simp [signedHi, editionName]⟩,
    by simp [signedHi, blake2b, CONTENT_HASH_BYTES], by simp [signedHi], by simp [signedHi]⟩

theorem edition_served_verifiable :
    letI := Data.paddedHash
    ∃ e, ((holding (signedHi editionName)).get editionName 5).2 = .ok (some e) ∧
      Data.Verifiable (signedHi editionName) e :=
  (@served_verifiable_iff Data.paddedHash {} _ _ _ 0 5 _ Data.length_paddedHash _ []
    signedHi_edition_wellFormed rfl rfl rfl (fun _ _ hx hy _ => ok_inj hx hy) rfl rfl rfl
    (.nil _) ⟨id, fun _ => rfl⟩).mpr ⟨rfl, rfl⟩

/-- A signed chunk is cached, and the copy that is served does not verify. -/
theorem cached_chunk_unverifiable :
    letI := Data.paddedHash
    let chunk := signedHi chunkName
    let validator := fun sig hash => sig == twice hash
    ({} : ContentStore).insert chunk.name chunk 0 = .ok (holding chunk) ∧
      chunk.verifyContentHash = true ∧ chunk.verifySignature validator = .ok true ∧
      ∃ e, ((holding chunk).get chunk.name 5).2 = .ok (some e) ∧
        e.signature = chunk.signature ∧ e.signedHash ≠ chunk.signedHash ∧
        e.verifySignature validator = .ok false :=
  letI := Data.paddedHash
  ⟨rfl, rfl, rfl, rowData (makeRow editionName.encode (signedHi chunkName) 0 none) editionName 5,
    rfl, rfl, fun h => by
      have hb := Except.ok.inj h
      revert hb
      decide, rfl⟩

end ContentStore

end RnsIcn
