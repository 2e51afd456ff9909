import RnsIcn.Wire.Discovery
import RnsIcn.Wire.Envelope

/-! # Reading a signed pointer

The signed bytes of a pointer do not frame its payload, so a relay can move bytes
between the content and the fields after it. All that it can move is shorter than
the pin and the hash at the end of a pointer, so the content still names the target
of the pointer or cannot be read.
-/

namespace RnsIcn

open Fallible

namespace Name

theorem fromBytes_encodeComponents {n m : Name} (hn : n.Encodable) {x : Bytes}
    (h : fromBytes (encodeComponents n.components ++ x) = .ok m) :
    m.components = n.components ∧ readContentHash x = .ok m.contentHash := by
  have hl : (UInt8.ofNat n.components.length).toNat = n.components.length := by
    simp [Nat.mod_eq_of_lt (show n.components.length < 256 from hn.count)]
  rw [encodeComponents, Framing.counted, byteCount, List.singleton_append, List.cons_append,
    fromBytes, ite_error_eq_ok, hl] at h
  obtain ⟨-, h⟩ := h
  rw [readComponents_flatMap hn.component x] at h
  simp only [bind_eq_ok, Prod.exists] at h
  obtain ⟨_, _, he, hash, hhash, h⟩ := h
  obtain ⟨rfl, rfl⟩ := Prod.mk.inj (Except.ok.inj he)
  obtain rfl := pure_eq_ok.mp h
  exact ⟨rfl, hhash⟩

theorem eq_of_components {n m : Name} (hc : n.components = m.components)
    (hp : n.contentHash = m.contentHash) : n = m := by
  obtain ⟨ha, hpath⟩ := components_inj hc
  cases n; cases m; simp_all

theorem readContentHash_cut {p y u w : Bytes} {h : Option Bytes}
    (hp : p.length = CONTENT_HASH_BYTES) (hcut : y ++ u = p ++ w)
    (hread : readContentHash (HASH_DISCRIMINATOR :: y) = .ok h) : h = some p := by
  rw [readContentHash, if_pos rfl, ite_error_eq_ok, not_lt] at hread
  obtain ⟨hle, he⟩ := hread
  have htake : y.take CONTENT_HASH_BYTES = p := by
    rw [← List.take_append_of_le_length hle, hcut, ← hp, List.take_left]
  rw [← Except.ok.inj he, htake]

end Name

namespace Discovery

variable {n m : Name} {p payload content u w : Bytes}

theorem metaName_eq_ok {collection : Name} (h : metaName collection = .ok n) :
    n.contentHash = none ∧ n.components = collection.components ++ [META_LABEL] := by
  rw [metaName, Name.new, ite_error_eq_ok] at h
  obtain rfl := Except.ok.inj h.2
  exact ⟨rfl, rfl⟩

theorem metaName_inj {collection collection' : Name} (h : metaName collection = .ok n)
    (h' : metaName collection' = .ok n) :
    collection.withoutContentHash = collection'.withoutContentHash := by
  have hc := (metaName_eq_ok h).2.symm.trans (metaName_eq_ok h').2
  exact Name.eq_of_components (List.append_cancel_right hc) rfl

theorem encodeMeta_eq_ok : encodeMeta n = .ok payload ↔
    n.Encodable ∧ payload = META_FMT :: n.encode := by
  simp only [encodeMeta, bind_eq_ok, pure_eq_ok, Name.toBytes_eq_ok]
  constructor
  · rintro ⟨_, ⟨hn, rfl⟩, rfl⟩; exact ⟨hn, rfl⟩
  · rintro ⟨hn, rfl⟩; exact ⟨_, ⟨hn, rfl⟩, rfl⟩

theorem decodeMeta_cons_eq_ok (h : decodeMeta (META_FMT :: payload) = .ok m) :
    Name.fromBytes payload = .ok m := by
  rw [decodeMeta, if_neg (by simp)] at h
  split at h
  · rename_i hn
    rw [hn, Except.ok.inj h]
  · cases h

/-- Content that is cut from a payload and what follows it, short of the pin at most, names the
same target. -/
theorem decodeMeta_cut (hpin : n.contentHash = some p) (hp : p.length = CONTENT_HASH_BYTES)
    (hpayload : encodeMeta n = .ok payload) (hcut : content ++ u = payload ++ w)
    (hu : u.length ≤ CONTENT_HASH_BYTES + w.length) (h : decodeMeta content = .ok m) : m = n := by
  obtain ⟨hn, rfl⟩ := encodeMeta_eq_ok.mp hpayload
  let head := META_FMT :: (Name.encodeComponents n.components ++ [HASH_DISCRIMINATOR])
  have hsplit : content ++ u = head ++ (p ++ w) := by
    rw [hcut, Name.encode, hpin]
    simp [head]
  obtain ⟨y, rfl, hy⟩ : ∃ y, content = head ++ y ∧ y ++ u = p ++ w := by
    rcases List.append_eq_append_iff.mp hsplit with ⟨z, hz, hrest⟩ | ⟨z, hz, hrest⟩
    · have hlen := congrArg List.length hrest
      rw [List.length_append, List.length_append, hp] at hlen
      obtain rfl : z = [] := List.eq_nil_of_length_eq_zero (by omega)
      exact ⟨[], by simpa using hz.symm, by simpa using hrest⟩
    · exact ⟨z, hz, hrest.symm⟩
  have hread : Name.fromBytes (Name.encodeComponents n.components ++ HASH_DISCRIMINATOR :: y) =
      .ok m := decodeMeta_cons_eq_ok (by simpa [head] using h)
  obtain ⟨hcomp, hhash⟩ := Name.fromBytes_encodeComponents hn hread
  exact Name.eq_of_components hcomp ((Name.readContentHash_cut hp hy hhash).trans hpin.symm)

end Discovery

namespace Data

variable {d e : Data} {n m : Name}

theorem length_trailer_le {md : DataMetadata}
    (h : ∀ b ∈ md.contentHash, b.length = CONTENT_HASH_BYTES) : (trailer md).length ≤ 52 := by
  rw [trailer, List.length_append, List.length_append, List.length_append, length_tagged,
    length_tagged, length_encryptedBytes, length_contentHash h]
  split <;> split <;> split <;> split <;> decide

/-- Data of an unpinned name whose content is a payload that names a pinned target. -/
structure Names (d : Data) (n : Name) : Prop where
  unpinned : d.name.contentHash = none
  payload : Discovery.encodeMeta n = .ok d.content
  pin : ∃ p, n.contentHash = some p ∧ p.length = CONTENT_HASH_BYTES
  hashed : ∃ h, d.metadata.contentHash = some h ∧ h.length = CONTENT_HASH_BYTES

/-- With the signed bytes of a pointer the components are those of the pointer, and the content is
cut from its payload and the fields after it. -/
theorem Names.cut (hd : d.Names n) (hname : d.name.Encodable) (he : e.name.Encodable)
    (h : d.envelope = e.envelope) : e.name.withoutContentHash = d.name ∧
      e.content ++ trailer e.metadata = d.content ++ trailer d.metadata := by
  obtain ⟨hc, hrest⟩ := Name.encode_append_inj hname he (List.append_cancel_left h)
  obtain ⟨-, hpayload⟩ := Discovery.encodeMeta_eq_ok.mp hd.payload
  rw [hd.unpinned, Name.pinBytes_none, List.nil_append] at hrest
  cases hpin : e.name.contentHash with
  | none =>
    rw [hpin, Name.pinBytes_none, List.nil_append] at hrest
    exact ⟨Name.eq_of_components hc.symm hd.unpinned.symm, hrest.symm⟩
  | some q =>
    -- A payload does not begin like a pin.
    rw [hpin, hpayload, Name.pinBytes_some, List.cons_append, List.cons_append] at hrest
    exact absurd (List.cons.inj hrest).1 (by decide)

/-- Data with the signed bytes of a pointer names the target of the pointer, if its content can be
read at all. -/
theorem Names.target_eq (hd : d.Names n) (hname : d.name.Encodable) (he : e.name.Encodable)
    (hhash : ∀ b ∈ e.metadata.contentHash, b.length = CONTENT_HASH_BYTES)
    (h : d.envelope = e.envelope) (hm : Discovery.decodeMeta e.content = .ok m) : m = n := by
  obtain ⟨p, hpin, hp⟩ := hd.pin
  obtain ⟨b, hb, hlen⟩ := hd.hashed
  obtain ⟨-, hcut⟩ := hd.cut hname he h
  refine Discovery.decodeMeta_cut hpin hp hd.payload hcut ?_ hm
  have he := length_trailer_le hhash
  have hd : CONTENT_HASH_BYTES ≤ (trailer d.metadata).length := by
    rw [trailer, List.length_append, hb, Option.getD_some, hlen]
    exact Nat.le_add_right _ _
  have hwidth : (52 : ℕ) ≤ CONTENT_HASH_BYTES + CONTENT_HASH_BYTES := by decide
  omega

end Data

end RnsIcn
