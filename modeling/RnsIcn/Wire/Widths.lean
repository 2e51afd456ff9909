import RnsIcn.Wire.Envelope
import RnsIcn.Wire.RoundTrip

/-! # Packets that fit their fields

The widths that the fields of a packet have on the wire. A packet that fits them can
be encoded, and every packet that is parsed fits them, whatever bytes it came from.
-/

namespace RnsIcn

open Fallible Parse

namespace Name

/-- The names that are read from the wire, with an address of any width. -/
structure Fits (n : Name) : Prop where
  encodable : n.Encodable
  count : n.len ≤ MAX_COMPONENTS
  pin : ∀ h ∈ n.contentHash, h.length = CONTENT_HASH_BYTES

theorem Fits.fromBytes {n : Name} (h : n.Fits) : Name.fromBytes n.encode = .ok n :=
  fromBytes_encode h.encodable h.count h.pin

theorem length_of_readContentHash {tail : Bytes} {hash : Option Bytes}
    (h : readContentHash tail = .ok hash) : ∀ b ∈ hash, b.length = CONTENT_HASH_BYTES := by
  intro b hb
  obtain rfl := Option.mem_def.mp hb
  cases tail with
  | nil => cases h
  | cons x tail =>
    rw [readContentHash] at h
    split at h
    · rw [ite_error_eq_ok] at h
      obtain ⟨hlen, he⟩ := h
      obtain rfl := Option.some.inj (Except.ok.inj he)
      rw [List.length_take]
      omega
    · cases h

theorem fits_of_fromBytes {b : Bytes} {n : Name} (h : fromBytes b = .ok n) : n.Fits := by
  refine ⟨encodable_of_fromBytes h, ?_, ?_⟩ <;>
  · cases b with
    | nil => cases h
    | cons count data =>
      rw [fromBytes, ite_error_eq_ok] at h
      obtain ⟨hcount, h⟩ := h
      simp only [bind_eq_ok, Prod.exists] at h
      obtain ⟨comps, tail, hread, hash, hhash, h⟩ := h
      cases comps with
      | nil => cases h
      | cons addr path =>
        obtain rfl := pure_eq_ok.mp h
        first
        | exact length_of_readContentHash hhash
        | exact (readComponents_eq_ok hread).1.trans_le (not_lt.mp (not_or.mp hcount).2)

theorem length_flatMap_encodeComponent {comps : List Bytes}
    (h : ∀ comp ∈ comps, comp.length < 256) :
    (comps.flatMap encodeComponent).length ≤ comps.length * 256 := by
  induction comps with
  | nil => exact le_rfl
  | cons comp comps ih =>
    rw [List.forall_mem_cons] at h
    rw [List.flatMap_cons, List.length_append, encodeComponent_eq, List.length_cons,
      List.length_cons]
    have hrest := ih h.2
    omega

theorem Fits.length_encode {n : Name} (h : n.Fits) : n.encode.length < 256 ^ 2 := by
  have hcomps := length_flatMap_encodeComponent h.encodable.component
  have hpin := Data.length_pinBytes h.pin
  have hcount : n.components.length ≤ MAX_COMPONENTS := h.count
  rw [encode, encodeComponents, Framing.counted, byteCount, List.length_append,
    List.length_append, List.length_singleton, hpin]
  have hmax : MAX_COMPONENTS = 32 := rfl
  have hsmall : n.components.length * 256 ≤ 32 * 256 := Nat.mul_le_mul_right _ (hmax ▸ hcount)
  split <;> omega

end Name

theorem writeVarint_isOk {n : ℕ} (h : n < 256 ^ 8) : ∃ b, writeVarint n = .ok b := by
  rw [writeVarint]
  split
  · exact ⟨_, structPack_of_lt (by omega)⟩
  · split
    · exact ⟨_, by rw [structPack_of_lt (by omega)]; rfl⟩
    · split
      · exact ⟨_, by rw [structPack_of_lt (by omega)]; rfl⟩
      · exact ⟨_, by rw [structPack_of_lt h]; rfl⟩

theorem Name.Fits.header {n : Name} (h : n.Fits) (type : PacketType) :
    ∃ b, RnsIcn.header type n = .ok b := by
  have hlen : n.encode.length < 256 ^ 8 := h.length_encode.trans (by decide)
  obtain ⟨nameLen, hnameLen⟩ := writeVarint_isOk hlen
  exact ⟨_, by rw [RnsIcn.header, h.encodable.toBytes]; simp [hnameLen, bind, Except.bind]; rfl⟩

theorem optField_isOk {α : Type} {write : α → Except PyError Bytes} {x : Option α}
    (h : ∀ y ∈ x, ∃ b, write y = .ok b) : ∃ b, optField write x = .ok b := by
  cases x with
  | none => exact ⟨[], rfl⟩
  | some y => exact h y rfl

theorem optField_structPack_isOk {width : ℕ} {x : Option ℕ} (h : ∀ n ∈ x, n < 256 ^ width) :
    ∃ b, optField (structPack width) x = .ok b :=
  optField_isOk fun n hn => ⟨_, structPack_of_lt (h n hn)⟩

structure Interest.Fits (i : Interest) : Prop where
  name : i.name.Fits
  nonce : i.nonce.length = 8
  lifetime : i.lifetimeMs < 256 ^ 4
  minSequence : ∀ s ∈ i.selector, ∀ n ∈ s.minSequence, n < 256 ^ 8
  hopLimit : i.hopLimit < 256

structure DataMetadata.Fits (m : DataMetadata) : Prop where
  contentHash : ∀ h ∈ m.contentHash, h.length = CONTENT_HASH_BYTES
  sequence : ∀ n ∈ m.sequence, n < 256 ^ 8
  age : m.freshness.fresh = false → m.freshness.ageSeconds < 256 ^ 8
  freshnessPeriod : ∀ n ∈ m.freshnessPeriod, n < 256 ^ 8
  signedAt : ∀ n ∈ m.signedAt, n < 256 ^ 8

structure Data.Fits (d : Data) : Prop where
  name : d.name.Fits
  content : d.content.length < 256 ^ 4
  signature : ∀ sig ∈ d.signature, sig.length = SIGNATURE_BYTES
  metadata : d.metadata.Fits

theorem Data.Fits.signable {d : Data} (h : d.Fits) : d.Signable :=
  ⟨h.name.encodable, h.metadata.sequence, h.metadata.signedAt⟩

theorem Data.Fits.signedHash [Hashlib] {d : Data} (h : d.Fits) :
    d.signedHash = .ok (blake2b d.envelope) := by
  rw [Data.signedHash, h.signable.signedBytes]
  rfl

structure PropPeer.Fits (p : PropPeer) : Prop where
  version : p.version = PROTOCOL_VERSION
  rnsAddr : p.rnsAddr.length = RNS_ADDR_BYTES

structure CapPeer.Fits (c : CapPeer) : Prop where
  version : c.version = PROTOCOL_VERSION
  role : c.role < 256
  features : c.features < 256 ^ 4

structure Invalidate.Fits (v : Invalidate) : Prop where
  name : v.name.Fits
  epoch : v.epoch < 256 ^ 8
  signature : ∀ sig ∈ v.signature, sig.length = SIGNATURE_BYTES

def Packet.Fits : Packet → Prop
  | .interest i => i.Fits
  | .data d => d.Fits
  | .subscribe s => s.name.Fits
  | .peer p => p.Fits
  | .capPeer c => c.Fits
  | .invalidate v => v.Fits
  | .nack n => n.name.Fits

theorem readNat_lt {width n : ℕ} {e : PyError} {data rest : Bytes}
    (h : readNat width e data = .ok (n, rest)) : n < 256 ^ width := by
  simp only [readNat, bind_eq_ok, pure_eq_ok, Prod.exists] at h
  obtain ⟨b, _, hb, he⟩ := h
  obtain ⟨rfl, -⟩ := Prod.mk.inj he
  exact readBytes_length hb ▸ ByteString.toNatBE_lt b

theorem readOpt_eq_ok {α : Type} {isSet : Bool} {read : Bytes → Except PyError (α × Bytes)}
    {data rest : Bytes} {x : Option α} (h : readOpt isSet read data = .ok (x, rest)) :
    x.isSome = isSet ∧ ∀ y ∈ x, read data = .ok (y, rest) := by
  rw [readOpt] at h
  split at h
  · rename_i hset
    simp only [bind_eq_ok, pure_eq_ok, Prod.exists] at h
    obtain ⟨y, _, hread, he⟩ := h
    obtain ⟨rfl, rfl⟩ := Prod.mk.inj he
    refine ⟨hset.symm, fun y' hy => ?_⟩
    obtain rfl := Option.some.inj hy
    exact hread
  · rename_i hset
    obtain ⟨rfl, rfl⟩ := Prod.mk.inj (Except.ok.inj h)
    refine ⟨by simpa using hset, ?_⟩
    rintro _ ⟨⟩

theorem readName_fits {err : String → PyError} {data rest : Bytes} {n : Name}
    (h : readName err data = .ok (n, rest)) : n.Fits := by
  simp only [readName, bind_eq_ok, pure_eq_ok, Prod.exists] at h
  obtain ⟨_, _, -, _, _, -, m, hm, he⟩ := h
  obtain ⟨rfl, -⟩ := Prod.mk.inj he
  exact Name.fits_of_fromBytes hm

theorem readVersion_eq {err : String → PyError} {data rest : Bytes} {v : ℕ}
    (h : readVersion err data = .ok (v, rest)) : v = PROTOCOL_VERSION := by
  simp only [readVersion, bind_eq_ok, Prod.exists] at h
  obtain ⟨b, _, -, h⟩ := h
  split at h
  · rename_i hv
    obtain ⟨rfl, -⟩ := Prod.mk.inj (pure_eq_ok.mp h)
    exact List.mem_singleton.mp hv
  · simp at h

theorem InterestSelector.minSequence_lt {data rest : Bytes} {s : InterestSelector}
    (h : InterestSelector.fromBytes data = .ok (s, rest)) : ∀ n ∈ s.minSequence, n < 256 ^ 8 := by
  simp only [InterestSelector.fromBytes, bind_eq_ok, Prod.exists] at h
  obtain ⟨flags, _, -, h⟩ := h
  split at h
  · simp at h
  · simp only [bind_eq_ok, pure_eq_ok, Prod.exists] at h
    obtain ⟨minSequence, _, hmin, he⟩ := h
    obtain ⟨rfl, -⟩ := Prod.mk.inj he
    exact fun n hn => readNat_lt ((readOpt_eq_ok hmin).2 n hn)

theorem Interest.fits_of_fromBytes {b : Bytes} {i : Interest} (h : Interest.fromBytes b = .ok i) :
    i.Fits := by
  simp only [Interest.fromBytes, bind_eq_ok, pure_eq_ok, Prod.exists] at h
  obtain ⟨_, -, _, _, -, name, _, hname, nonce, _, hnonce, lifetime, _, hlife, flags, _, -,
    selector, _, hsel, hop, _, hhop, rfl⟩ := h
  refine ⟨readName_fits hname, readBytes_length hnonce, readNat_lt hlife, ?_, ?_⟩
  · intro s hs n hn
    have hread := (readOpt_eq_ok hsel).2 s hs
    exact InterestSelector.minSequence_lt hread n hn
  · change (hop.map UInt8.toNat).getD DEFAULT_HOP_LIMIT < 256
    cases hop with
    | none => decide
    | some x => exact x.toNat_lt

theorem DataMetadata.fits_of_fromBytes {b : Bytes} {m : DataMetadata}
    (h : DataMetadata.fromBytes b = .ok m) : m.Fits := by
  simp only [DataMetadata.fromBytes, bind_eq_ok, pure_eq_ok, Prod.exists] at h
  obtain ⟨_, _, -, hash, _, hhash, seq, _, hseq, age, _, hage, period, _, hperiod, stamp, _,
    hstamp, rfl⟩ := h
  refine ⟨fun x hx => readBytes_length ((readOpt_eq_ok hhash).2 x hx),
    fun n hn => readNat_lt ((readOpt_eq_ok hseq).2 n hn), fun hstale => ?_,
    fun n hn => readNat_lt ((readOpt_eq_ok hperiod).2 n hn),
    fun n hn => readNat_lt ((readOpt_eq_ok hstamp).2 n hn)⟩
  cases age with
  | none => cases hstale
  | some n => exact readNat_lt ((readOpt_eq_ok hage).2 n rfl)

theorem Data.fits_of_fromBytes {b : Bytes} {d : Data} (h : Data.fromBytes b = .ok d) :
    d.Fits := by
  have hsig : ∀ sig ∈ d.signature, sig.length = SIGNATURE_BYTES :=
    fun _ hs => Data.fromBytes_signature h hs
  simp only [Data.fromBytes, bind_eq_ok, pure_eq_ok, Prod.exists] at h
  obtain ⟨_, -, _, _, -, name, _, hname, len, _, hlen, content, _, hcontent, _, _, -, block, _,
    hblock, _, _, -, rfl⟩ := h
  refine ⟨readName_fits hname, ?_, hsig, ?_⟩
  · exact readBytes_length hcontent ▸ readNat_lt hlen
  · cases block with
    | none =>
      constructor
      · rintro _ ⟨⟩
      · rintro _ ⟨⟩
      · rintro ⟨⟩
      · rintro _ ⟨⟩
      · rintro _ ⟨⟩
    | some m =>
      have hread := (readOpt_eq_ok hblock).2 m rfl
      simp only [DataMetadata.read, bind_eq_ok, pure_eq_ok, Prod.exists] at hread
      obtain ⟨_, _, -, _, _, -, m', hm, he⟩ := hread
      obtain ⟨rfl, -⟩ := Prod.mk.inj he
      exact DataMetadata.fits_of_fromBytes hm

theorem APSubscribe.fits_of_fromBytes {b : Bytes} {s : APSubscribe}
    (h : APSubscribe.fromBytes b = .ok s) : s.name.Fits := by
  simp only [APSubscribe.fromBytes, bind_eq_ok, pure_eq_ok, Prod.exists, mapError_eq_ok] at h
  obtain ⟨_, -, _, _, -, _, _, -, _, _, -, name, hname, _, _, -, rfl⟩ := h
  exact Name.fits_of_fromBytes hname

theorem Invalidate.fits_of_fromBytes {b : Bytes} {v : Invalidate}
    (h : Invalidate.fromBytes b = .ok v) : v.Fits := by
  simp only [Invalidate.fromBytes, bind_eq_ok, pure_eq_ok, Prod.exists] at h
  obtain ⟨_, -, _, _, -, name, _, hname, epoch, _, hepoch, _, _, -, sig, _, hsig, rfl⟩ := h
  exact ⟨readName_fits hname, readNat_lt hepoch,
    fun x hx => readBytes_length ((readOpt_eq_ok hsig).2 x hx)⟩

theorem Nack.fits_of_fromBytes {b : Bytes} {n : Nack} (h : Nack.fromBytes b = .ok n) :
    n.name.Fits := by
  simp only [Nack.fromBytes, bind_eq_ok, pure_eq_ok, Prod.exists] at h
  obtain ⟨_, -, _, _, -, name, _, hname, _, _, -, _, -, rfl⟩ := h
  exact readName_fits hname

theorem throw_bind_ne_ok {α β : Type} {e : PyError} {f : α → Except PyError β} {b : β} :
    (throw e >>= f) ≠ .ok b := by
  simp

theorem PropPeer.fits_of_fromBytes {b : Bytes} {p : PropPeer} (h : PropPeer.fromBytes b = .ok p) :
    p.Fits := by
  unfold PropPeer.fromBytes at h
  cases b with
  | nil => cases h
  | cons x rest =>
    simp only at h
    split at h
    · exact absurd h throw_bind_ne_ok
    · split at h
      · exact absurd h throw_bind_ne_ok
      · simp only [bind_eq_ok, pure_eq_ok, Prod.exists] at h
        obtain ⟨v, _, hv, addr, _, haddr, _, _, -, rfl⟩ := h
        exact ⟨readVersion_eq hv, readBytes_length haddr⟩

theorem CapPeer.fits_of_fromBytes {b : Bytes} {c : CapPeer} (h : CapPeer.fromBytes b = .ok c) :
    c.Fits := by
  unfold CapPeer.fromBytes at h
  cases b with
  | nil => cases h
  | cons x rest =>
    simp only at h
    split at h
    · exact absurd h throw_bind_ne_ok
    · split at h
      · exact absurd h throw_bind_ne_ok
      · simp only [bind_eq_ok, pure_eq_ok, Prod.exists] at h
        obtain ⟨v, _, hv, role, _, -, features, _, hfeatures, rfl⟩ := h
        exact ⟨readVersion_eq hv, role.toNat_lt, readNat_lt hfeatures⟩

theorem fits_of_parsePacket {raw : Bytes} {p : Packet} (h : parsePacket raw = .ok p) :
    p.Fits := by
  cases raw with
  | nil => cases h
  | cons b rest =>
    simp only [parsePacket] at h
    repeat' split at h
    all_goals first | cases h | obtain ⟨x, hx, rfl⟩ := map_eq_ok.mp h
    · exact Interest.fits_of_fromBytes hx
    · exact Data.fits_of_fromBytes hx
    · exact APSubscribe.fits_of_fromBytes hx
    · exact PropPeer.fits_of_fromBytes hx
    · exact CapPeer.fits_of_fromBytes hx
    · exact Invalidate.fits_of_fromBytes hx
    · exact Nack.fits_of_fromBytes hx

end RnsIcn
