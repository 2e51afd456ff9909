import RnsIcn.Wire.Extension

/-! # What relays keep

A packet that fits its fields has an encoding in this version and in every later one,
and all of them are parsed to the packet. What a relay has parsed fits, so relays that
parse and encode again leave the packet as it is, whatever bytes it first came in.
-/

namespace RnsIcn

open Fallible Parse

theorem structPack_isOk {width n : ℕ} (h : n < 256 ^ width) : ∃ b, structPack width n = .ok b :=
  ⟨_, structPack_of_lt h⟩

theorem InterestSelector.toBytesWith_isOk {s : InterestSelector} {bits : UInt8}
    (h : ∀ n ∈ s.minSequence, n < 256 ^ 8) : ∃ b, s.toBytesWith bits = .ok b := by
  obtain ⟨b, hb⟩ := optField_structPack_isOk h
  exact ⟨_, by rw [toBytesWith, hb]; rfl⟩

theorem Interest.Fits.toBytesWith_isOk {i : Interest} (h : i.Fits) (bits selectorBits : UInt8)
    (tail : Bytes) : ∃ b, i.toBytesWith bits selectorBits tail = .ok b := by
  obtain ⟨head, hhead⟩ := h.name.header .interest
  obtain ⟨lifetime, hlife⟩ := structPack_isOk h.lifetime
  have hwire : ∀ s ∈ i.wireSelector, ∃ b, InterestSelector.toBytesWith selectorBits s = .ok b := by
    intro s hs
    have hmem : s ∈ i.selector := (Option.mem_filter_iff.mp hs).1
    exact InterestSelector.toBytesWith_isOk (h.minSequence s hmem)
  obtain ⟨sel, hsel⟩ := optField_isOk hwire
  exact ⟨_, by rw [toBytesWith, hhead, hlife, hsel]; rfl⟩

theorem DataMetadata.Fits.toBytesWith_isOk {m : DataMetadata} (h : m.Fits) (bits : UInt8)
    (tail : Bytes) : ∃ b, m.toBytesWith bits tail = .ok b ∧ b.length ≤ 65 + tail.length := by
  have hage : ∀ n ∈ m.age, n < 256 ^ 8 := by
    intro n hn
    rw [DataMetadata.age] at hn
    split at hn
    · cases hn
    · rename_i hstale
      obtain rfl := Option.some.inj hn
      exact h.age (Bool.not_eq_true _ |>.mp hstale)
  have hwidth {x : Option ℕ} (hx : ∀ n ∈ x, n < 256 ^ 8) :
      ∃ b, optField (structPack 8) x = .ok b ∧ b.length ≤ 8 := by
    cases x with
    | none => exact ⟨[], rfl, by simp⟩
    | some n => exact ⟨_, structPack_of_lt (hx n rfl), (ByteString.length_ofNatBE 8 n).le⟩
  obtain ⟨seq, hseq, hseqLen⟩ := hwidth h.sequence
  obtain ⟨age, hage, hageLen⟩ := hwidth hage
  obtain ⟨period, hperiod, hperiodLen⟩ := hwidth h.freshnessPeriod
  obtain ⟨stamp, hstamp, hstampLen⟩ := hwidth h.signedAt
  have hhash : (m.contentHash.getD []).length ≤ 32 := by
    cases hc : m.contentHash with
    | none => simp
    | some x => exact (h.contentHash x hc).le
  refine ⟨_, by rw [toBytesWith, hseq, hage, hperiod, hstamp]; rfl, ?_⟩
  simp only [List.length_cons, List.length_append]
  omega

theorem Data.Fits.toBytesWith_isOk {d : Data} (h : d.Fits) (bits blockBits : UInt8)
    {blockTail : Bytes} (hblock : blockTail.length < 2 ^ 63) (tail : Bytes) :
    ∃ b, d.toBytesWith bits blockBits blockTail tail = .ok b := by
  obtain ⟨head, hhead⟩ := h.name.header .data
  obtain ⟨contentLen, hcontent⟩ := structPack_isOk h.content
  have hwrite : ∀ m ∈ d.block, ∃ b, DataMetadata.writeWith blockBits blockTail m = .ok b := by
    intro m hm
    obtain rfl : d.metadata = m := (Option.ite_none_right_eq_some.mp hm).2 |> Option.some.inj
    obtain ⟨block, hb, hlen⟩ := h.metadata.toBytesWith_isOk blockBits blockTail
    have hvarint : block.length < 256 ^ 8 := by
      have : (256 : ℕ) ^ 8 = 2 ^ 63 + 2 ^ 63 := by norm_num
      omega
    obtain ⟨len, hlenBytes⟩ := writeVarint_isOk hvarint
    exact ⟨_, by rw [DataMetadata.writeWith, hb]; simp [hlenBytes, bind, Except.bind]; rfl⟩
  obtain ⟨block, hb⟩ := optField_isOk hwrite
  exact ⟨_, by rw [toBytesWith, hhead, hcontent, hb]; rfl⟩

namespace Packet

variable {p : Packet} {e : Extension}

theorem Fits.toBytesWith_isOk (h : p.Fits) (he : e.blockTail.length < 2 ^ 63) :
    ∃ b, p.toBytesWith e = .ok b := by
  cases p with
  | interest i => exact Interest.Fits.toBytesWith_isOk h e.bits e.innerBits e.tail
  | data d => exact Data.Fits.toBytesWith_isOk h e.bits e.innerBits he e.tail
  | subscribe s =>
    obtain ⟨head, hhead⟩ := Name.Fits.header h .apsSubscribe
    exact ⟨_, by rw [toBytesWith, APSubscribe.toBytesWith, hhead]; rfl⟩
  | peer p =>
    have hv : Name.appendByte p.version = .ok (Name.byteCount p.version) :=
      Name.appendByte_eq_ok.mpr ⟨by rw [h.version]; decide, rfl⟩
    exact ⟨_, by rw [toBytesWith, PropPeer.toBytesWith, hv]; rfl⟩
  | capPeer c =>
    have hv : Name.appendByte c.version = .ok (Name.byteCount c.version) :=
      Name.appendByte_eq_ok.mpr ⟨by rw [h.version]; decide, rfl⟩
    have hr : Name.appendByte c.role = .ok (Name.byteCount c.role) :=
      Name.appendByte_eq_ok.mpr ⟨h.role, rfl⟩
    obtain ⟨features, hf⟩ := structPack_isOk h.features
    exact ⟨_, by rw [toBytesWith, CapPeer.toBytes, hv, hr, hf]; rfl⟩
  | invalidate v =>
    obtain ⟨head, hhead⟩ := Name.Fits.header h.name .invalidate
    obtain ⟨epoch, hepoch⟩ := structPack_isOk h.epoch
    exact ⟨_, by rw [toBytesWith, Invalidate.toBytesWith, hhead, hepoch]; rfl⟩
  | nack n =>
    obtain ⟨head, hhead⟩ := Name.Fits.header h .nack
    exact ⟨_, by rw [toBytesWith, Nack.toBytes, hhead]; rfl⟩

theorem Fits.toBytes_isOk (h : p.Fits) : ∃ b, p.toBytes = .ok b := by
  obtain ⟨b, hb⟩ := h.toBytesWith_isOk (e := {}) (by decide)
  exact ⟨b, p.toBytesWith_zero ▸ hb⟩

/-- The parsers of this version take the encoding of a later version, with any flags that they do
not know and any fields at the ends, for the packet that they know. -/
theorem parsePacket_extended (hp : p.Fits) (he : e.Appends p) :
    (∀ raw b, p.toBytes = .ok raw → p.toBytesWith e = .ok b →
      parsePacket b = parsePacket raw ∧ parsePacket b = .ok p.onWire) ∧
    (∃ raw, p.toBytes = .ok raw) ∧
    (e.blockTail.length < 2 ^ 63 → ∃ b, p.toBytesWith e = .ok b) := by
  refine ⟨fun raw b hraw hb => ?_, hp.toBytes_isOk, hp.toBytesWith_isOk⟩
  have hread := read_toBytesWith hb hp he
  have hplain := read_toBytesWith (p.toBytesWith_zero.trans hraw) hp (Extension.appends_zero p)
  exact ⟨hread.trans hplain.symm, hread⟩

def sequenced : Data where
  name := ⟨List.replicate 16 0x0A, [[0x61]], none⟩
  content := [0x07]
  metadata := { sequence := some 3 }

theorem sequenced_fits : sequenced.Fits where
  name := ⟨⟨by decide, by decide⟩, by decide, nofun⟩
  content := by decide
  signature := nofun
  metadata := ⟨nofun, by simp [sequenced], nofun, nofun, nofun⟩

def laterFields : Extension :=
  { bits := 0xF0, innerBits := 0xC0, blockTail := [0x01], tail := [0x02] }

theorem sequenced_extended : ∃ b, (Packet.data sequenced).toBytesWith laterFields = .ok b ∧
    parsePacket b = .ok (Packet.data sequenced).onWire := by
  obtain ⟨hread, ⟨raw, hraw⟩, hexists⟩ := parsePacket_extended (p := .data sequenced)
    (e := laterFields) sequenced_fits ⟨by decide, by decide⟩
  obtain ⟨b, hb⟩ := hexists (by decide)
  exact ⟨b, hb, (hread raw b hraw hb).2⟩

def withoutEmptySelector : Packet → Packet
  | .interest i => .interest { i with selector := i.wireSelector }
  | p => p

theorem read_toBytes {b : Bytes} (hp : p.Fits) (h : p.toBytes = .ok b) :
    parsePacket b = .ok p.onWire :=
  read_toBytesWith (p.toBytesWith_zero.trans h) hp (Extension.appends_zero p)

end Packet

theorem DataMetadata.onWire_of_fromBytes {b : Bytes} {m : DataMetadata}
    (h : DataMetadata.fromBytes b = .ok m) : m.onWire = m := by
  simp only [DataMetadata.fromBytes, bind_eq_ok, pure_eq_ok, Prod.exists] at h
  obtain ⟨_, _, -, _, _, -, _, _, -, age, _, -, _, _, -, _, _, -, rfl⟩ := h
  cases age <;> rfl

theorem Data.onWire_of_fromBytes {b : Bytes} {d : Data} (h : Data.fromBytes b = .ok d) :
    d.onWire = d := by
  simp only [Data.fromBytes, bind_eq_ok, pure_eq_ok, Prod.exists] at h
  obtain ⟨_, -, _, _, -, _, _, -, _, _, -, _, _, -, _, _, -, block, _, hblock, _, _, -, rfl⟩ := h
  cases block with
  | none => rfl
  | some m =>
    have hread := (readOpt_eq_ok hblock).2 m rfl
    simp only [DataMetadata.read, bind_eq_ok, pure_eq_ok, Prod.exists] at hread
    obtain ⟨_, _, -, _, _, -, m', hm, he⟩ := hread
    obtain ⟨rfl, -⟩ := Prod.mk.inj he
    exact congrArg (fun metadata => Data.mk _ _ _ metadata) (DataMetadata.onWire_of_fromBytes hm)

theorem Packet.onWire_of_parsePacket {raw : Bytes} {p : Packet} (h : parsePacket raw = .ok p) :
    p.onWire = p.withoutEmptySelector := by
  cases p with
  | data d => exact congrArg Packet.data (Data.onWire_of_fromBytes (parsePacket_data h))
  | _ => rfl

theorem Packet.withoutEmptySelector_idem (p : Packet) :
    p.withoutEmptySelector.withoutEmptySelector = p.withoutEmptySelector := by
  cases p with
  | interest i =>
    have hfilter : (i.wireSelector.filter fun s => !s.isEmpty) = i.wireSelector := by
      rw [Interest.wireSelector, Option.filter_filter]
      simp
    exact congrArg (fun selector => Packet.interest { i with selector }) hfilter
  | _ => rfl

/-- What a relay makes of a byte string: it parses the packet and encodes it again. -/
def relay (raw : Bytes) : Except PyError Bytes := do (← parsePacket raw).toBytes

/-- What is left after so many relays. -/
def relays : ℕ → Bytes → Except PyError Bytes
  | 0, raw => .ok raw
  | hops + 1, raw => do relays hops (← relay raw)

theorem relay_of_parsePacket {raw : Bytes} {p : Packet} (h : parsePacket raw = .ok p) :
    ∃ raw', relay raw = .ok raw' ∧ p.toBytes = .ok raw' ∧
      parsePacket raw' = .ok p.withoutEmptySelector := by
  have hp := fits_of_parsePacket h
  obtain ⟨raw', hraw'⟩ := hp.toBytes_isOk
  refine ⟨raw', by rw [relay, h]; exact hraw', hraw', ?_⟩
  rw [← Packet.onWire_of_parsePacket h]
  exact Packet.read_toBytes hp hraw'

/-- Packets that are parsed to the same packet still are after any number of relays. -/
theorem parsePacket_relays {p : Packet} (hops : ℕ) {raw : Bytes} (h : parsePacket raw = .ok p) :
    ∃ raw', relays (hops + 1) raw = .ok raw' ∧ parsePacket raw' = .ok p.withoutEmptySelector := by
  induction hops generalizing raw p with
  | zero =>
    obtain ⟨raw', hrelay, -, hread⟩ := relay_of_parsePacket h
    exact ⟨raw', by rw [relays, hrelay]; rfl, hread⟩
  | succ hops ih =>
    obtain ⟨next, hrelay, -, hread⟩ := relay_of_parsePacket h
    obtain ⟨raw', hrelays, hlast⟩ := ih hread
    exact ⟨raw', by rw [relays, hrelay]; exact hrelays, p.withoutEmptySelector_idem ▸ hlast⟩

/-- What is parsed can be encoded, and is parsed from its encoding up to an empty selector. The
signature and the content hash of Data verify after any number of relays as they did before. -/
theorem relays_stable [Hashlib] {raw : Bytes} {p : Packet} (h : parsePacket raw = .ok p) :
    (∃ raw', p.toBytes = .ok raw' ∧ parsePacket raw' = .ok p.withoutEmptySelector) ∧
    ∀ d, p = .data d → ∀ hops, ∃ raw', relays hops raw = .ok raw' ∧
      ∃ d', parsePacket raw' = .ok (.data d') ∧ d'.signedHash = d.signedHash ∧
        d'.verifyContentHash = d.verifyContentHash ∧
        ∀ validator, d'.verifySignature validator = d.verifySignature validator := by
  constructor
  · obtain ⟨raw', -, hraw', hread⟩ := relay_of_parsePacket h
    exact ⟨raw', hraw', hread⟩
  · rintro d rfl hops
    cases hops with
    | zero => exact ⟨raw, rfl, d, h, rfl, rfl, fun _ => rfl⟩
    | succ hops =>
      obtain ⟨raw', hrelays, hread⟩ := parsePacket_relays hops h
      exact ⟨raw', hrelays, d, hread, rfl, rfl, fun _ => rfl⟩

/-- Data with a length of three bytes for its name, a flag that is not known, an empty metadata
block and two bytes at the end. -/
def lenientData : Bytes :=
  [0x02, 0x01, 0xFD, 0x00, 0x12, 0x01, 0x10] ++ List.replicate 16 0x0A ++
    [0x00, 0x00, 0x00, 0x01, 0x07, 0x81, 0x01, 0x00, 0xEE, 0xEE]

theorem lenientData_relayed : letI : Hashlib := ⟨fun _ => []⟩
    ∃ d, parsePacket lenientData = .ok (.data d) ∧ ∀ hops, ∃ raw',
      relays hops lenientData = .ok raw' ∧ ∃ d', parsePacket raw' = .ok (.data d') ∧
        d'.signedHash = d.signedHash := by
  let _ : Hashlib := ⟨fun _ => []⟩
  obtain ⟨d, hd⟩ : ∃ d, parsePacket lenientData = .ok (.data d) := ⟨_, rfl⟩
  refine ⟨d, hd, fun hops => ?_⟩
  obtain ⟨raw', hrelays, d', hread, hhash, -⟩ := (relays_stable hd).2 d rfl hops
  exact ⟨raw', hrelays, d', hread, hhash⟩

end RnsIcn
