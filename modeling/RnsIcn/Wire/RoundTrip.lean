import RnsIcn.Wire.Parse

/-! # What an encoded packet is parsed to

Each reader takes from a byte string what its writer has put in front of it. An
Interest is parsed to itself, up to the name that its name bytes are read as, an
empty selector, which is not written, and the lowest byte of the hop limit. Data
is parsed to itself, up to the age of fresh Data, which is not written. A later
version may set other flag bits and append fields, which makes no difference.
-/

namespace RnsIcn

open Fallible

namespace Parse

theorem readType_cons (type : PacketType) (label : String) (err : String → PyError)
    (data : Bytes) : readType type label err (type.value :: data) = .ok data := if_pos rfl

theorem readVersion_cons (err : String → PyError) (data : Bytes) :
    readVersion err (UInt8.ofNat PROTOCOL_VERSION :: data) = .ok (PROTOCOL_VERSION, data) := rfl

theorem readBytes_append {count : ℕ} {b : Bytes} (h : b.length = count) (e : PyError)
    (rest : Bytes) : readBytes count e (b ++ rest) = .ok (b, rest) := by
  subst h
  rw [readBytes, if_neg (by simp), List.take_left, List.drop_left]

theorem readNat_append {width n : ℕ} {b : Bytes} (h : structPack width n = .ok b) (e : PyError)
    (rest : Bytes) : readNat width e (b ++ rest) = .ok (n, rest) := by
  obtain ⟨hlt, rfl⟩ := ite_ok_eq_ok.mp h
  rw [readNat, readBytes_append (ByteString.length_ofNatBE width n)]
  simp [ByteString.toNatBE_ofNatBE hlt]

theorem readVarint_append {n : ℕ} {b : Bytes} (h : writeVarint n = .ok b) (rest : Bytes) :
    readVarint (b ++ rest) = .ok (n, rest) := by
  rw [writeVarint] at h
  split at h
  · rename_i hn
    obtain ⟨hlt, rfl⟩ := ite_ok_eq_ok.mp h
    have hb : UInt8.ofNat n < 0xFD := by
      rw [UInt8.lt_iff_toNat_lt, UInt8.toNat_ofNat_of_lt' (by omega)]
      exact hn
    have hv : (UInt8.ofNat n).toNat = n := UInt8.toNat_ofNat_of_lt' (by omega)
    simp [readVarint, readByte, ByteString.ofNatBE, hb, hv]
  · have hwide {tag : UInt8} {width : ℕ} {b' : Bytes} (hw : structPack width n = .ok b')
        (hr : ∀ data, readVarint (tag :: data) = readNat width .structError data) :
        readVarint (tag :: b' ++ rest) = .ok (n, rest) :=
      (hr (b' ++ rest)).trans (readNat_append hw .structError rest)
    split at h
    · obtain ⟨b', hw, he⟩ := bind_eq_ok.mp h
      obtain rfl := pure_eq_ok.mp he
      exact hwide hw fun _ => rfl
    · split at h
      · obtain ⟨b', hw, he⟩ := bind_eq_ok.mp h
        obtain rfl := pure_eq_ok.mp he
        exact hwide hw fun _ => rfl
      · obtain ⟨b', hw, he⟩ := bind_eq_ok.mp h
        obtain rfl := pure_eq_ok.mp he
        exact hwide hw fun _ => rfl

theorem readName_append {nameBytes nameLen : Bytes}
    (h : writeVarint nameBytes.length = .ok nameLen) (err : String → PyError) (rest : Bytes) :
    readName err (nameLen ++ (nameBytes ++ rest)) =
      (Name.fromBytes nameBytes).map fun name => (name, rest) := by
  rw [readName, readVarint_append h]
  simp only [bind, Except.bind, readBytes_append rfl]
  cases Name.fromBytes nameBytes <;> rfl

theorem readOpt_append {α : Type} {write : α → Except PyError Bytes}
    {read : Bytes → Except PyError (α × Bytes)} {x : Option α} {b rest : Bytes}
    (h : optField write x = .ok b)
    (hread : ∀ y ∈ x, ∀ b', write y = .ok b' → read (b' ++ rest) = .ok (y, rest)) :
    readOpt x.isSome read (b ++ rest) = .ok (x, rest) := by
  cases x with
  | none =>
    obtain rfl : [] = b := Except.ok.inj h
    rfl
  | some y =>
    rw [readOpt, Option.isSome_some, if_pos rfl, hread y rfl b h]
    rfl

theorem hasFlag_or {flags bits known mask : UInt8} (hb : bits &&& known = 0)
    (hm : known &&& mask = mask) : hasFlag (flags ||| bits) mask = hasFlag flags mask := by
  have hzero : bits &&& mask = 0 := by
    rw [← hm, ← UInt8.and_assoc, hb, UInt8.zero_and]
  have hdistrib : (flags ||| bits) &&& mask = flags &&& mask ||| bits &&& mask := by
    apply UInt8.toBitVec_inj.mp
    simp only [UInt8.toBitVec_and, UInt8.toBitVec_or]
    ext i
    simp [Bool.and_or_distrib_right]
  rw [hasFlag, hasFlag, hdistrib, hzero, UInt8.or_zero]

theorem optField_ok (x : Option Bytes) : optField .ok x = .ok (x.getD []) := by
  cases x <;> rfl

theorem readSignature {signature : Option Bytes}
    (h : ∀ sig ∈ signature, sig.length = SIGNATURE_BYTES) (e : PyError) (rest : Bytes) :
    readOpt signature.isSome (readBytes SIGNATURE_BYTES e) (signature.getD [] ++ rest) =
      .ok (signature, rest) := by
  refine readOpt_append (optField_ok signature) fun sig hs b hw => ?_
  obtain rfl := Except.ok.inj hw
  exact readBytes_append (h sig hs) e rest

end Parse

open Parse

namespace InterestSelector

theorem hasFlag_flags (s : InterestSelector) :
    hasFlag s.flags 0x01 = s.minSequence.isSome ∧ hasFlag s.flags 0x02 = (s.child == .latest) ∧
      hasFlag s.flags 0x04 = (s.child == .oldest) := by
  rw [flags]
  generalize s.minSequence.isSome = floor
  generalize s.child = child
  cases floor <;> cases child <;> decide

/-- The encoding of a later version, which may set other flag bits. -/
def toBytesWith (bits : UInt8) (s : InterestSelector) : Except PyError Bytes := do
  return (s.flags ||| bits) :: (← optField (structPack 8) s.minSequence)

theorem toBytesWith_zero (s : InterestSelector) : s.toBytesWith 0 = s.toBytes := by
  simp only [toBytesWith, toBytes, UInt8.or_zero]

theorem fromBytes_append {s : InterestSelector} {bits : UInt8} {b : Bytes}
    (hbits : bits &&& 0x07 = 0) (h : s.toBytesWith bits = .ok b) (rest : Bytes) :
    fromBytes (b ++ rest) = .ok (s, rest) := by
  obtain ⟨b', hopt, he⟩ := bind_eq_ok.mp h
  obtain rfl := pure_eq_ok.mp he
  obtain ⟨h₁, h₂, h₄⟩ := s.hasFlag_flags
  have hread : readOpt s.minSequence.isSome
      (readNat 8 (.interestError "buffer too short for selector min_sequence")) (b' ++ rest) =
        .ok (s.minSequence, rest) :=
    readOpt_append hopt fun y _ b'' hw => readNat_append hw _ rest
  have hflag (mask : UInt8) (hm : (0x07 : UInt8) &&& mask = mask) :
      hasFlag (s.flags ||| bits) mask = hasFlag s.flags mask := hasFlag_or hbits hm
  simp only [fromBytes, List.cons_append, readByte, hflag 0x01 rfl,
    hflag 0x02 rfl, hflag 0x04 rfl, h₁, h₂, h₄, hread, bind, Except.bind]
  obtain ⟨minSequence, child⟩ := s
  cases child <;> rfl

end InterestSelector

namespace Interest

theorem hasFlag_flags (i : Interest) :
    hasFlag i.flags 0x01 = i.canBePrefix ∧ hasFlag i.flags 0x02 = i.mustBeFresh ∧
      hasFlag i.flags 0x04 = i.wireSelector.isSome ∧ hasFlag i.flags 0x08 = true := by
  rw [flags]
  generalize i.wireSelector.isSome = selector
  cases i.canBePrefix <;> cases i.mustBeFresh <;> cases selector <;> decide

theorem getLast?_toBytes {i : Interest} {b : Bytes} (h : i.toBytes = .ok b) :
    b.getLast? = some (UInt8.ofNat i.hopLimit) := by
  simp only [toBytes, bind_eq_ok, pure_eq_ok] at h
  obtain ⟨_, -, _, -, _, -, rfl⟩ := h
  exact List.getLast?_concat

/-- An Interest as the bytes of it show it. -/
def onWire (i : Interest) (name : Name) : Interest :=
  { i with name, selector := i.wireSelector, hopLimit := i.hopLimit % 256 }

/-- The encoding of a later version, which may set other flag bits and append fields. -/
def toBytesWith (i : Interest) (bits selectorBits : UInt8) (tail : Bytes) :
    Except PyError Bytes := do
  let head ← header .interest i.name
  let lifetime ← structPack 4 i.lifetimeMs
  let sel ← optField (InterestSelector.toBytesWith selectorBits) i.wireSelector
  return head ++ i.nonce ++ lifetime ++ [i.flags ||| bits] ++ sel ++ [UInt8.ofNat i.hopLimit] ++
    tail

theorem toBytesWith_zero (i : Interest) : i.toBytesWith 0 0 [] = i.toBytes := by
  have hsel : InterestSelector.toBytesWith 0 = InterestSelector.toBytes :=
    funext InterestSelector.toBytesWith_zero
  simp only [toBytesWith, toBytes, hsel, UInt8.or_zero, List.append_nil]

theorem readSelector {i : Interest} {selectorBits : UInt8} {sel : Bytes}
    (h : optField (InterestSelector.toBytesWith selectorBits) i.wireSelector = .ok sel)
    (hsel : selectorBits &&& 0x07 = 0) (rest : Bytes) :
    readOpt i.wireSelector.isSome InterestSelector.fromBytes (sel ++ rest) =
      .ok (i.wireSelector, rest) :=
  readOpt_append h fun _ _ _ hw => InterestSelector.fromBytes_append hsel hw rest

theorem fromBytes_toBytesWith {i : Interest} {bits selectorBits : UInt8} {tail b : Bytes}
    (h : i.toBytesWith bits selectorBits tail = .ok b) (hnonce : i.nonce.length = 8)
    (hbits : bits &&& 0x0F = 0) (hsel : selectorBits &&& 0x07 = 0) :
    ∃ nameBytes, i.name.toBytes = .ok nameBytes ∧
      fromBytes b = (Name.fromBytes nameBytes).map i.onWire := by
  simp only [toBytesWith, header, bind_eq_ok, pure_eq_ok] at h
  obtain ⟨_, ⟨nameBytes, hname, nameLen, hlen, rfl⟩, lifetime, hlife, sel, hselBytes, rfl⟩ := h
  refine ⟨nameBytes, hname, ?_⟩
  obtain ⟨h₁, h₂, h₄, h₈⟩ := i.hasFlag_flags
  have hflag (mask : UInt8) (hm : (0x0F : UInt8) &&& mask = mask) :
      hasFlag (i.flags ||| bits) mask = hasFlag i.flags mask := hasFlag_or hbits hm
  simp only [fromBytes, List.append_assoc, List.cons_append, List.nil_append, readType_cons,
    readVersion_cons, readName_append hlen, bind, Except.bind]
  cases hread : Name.fromBytes nameBytes with
  | error e => rfl
  | ok name =>
    simp only [Except.map, readBytes_append hnonce, readNat_append hlife, readByte,
      hflag 0x01 rfl, hflag 0x02 rfl, hflag 0x04 rfl,
      hflag 0x08 rfl, h₁, h₂, h₄, h₈, readSelector hselBytes hsel]
    rfl

theorem fromBytes_toBytes {i : Interest} {b : Bytes} (h : i.toBytes = .ok b)
    (hnonce : i.nonce.length = 8) :
    ∃ nameBytes, i.name.toBytes = .ok nameBytes ∧
      fromBytes b = (Name.fromBytes nameBytes).map i.onWire :=
  fromBytes_toBytesWith (i.toBytesWith_zero ▸ h) hnonce rfl rfl

end Interest

namespace DataMetadata

theorem hasFlag_flags (m : DataMetadata) :
    hasFlag m.flags 0x01 = m.contentHash.isSome ∧ hasFlag m.flags 0x02 = m.sequence.isSome ∧
      hasFlag m.flags 0x04 = !m.freshness.fresh ∧
      hasFlag m.flags 0x08 = m.freshnessPeriod.isSome ∧
      hasFlag m.flags 0x10 = m.signedAt.isSome ∧ hasFlag m.flags 0x20 = m.encrypted := by
  rw [flags]
  generalize m.contentHash.isSome = hash
  generalize m.sequence.isSome = seq
  generalize m.freshnessPeriod.isSome = period
  generalize m.signedAt.isSome = stamp
  cases hash <;> cases seq <;> cases m.freshness.fresh <;> cases period <;> cases stamp <;>
    cases m.encrypted <;> decide

def age (m : DataMetadata) : Option ℕ :=
  if m.freshness.fresh then none else some m.freshness.ageSeconds

theorem isSome_age (m : DataMetadata) : m.age.isSome = !m.freshness.fresh := by
  rw [age]
  cases m.freshness.fresh <;> rfl

theorem toBytes_eq (m : DataMetadata) : m.toBytes = do
    let seq ← optField (structPack 8) m.sequence
    let age ← optField (structPack 8) m.age
    let period ← optField (structPack 8) m.freshnessPeriod
    let stamp ← optField (structPack 8) m.signedAt
    return m.flags :: (m.contentHash.getD [] ++ seq ++ age ++ period ++ stamp) := by
  rw [toBytes, age]
  cases m.freshness.fresh <;> rfl

/-- Metadata as the bytes of it show it. -/
def onWire (m : DataMetadata) : DataMetadata :=
  { m with freshness := if m.freshness.fresh then {} else m.freshness }

/-- The encoding of a later version, which may set other flag bits and append fields. -/
def toBytesWith (bits : UInt8) (tail : Bytes) (m : DataMetadata) : Except PyError Bytes := do
  let seq ← optField (structPack 8) m.sequence
  let age ← optField (structPack 8) m.age
  let period ← optField (structPack 8) m.freshnessPeriod
  let stamp ← optField (structPack 8) m.signedAt
  return (m.flags ||| bits) :: (m.contentHash.getD [] ++ seq ++ age ++ period ++ stamp ++ tail)

theorem toBytesWith_zero (m : DataMetadata) : m.toBytesWith 0 [] = m.toBytes := by
  simp only [toBytesWith, toBytes_eq, UInt8.or_zero, List.append_nil]

def writeWith (bits : UInt8) (tail : Bytes) (m : DataMetadata) : Except PyError Bytes := do
  let block ← m.toBytesWith bits tail
  let len ← writeVarint block.length
  return len ++ block

theorem fromBytes_toBytesWith {m : DataMetadata} {bits : UInt8} {tail b : Bytes}
    (h : m.toBytesWith bits tail = .ok b) (hbits : bits &&& 0x3F = 0)
    (hhash : ∀ x ∈ m.contentHash, x.length = CONTENT_HASH_BYTES) : fromBytes b = .ok m.onWire := by
  simp only [toBytesWith, bind_eq_ok, pure_eq_ok] at h
  obtain ⟨seq, hseq, age, hage, period, hperiod, stamp, hstamp, rfl⟩ := h
  obtain ⟨h₁, h₂, h₄, h₈, h₁₀, h₂₀⟩ := m.hasFlag_flags
  have hflag (mask : UInt8) (hm : (0x3F : UInt8) &&& mask = mask) :
      hasFlag (m.flags ||| bits) mask = hasFlag m.flags mask := hasFlag_or hbits hm
  have hread {e : PyError} {x : Option ℕ} {b rest : Bytes}
      (hx : optField (structPack 8) x = .ok b) :
      readOpt x.isSome (readNat 8 e) (b ++ rest) = .ok (x, rest) :=
    readOpt_append hx fun y _ b' hw => readNat_append hw _ rest
  have hreadHash {e : PyError} (rest : Bytes) :
      readOpt m.contentHash.isSome (readBytes 32 e) (m.contentHash.getD [] ++ rest) =
        .ok (m.contentHash, rest) := by
    refine readOpt_append (optField_ok m.contentHash) fun x hx b' hw => ?_
    obtain rfl := Except.ok.inj hw
    exact readBytes_append (hhash x hx) e rest
  simp only [fromBytes, readByte, hflag 0x01 rfl, hflag 0x02 rfl,
    hflag 0x04 rfl, hflag 0x08 rfl, hflag 0x10 rfl,
    hflag 0x20 rfl, h₁, h₂, h₄, h₈, h₁₀, h₂₀, ← isSome_age, List.append_assoc, bind,
    Except.bind, hreadHash, hread hseq, hread hage, hread hperiod, hread hstamp]
  obtain ⟨contentHash, sequence, ⟨fresh, ageSeconds⟩, freshnessPeriod, signedAt, encrypted⟩ := m
  cases fresh <;> rfl

theorem read_append {m : DataMetadata} {bits : UInt8} {tail b : Bytes}
    (h : m.writeWith bits tail = .ok b) (hbits : bits &&& 0x3F = 0)
    (hhash : ∀ x ∈ m.contentHash, x.length = CONTENT_HASH_BYTES) (rest : Bytes) :
    read (b ++ rest) = .ok (m.onWire, rest) := by
  obtain ⟨block, hblock, h⟩ := bind_eq_ok.mp h
  obtain ⟨len, hlen, h⟩ := bind_eq_ok.mp h
  obtain rfl := pure_eq_ok.mp h
  simp only [read, List.append_assoc, readVarint_append hlen, readBytes_append rfl,
    fromBytes_toBytesWith hblock hbits hhash, bind, Except.bind, pure, Except.pure]

end DataMetadata

namespace Data

def wireFlags (d : Data) : UInt8 :=
  flag 0x01 d.metadata.isPresent ||| flag 0x02 d.signature.isSome

theorem hasFlag_wireFlags (d : Data) : hasFlag d.wireFlags 0x01 = d.metadata.isPresent ∧
    hasFlag d.wireFlags 0x02 = d.signature.isSome := by
  rw [wireFlags]
  generalize d.signature.isSome = signature
  cases d.metadata.isPresent <;> cases signature <;> decide

/-- Data as the bytes of it show it. -/
def onWire (d : Data) : Data := { d with metadata := d.metadata.onWire }

/-- The byte strings in the Data have the lengths that their fields demand. -/
structure FixedWidths (d : Data) : Prop where
  addr : d.name.rnsAddr.length = RNS_ADDR_BYTES
  pin : ∀ h ∈ d.name.contentHash, h.length = CONTENT_HASH_BYTES
  contentHash : ∀ h ∈ d.metadata.contentHash, h.length = CONTENT_HASH_BYTES
  signature : ∀ sig ∈ d.signature, sig.length = SIGNATURE_BYTES

theorem FixedWidths.onWire {d : Data} (h : d.FixedWidths) : d.onWire.FixedWidths :=
  ⟨h.addr, h.pin, h.contentHash, h.signature⟩

def block (d : Data) : Option DataMetadata :=
  if d.metadata.isPresent then some d.metadata else none

theorem isSome_block (d : Data) : d.block.isSome = d.metadata.isPresent := by
  rw [block]
  cases d.metadata.isPresent <;> rfl

/-- The encoding of a later version, which may set other flag bits and append fields to the
metadata block and to the packet. -/
def toBytesWith (d : Data) (bits blockBits : UInt8) (blockTail tail : Bytes) :
    Except PyError Bytes := do
  let head ← header .data d.name
  let contentLen ← structPack 4 d.content.length
  let block ← optField (DataMetadata.writeWith blockBits blockTail) d.block
  return head ++ contentLen ++ d.content ++ [d.wireFlags ||| bits] ++ block ++
    d.signature.getD [] ++ tail

theorem toBytesWith_zero (d : Data) : d.toBytesWith 0 0 [] [] = d.toBytes := by
  simp only [toBytes, toBytesWith, block, wireFlags, UInt8.or_zero, List.append_nil]
  cases d.metadata.isPresent
  · rfl
  · simp [optField, DataMetadata.writeWith, DataMetadata.toBytesWith_zero]

theorem toBytes_onWire (d : Data) : d.onWire.toBytes = d.toBytes := by
  obtain ⟨name, content, signature, contentHash, sequence, ⟨fresh, ageSeconds⟩, freshnessPeriod,
    signedAt, encrypted⟩ := d
  cases fresh <;> rfl

theorem block_getD (d : Data) : (d.block.map DataMetadata.onWire).getD {} = d.metadata.onWire := by
  rw [block]
  cases hp : d.metadata.isPresent with
  | true => rfl
  | false =>
    obtain ⟨name, content, signature, contentHash, sequence, ⟨fresh, ageSeconds⟩,
      freshnessPeriod, signedAt, encrypted⟩ := d
    simp only [DataMetadata.isPresent, Bool.or_eq_false_iff, Option.isSome_eq_false_iff,
      Option.isNone_iff_eq_none, Bool.not_eq_false'] at hp
    obtain ⟨⟨⟨⟨⟨rfl, rfl⟩, rfl⟩, rfl⟩, rfl⟩, rfl⟩ := hp
    rfl

theorem readBlock {d : Data} {blockBits : UInt8} {blockTail block : Bytes}
    (h : optField (DataMetadata.writeWith blockBits blockTail) d.block = .ok block)
    (hblockBits : blockBits &&& 0x3F = 0)
    (hhash : ∀ h ∈ d.metadata.contentHash, h.length = CONTENT_HASH_BYTES) (rest : Bytes) :
    readOpt d.metadata.isPresent DataMetadata.read (block ++ rest) =
      .ok (d.block.map DataMetadata.onWire, rest) := by
  rw [← isSome_block]
  cases hb : d.block with
  | none =>
    rw [hb] at h
    obtain rfl := Except.ok.inj h
    rfl
  | some m =>
    obtain rfl : d.metadata = m := (Option.ite_none_right_eq_some.mp hb).2 |> Option.some.inj
    rw [hb] at h
    rw [readOpt, Option.isSome_some, if_pos rfl, DataMetadata.read_append h hblockBits hhash]
    rfl

theorem fromBytes_toBytesWith {d : Data} {bits blockBits : UInt8} {blockTail tail b : Bytes}
    (h : d.toBytesWith bits blockBits blockTail tail = .ok b)
    (hhash : ∀ h ∈ d.metadata.contentHash, h.length = CONTENT_HASH_BYTES)
    (hsig : ∀ sig ∈ d.signature, sig.length = SIGNATURE_BYTES)
    (hbits : bits &&& 0x03 = 0) (hblockBits : blockBits &&& 0x3F = 0) :
    ∃ nameBytes, d.name.toBytes = .ok nameBytes ∧
      fromBytes b = (Name.fromBytes nameBytes).map fun name => { d.onWire with name } := by
  simp only [toBytesWith, header, bind_eq_ok, pure_eq_ok] at h
  obtain ⟨_, ⟨nameBytes, hname, nameLen, hlen, rfl⟩, contentLen, hcontent, block, hblock, rfl⟩ := h
  refine ⟨nameBytes, hname, ?_⟩
  obtain ⟨h₁, h₂⟩ := d.hasFlag_wireFlags
  have hflag (mask : UInt8) (hm : (0x03 : UInt8) &&& mask = mask) :
      hasFlag (d.wireFlags ||| bits) mask = hasFlag d.wireFlags mask := hasFlag_or hbits hm
  simp only [fromBytes, List.append_assoc, List.cons_append, List.nil_append, readType_cons,
    readVersion_cons, readName_append hlen, bind, Except.bind]
  cases hread : Name.fromBytes nameBytes with
  | error e => rfl
  | ok name =>
    simp only [Except.map, readNat_append hcontent, readBytes_append rfl, readByte,
      hflag 0x01 rfl, hflag 0x02 rfl, h₁, h₂, readBlock hblock hblockBits hhash,
      readSignature hsig, pure, Except.pure, block_getD]
    rfl

theorem eq_onWire_of_fromBytes {d d' : Data} {b : Bytes} (hd : d.FixedWidths)
    (h : d.toBytes = .ok b) (hread : fromBytes b = .ok d') : d' = d.onWire := by
  obtain ⟨nameBytes, hname, hparse⟩ :=
    fromBytes_toBytesWith (d.toBytesWith_zero ▸ h) hd.contentHash hd.signature rfl rfl
  obtain ⟨he, rfl⟩ := Name.toBytes_eq_ok.mp hname
  rw [hread] at hparse
  cases hn : Name.fromBytes d.name.encode with
  | error e => simp [hn, Except.map] at hparse
  | ok name =>
    obtain rfl := Name.eq_of_fromBytes_encode he hd.pin hn
    rw [hn] at hparse
    exact Except.ok.inj hparse

end Data

end RnsIcn
