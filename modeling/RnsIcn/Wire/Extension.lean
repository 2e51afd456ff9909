import RnsIcn.Server.Core
import RnsIcn.Wire.Widths

/-! # Packets of later versions

A later version may set flag bits that this one does not know and append fields at
the end of a packet or of a metadata block. The parsers read all that they know from
such an encoding, which for no extension is the encoding of this version.
-/

namespace RnsIcn

open Fallible Parse

/-- What a later version adds to an encoding: bits of the flags and of the flags inside the packet,
bytes at the end of the metadata block and at the end of the packet. -/
structure Extension where
  bits : UInt8 := 0
  innerBits : UInt8 := 0
  blockTail : Bytes := []
  tail : Bytes := []

namespace APSubscribe

def wireFlags (s : APSubscribe) : UInt8 := flag 0x01 s.startFromNow

def toBytesWith (s : APSubscribe) (bits : UInt8) (tail : Bytes) : Except PyError Bytes := do
  return (← header .apsSubscribe s.name) ++ [s.wireFlags ||| bits] ++ tail

theorem toBytesWith_zero (s : APSubscribe) : s.toBytesWith 0 [] = s.toBytes := by
  simp only [toBytesWith, toBytes, wireFlags, UInt8.or_zero, List.append_nil]

end APSubscribe

namespace PropPeer

def wireFlags (p : PropPeer) : UInt8 := flag 0x01 p.wantsSync

def toBytesWith (p : PropPeer) (bits : UInt8) (tail : Bytes) : Except PyError Bytes := do
  let version ← Name.appendByte p.version
  let addr := p.rnsAddr ++ List.replicate (16 - p.rnsAddr.length) 0
  return [PacketType.propPeer.value] ++ version ++ addr.take 16 ++ [p.wireFlags ||| bits] ++ tail

theorem toBytesWith_zero (p : PropPeer) : p.toBytesWith 0 [] = p.toBytes := by
  simp only [toBytesWith, toBytes, wireFlags, UInt8.or_zero, List.append_nil]

end PropPeer

namespace Invalidate

def wireFlags (v : Invalidate) : UInt8 := flag 0x01 v.isPrefix ||| flag 0x02 v.signature.isSome

def toBytesWith (v : Invalidate) (bits : UInt8) (tail : Bytes) : Except PyError Bytes := do
  let head ← header .invalidate v.name
  let epoch ← structPack 8 v.epoch
  return head ++ epoch ++ [v.wireFlags ||| bits] ++ v.signature.getD [] ++ tail

theorem toBytesWith_zero (v : Invalidate) : v.toBytesWith 0 [] = v.toBytes := by
  simp only [toBytesWith, toBytes, wireFlags, UInt8.or_zero, List.append_nil]

end Invalidate

theorem header_eq_ok {type : PacketType} {n : Name} {b : Bytes} (h : header type n = .ok b) :
    n.Encodable ∧ ∃ nameLen, writeVarint n.encode.length = .ok nameLen ∧
      b = type.value :: UInt8.ofNat PROTOCOL_VERSION :: (nameLen ++ n.encode) := by
  simp only [header, bind_eq_ok, pure_eq_ok] at h
  obtain ⟨nameBytes, hname, nameLen, hlen, rfl⟩ := h
  obtain ⟨he, rfl⟩ := Name.toBytes_eq_ok.mp hname
  exact ⟨he, nameLen, hlen, by simp⟩

theorem Name.Fits.readName {n : Name} {nameLen : Bytes} (h : n.Fits)
    (hlen : writeVarint n.encode.length = .ok nameLen) (err : String → PyError) (rest : Bytes) :
    Parse.readName err (nameLen ++ (n.encode ++ rest)) = .ok (n, rest) := by
  rw [readName_append hlen, h.fromBytes]
  rfl

section Control

variable {bits : UInt8} {tail b : Bytes}

theorem APSubscribe.fromBytes_toBytesWith {s : APSubscribe} (h : s.toBytesWith bits tail = .ok b)
    (hs : s.name.Fits) (hbits : bits &&& 0x01 = 0) : APSubscribe.fromBytes b = .ok s := by
  simp only [toBytesWith, bind_eq_ok, pure_eq_ok] at h
  obtain ⟨_, hhead, rfl⟩ := h
  obtain ⟨-, nameLen, hlen, rfl⟩ := header_eq_ok hhead
  have hflag : hasFlag (s.wireFlags ||| bits) 0x01 = s.startFromNow := by
    rw [hasFlag_or hbits rfl, wireFlags]
    cases s.startFromNow <;> decide
  simp only [fromBytes, List.append_assoc, List.cons_append, List.nil_append, readType_cons,
    readVersion_cons, readVarint_append hlen, bind, Except.bind, Except.mapError,
    readBytes_append rfl, hs.fromBytes, readByte, hflag]
  rfl

theorem PropPeer.fromBytes_toBytesWith {p : PropPeer} (h : p.toBytesWith bits tail = .ok b)
    (hp : p.Fits) (hbits : bits &&& 0x01 = 0) : PropPeer.fromBytes b = .ok p := by
  simp only [toBytesWith, bind_eq_ok, pure_eq_ok, Name.appendByte_eq_ok, hp.version] at h
  obtain ⟨_, ⟨-, rfl⟩, rfl⟩ := h
  have hflag : hasFlag (p.wireFlags ||| bits) 0x01 = p.wantsSync := by
    rw [hasFlag_or hbits rfl, wireFlags]
    cases p.wantsSync <;> decide
  have hlen : p.rnsAddr.length = 16 := hp.rnsAddr
  have haddr : (p.rnsAddr ++ List.replicate (16 - p.rnsAddr.length) 0).take 16 = p.rnsAddr := by
    rw [List.take_append_of_le_length hlen.ge, List.take_of_length_le hlen.le]
  rw [haddr]
  unfold PropPeer.fromBytes
  simp only [Name.byteCount, List.append_assoc, List.cons_append, List.nil_append, ne_eq,
    not_true_eq_false, if_false, List.drop_succ_cons, List.drop_zero, List.length_cons,
    List.length_append, hlen]
  rw [if_neg (by omega)]
  simp only [readVersion_cons, bind, Except.bind, readBytes_append hlen, readByte, hflag]
  obtain ⟨version, rnsAddr, wantsSync⟩ := p
  obtain rfl : version = PROTOCOL_VERSION := hp.version
  rfl

theorem CapPeer.fromBytes_toBytes {c : CapPeer} (h : c.toBytes = .ok b) (hc : c.Fits)
    (tail : Bytes) : CapPeer.fromBytes (b ++ tail) = .ok c := by
  simp only [toBytes, bind_eq_ok, pure_eq_ok, Name.appendByte_eq_ok, hc.version] at h
  obtain ⟨_, ⟨-, rfl⟩, _, ⟨hrole, rfl⟩, features, hfeatures, rfl⟩ := h
  have hlen : features.length = 4 := by
    obtain ⟨-, rfl⟩ := structPack_eq_ok.mp hfeatures
    exact ByteString.length_ofNatBE 4 _
  have hr : (UInt8.ofNat c.role).toNat = c.role := UInt8.toNat_ofNat_of_lt' hrole
  unfold CapPeer.fromBytes
  simp only [Name.byteCount, List.cons_append, List.nil_append, ne_eq,
    not_true_eq_false, if_false, List.drop_succ_cons, List.drop_zero, List.length_cons,
    List.length_append, hlen]
  rw [if_neg (by omega)]
  simp only [readVersion_cons, bind, Except.bind, readByte, readNat_append hfeatures, hr]
  obtain ⟨version, role, features⟩ := c
  obtain rfl : version = PROTOCOL_VERSION := hc.version
  rfl

theorem Invalidate.fromBytes_toBytesWith {v : Invalidate} (h : v.toBytesWith bits tail = .ok b)
    (hv : v.Fits) (hbits : bits &&& 0x03 = 0) : Invalidate.fromBytes b = .ok v := by
  simp only [toBytesWith, bind_eq_ok, pure_eq_ok] at h
  obtain ⟨_, hhead, epoch, hepoch, rfl⟩ := h
  obtain ⟨-, nameLen, hlen, rfl⟩ := header_eq_ok hhead
  have hflags : hasFlag (v.wireFlags ||| bits) 0x01 = v.isPrefix ∧
      hasFlag (v.wireFlags ||| bits) 0x02 = v.signature.isSome := by
    rw [hasFlag_or hbits rfl, hasFlag_or hbits rfl, wireFlags]
    generalize v.signature.isSome = signature
    cases v.isPrefix <;> cases signature <;> decide
  simp only [fromBytes, List.append_assoc, List.cons_append, List.nil_append, readType_cons,
    readVersion_cons, hv.name.readName hlen, bind, Except.bind, readNat_append hepoch, readByte,
    hflags.1, hflags.2, readSignature hv.signature]
  rfl

theorem Nack.fromBytes_toBytes {n : Nack} (h : n.toBytes = .ok b) (hn : n.name.Fits)
    (tail : Bytes) : Nack.fromBytes (b ++ tail) = .ok n := by
  simp only [toBytes, bind_eq_ok, pure_eq_ok] at h
  obtain ⟨_, hhead, rfl⟩ := h
  obtain ⟨-, nameLen, hlen, rfl⟩ := header_eq_ok hhead
  have hreason : NackReason.ofByte n.reason.value = .ok n.reason := by
    cases n.reason <;> rfl
  simp only [fromBytes, List.append_assoc, List.cons_append, List.nil_append, readType_cons,
    readVersion_cons, hn.readName hlen, bind, Except.bind, readByte, hreason]
  rfl

end Control

namespace Packet

/-- A packet as the bytes of it show it: an empty selector and the age of fresh Data are not
written. -/
def onWire : Packet → Packet
  | .interest i => .interest { i with selector := i.wireSelector }
  | .data d => .data d.onWire
  | p => p

def flagMask : Packet → UInt8
  | .interest _ => 0x0F
  | .data _ | .invalidate _ => 0x03
  | .subscribe _ | .peer _ => 0x01
  | .capPeer _ | .nack _ => 0

/-- The flags of the selector or of the metadata block that this version defines. -/
def innerFlagMask : Packet → UInt8
  | .interest _ => 0x07
  | .data _ => 0x3F
  | _ => 0

/-- The encoding of the packet by a later version. -/
def toBytesWith (p : Packet) (e : Extension) : Except PyError Bytes :=
  match p with
  | .interest i => i.toBytesWith e.bits e.innerBits e.tail
  | .data d => d.toBytesWith e.bits e.innerBits e.blockTail e.tail
  | .subscribe s => s.toBytesWith e.bits e.tail
  | .peer p => p.toBytesWith e.bits e.tail
  | .capPeer c => do return (← c.toBytes) ++ e.tail
  | .invalidate v => v.toBytesWith e.bits e.tail
  | .nack n => do return (← n.toBytes) ++ e.tail

theorem toBytesWith_zero (p : Packet) : p.toBytesWith {} = p.toBytes := by
  cases p with
  | interest i => exact i.toBytesWith_zero
  | data d => exact d.toBytesWith_zero
  | subscribe s => exact s.toBytesWith_zero
  | peer p => exact p.toBytesWith_zero
  | capPeer c => simp [toBytesWith, toBytes]
  | invalidate v => exact v.toBytesWith_zero
  | nack n => simp [toBytesWith, toBytes]

end Packet

/-- The extension sets no flag that this version defines. -/
structure Extension.Appends (e : Extension) (p : Packet) : Prop where
  bits : e.bits &&& p.flagMask = 0
  innerBits : e.innerBits &&& p.innerFlagMask = 0

theorem Extension.appends_zero (p : Packet) : ({} : Extension).Appends p :=
  ⟨UInt8.zero_and, UInt8.zero_and⟩

namespace Packet

variable {e : Extension} {b : Bytes}

theorem header_head {type : PacketType} {n : Name} {head : Bytes} (h : header type n = .ok head) :
    ∃ rest, head = type.value :: rest := by
  obtain ⟨-, nameLen, -, rfl⟩ := header_eq_ok h
  exact ⟨_, rfl⟩

def type : Packet → PacketType
  | .interest _ => .interest
  | .data _ => .data
  | .subscribe _ => .apsSubscribe
  | .peer _ => .propPeer
  | .capPeer _ => .capPeer
  | .invalidate _ => .invalidate
  | .nack _ => .nack

theorem toBytesWith_head {p : Packet} (h : p.toBytesWith e = .ok b) :
    ∃ rest, b = p.type.value :: rest := by
  cases p with
  | interest i =>
    simp only [toBytesWith, Interest.toBytesWith, bind_eq_ok, pure_eq_ok] at h
    obtain ⟨_, hhead, _, -, _, -, rfl⟩ := h
    obtain ⟨rest, rfl⟩ := header_head hhead
    exact ⟨_, rfl⟩
  | data d =>
    simp only [toBytesWith, Data.toBytesWith, bind_eq_ok, pure_eq_ok] at h
    obtain ⟨_, hhead, _, -, _, -, rfl⟩ := h
    obtain ⟨rest, rfl⟩ := header_head hhead
    exact ⟨_, rfl⟩
  | subscribe s =>
    simp only [toBytesWith, APSubscribe.toBytesWith, bind_eq_ok, pure_eq_ok] at h
    obtain ⟨_, hhead, rfl⟩ := h
    obtain ⟨rest, rfl⟩ := header_head hhead
    exact ⟨_, rfl⟩
  | peer p =>
    simp only [toBytesWith, PropPeer.toBytesWith, bind_eq_ok, pure_eq_ok] at h
    obtain ⟨_, -, rfl⟩ := h
    exact ⟨_, rfl⟩
  | capPeer c =>
    simp only [toBytesWith, CapPeer.toBytes, bind_eq_ok, pure_eq_ok] at h
    obtain ⟨_, ⟨_, -, _, -, _, -, rfl⟩, rfl⟩ := h
    exact ⟨_, rfl⟩
  | invalidate v =>
    simp only [toBytesWith, Invalidate.toBytesWith, bind_eq_ok, pure_eq_ok] at h
    obtain ⟨_, hhead, _, -, rfl⟩ := h
    obtain ⟨rest, rfl⟩ := header_head hhead
    exact ⟨_, rfl⟩
  | nack n =>
    simp only [toBytesWith, Nack.toBytes, bind_eq_ok, pure_eq_ok] at h
    obtain ⟨_, ⟨_, hhead, rfl⟩, rfl⟩ := h
    obtain ⟨rest, rfl⟩ := header_head hhead
    exact ⟨_, rfl⟩

def fromBytesAs (type : PacketType) (data : Bytes) : Except PyError Packet :=
  match type with
  | .interest => .interest <$> Interest.fromBytes data
  | .data => .data <$> Data.fromBytes data
  | .apsSubscribe => .subscribe <$> APSubscribe.fromBytes data
  | .propPeer => .peer <$> PropPeer.fromBytes data
  | .capPeer => .capPeer <$> CapPeer.fromBytes data
  | .invalidate => .invalidate <$> Invalidate.fromBytes data
  | .nack => .nack <$> Nack.fromBytes data

theorem parsePacket_cons (type : PacketType) (rest : Bytes) :
    parsePacket (type.value :: rest) = fromBytesAs type (type.value :: rest) := by
  cases type <;> rfl

theorem fromBytesAs_toBytesWith {p : Packet} (h : p.toBytesWith e = .ok b) (hp : p.Fits)
    (he : e.Appends p) : fromBytesAs p.type b = .ok p.onWire := by
  cases p with
  | interest i =>
    obtain ⟨_, hname, hread⟩ := Interest.fromBytes_toBytesWith h hp.nonce he.bits he.innerBits
    obtain ⟨-, rfl⟩ := Name.toBytes_eq_ok.mp hname
    have hhop : i.hopLimit % 256 = i.hopLimit := Nat.mod_eq_of_lt hp.hopLimit
    rw [type, fromBytesAs, hread, hp.name.fromBytes]
    simp only [Except.map, Interest.onWire, hhop, onWire]
    rfl
  | data d =>
    obtain ⟨_, hname, hread⟩ := Data.fromBytes_toBytesWith h hp.metadata.contentHash hp.signature
      he.bits he.innerBits
    obtain ⟨-, rfl⟩ := Name.toBytes_eq_ok.mp hname
    rw [type, fromBytesAs, hread, hp.name.fromBytes]
    rfl
  | subscribe s =>
    rw [type, fromBytesAs, APSubscribe.fromBytes_toBytesWith h hp he.bits]
    rfl
  | peer p =>
    rw [type, fromBytesAs, PropPeer.fromBytes_toBytesWith h hp he.bits]
    rfl
  | capPeer c =>
    simp only [toBytesWith, bind_eq_ok, pure_eq_ok] at h
    obtain ⟨_, hb, rfl⟩ := h
    rw [type, fromBytesAs, CapPeer.fromBytes_toBytes hb hp]
    rfl
  | invalidate v =>
    rw [type, fromBytesAs, Invalidate.fromBytes_toBytesWith h hp he.bits]
    rfl
  | nack n =>
    simp only [toBytesWith, bind_eq_ok, pure_eq_ok] at h
    obtain ⟨_, hb, rfl⟩ := h
    rw [type, fromBytesAs, Nack.fromBytes_toBytes hb hp]
    rfl

theorem read_toBytesWith {p : Packet} (h : p.toBytesWith e = .ok b) (hp : p.Fits)
    (he : e.Appends p) : parsePacket b = .ok p.onWire := by
  obtain ⟨rest, rfl⟩ := toBytesWith_head h
  exact (parsePacket_cons p.type rest).trans (fromBytesAs_toBytesWith h hp he)

end Packet

end RnsIcn
