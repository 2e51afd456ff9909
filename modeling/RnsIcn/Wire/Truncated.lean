import RnsIcn.Lib.Truncation
import RnsIcn.Wire.Relay

/-! # Truncated packets

Each reader checks the end of the buffer before it takes a field, and fields that may be
absent are announced by a flag in front of them. So no packet that fits its fields has
an encoding that is still parsed after a cut.
-/

namespace RnsIcn

open Fallible Parse Truncation

namespace Parse

theorem stable_readByte (e : PyError) : Stable (readByte e) := by
  intro data b rest h c
  cases data with
  | nil => cases h
  | cons b' data =>
    cases h
    rfl

theorem stable_readBytes (count : ℕ) (e : PyError) : Stable (readBytes count e) := by
  intro data b rest h c
  unfold readBytes at h ⊢
  obtain ⟨hlen, h⟩ := ite_error_eq_ok.mp h
  obtain ⟨rfl, rfl⟩ := Prod.mk.inj (Except.ok.inj h)
  rw [if_neg (by rw [List.length_append]; omega), List.take_append_of_le_length (by omega),
    List.drop_append_of_le_length (by omega)]

theorem stable_readNat (width : ℕ) (e : PyError) : Stable (readNat width e) :=
  .bind (stable_readBytes width e) fun _ => .pure _

theorem stable_readVarint : Stable readVarint :=
  .bind (stable_readByte _) fun _ =>
    .ite (.pure _) (.ite (stable_readNat _ _) (.ite (stable_readNat _ _) (stable_readNat _ _)))

theorem stable_readVersion (err : String → PyError) : Stable (readVersion err) :=
  .bind (stable_readByte _) fun _ => .ite (.pure _) (.error _)

theorem stable_readName (err : String → PyError) : Stable (readName err) :=
  .bind stable_readVarint fun _ => .bind (stable_readBytes _ _) fun _ => .step fun _ => .pure _

theorem stable_readOpt {α : Type} {read : Bytes → Except PyError (α × Bytes)} (h : Stable read)
    (isSet : Bool) : Stable (readOpt isSet read) :=
  .ite (.bind h fun _ => .pure _) (.pure _)

/-- A signature is at the end of what it signs. A shorter one is not read at all. -/
theorem detects_signature {γ : Type} {isSet : Bool} {signature : Option Bytes} {e : PyError}
    {k : Option Bytes × Bytes → Except PyError γ} (hset : isSet = signature.isSome)
    (h : ∀ sig ∈ signature, sig.length ≤ SIGNATURE_BYTES) :
    Detects (fun data => readOpt isSet (readBytes SIGNATURE_BYTES e) data >>= k)
      (signature.getD []) := by
  subst hset
  cases signature with
  | none => exact .nil _
  | some sig =>
    refine .of_length fun b hb => ⟨e, ?_⟩
    have hshort : b.length < SIGNATURE_BYTES := hb.trans_le (h sig rfl)
    have hread : readBytes SIGNATURE_BYTES e b = .error e := if_pos hshort
    change (readBytes SIGNATURE_BYTES e b >>= _) >>= k = .error e
    rw [hread]
    rfl

end Parse

theorem InterestSelector.stable_fromBytes : Stable InterestSelector.fromBytes := by
  refine .bind (stable_readByte _) fun flags => ?_
  refine .ite (.step fun _ => ?_) ?_
  · exact .bind (stable_readOpt (stable_readNat _ _) _) fun _ => .pure _
  · exact .bind (stable_readOpt (stable_readNat _ _) _) fun _ => .pure _

theorem DataMetadata.stable_read : Stable DataMetadata.read :=
  .bind stable_readVarint fun _ => .bind (stable_readBytes _ _) fun _ => .step fun _ => .pure _

section Packets

variable {b : Bytes}

theorem Interest.Fits.detects {i : Interest} (hi : i.Fits) (h : i.toBytes = .ok b) :
    Detects Interest.fromBytes b := by
  simp only [toBytes, bind_eq_ok, pure_eq_ok] at h
  obtain ⟨_, hhead, lifetime, hlife, sel, hsel, rfl⟩ := h
  obtain ⟨-, nameLen, hlen, rfl⟩ := header_eq_ok hhead
  obtain ⟨-, -, h₄, h₈⟩ := i.hasFlag_flags
  have hselector (rest : Bytes) : readOpt (hasFlag i.flags 0x04) InterestSelector.fromBytes
      (sel ++ rest) = .ok (i.wireSelector, rest) := by
    rw [h₄]
    rw [← funext InterestSelector.toBytesWith_zero] at hsel
    exact readSelector hsel rfl rest
  have hhop (e : PyError) : readOpt (hasFlag i.flags 0x08) (readByte e)
      [UInt8.ofNat i.hopLimit] = .ok (some (UInt8.ofNat i.hopLimit), []) := by
    rw [h₈]
    rfl
  simp only [List.append_assoc, List.cons_append, List.nil_append]
  refine .cons ⟨_, rfl⟩ ?_
  refine .bind (stable_readVersion _) (readVersion_cons _ _) ?_
  refine .bind (stable_readName _) (hi.name.readName hlen _ _) ?_
  refine .bind (stable_readBytes _ _) (readBytes_append hi.nonce _ _) ?_
  refine .bind (stable_readNat _ _) (readNat_append hlife _ _) ?_
  refine .bind (stable_readByte _) rfl ?_
  refine .bind (stable_readOpt InterestSelector.stable_fromBytes _) (hselector _) ?_
  exact .last (stable_readOpt (stable_readByte _) _) (hhop _)

theorem Data.Fits.detects {d : Data} (hd : d.Fits) (h : d.toBytes = .ok b) :
    Detects Data.fromBytes b := by
  rw [← Data.toBytesWith_zero] at h
  simp only [toBytesWith, bind_eq_ok, pure_eq_ok, UInt8.or_zero, List.append_nil] at h
  obtain ⟨_, hhead, contentLen, hcontent, block, hblock, rfl⟩ := h
  obtain ⟨-, nameLen, hlen, rfl⟩ := header_eq_ok hhead
  have hmeta (rest : Bytes) : readOpt (hasFlag d.wireFlags 0x01) DataMetadata.read
      (block ++ rest) = .ok (d.block.map DataMetadata.onWire, rest) := by
    rw [d.hasFlag_wireFlags.1]
    exact readBlock hblock rfl hd.metadata.contentHash rest
  simp only [List.append_assoc, List.cons_append, List.nil_append]
  refine .cons ⟨_, rfl⟩ ?_
  refine .bind (stable_readVersion _) (readVersion_cons _ _) ?_
  refine .bind (stable_readName _) (hd.name.readName hlen _ _) ?_
  refine .bind (stable_readNat _ _) (readNat_append hcontent _ _) ?_
  refine .bind (stable_readBytes _ _) (readBytes_append rfl _ _) ?_
  refine .bind (stable_readByte _) rfl ?_
  refine .bind (stable_readOpt DataMetadata.stable_read _) (hmeta _) ?_
  exact detects_signature d.hasFlag_wireFlags.2 fun sig hs => (hd.signature sig hs).le

theorem APSubscribe.detects {s : APSubscribe} (h : s.toBytes = .ok b) :
    Detects APSubscribe.fromBytes b := by
  simp only [toBytes, bind_eq_ok, pure_eq_ok] at h
  obtain ⟨_, hhead, rfl⟩ := h
  obtain ⟨-, nameLen, hlen, rfl⟩ := header_eq_ok hhead
  simp only [List.append_assoc, List.cons_append]
  refine .cons ⟨_, rfl⟩ ?_
  refine .bind (stable_readVersion _) (readVersion_cons _ _) ?_
  refine .bind (stable_readVarint.mapError _) (mapError_eq_ok.mpr (readVarint_append hlen _)) ?_
  refine .bind (stable_readBytes _ _) (readBytes_append rfl _ _) ?_
  exact .step fun name _ => .last (stable_readByte _) rfl

theorem PropPeer.fromBytes_short (h : b.length < 19) : ∃ e, PropPeer.fromBytes b = .error e := by
  unfold PropPeer.fromBytes
  cases b with
  | nil => exact ⟨_, rfl⟩
  | cons x rest =>
    by_cases hx : x ≠ PacketType.propPeer.value
    · exact ⟨_, by simp only [if_pos hx]; rfl⟩
    · exact ⟨_, by simp only [if_neg hx, if_pos h]; rfl⟩

theorem CapPeer.fromBytes_short (h : b.length < 7) : ∃ e, CapPeer.fromBytes b = .error e := by
  unfold CapPeer.fromBytes
  cases b with
  | nil => exact ⟨_, rfl⟩
  | cons x rest =>
    by_cases hx : x ≠ PacketType.capPeer.value
    · exact ⟨_, by simp only [if_pos hx]; rfl⟩
    · exact ⟨_, by simp only [if_neg hx, if_pos h]; rfl⟩

theorem PropPeer.detects {p : PropPeer} (h : p.toBytes = .ok b) :
    Detects PropPeer.fromBytes b := by
  simp only [toBytes, bind_eq_ok, pure_eq_ok, Name.appendByte_eq_ok] at h
  obtain ⟨_, ⟨-, rfl⟩, rfl⟩ := h
  refine .of_length fun b hb => fromBytes_short ?_
  simp only [Name.byteCount, List.length_append, List.length_cons, List.length_nil,
    List.length_take] at hb
  omega

theorem CapPeer.detects {c : CapPeer} (h : c.toBytes = .ok b) : Detects CapPeer.fromBytes b := by
  simp only [toBytes, bind_eq_ok, pure_eq_ok, Name.appendByte_eq_ok] at h
  obtain ⟨_, ⟨-, rfl⟩, _, ⟨-, rfl⟩, features, hfeatures, rfl⟩ := h
  obtain ⟨-, rfl⟩ := structPack_eq_ok.mp hfeatures
  refine .of_length fun b hb => fromBytes_short ?_
  simp only [Name.byteCount, List.length_append, List.length_cons, List.length_nil,
    ByteString.length_ofNatBE] at hb
  omega

theorem Invalidate.Fits.detects {v : Invalidate} (hv : v.Fits) (h : v.toBytes = .ok b) :
    Detects Invalidate.fromBytes b := by
  simp only [toBytes, bind_eq_ok, pure_eq_ok] at h
  obtain ⟨_, hhead, epoch, hepoch, rfl⟩ := h
  obtain ⟨-, nameLen, hlen, rfl⟩ := header_eq_ok hhead
  have hsig : hasFlag v.wireFlags 0x02 = v.signature.isSome := by
    unfold wireFlags
    generalize v.signature.isSome = signature
    cases v.isPrefix <;> cases signature <;> decide
  simp only [List.append_assoc, List.cons_append, List.nil_append]
  refine .cons ⟨_, rfl⟩ ?_
  refine .bind (stable_readVersion _) (readVersion_cons _ _) ?_
  refine .bind (stable_readName _) (hv.name.readName hlen _ _) ?_
  refine .bind (stable_readNat _ _) (readNat_append hepoch _ _) ?_
  refine .bind (stable_readByte _) rfl ?_
  exact detects_signature hsig fun sig hs => (hv.signature sig hs).le

theorem Nack.detects {n : Nack} (hn : n.name.Fits) (h : n.toBytes = .ok b) :
    Detects Nack.fromBytes b := by
  simp only [toBytes, bind_eq_ok, pure_eq_ok] at h
  obtain ⟨_, hhead, rfl⟩ := h
  obtain ⟨-, nameLen, hlen, rfl⟩ := header_eq_ok hhead
  simp only [List.append_assoc, List.cons_append]
  refine .cons ⟨_, rfl⟩ ?_
  refine .bind (stable_readVersion _) (readVersion_cons _ _) ?_
  refine .bind (stable_readName _) (hn.readName hlen _ _) ?_
  exact .last (stable_readByte _) rfl

end Packets

theorem Packet.Fits.detects {p : Packet} {b : Bytes} (hp : p.Fits) (h : p.toBytes = .ok b) :
    Detects parsePacket b := by
  have hdetects : Detects (Packet.fromBytesAs p.type) b := by
    cases p with
    | interest i => exact (Interest.Fits.detects hp h).map _
    | data d => exact (Data.Fits.detects hp h).map _
    | subscribe s => exact (APSubscribe.detects h).map _
    | peer p => exact (PropPeer.detects h).map _
    | capPeer c => exact (CapPeer.detects h).map _
    | invalidate v => exact (Invalidate.Fits.detects hp h).map _
    | nack n => exact (Nack.detects hp h).map _
  obtain ⟨rest, rfl⟩ := Packet.toBytesWith_head (p.toBytesWith_zero.trans h)
  intro b c he hc
  cases b with
  | nil => exact ⟨_, rfl⟩
  | cons t b =>
    obtain ⟨rfl, -⟩ := List.cons.inj he
    rw [Packet.parsePacket_cons]
    exact hdetects he hc

end RnsIcn
