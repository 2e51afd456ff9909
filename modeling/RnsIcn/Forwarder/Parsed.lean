import RnsIcn.Forwarder.Delivery
import RnsIcn.Store.Fits

/-! # Names that were read

`Name.from_bytes` checks how many components there are, that none is cut short and that
a pin is whole. It does not check that the first component is an address, while the
constructor does, through which the names of ancestors are built.
-/

namespace RnsIcn

open Fallible

namespace Name

variable {b : Bytes} {n : Name}

/-- The wire rules for a name that is read from `b`. -/
structure Legal (b : Bytes) (n : Name) : Prop where
  count : 1 ≤ n.len ∧ n.len ≤ MAX_COMPONENTS
  addr : n.rnsAddr.length = RNS_ADDR_BYTES
  pin : ∀ h ∈ n.contentHash, h.length = CONTENT_HASH_BYTES
  bytes : ∃ x, n.toBytes = .ok x ∧ x <+: b

theorem readComponents_bytes {count : ℕ} {data tail : Bytes} {comps : List Bytes}
    (h : readComponents count data = .ok (comps, tail)) :
    data = comps.flatMap encodeComponent ++ tail := by
  induction count generalizing data comps with
  | zero =>
    obtain ⟨rfl, rfl⟩ := Prod.mk.inj (Except.ok.inj h)
    rfl
  | succ count ih =>
    cases data with
    | nil => cases h
    | cons clen data =>
      rw [readComponents, ite_error_eq_ok, not_lt] at h
      obtain ⟨hlen, h⟩ := h
      obtain ⟨⟨rest, _⟩, hrest, he⟩ := bind_eq_ok.mp h
      obtain ⟨rfl, rfl⟩ := Prod.mk.inj (pure_eq_ok.mp he)
      rw [List.flatMap_cons, encodeComponent_eq, List.append_assoc, ← ih hrest,
        List.length_take_of_le hlen, UInt8.ofNat_toNat, List.cons_append, List.take_append_drop]

theorem readContentHash_bytes {tail : Bytes} {hash : Option Bytes}
    (h : readContentHash tail = .ok hash) : pinBytes hash <+: tail := by
  cases tail with
  | nil =>
    obtain rfl := Except.ok.inj h
    exact List.nil_prefix
  | cons x tail =>
    rw [readContentHash] at h
    split at h
    · rename_i hx
      rw [ite_error_eq_ok] at h
      obtain rfl := Except.ok.inj h.2
      rw [pinBytes_some, hx]
      exact (List.prefix_cons_inj _).mpr (List.take_prefix ..)
    · obtain rfl := Except.ok.inj h
      exact List.nil_prefix

/-- A name that is read is written as the bytes it was read from, up to what follows them. -/
theorem encode_prefix_of_fromBytes (h : fromBytes b = .ok n) : n.encode <+: b := by
  cases b with
  | nil => cases h
  | cons count data =>
    rw [fromBytes, ite_error_eq_ok] at h
    obtain ⟨-, h⟩ := h
    simp only [bind_eq_ok, Prod.exists] at h
    obtain ⟨comps, tail, hread, hash, hhash, h⟩ := h
    have hdata := readComponents_bytes hread
    have hcount := (readComponents_eq_ok hread).1
    cases comps with
    | nil => cases h
    | cons addr path =>
      obtain rfl := pure_eq_ok.mp h
      rw [encode, encodeComponents, Framing.counted, byteCount, components, hcount,
        UInt8.ofNat_toNat, List.append_assoc, List.singleton_append, hdata]
      exact (List.prefix_cons_inj _).mpr
        ((List.prefix_append_right_inj _).mpr (readContentHash_bytes hhash))

theorem length_addr_of_fromBytes (h : fromBytes b = .ok n) :
    b[1]? = some (UInt8.ofNat n.rnsAddr.length) := by
  obtain ⟨rest, rfl⟩ := encode_prefix_of_fromBytes h
  rw [encode, encodeComponents, Framing.counted, components, List.flatMap_cons,
    encodeComponent_eq]
  rfl

theorem addr_iff_of_fromBytes (h : fromBytes b = .ok n) :
    n.rnsAddr.length = RNS_ADDR_BYTES ↔ b[1]? = some 16 := by
  have hlt := (fits_of_fromBytes h).encodable.component n.rnsAddr List.mem_cons_self
  rw [length_addr_of_fromBytes h, Option.some_inj, ← UInt8.toNat_inj, UInt8.toNat_ofNat',
    Nat.mod_eq_of_lt hlt]
  rfl

theorem legal_iff_of_fromBytes (h : fromBytes b = .ok n) : Legal b n ↔ b[1]? = some 16 := by
  rw [← addr_iff_of_fromBytes h]
  have hfits := fits_of_fromBytes h
  exact ⟨Legal.addr, fun haddr => ⟨⟨Nat.le_add_left 1 _, hfits.count⟩, haddr, hfits.pin,
    _, hfits.encodable.toBytes, encode_prefix_of_fromBytes h⟩⟩

section Descends

variable [Hashlib]

/-- `receive_data` can look for pending ancestors of the name, and `insert` can index all of
them. -/
structure Descends (n : Name) : Prop where
  answered : ∀ p : Pit, ∃ m, Forwarder.answeredName p n.withoutContentHash = .ok m
  indexed : ∃ hashes, ContentStore.prefixHashes n.withoutContentHash = .ok hashes

theorem addr_of_prefixHashes {hashes : List Bytes}
    (h : ContentStore.prefixHashes n = .ok hashes) : n.rnsAddr.length = RNS_ADDR_BYTES := by
  have hzero : 0 ∈ List.range n.len := List.mem_range.mpr (Nat.succ_pos _)
  obtain ⟨_, hi⟩ := isOk_of_mapM_eq_ok h hzero
  obtain ⟨m, hm, -⟩ := bind_eq_ok.mp hi
  rw [new, ite_error_eq_ok] at hm
  exact not_not.mp hm.1

theorem descends_iff (hn : n.Encodable) : n.Descends ↔ n.rnsAddr.length = RNS_ADDR_BYTES := by
  constructor
  · rintro ⟨-, hashes, h⟩
    exact addr_of_prefixHashes h
  · intro haddr
    exact ⟨fun p => Forwarder.answeredName_isOk p haddr,
      ContentStore.prefixHashes_isOk haddr ⟨hn.count, hn.component⟩⟩

/-- A name that was read is legal, and Data under it can be handled, exactly if the byte before
the first component is the width of an address. -/
theorem read_legal_iff (h : fromBytes b = .ok n) :
    (Legal b n ∧ ∀ raw d, Data.fromBytes raw = .ok d → d.name = n → d.name.Descends) ↔
      b[1]? = some 16 := by
  rw [← legal_iff_of_fromBytes h]
  refine ⟨And.left, fun hlegal => ⟨hlegal, ?_⟩⟩
  rintro raw d - rfl
  exact (descends_iff (fits_of_fromBytes h).encodable).mpr hlegal.addr

end Descends

def labelled : Bytes := [2, 16] ++ List.replicate 16 0x01 ++ [1, 0x61]

theorem labelled_legal : letI := Data.paddedHash
    Legal labelled ⟨List.replicate 16 0x01, [[0x61]], none⟩ ∧
      ∀ raw d, Data.fromBytes raw = .ok d → d.name = ⟨List.replicate 16 0x01, [[0x61]], none⟩ →
        d.name.Descends :=
  letI := Data.paddedHash
  (read_legal_iff (b := labelled) rfl).mpr rfl

def shortAddress : Bytes := [0x02, 0x01, 0x05, 2, 1, 0x61, 1, 0x62, 0, 0, 0, 0, 0]

theorem shortAddress_accepted : letI := Data.paddedHash
    ∃ d, Data.fromBytes shortAddress = .ok d ∧
      Name.fromBytes [2, 1, 0x61, 1, 0x62] = .ok d.name ∧ ¬ Legal [2, 1, 0x61, 1, 0x62] d.name ∧
      Forwarder.answeredName {} d.name = .error (.nameError "RNS address must be 16 bytes") ∧
      ({} : ContentStore).insert d.name d 0 =
        .error (.nameError "RNS address must be 16 bytes") :=
  letI := Data.paddedHash
  ⟨{ name := ⟨[0x61], [[0x62]], none⟩, content := [] }, rfl, rfl,
    fun h => absurd h.addr (by decide), rfl, rfl⟩

end Name

end RnsIcn
