import RnsIcn.Lib.Bytes
import RnsIcn.Lib.Fallible
import RnsIcn.Lib.Framing

/-! # Names

A name is a 16-byte producer address, a path of labels and an optional content
hash. The wire form counts the components, gives each its length, and appends
the marker `0xFF` and the hash of a pinned name.
-/

namespace RnsIcn

abbrev Bytes := List UInt8

inductive PyError where
  | nameError (msg : String)
  | interestError (msg : String)
  | dataError (msg : String)
  | subscribeError (msg : String)
  | invalidateError (msg : String)
  | nackError (msg : String)
  | discoveryError (msg : String)
  | accessError (msg : String)
  | manifestError (msg : String)
  | contentManifestError (msg : String)
  | emptyContentError (msg : String)
  | missingChunkError (msg : String)
  | hashMismatchError (msg : String)
  | integrityError (msg : String)
  | signatureError (msg : String)
  | unsupportedVersionError (version : ℕ)
  | valueError (msg : String)
  | runtimeError (msg : String)
  | keyError (key : String)
  | typeError
  | structError
  | indexError
  | overflowError
  | timeoutError
  | cancelledError
  deriving DecidableEq, Repr

/-- `hashlib.blake2b(…, digest_size=32).digest()`. -/
class Hashlib where
  blake2b : Bytes → Bytes

export Hashlib (blake2b)

def HASH_DISCRIMINATOR : UInt8 := 0xFF
def MAX_COMPONENTS : ℕ := 32
def RNS_ADDR_BYTES : ℕ := 16
def CONTENT_HASH_BYTES : ℕ := 32

structure Name where
  rnsAddr : Bytes
  path : List Bytes
  contentHash : Option Bytes
  deriving DecidableEq, Repr

namespace Name

open Fallible

/-- `Name(rns_addr, path, content_hash)`, with the constructor's checks. -/
def new (rnsAddr : Bytes) (path : List Bytes := []) (contentHash : Option Bytes := none) :
    Except PyError Name :=
  if rnsAddr.length ≠ RNS_ADDR_BYTES then .error (.nameError "RNS address must be 16 bytes")
  else match contentHash with
    | some h =>
      if h.length ≠ CONTENT_HASH_BYTES then .error (.nameError "content hash must be 32 bytes")
      else .ok ⟨rnsAddr, path, some h⟩
    | none => .ok ⟨rnsAddr, path, none⟩

def components (n : Name) : List Bytes := n.rnsAddr :: n.path

/-- Read `count` length-prefixed components and return what follows them. -/
def readComponents : ℕ → Bytes → Except PyError (List Bytes × Bytes)
  | 0, data => .ok ([], data)
  | _ + 1, [] => .error (.nameError "buffer too short")
  | count + 1, clen :: data =>
    if data.length < clen.toNat then .error (.nameError "buffer too short")
    else do
      let (rest, tail) ← readComponents count (data.drop clen.toNat)
      return (data.take clen.toNat :: rest, tail)

def readContentHash : Bytes → Except PyError (Option Bytes)
  | [] => .ok none
  | b :: data =>
    if b = HASH_DISCRIMINATOR then
      if data.length < CONTENT_HASH_BYTES then
        .error (.nameError "buffer too short for content hash")
      else .ok (some (data.take CONTENT_HASH_BYTES))
    else .ok none

/-- `Name.from_bytes`: it checks the count but not the width of the address. -/
def fromBytes : Bytes → Except PyError Name
  | [] => .error (.nameError "empty buffer")
  | count :: data =>
    if count = 0 ∨ MAX_COMPONENTS < count.toNat then
      .error (.nameError s!"invalid component count: {count.toNat}")
    else do
      let (components, tail) ← readComponents count.toNat data
      let contentHash ← readContentHash tail
      match components with
      | [] => .error .indexError
      | addr :: path => return ⟨addr, path, contentHash⟩

def withContentHash (n : Name) (hashBytes : Bytes) : Except PyError Name :=
  if hashBytes.length ≠ CONTENT_HASH_BYTES then
    .error (.nameError "content hash must be 32 bytes")
  else .ok { n with contentHash := some hashBytes }

def withoutContentHash (n : Name) : Name := { n with contentHash := none }

def len (n : Name) : ℕ := n.components.length

def isRoot (n : Name) : Bool := n.len == 1

def startsWith (n namePrefix : Name) : Bool :=
  if n.len < namePrefix.len then false
  else (n.components.zip namePrefix.components).all fun (a, b) => a == b

def isPrefixOf (n other : Name) : Bool := other.startsWith n

def appendByte (value : ℕ) : Except PyError Bytes :=
  if value < 256 then .ok [UInt8.ofNat value]
  else .error (.valueError "byte must be in range(0, 256)")

def componentBytes (comp : Bytes) : Except PyError Bytes := do
  return (← appendByte comp.length) ++ comp

def componentsBytes : List Bytes → Except PyError Bytes
  | [] => .ok []
  | comp :: comps => do return (← componentBytes comp) ++ (← componentsBytes comps)

def pinBytes : Option Bytes → Bytes
  | none => []
  | some h => HASH_DISCRIMINATOR :: h

@[simp] theorem pinBytes_none : pinBytes none = [] := rfl

@[simp] theorem pinBytes_some (h : Bytes) : pinBytes (some h) = HASH_DISCRIMINATOR :: h := rfl

def toBytes (n : Name) : Except PyError Bytes := do
  let count ← appendByte n.len
  let comps ← componentsBytes n.components
  return count ++ comps ++ pinBytes n.contentHash

def decodeUtf8 (b : Bytes) : Option String := String.fromUTF8? ⟨b.toArray⟩

def hexDigit (d : ℕ) : Char := ("0123456789abcdef".toList)[d % 16]?.getD '0'

def hex (b : Bytes) : String :=
  String.ofList (b.flatMap fun x => [hexDigit (x.toNat / 16), hexDigit x.toNat])

def componentStr (first : Bool) (comp : Bytes) : String :=
  if first && comp.length == RNS_ADDR_BYTES then hex comp
  else (decodeUtf8 comp).getD (hex comp)

def str (n : Name) : String :=
  let parts := componentStr true n.rnsAddr :: n.path.map (componentStr false)
  "/" ++ "/".intercalate parts ++
    match n.contentHash with
    | none => ""
    | some h => "?hash=" ++ hex h

/-- The names of the wire format: bounded components, a 16-byte address, a 32-byte pin. -/
structure WellFormed (n : Name) : Prop where
  addr : n.rnsAddr.length = RNS_ADDR_BYTES
  count : n.len ≤ MAX_COMPONENTS
  component : ∀ comp ∈ n.components, comp.length ≤ 255
  pin : ∀ h ∈ n.contentHash, h.length = CONTENT_HASH_BYTES

/-- The names that `toBytes` can write. -/
structure Encodable (n : Name) : Prop where
  count : n.len < 256
  component : ∀ comp ∈ n.components, comp.length < 256

theorem WellFormed.encodable {n : Name} (h : n.WellFormed) : n.Encodable where
  count := by have hc := h.count; unfold MAX_COMPONENTS at hc; omega
  component comp hm := by have hl := h.component comp hm; omega

def byteCount (n : ℕ) : Bytes := [UInt8.ofNat n]

def encodeComponent : Bytes → Bytes := Framing.counted byteCount fun b => [b]

def encodeComponents : List Bytes → Bytes := Framing.counted byteCount encodeComponent

/-- The wire form of an encodable name. -/
def encode (n : Name) : Bytes := encodeComponents n.components ++ pinBytes n.contentHash

theorem selfDelimiting_byteCount : Framing.SelfDelimiting (· < 256) byteCount := by
  refine .of_width (k := 1) (fun _ _ => rfl) fun a b ha hb h => ?_
  have he : (UInt8.ofNat a).toNat = (UInt8.ofNat b).toNat := by rw [List.cons.inj h |>.1]
  simpa [Nat.mod_eq_of_lt ha, Nat.mod_eq_of_lt hb] using he

theorem selfDelimiting_encodeComponent :
    Framing.SelfDelimiting (fun comp => comp.length < 256) encodeComponent := by
  have h := selfDelimiting_byteCount.counted (Framing.selfDelimiting_singleton (β := UInt8))
  exact fun _ _ _ _ ha hb => h ⟨ha, fun _ _ => trivial⟩ ⟨hb, fun _ _ => trivial⟩

theorem selfDelimiting_encodeComponents :
    Framing.SelfDelimiting (fun comps => comps.length < 256 ∧ ∀ comp ∈ comps, comp.length < 256)
      encodeComponents :=
  selfDelimiting_byteCount.counted selfDelimiting_encodeComponent

theorem appendByte_eq_ok {value : ℕ} {b : Bytes} :
    appendByte value = .ok b ↔ value < 256 ∧ b = byteCount value := by
  rw [appendByte, ite_ok_eq_ok, eq_comm (b := b)]; rfl

theorem componentBytes_eq_ok {comp b : Bytes} :
    componentBytes comp = .ok b ↔ comp.length < 256 ∧ b = encodeComponent comp := by
  simp only [componentBytes, bind_eq_ok, pure_eq_ok, appendByte_eq_ok]
  constructor
  · rintro ⟨_, ⟨h, rfl⟩, rfl⟩; exact ⟨h, by simp [encodeComponent, Framing.counted]⟩
  · rintro ⟨h, rfl⟩; exact ⟨_, ⟨h, rfl⟩, by simp [encodeComponent, Framing.counted]⟩

theorem componentsBytes_eq_ok {comps : List Bytes} {b : Bytes} :
    componentsBytes comps = .ok b ↔
      (∀ comp ∈ comps, comp.length < 256) ∧ b = comps.flatMap encodeComponent := by
  induction comps generalizing b with
  | nil => simp [componentsBytes, eq_comm]
  | cons comp comps ih =>
    simp only [componentsBytes, bind_eq_ok, pure_eq_ok, componentBytes_eq_ok, ih,
      List.forall_mem_cons, List.flatMap_cons]
    constructor
    · rintro ⟨_, ⟨h, rfl⟩, _, ⟨hs, rfl⟩, rfl⟩; exact ⟨⟨h, hs⟩, rfl⟩
    · rintro ⟨⟨h, hs⟩, rfl⟩; exact ⟨_, ⟨h, rfl⟩, _, ⟨hs, rfl⟩, rfl⟩

theorem toBytes_eq_ok {n : Name} {b : Bytes} :
    n.toBytes = .ok b ↔ n.Encodable ∧ b = n.encode := by
  simp only [toBytes, bind_eq_ok, pure_eq_ok, appendByte_eq_ok, componentsBytes_eq_ok]
  constructor
  · rintro ⟨_, ⟨h, rfl⟩, _, ⟨hs, rfl⟩, rfl⟩; exact ⟨⟨h, hs⟩, rfl⟩
  · rintro ⟨⟨h, hs⟩, rfl⟩; exact ⟨_, ⟨h, rfl⟩, _, ⟨hs, rfl⟩, rfl⟩

theorem Encodable.toBytes {n : Name} (h : n.Encodable) : n.toBytes = .ok n.encode :=
  toBytes_eq_ok.mpr ⟨h, rfl⟩

theorem components_inj {n m : Name} (h : n.components = m.components) :
    n.rnsAddr = m.rnsAddr ∧ n.path = m.path := List.cons.inj h

theorem encode_append_inj {n m : Name} (hn : n.Encodable) (hm : m.Encodable) {x y : Bytes}
    (h : n.encode ++ x = m.encode ++ y) :
    n.components = m.components ∧
      pinBytes n.contentHash ++ x = pinBytes m.contentHash ++ y := by
  rw [encode, encode, List.append_assoc, List.append_assoc] at h
  exact selfDelimiting_encodeComponents ⟨hn.count, hn.component⟩ ⟨hm.count, hm.component⟩ h

theorem pinBytes_inj {h h' : Option Bytes} (he : pinBytes h = pinBytes h') : h = h' := by
  cases h <;> cases h' <;> simp_all [pinBytes]

theorem encode_inj {n m : Name} (hn : n.Encodable) (hm : m.Encodable)
    (h : n.encode = m.encode) : n = m := by
  obtain ⟨hc, hp⟩ := encode_append_inj hn hm (x := []) (y := []) (by rw [h])
  obtain ⟨ha, hpath⟩ := components_inj hc
  have hh := pinBytes_inj (by simpa using hp)
  cases n; cases m; simp_all

theorem toBytes_inj {n m : Name} {b : Bytes} (hn : n.toBytes = .ok b) (hm : m.toBytes = .ok b) :
    n = m := by
  obtain ⟨en, rfl⟩ := toBytes_eq_ok.mp hn
  obtain ⟨em, he⟩ := toBytes_eq_ok.mp hm
  exact encode_inj en em he

theorem encodeComponent_eq (comp : Bytes) :
    encodeComponent comp = UInt8.ofNat comp.length :: comp := by
  simp [encodeComponent, Framing.counted, byteCount]

theorem readComponents_flatMap {comps : List Bytes} (h : ∀ comp ∈ comps, comp.length < 256)
    (x : Bytes) :
    readComponents comps.length (comps.flatMap encodeComponent ++ x) = .ok (comps, x) := by
  induction comps with
  | nil => rfl
  | cons comp comps ih =>
    rw [List.forall_mem_cons] at h
    have hl : (UInt8.ofNat comp.length).toNat = comp.length := by
      simp [Nat.mod_eq_of_lt h.1]
    rw [List.flatMap_cons, List.append_assoc, encodeComponent_eq, List.length_cons,
      List.cons_append, readComponents, hl, if_neg (by simp), List.drop_left, ih h.2,
      List.take_left]
    rfl

theorem readComponents_eq_ok {count : ℕ} {data tail : Bytes} {comps : List Bytes}
    (h : readComponents count data = .ok (comps, tail)) :
    comps.length = count ∧ ∀ comp ∈ comps, comp.length < 256 := by
  induction count generalizing data comps with
  | zero =>
    obtain ⟨rfl, -⟩ := Prod.mk.inj (Except.ok.inj h)
    exact ⟨rfl, nofun⟩
  | succ count ih =>
    cases data with
    | nil => cases h
    | cons clen data =>
      rw [readComponents, ite_error_eq_ok] at h
      obtain ⟨⟨rest, _⟩, hrest, he⟩ := bind_eq_ok.mp h.2
      obtain ⟨rfl, rfl⟩ := Prod.mk.inj (pure_eq_ok.mp he)
      obtain ⟨hlen, hcomp⟩ := ih hrest
      refine ⟨by rw [List.length_cons, hlen], List.forall_mem_cons.mpr ⟨?_, hcomp⟩⟩
      have hbyte := clen.toNat_lt
      rw [List.length_take]
      omega

theorem encodable_of_fromBytes {b : Bytes} {n : Name} (h : fromBytes b = .ok n) :
    n.Encodable := by
  cases b with
  | nil => cases h
  | cons count data =>
    rw [fromBytes, ite_error_eq_ok] at h
    obtain ⟨hcount, h⟩ := h
    simp only [bind_eq_ok, Prod.exists] at h
    obtain ⟨comps, tail, hread, hash, -, h⟩ := h
    obtain ⟨hlen, hcomp⟩ := readComponents_eq_ok hread
    cases comps with
    | nil => cases h
    | cons addr path =>
      obtain rfl := pure_eq_ok.mp h
      have hbyte := count.toNat_lt
      exact ⟨by rw [len, components, hlen]; exact hbyte, hcomp⟩

theorem readContentHash_pinBytes {h : Option Bytes}
    (hl : ∀ b ∈ h, b.length = CONTENT_HASH_BYTES) : readContentHash (pinBytes h) = .ok h := by
  cases h with
  | none => rfl
  | some b => simp [readContentHash, ← hl b rfl]

theorem fromBytes_encode {n : Name} (he : n.Encodable) (hc : n.len ≤ MAX_COMPONENTS)
    (hp : ∀ h ∈ n.contentHash, h.length = CONTENT_HASH_BYTES) : fromBytes n.encode = .ok n := by
  have hl : (UInt8.ofNat n.len).toNat = n.len := by simp [Nat.mod_eq_of_lt he.count]
  have h₀ : ¬ (UInt8.ofNat n.len = 0 ∨ MAX_COMPONENTS < (UInt8.ofNat n.len).toNat) := by
    rw [hl, not_or, ← UInt8.toNat_inj, hl]
    exact ⟨by simp [len, components], by omega⟩
  have hread := readComponents_flatMap he.component (pinBytes n.contentHash)
  rw [encode, encodeComponents, Framing.counted, byteCount, List.singleton_append,
    List.cons_append, fromBytes]
  simp only [show n.components.length = n.len from rfl] at hread ⊢
  rw [if_neg h₀, hl, hread]
  simp [readContentHash_pinBytes hp, components, bind, Except.bind, pure, Except.pure]

theorem len_le_of_fromBytes_encode {n m : Name} (he : n.Encodable)
    (h : fromBytes n.encode = .ok m) : n.len ≤ MAX_COMPONENTS := by
  by_contra hl
  have hn : (UInt8.ofNat n.len).toNat = n.len := by simp [Nat.mod_eq_of_lt he.count]
  rw [encode, encodeComponents, Framing.counted, byteCount, List.singleton_append,
    List.cons_append, fromBytes, if_pos (.inr (by
      rw [show n.components.length = n.len from rfl, hn]; omega))] at h
  cases h

/-- A name whose pin has the right length is read back as itself, if it is read at all. -/
theorem eq_of_fromBytes_encode {n m : Name} (he : n.Encodable)
    (hp : ∀ h ∈ n.contentHash, h.length = CONTENT_HASH_BYTES)
    (h : fromBytes n.encode = .ok m) : m = n :=
  ok_inj h (fromBytes_encode he (len_le_of_fromBytes_encode he h) hp)

theorem fromBytes_encode_eq {n m : Name} (he : n.Encodable) (hc : n.contentHash = none)
    (h : fromBytes n.encode = .ok m) : m = n :=
  eq_of_fromBytes_encode he (by simp [hc]) h

def ancestor (n : Name) (i : ℕ) : Name := ⟨n.rnsAddr, n.path.take i, none⟩

theorem ancestor_length (n : Name) : n.ancestor n.path.length = n.withoutContentHash := by
  rw [ancestor, List.take_length]
  rfl

theorem new_eq_ok {addr : Bytes} {path : List Bytes} {n : Name} (h : new addr path = .ok n) :
    n = ⟨addr, path, none⟩ := by
  rw [new] at h
  exact (ite_error_eq_ok.mp h).2 |> Except.ok.inj |>.symm

theorem Encodable.ancestor {n : Name} (h : n.Encodable) (i : ℕ) : (n.ancestor i).Encodable where
  count := by
    have hc := h.count
    simp only [len, components, Name.ancestor, List.length_cons, List.length_take] at hc ⊢
    omega
  component comp hm := by
    refine h.component comp ?_
    rcases List.mem_cons.mp hm with rfl | hm
    · exact List.mem_cons_self
    · exact List.mem_cons_of_mem _ (List.mem_of_mem_take hm)

theorem zip_all_beq_iff {l m : List Bytes} (h : m.length ≤ l.length) :
    ((l.zip m).all fun (a, b) => a == b) = true ↔ m <+: l := by
  induction m generalizing l with
  | nil => simp
  | cons b m ih =>
    cases l with
    | nil => simp at h
    | cons a l =>
      rw [List.zip_cons_cons, List.all_cons, Bool.and_eq_true, List.cons_prefix_cons,
        ih (Nat.le_of_succ_le_succ h), beq_iff_eq, eq_comm]

theorem startsWith_iff {n p : Name} : n.startsWith p = true ↔ p.components <+: n.components := by
  unfold startsWith
  split
  · rename_i hlt
    constructor
    · intro h
      cases h
    · intro h
      exact absurd h.length_le (not_le.mpr hlt)
  · rename_i hle
    exact zip_all_beq_iff (not_lt.mp hle)

theorem startsWith_ancestor (n : Name) (i : ℕ) : n.startsWith (n.ancestor i) = true := by
  rw [startsWith_iff]
  exact (List.prefix_cons_inj _).mpr (List.take_prefix ..)

theorem startsWith_iff_ancestor {n m : Name} (hn : n.contentHash = none) :
    m.startsWith n = true ↔ ∃ i < m.len, n = m.ancestor i := by
  constructor
  · intro h
    obtain ⟨haddr, hpath⟩ := List.cons_prefix_cons.mp (startsWith_iff.mp h)
    refine ⟨n.path.length, Nat.lt_succ_of_le hpath.length_le, ?_⟩
    rw [ancestor, ← haddr, ← List.prefix_iff_eq_take.mp hpath, ← hn]
  · rintro ⟨i, -, rfl⟩
    exact m.startsWith_ancestor i

theorem Encodable.of_startsWith {n m : Name} (h : m.Encodable) (hn : n.contentHash = none)
    (hs : m.startsWith n = true) : n.Encodable := by
  obtain ⟨i, -, rfl⟩ := (startsWith_iff_ancestor hn).mp hs
  exact h.ancestor i

end Name

end RnsIcn
