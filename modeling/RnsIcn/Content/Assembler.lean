import RnsIcn.Content.Manifest
import RnsIcn.Lib.Dict
import RnsIcn.Wire.Envelope

/-! # Reassembly

A content is the concatenation of the contents of its chunks, looked up by label. Each
can be checked against its hash in the manifest, its producer's signature, and the
whole against the hash of the content.
-/

namespace RnsIcn

namespace Assembler

def shortHex (b : Bytes) : String := String.ofList ((Name.hex b).toList.take 16)

/-- `chunks.get(label)`, which raises for a label that cannot be hashed. -/
def get (chunks : Dict String Data) (label : Json) : Except PyError (Option Data) := do
  match ← label.key with
  | .str s => return chunks.get? s
  | .other _ => return none

def requireChunk (m : ContentManifest) (ref : ChunkRef) (chunks : Dict String Data) :
    Except PyError Data := do
  match ← get chunks ref.label with
  | some d => return d
  | none =>
    throw (.missingChunkError
      ("Missing chunk '" ++ ref.label.shown ++ "' for content " ++ m.name.str))

def piece (check : ChunkRef → Data → Except PyError Unit) (m : ContentManifest)
    (chunks : Dict String Data) (ref : ChunkRef) : Except PyError Bytes := do
  let d ← requireChunk m ref chunks
  check ref d
  return d.content

def total (check : ChunkRef → Data → Except PyError Unit) (m : ContentManifest)
    (chunks : Dict String Data) : Except PyError Bytes :=
  m.chunks.foldlM (fun acc ref => do return acc ++ (← piece check m chunks ref)) []

open Fallible

variable {m : ContentManifest} {ref : ChunkRef} {chunks : Dict String Data} {d : Data}
  {content : Bytes}

theorem get_eq_ok_some {label : Json} : get chunks label = .ok (some d) ↔
    ∃ s, label = .str s ∧ chunks.get? s = some d := by
  constructor
  · intro h
    obtain ⟨key, hkey, h⟩ := bind_eq_ok.mp h
    cases label with
    | str s =>
      obtain rfl := Except.ok.inj hkey
      exact ⟨s, rfl, pure_eq_ok.mp h⟩
    | list items => cases hkey
    | dict members => cases hkey
    | _ =>
      obtain rfl := Except.ok.inj hkey
      cases h
  · rintro ⟨s, rfl, h⟩
    exact congrArg Except.ok h

theorem requireChunk_eq_ok : requireChunk m ref chunks = .ok d ↔
    get chunks ref.label = .ok (some d) := by
  unfold requireChunk
  rcases get chunks ref.label with e | _ | d' <;>
    simp [bind, Except.bind, pure, Except.pure]

theorem piece_eq_ok {check : ChunkRef → Data → Except PyError Unit} :
    piece check m chunks ref = .ok content ↔ ∃ d, get chunks ref.label = .ok (some d) ∧
      check ref d = .ok () ∧ d.content = content := by
  simp only [piece, bind_eq_ok, pure_eq_ok, requireChunk_eq_ok]
  constructor
  · rintro ⟨d, hget, ⟨⟩, hcheck, hcontent⟩
    exact ⟨d, hget, hcheck, hcontent⟩
  · rintro ⟨d, hget, hcheck, hcontent⟩
    exact ⟨d, hget, (), hcheck, hcontent⟩

theorem total_eq_ok {check : ChunkRef → Data → Except PyError Unit} :
    total check m chunks = .ok content ↔ ∃ pieces,
      List.Forall₂ (fun ref p => piece check m chunks ref = .ok p) m.chunks pieces ∧
        content = pieces.flatten := by
  rw [total, foldlM_append_eq_ok]
  rfl

variable [Hashlib]

def verifyChunkHash (ref : ChunkRef) (d : Data) : Except PyError Unit :=
  match d.metadata.contentHash with
  | none =>
    .error (.hashMismatchError
      ("Chunk '" ++ ref.label.shown ++ "' has no content_hash in Data metadata"))
  | some h =>
    if h ≠ ref.contentHash then
      .error (.hashMismatchError
        ("Chunk '" ++ ref.label.shown ++ "': Data metadata content_hash mismatch (expected " ++
          shortHex ref.contentHash ++ "..., got " ++ shortHex h ++ "...)"))
    else if blake2b d.content ≠ ref.contentHash then
      .error (.hashMismatchError
        ("Chunk '" ++ ref.label.shown ++ "': content blake2b mismatch (expected " ++
          shortHex ref.contentHash ++ "..., got " ++ shortHex (blake2b d.content) ++ "...)"))
    else .ok ()

def verifyChunkSignature (ref : ChunkRef) (d : Data) (validator : Bytes → Bytes → Bool) :
    Except PyError Unit :=
  if d.signature.isNone then
    .error (.signatureError ("Chunk '" ++ ref.label.shown ++ "' is unsigned"))
  else do
    if !(← d.verifySignature validator) then
      throw (.signatureError
        ("Chunk '" ++ ref.label.shown ++ "': producer signature failed verification"))

def verifyContentHash (m : ContentManifest) (content : Bytes) : Except PyError Unit :=
  match m.contentHash with
  | none => .ok ()
  | some h =>
    if blake2b content ≠ h then
      .error (.integrityError
        ("Content hash mismatch for " ++ m.name.str ++ ": expected " ++ shortHex h ++
          "..., got " ++ shortHex (blake2b content) ++ "..."))
    else .ok ()

/-- The checks of one chunk in `assemble` and `assemble_verified`. -/
def verify (validator : Option (Bytes → Bytes → Bool)) (ref : ChunkRef) (d : Data) :
    Except PyError Unit := do
  verifyChunkHash ref d
  match validator with
  | none => pure ()
  | some validator => verifyChunkSignature ref d validator

def assemble (m : ContentManifest) (chunks : Dict String Data)
    (validator : Option (Bytes → Bytes → Bool) := none) : Except PyError Bytes := do
  let content ← total (verify validator) m chunks
  verifyContentHash m content
  return content

def assembleVerified (m : ContentManifest) (chunks : Dict String Data)
    (validator : Option (Bytes → Bytes → Bool) := none) : Except PyError Bytes :=
  total (verify validator) m chunks

def assembleFast (m : ContentManifest) (chunks : Dict String Data) : Except PyError Bytes :=
  total (fun _ _ => pure ()) m chunks

def verifyChunk (ref : ChunkRef) (d : Data) (validator : Option (Bytes → Bytes → Bool) := none) :
    Except PyError Bool :=
  match d.metadata.contentHash with
  | none => .ok false
  | some h =>
    if h ≠ ref.contentHash then .ok false
    else if blake2b d.content ≠ ref.contentHash then .ok false
    else
      match validator with
      | none => .ok true
      | some validator => d.verifySignature validator

theorem blake2b_of_verifyChunkHash (h : verifyChunkHash ref d = .ok ()) :
    blake2b d.content = ref.contentHash := by
  unfold verifyChunkHash at h
  split at h
  · cases h
  · exact not_not.mp (ite_error_eq_ok.mp (ite_error_eq_ok.mp h).2).1

/-- The chunk has this content, and no other one in `D` has its hash. -/
def Determined (D : Set Bytes) (ref : ChunkRef) (p : Bytes) : Prop :=
  p ∈ D ∧ blake2b p = ref.contentHash ∧ ∀ q ∈ D, blake2b q = ref.contentHash → q = p

variable {D : Set Bytes}

omit [Hashlib] in
/-- The contents of the packets are in `D`. -/
def Within (D : Set Bytes) (chunks : Dict String Data) : Prop :=
  ∀ l d, chunks.get? l = some d → d.content ∈ D

theorem determined_of_piece {validator : Option (Bytes → Bytes → Bool)} {p : Bytes}
    (hfree : Set.InjOn blake2b D) (hD : Within D chunks)
    (h : piece (verify validator) m chunks ref = .ok p) : Determined D ref p := by
  obtain ⟨d, hget, hcheck, rfl⟩ := piece_eq_ok.mp h
  obtain ⟨_, hhash, -⟩ := bind_eq_ok.mp hcheck
  have hblake := blake2b_of_verifyChunkHash hhash
  obtain ⟨label, -, hget⟩ := get_eq_ok_some.mp hget
  have hmem := hD _ _ hget
  exact ⟨hmem, hblake, fun q hq hqh => hfree hq hmem (hqh.trans hblake.symm)⟩

/-- The verified assemblies of the manifest that give `content`. -/
def Assembles (m : ContentManifest) (chunks : Dict String Data) (content : Bytes) : Prop :=
  ∃ validator, assemble m chunks validator = .ok content ∨
    assembleVerified m chunks validator = .ok content

theorem Assembles.total (h : Assembles m chunks content) :
    ∃ validator, total (verify validator) m chunks = .ok content := by
  obtain ⟨validator, h | h⟩ := h
  · obtain ⟨_, htotal, h⟩ := bind_eq_ok.mp h
    obtain ⟨_, -, he⟩ := bind_eq_ok.mp h
    obtain rfl := pure_eq_ok.mp he
    exact ⟨validator, htotal⟩
  · exact ⟨validator, h⟩

/-- What is assembled is the concatenation of the contents that the manifest determines. -/
theorem Assembles.determined (h : Assembles m chunks content) (hfree : Set.InjOn blake2b D)
    (hD : Within D chunks) : ∃ pieces,
      List.Forall₂ (Determined D) m.chunks pieces ∧ content = pieces.flatten := by
  obtain ⟨validator, h⟩ := h.total
  obtain ⟨pieces, hpieces, rfl⟩ := total_eq_ok.mp h
  exact ⟨pieces, hpieces.imp fun _ _ => determined_of_piece hfree hD, rfl⟩

theorem Assembles.fast (h : Assembles m chunks content) : assembleFast m chunks = .ok content := by
  obtain ⟨validator, h⟩ := h.total
  obtain ⟨pieces, hpieces, rfl⟩ := total_eq_ok.mp h
  refine total_eq_ok.mpr ⟨pieces, hpieces.imp fun ref p hp => ?_, rfl⟩
  obtain ⟨d, hget, -, hcontent⟩ := piece_eq_ok.mp hp
  exact piece_eq_ok.mpr ⟨d, hget, rfl, hcontent⟩

theorem rightUnique_determined : Relator.RightUnique (Determined D) :=
  fun _ p _ hp hq => hq.2.2 p hp.1 hp.2.1

/-- Two verified assemblies of one manifest give the same bytes, which are those of the contents
that its hashes determine and what the unchecked assembly of either gives. -/
theorem assembled_bytes_determined {first second : Dict String Data} {x y : Bytes}
    (hfree : Set.InjOn blake2b D) (hfirst : Within D first) (hsecond : Within D second)
    (hx : Assembles m first x) (hy : Assembles m second y) :
    x = y ∧ assembleFast m first = .ok x ∧ assembleFast m second = .ok x ∧
      ∃ pieces, List.Forall₂ (Determined D) m.chunks pieces ∧ x = pieces.flatten := by
  obtain ⟨ps, hps, rfl⟩ := hx.determined hfree hfirst
  obtain ⟨qs, hqs, rfl⟩ := hy.determined hfree hsecond
  obtain rfl := rightUnique_determined.forall₂ hps hqs
  exact ⟨rfl, hx.fast, hy.fast, ps, hps, rfl⟩

end Assembler

namespace Assembler

def bytePacket (b : UInt8) (signature : Option Bytes) : Data where
  name := ⟨List.replicate 16 0x01, [[b]], none⟩
  content := [b]
  signature := signature
  metadata := { contentHash := some (b :: List.replicate 31 0) }

def twoByte : ContentManifest where
  name := ⟨List.replicate 16 0x01, [], none⟩
  chunks := [{ label := .str "one", contentHash := 1 :: List.replicate 31 0, size := .int 1 },
    { label := .str "two", contentHash := 2 :: List.replicate 31 0, size := .int 1 },
    { label := .str "one", contentHash := 1 :: List.replicate 31 0, size := .int 1 }]
  totalSize := .int 3

def ordered : Dict String Data :=
  ⟨[("one", bytePacket 1 (some [7])), ("two", bytePacket 2 none)], by decide⟩

def reordered : Dict String Data :=
  ⟨[("two", bytePacket 2 none), ("more", bytePacket 2 none), ("one", bytePacket 1 none)], by decide⟩

theorem twoByte_determined : letI := Data.paddedHash
    ([1, 2, 1] : Bytes) = [1, 2, 1] ∧ assembleFast twoByte ordered = .ok [1, 2, 1] ∧
      assembleFast twoByte reordered = .ok [1, 2, 1] ∧
      ∃ pieces, List.Forall₂ (Determined { p | p = [1] ∨ p = [2] }) twoByte.chunks pieces ∧
        [1, 2, 1] = pieces.flatten := by
  let := Data.paddedHash
  have hordered : Assembles twoByte ordered [1, 2, 1] := ⟨none, .inl rfl⟩
  have hreordered : Assembles twoByte reordered [1, 2, 1] := ⟨none, .inr rfl⟩
  refine assembled_bytes_determined ?_ ?_ ?_ hordered hreordered
  · rintro _ (rfl | rfl) _ (rfl | rfl) h
    all_goals first | rfl | exact absurd h (by decide)
  · intro l d h
    rcases List.mem_pair.mp (Dict.get?_eq_some.mp h) with h | h
    · exact .inl (congrArg (Data.content ∘ Prod.snd) h)
    · exact .inr (congrArg (Data.content ∘ Prod.snd) h)
  · intro l d h
    have hmem := Dict.get?_eq_some.mp h
    simp only [reordered, List.mem_cons, Prod.mk.injEq, List.not_mem_nil, or_false] at hmem
    rcases hmem with ⟨-, rfl⟩ | ⟨-, rfl⟩ | ⟨-, rfl⟩
    · exact .inr rfl
    · exact .inr rfl
    · exact .inl rfl

end Assembler

end RnsIcn
