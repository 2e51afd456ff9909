import Mathlib.Data.PNat.Defs
import RnsIcn.Content.Manifest

/-! # Chunks

A large content is cut into pieces of one size, but for the last one. Each piece becomes
Data under the name of the content with a numbered label, pinned to its own hash.
-/

namespace RnsIcn

namespace Chunker

def CHUNK_LABEL_PAD : ℕ := 4

def label (index : ℕ) : String :=
  "chunk_" ++ String.ofList ((Nat.toDigits 10 index).leftpad CHUNK_LABEL_PAD '0')

def chunkName (n : Name) (label : String) (chunkHash : Bytes) : Except PyError Name :=
  Name.new n.rnsAddr (n.path ++ [encodeUtf8 label]) (some chunkHash)

/-- The slices of the loop. It only ends for a positive size. -/
def pieces (chunkSize : ℕ+) (content : Bytes) : List Bytes :=
  if _h : content = [] then []
  else content.take chunkSize :: pieces chunkSize (content.drop chunkSize)
termination_by content.length
decreasing_by
  have hpos := List.length_pos_of_ne_nil ‹_›
  have hsize := chunkSize.pos
  rw [List.length_drop]
  omega

structure ChunkResult where
  manifest : ContentManifest
  dataPackets : List Data

variable [Hashlib]

def chunkPacket (n : Name) (signer : Option (Bytes → Bytes)) (now : ℕ) (chunkBytes : Bytes)
    (index : ℕ) : Except PyError (ChunkRef × Data) := do
  let chunkHash := blake2b chunkBytes
  let ref : ChunkRef :=
    { label := .str (label index), contentHash := chunkHash, size := .int chunkBytes.length,
      sequence := .int index }
  let name ← chunkName n (label index) chunkHash
  let d := (Data.new name chunkBytes).withSequence index
  let d ← match signer with
    | none => pure d
    | some signer => d.sign signer now
  return (ref, d)

/-- `chunk_content`, with the clock readings of the passes and the one of the manifest. -/
def chunkContent (content : Bytes) (n : Name) (chunkSize : ℕ+) (sequence : ℤ)
    (signer : Option (Bytes → Bytes)) (now : ℕ → ℕ) (created : ℤ) : Except PyError ChunkResult :=
  if content = [] then .error (.emptyContentError "cannot chunk empty content")
  else do
    let chunks ← (pieces chunkSize content).zipIdx.mapM fun (chunkBytes, index) =>
      chunkPacket n signer (now index) chunkBytes index
    let manifest ←
      ContentManifest.create n (chunks.map Prod.fst) (some (blake2b content)) sequence created
    return { manifest, dataPackets := chunks.map Prod.snd }

omit [Hashlib] in
theorem toList_label (index : ℕ) : (label index).toList =
    "chunk_".toList ++ (Nat.toDigits 10 index).leftpad CHUNK_LABEL_PAD '0' := by
  rw [label, String.toList_append]
  exact congrArg _ String.toList_ofList

omit [Hashlib] in
theorem ofDigitChars_leftpad (index : ℕ) : Nat.ofDigitChars 10
    ((Nat.toDigits 10 index).leftpad CHUNK_LABEL_PAD '0') 0 = index := by
  rw [List.leftpad, Nat.ofDigitChars_append, Nat.ofDigitChars_replicate_zero, Nat.mul_zero,
    Nat.ofDigitChars_ten_toDigits]

omit [Hashlib] in
theorem label_injective : Function.Injective label := by
  intro i j h
  have hchars := congrArg String.toList h
  rw [toList_label, toList_label] at hchars
  rw [← ofDigitChars_leftpad i, List.append_cancel_left hchars, ofDigitChars_leftpad]

omit [Hashlib] in
theorem length_label {index : ℕ} (h : index < 2 ^ 32) : (label index).toList.length ≤ 16 := by
  have hten : index < 10 ^ 10 := h.trans (by decide)
  have hdigits := (Nat.length_toDigits_le_iff (by decide) (by decide)).mpr hten
  have hpad : CHUNK_LABEL_PAD = 4 := rfl
  rw [toList_label, List.length_append, List.length_leftpad, hpad]
  have hword : "chunk_".toList.length = 6 := by decide
  omega

section Pieces

variable (chunkSize : ℕ+)

omit [Hashlib] in
theorem pieces_nil : pieces chunkSize [] = [] := by
  unfold pieces
  exact dif_pos rfl

omit [Hashlib] in
theorem pieces_of_ne_nil {content : Bytes} (h : content ≠ []) : pieces chunkSize content =
    content.take chunkSize :: pieces chunkSize (content.drop chunkSize) := by
  conv_lhs => unfold pieces
  exact dif_neg h

omit [Hashlib] in
theorem flatten_pieces (content : Bytes) : (pieces chunkSize content).flatten = content := by
  induction content using pieces.induct chunkSize with
  | case1 => rw [pieces_nil, List.flatten_nil]
  | case2 content h ih =>
    rw [pieces_of_ne_nil chunkSize h, List.flatten_cons, ih, List.take_append_drop]

omit [Hashlib] in
theorem length_of_mem_pieces {chunkSize : ℕ+} {content p : Bytes}
    (hp : p ∈ pieces chunkSize content) : p ≠ [] ∧ p.length ≤ chunkSize := by
  induction content using pieces.induct chunkSize with
  | case1 =>
    rw [pieces_nil] at hp
    cases hp
  | case2 content h ih =>
    rw [pieces_of_ne_nil chunkSize h] at hp
    rcases List.mem_cons.mp hp with rfl | hp
    · have hsize := chunkSize.ne_zero
      refine ⟨fun he => ?_, List.length_take_le _ _⟩
      rcases List.take_eq_nil_iff.mp he with hzero | hnil
      · exact hsize hzero
      · exact h hnil
    · exact ih hp

omit [Hashlib] in
theorem length_pieces_le (content : Bytes) :
    (pieces chunkSize content).length ≤ content.length := by
  induction content using pieces.induct chunkSize with
  | case1 =>
    rw [pieces_nil]
    exact le_rfl
  | case2 content h ih =>
    have hsize := chunkSize.pos
    have hpos := List.length_pos_of_ne_nil h
    rw [pieces_of_ne_nil chunkSize h, List.length_cons]
    rw [List.length_drop] at ih
    omega

end Pieces

open Fallible

variable {n m : Name} {content : Bytes} {r : ChunkResult}

theorem packet_of_chunkContent {chunkSize : ℕ+} {sequence created : ℤ}
    {signer : Option (Bytes → Bytes)} {now : ℕ → ℕ} {d : Data}
    (h : chunkContent content n chunkSize sequence signer now created = .ok r)
    (hd : d ∈ r.dataPackets) : ∃ index chunkBytes ref,
      chunkPacket n signer (now index) chunkBytes index = .ok (ref, d) := by
  rw [chunkContent, ite_error_eq_ok] at h
  obtain ⟨chunks, hchunks, h⟩ := bind_eq_ok.mp h.2
  obtain ⟨manifest, -, he⟩ := bind_eq_ok.mp h
  obtain rfl := pure_eq_ok.mp he
  obtain ⟨⟨ref, d'⟩, hc, rfl⟩ := List.mem_map.mp hd
  obtain ⟨⟨chunkBytes, index⟩, -, hpass⟩ := mem_of_mapM_eq_ok hchunks hc
  exact ⟨index, chunkBytes, ref, hpass⟩

theorem name_of_chunkPacket {signer : Option (Bytes → Bytes)} {now index : ℕ} {chunkBytes : Bytes}
    {ref : ChunkRef} {d : Data} (h : chunkPacket n signer now chunkBytes index = .ok (ref, d)) :
    chunkName n (label index) (blake2b chunkBytes) = .ok d.name := by
  rw [chunkPacket] at h
  obtain ⟨name, hname, h⟩ := bind_eq_ok.mp h
  rw [hname]
  cases signer with
  | none =>
    obtain ⟨-, rfl⟩ := Prod.mk.inj (pure_eq_ok.mp h)
    rfl
  | some signer =>
    obtain ⟨d', hd, he⟩ := bind_eq_ok.mp h
    obtain ⟨-, rfl⟩ := Prod.mk.inj (pure_eq_ok.mp he)
    obtain ⟨sig, -, rfl⟩ := Data.sign_eq_ok hd
    rfl

end Chunker

end RnsIcn
