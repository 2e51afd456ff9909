import Mathlib.Algebra.BigOperators.Ring.Finset
import Mathlib.Data.List.Forall2
import RnsIcn.Content.Assembler
import RnsIcn.Content.Chunker
import RnsIcn.Content.RoundTrip
import RnsIcn.Wire.Relay

/-! # Chunked contents

A content that is cut into chunks is put together again from their packets, whatever
the order in which they come and whether or not they went over the wire.
-/

namespace RnsIcn

open Fallible

theorem length_encodeUtf8_le (s : String) : (encodeUtf8 s).length ≤ 4 * s.toList.length := by
  have hsize (l : List Char) : l.utf8Encode.size ≤ 4 * l.length := by
    induction l with
    | nil => exact Nat.zero_le _
    | cons c l ih =>
      have hc := c.utf8Size_le_four
      rw [List.utf8Encode_cons, ByteArray.size_append, List.utf8Encode_singleton,
        List.size_toByteArray, String.length_utf8EncodeChar, List.length_cons]
      omega
  refine Eq.trans_le ?_ (hsize s.toList)
  rw [String.utf8Encode_toList]
  rfl

namespace Chunker

variable [Hashlib]

def Signs (signer : Option (Bytes → Bytes)) : Prop :=
  ∀ sign ∈ signer, ∀ m, (sign m).length = SIGNATURE_BYTES

/-- The validator, if there is one, accepts what the signer signs. -/
def Matches (signer : Option (Bytes → Bytes)) (validator : Option (Bytes → Bytes → Bool)) : Prop :=
  ∀ validate ∈ validator, ∃ sign ∈ signer, ∀ m, validate (sign m) m = true

/-- The packet comes as it was made, or over the wire. -/
def Arrives (d d' : Data) : Prop := d' = d ∨ (do Data.fromBytes (← d.toBytes)) = .ok d'

def chunkRef (chunkBytes : Bytes) (index : ℕ) : ChunkRef where
  label := .str (label index)
  contentHash := blake2b chunkBytes
  size := .int chunkBytes.length
  sequence := .int index

def chunkData (n : Name) (stamp : Option ℕ) (chunkBytes : Bytes) (index : ℕ) : Data where
  name := ⟨n.rnsAddr, n.path ++ [encodeUtf8 (label index)], some (blake2b chunkBytes)⟩
  content := chunkBytes
  metadata :=
    { contentHash := some (blake2b chunkBytes), sequence := some index, signedAt := stamp }

def chunk (n : Name) (signer : Option (Bytes → Bytes)) (now : ℕ) (chunkBytes : Bytes)
    (index : ℕ) : Data :=
  let d := chunkData n (signer.map fun _ => now) chunkBytes index
  { d with signature := signer.map fun sign => sign (blake2b d.envelope) }

/-- What a content and the name, signer and clock that it is cut with are to satisfy. -/
structure Cuttable (n : Name) (signer : Option (Bytes → Bytes)) (now : ℕ → ℕ)
    (content : Bytes) : Prop where
  addr : n.rnsAddr.length = RNS_ADDR_BYTES
  count : n.len < MAX_COMPONENTS
  component : ∀ comp ∈ n.components, comp.length ≤ 255
  signs : Signs signer
  clock : ∀ index, now index < 256 ^ 8
  nonempty : content ≠ []
  length : content.length < 2 ^ 32

variable {n : Name} {signer : Option (Bytes → Bytes)} {validator : Option (Bytes → Bytes → Bool)}
  {now : ℕ → ℕ} {content p : Bytes} {index : ℕ} {chunkSize : ℕ+}

section

variable (hlen : ∀ b, (blake2b b).length = CONTENT_HASH_BYTES)
  (h : Cuttable n signer now content)
include hlen h

theorem chunkData_fits (hp : p.length < 2 ^ 32) (hindex : index < 2 ^ 32) :
    (chunkData n (signer.map fun _ => now index) p index).Fits := by
  have hlabel : (encodeUtf8 (label index)).length ≤ 64 :=
    (length_encodeUtf8_le _).trans (Nat.mul_le_mul_left 4 (length_label hindex))
  have hcount : (n.rnsAddr :: (n.path ++ [encodeUtf8 (label index)])).length ≤ MAX_COMPONENTS := by
    rw [← List.cons_append, List.length_append]
    exact h.count
  constructor
  · refine ⟨⟨lt_of_le_of_lt hcount (by decide), fun comp hc => ?_⟩, hcount, ?_⟩
    · rcases List.mem_append.mp (show comp ∈ n.components ++ [_] from hc) with hc | hc
      · have hcomp := h.component comp hc
        omega
      · rw [List.mem_singleton.mp hc]
        omega
    · rintro _ ⟨⟩
      exact hlen p
  · exact hp.trans_eq (by norm_num)
  · exact nofun
  · constructor
    · rintro _ ⟨⟩
      exact hlen p
    · rintro _ ⟨⟩
      exact hindex.trans (by decide)
    · exact nofun
    · exact nofun
    · intro stamp hs
      obtain ⟨_, -, rfl⟩ := Option.mem_map.mp hs
      exact h.clock index

theorem chunkPacket_eq (hp : p.length < 2 ^ 32) (hindex : index < 2 ^ 32) :
    chunkPacket n signer (now index) p index =
      .ok (chunkRef p index, chunk n signer (now index) p index) := by
  have hname : chunkName n (label index) (blake2b p) = .ok
      ⟨n.rnsAddr, n.path ++ [encodeUtf8 (label index)], some (blake2b p)⟩ := by
    rw [chunkName, Name.new, if_neg (not_not.mpr h.addr)]
    exact if_neg (not_not.mpr (hlen p))
  have hhash := (chunkData_fits hlen h hp hindex).signedHash
  unfold chunkPacket
  dsimp only
  rw [hname]
  cases signer with
  | none => rfl
  | some sign =>
    have hsigned : (chunkData n none p index).sign sign (now index) =
        .ok (chunk n (some sign) (now index) p index) := by
      unfold Data.sign
      exact bind_eq_ok.mpr ⟨_, hhash, if_neg (not_not.mpr (h.signs sign rfl _))⟩
    exact bind_eq_ok.mpr ⟨_, rfl, bind_eq_ok.mpr ⟨_, hsigned, rfl⟩⟩

theorem fromBytes_chunk (hp : p.length < 2 ^ 32) (hindex : index < 2 ^ 32) :
    (do Data.fromBytes (← (chunk n signer (now index) p index).toBytes)) =
      .ok (chunk n signer (now index) p index) := by
  have hfits : (chunk n signer (now index) p index).Fits := by
    have hdata := chunkData_fits hlen h hp hindex
    refine ⟨hdata.name, hdata.content, fun sig hsig => ?_, hdata.metadata⟩
    obtain ⟨sign, hsign, rfl⟩ := Option.mem_map.mp hsig
    exact h.signs sign hsign _
  obtain ⟨b, hb⟩ := Packet.Fits.toBytes_isOk (p := .data _) hfits
  have hbytes : (chunk n signer (now index) p index).toBytes = .ok b := hb
  have hread := parsePacket_data (Packet.read_toBytes (p := .data _) hfits hb)
  rw [hbytes]
  exact hread

theorem verify_chunk (hmatch : Matches signer validator) (hp : p.length < 2 ^ 32)
    (hindex : index < 2 ^ 32) :
    Assembler.verify validator (chunkRef p index) (chunk n signer (now index) p index) = .ok () ∧
      Assembler.verifyChunk (chunkRef p index) (chunk n signer (now index) p index) validator =
        .ok true := by
  have hhash : Assembler.verifyChunkHash (chunkRef p index) (chunk n signer (now index) p index) =
      .ok () :=
    (if_neg (not_not.mpr rfl)).trans (if_neg (not_not.mpr rfl))
  have hverified (validate : Bytes → Bytes → Bool) (hv : validate ∈ validator) :
      (chunk n signer (now index) p index).signature.isNone = false ∧
        (chunk n signer (now index) p index).verifySignature validate = .ok true := by
    obtain ⟨sign, hsign, hvalid⟩ := hmatch validate hv
    obtain rfl := Option.mem_def.mp hsign
    refine ⟨rfl, bind_eq_ok.mpr ⟨_, (chunkData_fits hlen h hp hindex).signedHash, ?_⟩⟩
    exact congrArg Except.ok (hvalid _)
  cases validator with
  | none => exact ⟨bind_eq_ok.mpr ⟨(), hhash, rfl⟩,
      (if_neg (not_not.mpr rfl)).trans (if_neg (not_not.mpr rfl))⟩
  | some validate =>
    obtain ⟨hsigned, hverify⟩ := hverified validate rfl
    constructor
    · refine bind_eq_ok.mpr ⟨(), hhash, ?_⟩
      dsimp only
      rw [Assembler.verifyChunkSignature, if_neg (by rw [hsigned]; exact Bool.false_ne_true)]
      exact bind_eq_ok.mpr ⟨true, hverify, rfl⟩
    · exact ((if_neg (not_not.mpr rfl)).trans (if_neg (not_not.mpr rfl))).trans hverify

end

/-- What `chunk_content` returns. -/
def chunked (content : Bytes) (n : Name) (chunkSize : ℕ+) (sequence : ℤ)
    (signer : Option (Bytes → Bytes)) (now : ℕ → ℕ) (created : ℤ) : ChunkResult where
  manifest :=
    { name := n
      chunks := (pieces chunkSize content).zipIdx.map fun c => chunkRef c.1 c.2
      totalSize := .int content.length
      contentHash := some (blake2b content)
      sequence := .int sequence
      timestamp := .int created }
  dataPackets := (pieces chunkSize content).zipIdx.map fun c => chunk n signer (now c.2) c.1 c.2

omit [Hashlib] in
theorem bounds_of_mem_zipIdx {c : Bytes × ℕ} (hlength : content.length < 2 ^ 32)
    (hc : c ∈ (pieces chunkSize content).zipIdx) :
    c.1 ∈ pieces chunkSize content ∧ c.1.length < 2 ^ 32 ∧ c.2 < 2 ^ 32 := by
  obtain ⟨-, hindex, hpiece⟩ := List.mem_zipIdx hc
  have hmem : c.1 ∈ pieces chunkSize content := hpiece ▸ List.getElem_mem _
  have hsub : c.1.length ≤ content.length := by
    rw [← flatten_pieces chunkSize content]
    exact (List.sublist_flatten_of_mem hmem).length_le
  have hcount := length_pieces_le chunkSize content
  refine ⟨hmem, ?_, ?_⟩
  · omega
  · omega

/-- The labels of the chunks, in their order. -/
def labels (chunkSize : ℕ+) (content : Bytes) : List String :=
  (List.range (pieces chunkSize content).length).map label

/-- The sizes of the chunks, in their order. -/
def sizes (chunkSize : ℕ+) (content : Bytes) : List ℤ :=
  (pieces chunkSize content).map fun p => (p.length : ℤ)

omit [Hashlib] in
theorem labels_eq_map (chunkSize : ℕ+) (content : Bytes) : labels chunkSize content =
    (pieces chunkSize content).zipIdx.map fun c => label c.2 := by
  have hindices := List.zipIdx_map_snd 0 (pieces chunkSize content)
  rw [← List.range_eq_range'] at hindices
  rw [labels, ← hindices, List.map_map]
  rfl

omit [Hashlib] in
theorem sum_sizes (chunkSize : ℕ+) (content : Bytes) :
    (sizes chunkSize content).sum = content.length := by
  have hsum := congrArg List.length (flatten_pieces chunkSize content)
  rw [List.length_flatten] at hsum
  rw [sizes, ← hsum, Nat.cast_list_sum, List.map_map]
  rfl

section Chunked

variable (sequence created : ℤ)

theorem labels_chunked :
    (chunked content n chunkSize sequence signer now created).manifest.chunks.map ChunkRef.label =
      (labels chunkSize content).map .str := by
  rw [labels_eq_map, List.map_map]
  exact List.map_map

theorem sizes_chunked :
    (chunked content n chunkSize sequence signer now created).manifest.chunks.map ChunkRef.size =
      (sizes chunkSize content).map .int := by
  rw [sizes, List.map_map]
  conv_rhs => rw [← List.zipIdx_map_fst 0 (pieces chunkSize content), List.map_map]
  exact List.map_map

theorem create_chunked : ContentManifest.create n
    ((pieces chunkSize content).zipIdx.map fun c => chunkRef c.1 c.2) (some (blake2b content))
    sequence created =
      .ok (chunked content n chunkSize sequence signer now created).manifest := by
  have hsizes : ((pieces chunkSize content).zipIdx.map fun c => chunkRef c.1 c.2).mapM
      (fun c => c.size.asInt) = .ok (sizes chunkSize content) := by
    have hlengths : sizes chunkSize content =
        (pieces chunkSize content).zipIdx.map fun c => (c.1.length : ℤ) := by
      rw [sizes]
      conv_lhs => rw [← List.zipIdx_map_fst 0 (pieces chunkSize content), List.map_map]
      rfl
    rw [hlengths]
    exact mapM_map_eq_ok fun c _ => rfl
  refine bind_eq_ok.mpr ⟨_, hsizes, ?_⟩
  rw [sum_sizes]
  rfl

theorem chunkContent_eq (hlen : ∀ b, (blake2b b).length = CONTENT_HASH_BYTES)
    (h : Cuttable n signer now content) :
    chunkContent content n chunkSize sequence signer now created =
      .ok (chunked content n chunkSize sequence signer now created) := by
  have hpasses : (pieces chunkSize content).zipIdx.mapM
      (fun c => chunkPacket n signer (now c.2) c.1 c.2) =
        .ok ((pieces chunkSize content).zipIdx.map fun c =>
          (chunkRef c.1 c.2, chunk n signer (now c.2) c.1 c.2)) := by
    conv_lhs => rw [← List.map_id (pieces chunkSize content).zipIdx]
    refine mapM_map_eq_ok fun c hc => ?_
    obtain ⟨-, hp, hindex⟩ := bounds_of_mem_zipIdx h.length hc
    exact chunkPacket_eq hlen h hp hindex
  rw [chunkContent, if_neg h.nonempty]
  have hmanifest : ContentManifest.create n
      ((pieces chunkSize content).zipIdx.map fun c => chunkRef c.1 c.2) (some (blake2b content))
      sequence created = .ok (chunked content n chunkSize sequence signer now created).manifest :=
    create_chunked sequence created
  refine bind_eq_ok.mpr ⟨_, hpasses, ?_⟩
  rw [List.map_map, List.map_map]
  exact bind_eq_ok.mpr ⟨_, hmanifest, rfl⟩

theorem total_chunked {chunks : Dict String Data} {check : ChunkRef → Data → Except PyError Unit}
    (hcheck : ∀ c ∈ (pieces chunkSize content).zipIdx,
      check (chunkRef c.1 c.2) (chunk n signer (now c.2) c.1 c.2) = .ok ())
    (hget : ∀ c ∈ (pieces chunkSize content).zipIdx,
      chunks.get? (label c.2) = some (chunk n signer (now c.2) c.1 c.2)) :
    Assembler.total check (chunked content n chunkSize sequence signer now created).manifest
      chunks = .ok content := by
  refine Assembler.total_eq_ok.mpr ⟨pieces chunkSize content, ?_, (flatten_pieces _ content).symm⟩
  conv => arg 3; rw [← List.zipIdx_map_fst 0 (pieces chunkSize content)]
  refine List.forall₂_map_left_iff.mpr (List.forall₂_map_right_iff.mpr ?_)
  refine List.forall₂_same.mpr fun c hc => ?_
  exact Assembler.piece_eq_ok.mpr
    ⟨_, Assembler.get_eq_ok_some.mpr ⟨_, rfl, hget c hc⟩, hcheck c hc, rfl⟩

end Chunked

/-- A content that is cut into chunks has labels that are all different and sizes that add up to
its length, and is assembled from the packets, in any order and from the wire. -/
theorem chunks_reassemble (hlen : ∀ b, (blake2b b).length = CONTENT_HASH_BYTES)
    (h : Cuttable n signer now content) (chunkSize : ℕ+) (sequence created : ℤ) :
    ∃ (r : ChunkResult) (labels : List String) (sizes : List ℤ),
      chunkContent content n chunkSize sequence signer now created = .ok r ∧
      r.manifest.chunks.map ChunkRef.label = labels.map .str ∧ labels.Nodup ∧
      r.manifest.chunks.map ChunkRef.size = sizes.map .int ∧ sizes.sum = content.length ∧
      r.manifest.totalSize = .int content.length ∧ (∀ size ∈ sizes, size ≤ chunkSize) ∧
      (∀ d ∈ r.dataPackets, (do Data.fromBytes (← d.toBytes)) = .ok d) ∧
      ∀ validator, Matches signer validator →
        List.Forall₂ (fun ref d => Assembler.verifyChunk ref d validator = .ok true)
          r.manifest.chunks r.dataPackets ∧
        ∀ received chunks, List.Forall₂ Arrives r.dataPackets received →
          labels.zip received ⊆ chunks.items →
          Assembler.assemble r.manifest chunks validator = .ok content := by
  have hbounds (c : Bytes × ℕ) (hc : c ∈ (pieces chunkSize content).zipIdx) :=
    bounds_of_mem_zipIdx h.length hc
  have hreads : ∀ d ∈ (chunked content n chunkSize sequence signer now created).dataPackets,
      (do Data.fromBytes (← d.toBytes)) = .ok d := by
    intro d hd
    obtain ⟨c, hc, rfl⟩ := List.mem_map.mp hd
    exact fromBytes_chunk hlen h (hbounds c hc).2.1 (hbounds c hc).2.2
  have hnodup : (labels chunkSize content).Nodup := List.nodup_range.map label_injective
  refine ⟨_, _, _, chunkContent_eq sequence created hlen h, labels_chunked _ _, hnodup,
    sizes_chunked _ _, sum_sizes _ _, rfl, ?_, hreads, ?_⟩
  · intro size hsize
    obtain ⟨p, hp, rfl⟩ := List.mem_map.mp hsize
    exact Int.ofNat_le.mpr (length_of_mem_pieces hp).2
  · intro validator hmatch
    have hverify (c : Bytes × ℕ) (hc : c ∈ (pieces chunkSize content).zipIdx) :=
      verify_chunk hlen h hmatch (hbounds c hc).2.1 (hbounds c hc).2.2
    constructor
    · refine List.forall₂_map_left_iff.mpr (List.forall₂_map_right_iff.mpr ?_)
      exact List.forall₂_same.mpr fun c hc => (hverify c hc).2
    · intro received chunks harrives hsub
      have hsame : List.Forall₂ Eq
          (chunked content n chunkSize sequence signer now created).dataPackets received := by
        refine ((List.forall₂_and_left _ _).mpr ⟨fun d hd => hreads d hd, harrives⟩).imp ?_
        rintro d d' ⟨hread, hd | hd⟩
        · exact hd.symm
        · exact Except.ok.inj (hread.symm.trans hd)
      obtain rfl := List.forall₂_eq_eq_eq ▸ hsame
      have hget (c : Bytes × ℕ) (hc : c ∈ (pieces chunkSize content).zipIdx) :
          chunks.get? (label c.2) = some (chunk n signer (now c.2) c.1 c.2) := by
        have hmem := List.mem_map_of_mem
          (f := fun c : Bytes × ℕ => (label c.2, chunk n signer (now c.2) c.1 c.2)) hc
        rw [← List.zip_map', ← labels_eq_map] at hmem
        exact Dict.get?_eq_some.mpr (hsub hmem)
      have htotal := total_chunked sequence created (fun c hc => (hverify c hc).1) hget
      refine bind_eq_ok.mpr ⟨content, htotal, bind_eq_ok.mpr ⟨(), ?_, rfl⟩⟩
      exact if_neg (not_not.mpr rfl)

end Chunker

namespace Chunker

def shortName : Name := ⟨List.replicate 16 0x01, [[0x61]], none⟩

def sameSignature : Bytes → Bytes := fun _ => List.replicate 64 0

theorem shortName_cuttable : Cuttable shortName (some sameSignature) (fun _ => 5) [1, 2, 3] where
  addr := rfl
  count := by decide
  component := by decide
  signs := by
    rintro _ ⟨⟩ _
    rfl
  clock _ := by decide
  nonempty := List.cons_ne_nil _ _
  length := by decide

theorem three_bytes_reassembled : letI := Data.paddedHash
    ∃ r chunks, chunkContent [1, 2, 3] shortName 2 1 (some sameSignature) (fun _ => 5) 0 = .ok r ∧
      Assembler.assemble r.manifest chunks (some fun sig _ => sig == List.replicate 64 0) =
        .ok [1, 2, 3] := by
  let := Data.paddedHash
  obtain ⟨r, labels, sizes, hr, hlabels, hnodup, -, -, -, -, -, hassembles⟩ :=
    chunks_reassemble Data.length_paddedHash shortName_cuttable 2 1 0
  obtain ⟨hverified, hassembled⟩ := hassembles (some fun sig _ => sig == List.replicate 64 0) <| by
    rintro _ ⟨⟩
    exact ⟨sameSignature, rfl, fun _ => rfl⟩
  have hkeys : ((labels.zip r.dataPackets).map Prod.fst).Nodup := by
    rw [List.map_fst_zip]
    · exact hnodup
    · have hlength := congrArg List.length hlabels
      rw [List.length_map, List.length_map] at hlength
      rw [← hlength, hverified.length_eq]
  refine ⟨r, ⟨_, hkeys⟩, hr, hassembled r.dataPackets _ ?_ fun e he => he⟩
  exact List.forall₂_same.mpr fun d _ => .inl rfl

end Chunker

end RnsIcn
