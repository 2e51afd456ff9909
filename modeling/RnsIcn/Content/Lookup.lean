import RnsIcn.Content.Chunked
import RnsIcn.Lib.Separator

/-! # Looking up a chunk by its label

The lookup takes the first packet whose displayed name has the label anywhere in it. The
label of a chunk may be in the name of the content, and what is in every displayed name
need not be a label.
-/

namespace RnsIcn

open Fallible Separator

theorem decodeUtf8_encodeUtf8 (s : String) : Name.decodeUtf8 (encodeUtf8 s) = some s := by
  unfold Name.decodeUtf8 encodeUtf8
  rw [String.fromUTF8?, dif_pos s.isValidUTF8]
  rfl

namespace Chunker

def ChunkResult.dataForLabel (r : ChunkResult) (label : String) : Option Data :=
  r.dataPackets.find? fun dp => decide (label.toList <:+: dp.name.str.toList)

/-- The lookup of each label of the manifest gives the packet at its position. -/
def ChunkResult.FindsChunks (r : ChunkResult) : Prop :=
  ∀ (k : ℕ) ref label, r.manifest.chunks[k]? = some ref → ref.label = .str label →
    r.dataForLabel label = r.dataPackets[k]?

/-- The lookup of any other label gives nothing. -/
def ChunkResult.FindsNothingElse (r : ChunkResult) : Prop :=
  ∀ label, .str label ∉ r.manifest.chunks.map ChunkRef.label → r.dataForLabel label = none

def padded (index : ℕ) : List Char := (Nat.toDigits 10 index).leftpad CHUNK_LABEL_PAD '0'

theorem isDigit_padded {index : ℕ} {c : Char} (hc : c ∈ padded index) : c.isDigit = true := by
  rcases List.mem_append.mp hc with hc | hc
  · rw [List.eq_of_mem_replicate hc]
    rfl
  · exact Nat.isDigit_of_mem_toDigits (by decide) (by decide) hc

theorem padded_injective : Function.Injective padded := by
  intro i j h
  rw [← ofDigitChars_leftpad i, ← ofDigitChars_leftpad j]
  exact congrArg (fun cs => Nat.ofDigitChars 10 cs 0) h

theorem length_padded_mono {i j : ℕ} (h : i ≤ j) : (padded i).length ≤ (padded j).length := by
  have hdigits : (Nat.toDigits 10 i).length ≤ (Nat.toDigits 10 j).length := by
    refine (Nat.length_toDigits_le_iff (by decide) Nat.length_toDigits_pos).mpr (h.trans_lt ?_)
    exact (Nat.length_toDigits_le_iff (by decide) Nat.length_toDigits_pos).mp le_rfl
  unfold padded
  rw [List.length_leftpad, List.length_leftpad]
  omega

theorem eq_of_padded_begins {i k : ℕ} (hi : i ≤ k) (h : padded k <+: padded i) : i = k :=
  padded_injective (h.eq_of_length_le (length_padded_mono hi)).symm

theorem label_infix_iff {i k : ℕ} :
    (label k).toList <:+: (label i).toList ↔ padded k <+: padded i := by
  have hword (index : ℕ) : (label index).toList =
      'c' :: ("hunk_".toList ++ padded index) := toList_label index
  have hfirst : 'c' ∉ "hunk_".toList ++ padded i := by
    rw [List.mem_append, not_or]
    exact ⟨by decide, fun hc => absurd (isDigit_padded hc) (by decide)⟩
  rw [hword, hword, infix_cons_iff_prefix hfirst, List.prefix_append_right_inj]

variable {n : Name} {hash : Bytes}

def chunkNameAt (n : Name) (index : ℕ) (hash : Bytes) : Name :=
  ⟨n.rnsAddr, n.path ++ [encodeUtf8 (label index)], some hash⟩

theorem chunkNameAt_inj {i j : ℕ} {hash' : Bytes}
    (h : chunkNameAt n i hash = chunkNameAt n j hash') : i = j := by
  have hpath := congrArg Name.path h
  have hlabel := List.cons.inj (List.append_cancel_left hpath)
  have htext := congrArg Name.decodeUtf8 hlabel.1
  rw [decodeUtf8_encodeUtf8, decodeUtf8_encodeUtf8] at htext
  exact label_injective (Option.some.inj htext)

theorem toList_str_chunkNameAt (haddr : n.rnsAddr.length = RNS_ADDR_BYTES) (index : ℕ) :
    (chunkNameAt n index hash).str.toList = n.withoutContentHash.str.toList ++
      '/' :: ((label index).toList ++ '?' :: (HASH_MARK.tail ++ (Name.hex hash).toList)) := by
  have hlabel : Name.componentStr false (encodeUtf8 (label index)) = label index := by
    rw [Name.componentStr, Bool.false_and, if_neg Bool.false_ne_true, decodeUtf8_encodeUtf8]
    rfl
  have hparts : (chunkNameAt n index hash).parts =
      n.withoutContentHash.parts ++ [(label index).toList] := by
    rw [Name.parts, chunkNameAt, List.map_append, List.map_singleton, hlabel]
    rfl
  rw [Name.toList_str (n := chunkNameAt n index hash) haddr, hparts,
    intercalate_concat (Name.parts_ne_nil _), Name.toList_str (n := n.withoutContentHash) haddr]
  simp [chunkNameAt, Name.withoutContentHash, HASH_MARK]

/-- A label is in the displayed name of a chunk if it is in the name of the content or starts the
label of the chunk. -/
theorem label_infix_str_iff (haddr : n.rnsAddr.length = RNS_ADDR_BYTES) {i k : ℕ} :
    (label k).toList <:+: (chunkNameAt n i hash).str.toList ↔
      (label k).toList <:+: n.withoutContentHash.str.toList ∨ padded k <+: padded i := by
  have hchars : (label k).toList = "chunk_".toList ++ padded k := toList_label k
  have hslash : '/' ∉ (label k).toList := by
    rw [hchars, List.mem_append, not_or]
    exact ⟨by decide, fun hc => absurd (isDigit_padded hc) (by decide)⟩
  have hmark : '?' ∉ (label k).toList := by
    rw [hchars, List.mem_append, not_or]
    exact ⟨by decide, fun hc => absurd (isDigit_padded hc) (by decide)⟩
  have hpin : ¬ (label k).toList <:+: HASH_MARK.tail ++ (Name.hex hash).toList := by
    intro h
    have hscore : '_' ∈ (label k).toList := by
      rw [hchars, List.mem_append]
      exact .inl (by decide)
    rcases List.mem_append.mp (h.subset hscore) with hc | hc
    · exact absurd hc (by decide)
    · exact Name.not_mem_hex (by decide) hash hc
  rw [toList_str_chunkNameAt haddr, infix_append_cons_iff hslash, infix_append_cons_iff hmark,
    label_infix_iff, or_iff_left hpin]

/-- The chunks are labelled by their positions and the packets named by their labels. -/
structure ChunkResult.Named (r : ChunkResult) (n : Name) : Prop where
  addr : n.rnsAddr.length = RNS_ADDR_BYTES
  nonempty : r.dataPackets ≠ []
  length : r.manifest.chunks.length = r.dataPackets.length
  labelled : ∀ (k : ℕ) ref, r.manifest.chunks[k]? = some ref → ref.label = .str (label k)
  named : ∀ (k : ℕ) d, r.dataPackets[k]? = some d → ∃ hash, d.name = chunkNameAt n k hash

theorem chunkPacket_named [Hashlib] {signer : Option (Bytes → Bytes)} {now index : ℕ}
    {chunkBytes : Bytes} {ref : ChunkRef} {d : Data}
    (h : chunkPacket n signer now chunkBytes index = .ok (ref, d)) :
    n.rnsAddr.length = RNS_ADDR_BYTES ∧ ref.label = .str (label index) ∧
      d.name = chunkNameAt n index (blake2b chunkBytes) := by
  have hname := name_of_chunkPacket h
  obtain ⟨haddr, hnew⟩ := ite_error_eq_ok.mp hname
  obtain ⟨-, he⟩ := ite_error_eq_ok.mp hnew
  refine ⟨not_not.mp haddr, ?_, (Except.ok.inj he).symm⟩
  unfold chunkPacket at h
  obtain ⟨name, -, h⟩ := bind_eq_ok.mp h
  cases signer with
  | none =>
    obtain ⟨rfl, -⟩ := Prod.mk.inj (pure_eq_ok.mp h)
    rfl
  | some signer =>
    obtain ⟨d', -, h⟩ := bind_eq_ok.mp h
    obtain ⟨rfl, -⟩ := Prod.mk.inj (pure_eq_ok.mp h)
    rfl

theorem named_of_chunkContent [Hashlib] {content : Bytes} {chunkSize : ℕ+} {sequence created : ℤ}
    {signer : Option (Bytes → Bytes)} {now : ℕ → ℕ} {r : ChunkResult}
    (h : chunkContent content n chunkSize sequence signer now created = .ok r) : r.Named n := by
  rw [chunkContent, ite_error_eq_ok] at h
  obtain ⟨hcontent, h⟩ := h
  obtain ⟨chunks, hchunks, h⟩ := bind_eq_ok.mp h
  obtain ⟨manifest, hmanifest, he⟩ := bind_eq_ok.mp h
  obtain rfl := pure_eq_ok.mp he
  obtain ⟨sizes, -, hcreate⟩ := bind_eq_ok.mp hmanifest
  obtain rfl := pure_eq_ok.mp hcreate
  have hpass (k : ℕ) (c : ChunkRef × Data) (hc : chunks[k]? = some c) :
      n.rnsAddr.length = RNS_ADDR_BYTES ∧ c.1.label = .str (label k) ∧
        ∃ hash, c.2.name = chunkNameAt n k hash := by
    obtain ⟨⟨p, index⟩, hp, hpacket⟩ := getElem?_of_mapM_eq_ok hchunks hc
    obtain ⟨-, rfl⟩ : _ ∧ k = index := by
      rw [List.getElem?_zipIdx, Option.map_eq_some_iff] at hp
      obtain ⟨p', -, he⟩ := hp
      obtain ⟨rfl, rfl⟩ := Prod.mk.inj he
      exact ⟨trivial, (Nat.zero_add k).symm⟩
    obtain ⟨haddr, hlabel, hname⟩ := chunkPacket_named hpacket
    exact ⟨haddr, hlabel, _, hname⟩
  have hne : chunks ≠ [] := by
    rintro rfl
    have hlength := length_of_mapM_eq_ok hchunks
    rw [List.length_zipIdx, pieces_of_ne_nil chunkSize hcontent] at hlength
    cases hlength
  obtain ⟨c, cs, hcons⟩ := List.exists_cons_of_ne_nil hne
  have hfirst : chunks[0]? = some c := by rw [hcons]; rfl
  constructor
  · exact (hpass 0 c hfirst).1
  · exact fun hnil => hne (List.map_eq_nil_iff.mp hnil)
  · exact (List.length_map _).trans (List.length_map _).symm
  · intro k ref href
    obtain ⟨c, hc, rfl⟩ := Option.map_eq_some_iff.mp (List.getElem?_map .. ▸ href)
    exact (hpass k c hc).2.1
  · intro k d hd
    obtain ⟨c, hc, rfl⟩ := Option.map_eq_some_iff.mp (List.getElem?_map .. ▸ hd)
    exact (hpass k c hc).2.2

namespace ChunkResult

variable {r : ChunkResult}

theorem Named.infix_iff (h : r.Named n) {i k : ℕ} {d : Data} (hd : r.dataPackets[i]? = some d) :
    (label k).toList <:+: d.name.str.toList ↔
      (label k).toList <:+: n.withoutContentHash.str.toList ∨ padded k <+: padded i := by
  obtain ⟨hash, hname⟩ := h.named i d hd
  rw [hname]
  exact label_infix_str_iff h.addr

theorem Named.dataForLabel_of_infix (h : r.Named n) {k : ℕ}
    (hk : (label k).toList <:+: n.withoutContentHash.str.toList) :
    r.dataForLabel (label k) = r.dataPackets[0]? := by
  obtain ⟨d, ds, hcons⟩ := List.exists_cons_of_ne_nil h.nonempty
  have hfirst : r.dataPackets[0]? = some d := by rw [hcons]; rfl
  have hfound := (h.infix_iff hfirst).mpr (.inl hk)
  rw [dataForLabel, hcons]
  exact List.find?_cons_of_pos (decide_eq_true hfound)

/-- A label that is not in the name of the content is found in its own packet. -/
theorem Named.dataForLabel_of_not_infix (h : r.Named n) {k : ℕ} (hk : k < r.dataPackets.length)
    (hno : ¬ (label k).toList <:+: n.withoutContentHash.str.toList) :
    r.dataForLabel (label k) = r.dataPackets[k]? := by
  have hget := List.getElem?_eq_getElem hk
  rw [hget]
  refine List.find?_eq_some_iff_getElem.mpr ⟨?_, k, hk, rfl, fun j hj => ?_⟩
  · exact decide_eq_true ((h.infix_iff hget).mpr (.inr (List.prefix_refl _)))
  · have hj' := List.getElem?_eq_getElem (hj.trans hk)
    rw [Bool.not_eq_eq_eq_not, Bool.not_true, decide_eq_false_iff_not, h.infix_iff hj']
    rintro (hinside | hdigits)
    · exact hno hinside
    · exact hj.ne (eq_of_padded_begins hj.le hdigits)

theorem Named.dataForLabel_zero (h : r.Named n) :
    r.dataForLabel (label 0) = r.dataPackets[0]? := by
  by_cases hzero : (label 0).toList <:+: n.withoutContentHash.str.toList
  · exact h.dataForLabel_of_infix hzero
  · exact h.dataForLabel_of_not_infix (List.length_pos_of_ne_nil h.nonempty) hzero

theorem Named.findsChunks_iff (h : r.Named n) : r.FindsChunks ↔
    ∀ k, 0 < k → k < r.dataPackets.length →
      ¬ (label k).toList <:+: n.withoutContentHash.str.toList := by
  constructor
  · intro hfinds k hpos hk hinside
    have hk' : k < r.manifest.chunks.length := hk.trans_eq h.length.symm
    have href := List.getElem?_eq_getElem hk'
    have hfound := hfinds k _ _ href (h.labelled k _ href)
    rw [h.dataForLabel_of_infix hinside, List.getElem?_eq_getElem hk,
      List.getElem?_eq_getElem (hpos.trans hk)] at hfound
    -- The first packet is not the one at `k`, whose name is another.
    obtain ⟨hash, hname⟩ := h.named 0 _ (List.getElem?_eq_getElem (hpos.trans hk))
    obtain ⟨hash', hname'⟩ := h.named k _ (List.getElem?_eq_getElem hk)
    rw [Option.some.inj hfound] at hname
    exact hpos.ne (chunkNameAt_inj (hname.symm.trans hname'))
  · intro hno k ref text href htext
    have hk : k < r.dataPackets.length :=
      (List.getElem?_eq_some_iff.mp href).1.trans_eq h.length
    obtain rfl := Json.str.inj (htext.symm.trans (h.labelled k ref href))
    cases k with
    | zero => exact h.dataForLabel_zero
    | succ k => exact h.dataForLabel_of_not_infix hk (hno (k + 1) k.succ_pos hk)

theorem Named.not_findsNothingElse (h : r.Named n) : ¬ r.FindsNothingElse := by
  intro hnothing
  have hno : .str "chunk_" ∉ r.manifest.chunks.map ChunkRef.label := by
    intro hmem
    obtain ⟨ref, href, he⟩ := List.mem_map.mp hmem
    obtain ⟨k, hk, rfl⟩ := List.getElem_of_mem href
    have hchars : (label k).toList = "chunk_".toList ++ padded k := toList_label k
    rw [h.labelled k _ (List.getElem?_eq_getElem hk)] at he
    have hlength := congrArg (fun s => s.toList.length) (Json.str.inj he)
    have hpadded : 0 < (padded k).length := by
      unfold padded
      rw [List.length_leftpad]
      exact (Nat.zero_lt_succ 3).trans_le (le_max_left _ _)
    simp only [hchars, List.length_append] at hlength
    omega
  obtain ⟨d, ds, hcons⟩ := List.exists_cons_of_ne_nil h.nonempty
  obtain ⟨hash, hname⟩ := h.named 0 d (by rw [hcons]; rfl)
  have hfound : "chunk_".toList <:+: d.name.str.toList := by
    have hlabel : (label 0).toList <:+: (chunkNameAt _ 0 hash).str.toList :=
      (label_infix_str_iff h.addr).mpr (.inr (List.prefix_refl (padded 0)))
    rw [hname]
    exact List.IsInfix.trans (toList_label 0 ▸ (List.prefix_append ..).isInfix) hlabel
  have hnone := List.find?_eq_none.mp (hnothing "chunk_" hno) d (hcons ▸ List.mem_cons_self)
  exact hnone (decide_eq_true hfound)

end ChunkResult

/-- The lookup finds something for a label that is not in the manifest, whatever is cut. It finds
every chunk if and only if the name of the content has the label of no chunk but the first in it. -/
theorem lookup_finds [Hashlib] {content : Bytes} {chunkSize : ℕ+} {sequence created : ℤ}
    {signer : Option (Bytes → Bytes)} {now : ℕ → ℕ} {r : ChunkResult}
    (h : chunkContent content n chunkSize sequence signer now created = .ok r) :
    ¬ (r.FindsChunks ∧ r.FindsNothingElse) ∧
      (r.FindsChunks ↔ ∀ k, 0 < k → k < r.dataPackets.length →
        ¬ (label k).toList <:+: n.withoutContentHash.str.toList) := by
  have hnamed := named_of_chunkContent h
  exact ⟨fun hfinds => hnamed.not_findsNothingElse hfinds.2, hnamed.findsChunks_iff⟩

theorem pieces_three : pieces 2 [1, 2, 3] = [[1, 2], [3]] := by
  have hlast : pieces 2 [3] = [[3]] := by
    rw [pieces_of_ne_nil 2 (List.cons_ne_nil _ _)]
    exact congrArg _ (pieces_nil 2)
  rw [pieces_of_ne_nil 2 (List.cons_ne_nil _ _)]
  exact congrArg _ hlast

def nestedName : Name := ⟨List.replicate 16 0x01, [encodeUtf8 "chunk_0001"], none⟩

theorem nestedName_cuttable : Cuttable nestedName none (fun _ => 0) [1, 2, 3] where
  addr := rfl
  count := by decide
  component := by decide +kernel
  signs := nofun
  clock _ := by decide
  nonempty := List.cons_ne_nil _ _
  length := by decide

theorem length_dataPackets_three [Hashlib] (n : Name) : (chunked [1, 2, 3] n 2 1 none
    (fun _ => 0) 0).dataPackets.length = 2 := by
  rw [chunked, pieces_three]
  rfl

/-- The second chunk of a content whose name has its label is not found, and the beginning of a
label, which is no label, is. -/
theorem second_chunk_not_found : letI := Data.paddedHash
    ∃ r, chunkContent [1, 2, 3] nestedName 2 1 none (fun _ => 0) 0 = .ok r ∧
      r.dataPackets.length = 2 ∧ r.dataForLabel "chunk_0001" = r.dataPackets[0]? ∧
      ¬ r.FindsChunks ∧ ¬ r.FindsNothingElse := by
  let := Data.paddedHash
  have hr : chunkContent [1, 2, 3] nestedName 2 1 none (fun _ => 0) 0 = .ok _ :=
    chunkContent_eq 1 0 Data.length_paddedHash nestedName_cuttable
  have hnamed := named_of_chunkContent hr
  have hlabel : label 1 = "chunk_0001" := by decide +kernel
  have hinside : (label 1).toList <:+: nestedName.withoutContentHash.str.toList := by
    decide +kernel
  have hlength := length_dataPackets_three nestedName
  have hfirst := hnamed.dataForLabel_of_infix hinside
  rw [hlabel] at hfirst
  refine ⟨_, hr, hlength, hfirst, fun hfinds => ?_, hnamed.not_findsNothingElse⟩
  have hsecond : 1 < 2 := Nat.one_lt_two
  exact hnamed.findsChunks_iff.mp hfinds 1 Nat.one_pos (hsecond.trans_eq hlength.symm) hinside

theorem short_chunks_found : letI := Data.paddedHash
    ∃ r, chunkContent [1, 2, 3] shortName 2 1 none (fun _ => 0) 0 = .ok r ∧ r.FindsChunks ∧
      ¬ r.FindsNothingElse := by
  let := Data.paddedHash
  have hcuttable : Cuttable shortName none (fun _ => 0) [1, 2, 3] :=
    { shortName_cuttable with signs := nofun, clock := fun _ => by decide }
  have hr : chunkContent [1, 2, 3] shortName 2 1 none (fun _ => 0) 0 = .ok _ :=
    chunkContent_eq 1 0 Data.length_paddedHash hcuttable
  obtain ⟨hnever, hfinds⟩ := lookup_finds hr
  have hfound := hfinds.mpr fun k hpos hk hinside => by
    rw [length_dataPackets_three] at hk
    obtain rfl : k = 1 := by omega
    exact absurd hinside (by decide +kernel)
  exact ⟨_, hr, hfound, fun hnothing => hnever ⟨hfound, hnothing⟩⟩

end Chunker

end RnsIcn
