import RnsIcn.Content.RoundTrip
import RnsIcn.Lib.Separator

/-! # Displayed names read back

`from_string` takes the labels as they are, empty ones too, and looks for the mark of a pin
behind a label. Behind the address it does not look for one.
-/

namespace RnsIcn

open Fallible Separator

theorem fromHex_hex_append {c : Char} (hvalue : hexValue c = none) (hspace : isHexSpace c = false)
    (b : Bytes) (cs : List Char) : fromHex ((Name.hex b).toList ++ c :: cs) = none := by
  rw [toList_hex]
  induction b with
  | nil =>
    cases cs with
    | nil => rw [List.flatMap_nil, List.nil_append, fromHex, hspace]; rfl
    | cons d cs =>
      rw [List.flatMap_nil, List.nil_append, fromHex, if_neg (by rw [hspace]; exact
        Bool.false_ne_true), hvalue]
      rfl
  | cons x b ih =>
    have hx := x.toNat_lt
    have hhigh : x.toNat / 16 < 16 := by omega
    have hlow : x.toNat % 16 < 16 := Nat.mod_lt _ (by decide)
    rw [List.flatMap_cons, hexPair, hexDigit_mod x.toNat, List.append_assoc, List.cons_append,
      List.cons_append, List.nil_append, fromHex, isHexSpace_hexDigit _ hhigh,
      if_neg Bool.false_ne_true, hexValue_hexDigit _ hhigh, hexValue_hexDigit _ hlow, ih]
    rfl

namespace Name

variable {n : Name} {label : Bytes}

/-- A label that is UTF-8 with neither a slash nor a mark. It may be empty. -/
def Spelled (label : Bytes) : Prop :=
  ∃ text, decodeUtf8 label = some text ∧ '/' ∉ text.toList ∧ ¬ HASH_MARK <:+: text.toList

def labelText (label : Bytes) : List Char := (componentStr false label).toList

theorem Spelled.text (h : Spelled label) : encodeUtf8 (String.ofList (labelText label)) = label ∧
    '/' ∉ labelText label ∧ ¬ HASH_MARK <:+: labelText label := by
  obtain ⟨text, hdecoded, hslash, hmark⟩ := h
  have hlabel : componentStr false label = text := by
    rw [componentStr, Bool.false_and, if_neg Bool.false_ne_true, hdecoded]
    rfl
  rw [labelText, hlabel, String.ofList_toList]
  exact ⟨encodeUtf8_of_decodeUtf8 hdecoded, hslash, hmark⟩

theorem readLabels_append {labels : List Bytes} (h : ∀ label ∈ labels, Spelled label)
    (addr : Bytes) (path : List Bytes) (rest : List (List Char)) :
    readLabels addr path (labels.map labelText ++ rest) =
      readLabels addr (path ++ labels) rest := by
  induction labels generalizing path with
  | nil => rw [List.map_nil, List.nil_append, List.append_nil]
  | cons label labels ih =>
    rw [List.forall_mem_cons] at h
    obtain ⟨hread, -, hmark⟩ := h.1.text
    rw [List.map_cons, List.cons_append, readLabels, splitHash_self hmark]
    dsimp only
    rw [hread, ih h.2, List.append_assoc, List.singleton_append]

theorem readLabels_pinned (h : Spelled label) (addr pin : Bytes) (path : List Bytes) :
    readLabels addr path [labelText label ++ (HASH_MARK ++ (hex pin).toList)] =
      new addr (path ++ [label]) (some pin) := by
  obtain ⟨hread, -, hmark⟩ := h.text
  have hsplit : splitHash (labelText label ++ (HASH_MARK ++ (hex pin).toList)) =
      some (labelText label, (hex pin).toList) := by
    have hparts := splitHash_parts (List.cons_ne_nil (labelText label) [])
      (List.forall_mem_singleton.mpr hmark) (hex pin).toList
    rwa [List.intercalate_singleton] at hparts
  rw [readLabels, hsplit]
  dsimp only
  rw [hread, readHex, fromHex_hex]
  rfl

theorem fromString_intercalate {s : String} {addr : Bytes} {labels : List (List Char)}
    (hs : s.toList = '/' :: ['/'].intercalate ((hex addr).toList :: labels))
    (hslash : ∀ p ∈ labels, '/' ∉ p) : fromString s = readLabels addr [] labels := by
  have hsplit : (['/'].intercalate ((hex addr).toList :: labels)).splitOn '/' =
      (hex addr).toList :: labels :=
    List.splitOn_intercalate _ (List.forall_mem_cons.mpr ⟨not_mem_hex (by decide) addr, hslash⟩)
      (List.cons_ne_nil _ _)
  unfold fromString
  simp only [hs, hsplit, fromHex_hex]

theorem new_eq (haddr : n.rnsAddr.length = RNS_ADDR_BYTES)
    (hpin : ∀ h ∈ n.contentHash, h.length = CONTENT_HASH_BYTES) :
    new n.rnsAddr n.path n.contentHash = .ok n := by
  unfold new
  rw [if_neg (not_not.mpr haddr)]
  cases hc : n.contentHash with
  | none => exact congrArg Except.ok (by rw [← hc])
  | some pin =>
    dsimp only
    rw [if_neg (not_not.mpr (hpin pin hc)), ← hc]

section Displayed

variable (haddr : n.rnsAddr.length = RNS_ADDR_BYTES)
include haddr

theorem fromString_str_of_nil {pin : Bytes} (hc : n.contentHash = some pin) (hpath : n.path = []) :
    fromString n.str ≠ .ok n := by
  have hstr : n.str.toList =
      '/' :: ((hex n.rnsAddr).toList ++ (HASH_MARK ++ (hex pin).toList)) := by
    rw [toList_str haddr, hc, parts, hpath, List.map_nil, List.intercalate_singleton]
    rfl
  have hslash : '/' ∉ (hex n.rnsAddr).toList ++ (HASH_MARK ++ (hex pin).toList) := by
    rw [List.mem_append, List.mem_append, not_or, not_or]
    exact ⟨not_mem_hex (by decide) _, by decide, not_mem_hex (by decide) _⟩
  have hsplit : ((hex n.rnsAddr).toList ++ (HASH_MARK ++ (hex pin).toList)).splitOn '/' =
      [(hex n.rnsAddr).toList ++ (HASH_MARK ++ (hex pin).toList)] := by
    have hone := List.splitOn_intercalate '/' (List.forall_mem_singleton.mpr hslash)
      (List.cons_ne_nil _ [])
    rwa [List.intercalate_singleton] at hone
  have hread : fromHex ((hex n.rnsAddr).toList ++ (HASH_MARK ++ (hex pin).toList)) = none :=
    fromHex_hex_append (by decide) (by decide) _ _
  unfold fromString
  simp only [hstr, hsplit, hread]
  rintro ⟨⟩

theorem fromString_str_of_concat {pin last : Bytes} {init : List Bytes}
    (hlabels : ∀ label ∈ n.path, Spelled label) (hc : n.contentHash = some pin)
    (hpath : n.path = init ++ [last]) :
    fromString n.str = new n.rnsAddr n.path n.contentHash := by
  rw [hpath, List.forall_mem_append, List.forall_mem_singleton] at hlabels
  obtain ⟨hinit, hlast⟩ := hlabels
  have hstr : n.str.toList = '/' :: ['/'].intercalate ((hex n.rnsAddr).toList ::
      (init.map labelText ++ [labelText last ++ (HASH_MARK ++ (hex pin).toList)])) := by
    have hparts : n.parts = ((hex n.rnsAddr).toList :: init.map labelText) ++ [labelText last] := by
      rw [parts, hpath, List.map_append]
      rfl
    have hjoin (p : List Char) : ['/'].intercalate ((hex n.rnsAddr).toList ::
        (init.map labelText ++ [p])) =
          ['/'].intercalate ((hex n.rnsAddr).toList :: init.map labelText) ++ '/' :: p :=
      intercalate_concat (List.cons_ne_nil _ _) p
    rw [toList_str haddr, hc, hparts, List.cons_append, hjoin, hjoin, Option.elim_some,
      List.append_assoc, List.cons_append]
  have hslash : ∀ p ∈ init.map labelText ++ [labelText last ++ (HASH_MARK ++ (hex pin).toList)],
      '/' ∉ p := by
    rw [List.forall_mem_append, List.forall_mem_map, List.forall_mem_singleton, List.mem_append,
      List.mem_append, not_or, not_or]
    exact ⟨fun label hl => (hinit label hl).text.2.1, hlast.text.2.1, by decide,
      not_mem_hex (by decide) pin⟩
  rw [fromString_intercalate hstr hslash, readLabels_append hinit, readLabels_pinned hlast, hpath,
    hc, List.nil_append]

theorem fromString_str_of_none (hlabels : ∀ label ∈ n.path, Spelled label)
    (hc : n.contentHash = none) : fromString n.str = new n.rnsAddr n.path n.contentHash := by
  have hstr : n.str.toList =
      '/' :: ['/'].intercalate ((hex n.rnsAddr).toList :: n.path.map labelText) := by
    rw [toList_str haddr, hc, Option.elim_none, List.append_nil]
    rfl
  have hslash : ∀ p ∈ n.path.map labelText, '/' ∉ p := by
    rw [List.forall_mem_map]
    exact fun label hl => (hlabels label hl).text.2.1
  rw [fromString_intercalate hstr hslash, ← List.append_nil (n.path.map labelText),
    readLabels_append hlabels, List.nil_append, readLabels, hc]

/-- A displayed name is read back if and only if it is not an address with a pin. -/
theorem fromString_str_iff (hpin : ∀ h ∈ n.contentHash, h.length = CONTENT_HASH_BYTES)
    (hlabels : ∀ label ∈ n.path, Spelled label) :
    fromString n.str = .ok n ↔ n.path ≠ [] ∨ n.contentHash = none := by
  have hnew := new_eq haddr hpin
  cases hc : n.contentHash with
  | none => exact iff_of_true ((fromString_str_of_none haddr hlabels hc).trans hnew) (.inr rfl)
  | some pin =>
    rcases List.eq_nil_or_concat' n.path with hpath | ⟨init, last, hpath⟩
    · refine iff_of_false (fromString_str_of_nil haddr hc hpath) ?_
      rintro (hne | hnone)
      · exact hne hpath
      · cases hnone
    · refine iff_of_true ((fromString_str_of_concat haddr hlabels hc hpath).trans hnew) (.inl ?_)
      rw [hpath]
      exact List.concat_ne_nil _ _

end Displayed

def pinnedRoot : Name := ⟨List.replicate 16 0x01, [], some (List.replicate 32 0x02)⟩

def pinnedEmpty : Name := ⟨List.replicate 16 0x01, [[0x61], []], some (List.replicate 32 0x02)⟩

/-- The address and the mark are taken for hex. -/
theorem pinnedRoot_not_read : fromString pinnedRoot.str = .error (.nameError
    ("Invalid RNS address hex: " ++ String.ofList (pinnedRoot.str.toList.drop 1))) := by
  decide +kernel

theorem pinnedEmpty_read : fromString pinnedEmpty.str = .ok pinnedEmpty := by
  have hpin : ∀ h ∈ pinnedEmpty.contentHash, h.length = CONTENT_HASH_BYTES := by
    rintro _ ⟨⟩
    rfl
  have hlabels : ∀ label ∈ pinnedEmpty.path, Spelled label := by
    rw [pinnedEmpty, List.forall_mem_cons, List.forall_mem_singleton]
    exact ⟨⟨"a", by decide +kernel, by decide, by decide⟩,
      ⟨"", by decide +kernel, by decide, by decide⟩⟩
  exact (fromString_str_iff rfl hpin hlabels).mpr (.inl (List.cons_ne_nil _ _))

end Name

end RnsIcn
