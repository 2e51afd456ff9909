import RnsIcn.Content.Manifest

/-! # Manifests read back

The reader of names takes a label for hex whenever it can be read as hex. Everything
else of a manifest comes back, but for a hash of no bytes, which is dropped.
-/

namespace RnsIcn

open Fallible

theorem encodeUtf8_of_decodeUtf8 {b : Bytes} {s : String} (h : Name.decodeUtf8 b = some s) :
    encodeUtf8 s = b := by
  rw [Name.decodeUtf8, String.fromUTF8?] at h
  split at h
  · obtain rfl := Option.some.inj h
    rfl
  · cases h

theorem length_le_encodeUtf8 (s : String) : s.toList.length ≤ (encodeUtf8 s).length := by
  have hsize (l : List Char) : l.length ≤ l.utf8Encode.size := by
    induction l with
    | nil => exact Nat.zero_le _
    | cons c l ih =>
      have hc := c.utf8Size_pos
      rw [List.utf8Encode_cons, ByteArray.size_append, List.utf8Encode_singleton,
        List.size_toByteArray, String.length_utf8EncodeChar, List.length_cons]
      omega
  exact (hsize s.toList).trans_eq (by rw [String.utf8Encode_toList]; rfl)

theorem not_mark_append {s x : List Char} {c : Char} (hs : s ≠ []) (hc : c ∉ HASH_MARK.tail)
    (hno : ¬ HASH_MARK <+: s) : ¬ HASH_MARK <+: s ++ c :: x := by
  intro h
  rcases Nat.lt_or_ge s.length HASH_MARK.length with hlt | hge
  · -- The mark reaches past `s`, so `c` is one of its characters.
    have hcut : s ++ [c] <+: HASH_MARK := by
      have hcut : s ++ [c] <+: s ++ c :: x := ⟨x, by simp⟩
      refine List.prefix_of_prefix_length_le hcut h ?_
      rw [List.length_append, List.length_singleton]
      omega
    obtain ⟨t, ht⟩ := hcut
    obtain ⟨a, s', rfl⟩ := List.exists_cons_of_ne_nil hs
    rw [← ht] at hc
    exact hc (by simp)
  · exact hno (List.prefix_of_prefix_length_le h (List.prefix_append ..) hge)

theorem splitHash_append {s x : List Char} {c : Char} (hc : c ∉ HASH_MARK.tail)
    (hno : ¬ HASH_MARK <:+: s) : splitHash (s ++ c :: x) =
      (splitHash (c :: x)).map fun (before, after) => (s ++ before, after) := by
  induction s with
  | nil => simp
  | cons a s ih =>
    rw [List.infix_cons_iff, not_or] at hno
    have hmark : ¬ HASH_MARK <+: a :: (s ++ c :: x) :=
      not_mark_append (List.cons_ne_nil a s) hc hno.1
    rw [List.cons_append, splitHash, if_neg hmark, ih hno.2, Option.map_map]
    rfl

theorem splitHash_self {s : List Char} (hno : ¬ HASH_MARK <:+: s) : splitHash s = none := by
  induction s with
  | nil => rfl
  | cons a s ih =>
    rw [List.infix_cons_iff, not_or] at hno
    rw [splitHash, if_neg hno.1, ih hno.2]
    rfl

theorem splitHash_slash (x : List Char) : splitHash ('/' :: x) =
    (splitHash x).map fun (before, after) => ('/' :: before, after) := by
  rw [splitHash, if_neg (by simp [HASH_MARK])]

theorem splitHash_mark (x : List Char) : splitHash (HASH_MARK ++ x) = some ([], x) := by
  rw [HASH_MARK, List.cons_append, splitHash, if_pos ⟨x, rfl⟩]
  rfl

section Parts

variable {parts : List (List Char)}

theorem splitHash_parts (hne : parts ≠ []) (hno : ∀ p ∈ parts, ¬ HASH_MARK <:+: p)
    (x : List Char) : splitHash (['/'].intercalate parts ++ (HASH_MARK ++ x)) =
      some (['/'].intercalate parts, x) := by
  induction parts with
  | nil => exact absurd rfl hne
  | cons p parts ih =>
    rw [List.forall_mem_cons] at hno
    cases parts with
    | nil =>
      have hmark : '?' ∉ HASH_MARK.tail := by decide
      rw [List.intercalate_singleton]
      refine (splitHash_append (x := HASH_MARK.tail ++ x) hmark hno.1).trans ?_
      rw [show '?' :: (HASH_MARK.tail ++ x) = HASH_MARK ++ x from rfl, splitHash_mark]
      simp
    | cons q parts =>
      have hslash : '/' ∉ HASH_MARK.tail := by decide
      rw [List.intercalate_cons_cons, List.append_assoc, List.append_assoc, List.singleton_append,
        splitHash_append hslash hno.1, splitHash_slash, ih (by simp) hno.2]
      simp

theorem splitHash_unpinned (hno : ∀ p ∈ parts, ¬ HASH_MARK <:+: p) :
    splitHash (['/'].intercalate parts) = none := by
  induction parts with
  | nil => rfl
  | cons p parts ih =>
    rw [List.forall_mem_cons] at hno
    cases parts with
    | nil =>
      rw [List.intercalate_singleton]
      exact splitHash_self hno.1
    | cons q parts =>
      have hslash : '/' ∉ HASH_MARK.tail := by decide
      rw [List.intercalate_cons_cons, List.append_assoc, List.singleton_append,
        splitHash_append hslash hno.1, splitHash_slash, ih hno.2]
      rfl

end Parts

namespace Name

variable {n : Name}

/-- A label that is shown as its text: not empty, UTF-8, with neither a slash nor a mark. -/
structure Displayable (label : Bytes) (text : String) : Prop where
  decoded : decodeUtf8 label = some text
  nonempty : text.toList ≠ []
  slash : '/' ∉ text.toList
  mark : ¬ HASH_MARK <:+: text.toList

/-- A name with an address, a whole pin and displayable labels. -/
structure Shown (n : Name) : Prop where
  addr : n.rnsAddr.length = RNS_ADDR_BYTES
  pin : ∀ h ∈ n.contentHash, h.length = CONTENT_HASH_BYTES
  label : ∀ label ∈ n.path, ∃ text, Displayable label text

def readsAsHex (label : Bytes) : Bool :=
  (decodeUtf8 label).any fun text => (fromHex text.toList).isSome

def rereadLabel (label : Bytes) : Bytes :=
  ((decodeUtf8 label).bind fun text => fromHex text.toList).getD label

def reread (n : Name) : Name := { n with path := n.path.map rereadLabel }

theorem Displayable.componentStr_eq {label : Bytes} {text : String} (h : Displayable label text) :
    componentStr false label = text := by
  rw [Name.componentStr, Bool.false_and, if_neg Bool.false_ne_true, h.decoded]
  rfl

theorem Displayable.parseLabel_eq {label : Bytes} {text : String} (h : Displayable label text) :
    parseLabel text.toList = rereadLabel label := by
  rw [RnsIcn.parseLabel, String.ofList_toList, encodeUtf8_of_decodeUtf8 h.decoded, rereadLabel,
    h.decoded]
  rfl

theorem Displayable.rereadLabel_eq_iff {label : Bytes} {text : String}
    (h : Displayable label text) : rereadLabel label = label ↔ readsAsHex label = false := by
  rw [rereadLabel, readsAsHex, h.decoded, Option.bind_some, Option.any_some]
  cases hb : fromHex text.toList with
  | none => simp
  | some b =>
    have hshort := length_fromHex hb
    have hlong := length_le_encodeUtf8 text
    have hpos := List.length_pos_of_ne_nil h.nonempty
    rw [encodeUtf8_of_decodeUtf8 h.decoded] at hlong
    simp only [Option.getD_some, Option.isSome_some, Bool.true_eq_false, iff_false]
    rintro rfl
    omega

def parts (n : Name) : List (List Char) :=
  (hex n.rnsAddr).toList :: n.path.map fun label => (componentStr false label).toList

theorem parts_ne_nil (n : Name) : n.parts ≠ [] := List.cons_ne_nil _ _

theorem hexDigit_ne {d : ℕ} {c : Char} (h : ∀ e < 16, hexDigit e ≠ c) : hexDigit d ≠ c := by
  rw [hexDigit_mod]
  exact h _ (Nat.mod_lt _ (by decide))

theorem not_mem_hex {c : Char} (h : ∀ e < 16, hexDigit e ≠ c) (b : Bytes) :
    c ∉ (hex b).toList := by
  rw [toList_hex, List.mem_flatMap]
  rintro ⟨x, -, hx⟩
  rcases List.mem_pair.mp hx with hx | hx
  · exact hexDigit_ne h hx.symm
  · exact hexDigit_ne h hx.symm

theorem toList_str (haddr : n.rnsAddr.length = RNS_ADDR_BYTES) :
    n.str.toList = '/' :: (['/'].intercalate n.parts ++
      n.contentHash.elim [] fun h => HASH_MARK ++ (hex h).toList) := by
  have hfirst : componentStr true n.rnsAddr = hex n.rnsAddr := by
    rw [componentStr, if_pos (by simp [haddr])]
  rw [str, hfirst, parts]
  cases n.contentHash <;>
    simp [String.toList_append, String.toList_intercalate, HASH_MARK, Function.comp_def]

structure Part (p : List Char) : Prop where
  nonempty : p ≠ []
  slash : '/' ∉ p
  mark : ¬ HASH_MARK <:+: p

theorem Displayable.part {label : Bytes} {text : String} (h : Displayable label text) :
    Part (componentStr false label).toList :=
  h.componentStr_eq ▸ ⟨h.nonempty, h.slash, h.mark⟩

theorem part_hex {b : Bytes} (hb : b ≠ []) : Part (hex b).toList where
  nonempty := by
    rw [toList_hex, Ne, List.flatMap_eq_nil_iff]
    obtain ⟨x, b', rfl⟩ := List.exists_cons_of_ne_nil hb
    intro h
    cases h x List.mem_cons_self
  slash := not_mem_hex (by decide) b
  mark h := not_mem_hex (c := '?') (by decide) b (h.subset List.mem_cons_self)

theorem Shown.part (h : n.Shown) : ∀ p ∈ n.parts, Part p := by
  have haddr : n.rnsAddr ≠ [] := by
    intro he
    have hl := h.addr
    rw [he] at hl
    cases hl
  refine List.forall_mem_cons.mpr ⟨part_hex haddr, fun p hp => ?_⟩
  obtain ⟨label, hlabel, rfl⟩ := List.mem_map.mp hp
  obtain ⟨text, htext⟩ := h.label label hlabel
  exact htext.part

theorem Shown.lstrip (h : n.Shown) (x : List Char) :
    ('/' :: (['/'].intercalate n.parts ++ x)).dropWhile (· == '/') =
      ['/'].intercalate n.parts ++ x := by
  have hpart := h.part _ List.mem_cons_self
  obtain ⟨c, cs, hc⟩ := List.exists_cons_of_ne_nil hpart.nonempty
  have hne : (c == '/') = false := by
    rw [beq_eq_false_iff_ne]
    rintro rfl
    exact hpart.slash (hc ▸ List.mem_cons_self)
  obtain ⟨rest, hrest⟩ : ∃ rest, ['/'].intercalate n.parts = c :: rest := by
    rw [parts, hc]
    cases n.path with
    | nil => exact ⟨cs, by rw [List.map_nil, List.intercalate_singleton]⟩
    | cons label path => exact ⟨_, by rw [List.map_cons, List.intercalate_cons_cons]; rfl⟩
  rw [hrest, List.cons_append, List.dropWhile_cons_of_pos (by rfl),
    List.dropWhile_cons_of_neg (by simp [hne])]

theorem Shown.split (h : n.Shown) :
    ((['/'].intercalate n.parts).splitOn '/').filter (!·.isEmpty) = n.parts := by
  rw [List.splitOn_intercalate _ (fun p hp => (h.part p hp).slash) n.parts_ne_nil,
    List.filter_eq_self]
  intro p hp
  simpa using (h.part p hp).nonempty

theorem Shown.splitHash_eq (h : n.Shown) :
    splitHash (['/'].intercalate n.parts ++
      n.contentHash.elim [] fun h => HASH_MARK ++ (hex h).toList) =
        n.contentHash.map fun h => (['/'].intercalate n.parts, (hex h).toList) := by
  have hmark (p : List Char) (hp : p ∈ n.parts) := (h.part p hp).mark
  cases n.contentHash with
  | none => simpa using splitHash_unpinned hmark
  | some pin => exact splitHash_parts n.parts_ne_nil hmark _

theorem Shown.parseName_eq (h : n.Shown) : parseName n.str = .ok n.reread := by
  have hpath : (n.path.map fun label => (componentStr false label).toList).map parseLabel =
      n.path.map rereadLabel := by
    rw [List.map_map]
    refine List.map_congr_left fun label hl => ?_
    obtain ⟨text, htext⟩ := h.label label hl
    rw [Function.comp, htext.componentStr_eq, htext.parseLabel_eq]
  have haddr : readHex (hex n.rnsAddr).toList = .ok n.rnsAddr := by rw [readHex, fromHex_hex]
  have hnew : new n.rnsAddr (n.path.map rereadLabel) n.contentHash = .ok n.reread := by
    unfold new
    rw [if_neg (not_not.mpr h.addr), reread]
    cases hpin : n.contentHash with
    | none => rfl
    | some pin => exact if_neg (not_not.mpr (h.pin pin hpin))
  rw [RnsIcn.parseName, toList_str h.addr, h.lstrip]
  simp only [h.splitHash_eq]
  cases hpin : n.contentHash with
  | none =>
    rw [hpin] at hnew
    simp only [Option.map_none, Option.elim_none, List.append_nil, bind, Except.bind, pure,
      Except.pure, h.split]
    simp only [parts, haddr, h.addr, ne_eq, not_true_eq_false, if_false, hpath, hnew]
  | some pin =>
    have hread : readHex (hex pin).toList = .ok pin := by rw [readHex, fromHex_hex]
    rw [hpin] at hnew
    simp only [Option.map_some, bind, Except.bind, pure, Except.pure, hread, h.split]
    simp only [parts, haddr, h.addr, ne_eq, not_true_eq_false, if_false, hpath, hnew]

/-- No label can be read as hex. -/
def Plain (n : Name) : Prop := ∀ label ∈ n.path, readsAsHex label = false

theorem Shown.reread_eq_iff (h : n.Shown) : n.reread = n ↔ n.Plain := by
  have hname : n.reread = n ↔ n.path.map rereadLabel = n.path.map id := by
    rw [List.map_id]
    cases n
    simp [reread]
  rw [hname, List.map_inj_left]
  refine forall₂_congr fun label hl => ?_
  obtain ⟨text, htext⟩ := h.label label hl
  exact htext.rereadLabel_eq_iff

end Name

namespace Json

variable {d : Json} {key : String} {members : List (String × Json)}

@[simp] theorem lookup_member {α : Type} (key k : String) (write : α → Json) (x : Option α) :
    (member key write x).lookup k = if k = key then x.map write else none := by
  cases x with
  | none => simp [member]
  | some a => by_cases h : k = key <;> simp [member, List.lookup_cons, h, beq_eq_false_iff_ne.mpr]

theorem strItem_dict {s : String} (h : members.lookup key = some (.str s)) :
    (dict members).strItem key = .ok s := by
  simp [strItem, item, h, asStr, bind, Except.bind]

theorem intItem_dict {n : ℤ} (h : members.lookup key = some (.int n)) :
    (dict members).intItem key = .ok n := by
  simp [intItem, item, h, asInt, bind, Except.bind]

theorem listItem_dict {items : List Json} (h : members.lookup key = some (.list items)) :
    (dict members).listItem key = .ok items := by
  simp [listItem, item, h, iter, bind, Except.bind]

theorem hexItem_dict {b : Bytes} (h : members.lookup key = some (hex b)) :
    (dict members).hexItem key = .ok b := by
  simp [hexItem, strItem_dict h, readHex, fromHex_hex, bind, Except.bind]

theorem nameItem_dict {n : Name} (h : members.lookup key = some (name n)) :
    (dict members).nameItem key = parseName n.str := by
  simp [nameItem, strItem_dict h, bind, Except.bind]

theorem getInt_dict {x : Option ℤ} (h : members.lookup key = x.map .int) :
    (dict members).getInt key = .ok x := by
  cases x <;> simp [getInt, get, h, asInt, bind, Except.bind, pure, Except.pure]

theorem item_dict {v : Json} (h : members.lookup key = some v) :
    (dict members).item key = .ok v := by
  simp [item, h]

theorem getOr_dict {v default : Json} (h : (members.lookup key).getD default = v) :
    (dict members).getOr key default = .ok v := by
  simp [getOr, get, h, bind, Except.bind, pure, Except.pure]

theorem getD_notNull (v : Json) : v.notNull.getD .null = v := by
  cases v <;> rfl

theorem hex_isEmpty (b : Bytes) : (Name.hex b).isEmpty = b.isEmpty := by
  cases b with
  | nil => rfl
  | cons x b =>
    have hne : (Name.hex (x :: b)).toList ≠ [] := by
      rw [toList_hex, List.flatMap_cons]
      exact List.cons_ne_nil _ _
    rw [List.isEmpty_cons, ← Bool.not_eq_true, String.isEmpty_iff]
    intro he
    exact hne (by rw [he]; rfl)

theorem getTruthy_none {α : Type} {read : String → Except PyError α}
    (h : members.lookup key = none) : (dict members).getTruthy key read = .ok none := by
  simp [getTruthy, get, h, bind, Except.bind, pure, Except.pure]

theorem getTruthy_str {α : Type} {read : String → Except PyError α} {s : String} {a : α}
    (h : members.lookup key = some (.str s)) (hr : read s = .ok a) :
    (dict members).getTruthy key read = .ok (if s.isEmpty then none else some a) := by
  cases hs : s.isEmpty <;>
    simp [getTruthy, get, h, Option.filter, truthy, hs, asStr, hr, bind, Except.bind, pure,
      Except.pure]

theorem getHex_dict {x : Option Bytes} (h : members.lookup key = x.map hex) :
    (dict members).getHex key = .ok (x.filter (!·.isEmpty)) := by
  cases x with
  | none => exact getTruthy_none h
  | some b =>
    have hread : readHex (Name.hex b).toList = .ok b := by rw [readHex, fromHex_hex]
    rw [getHex, getTruthy_str h hread, hex_isEmpty]
    cases b <;> rfl

end Json

open Json

theorem ChunkRef.fromDict_toDict (c : ChunkRef) : fromDict c.toDict = .ok c := by
  rw [fromDict, toDict, item_dict (v := c.label) (by simp),
    hexItem_dict (b := c.contentHash) (by simp [List.lookup_cons]),
    item_dict (v := c.size) (by simp [List.lookup_cons]),
    getOr_dict (v := c.sequence) (by simp [List.lookup_cons, getD_notNull])]
  rfl

theorem EntryKind.ofValue_value (k : EntryKind) : ofValue k.value = .ok k := by
  cases k <;> rfl

theorem filter_hash_eq_iff {x : Option Bytes} : x.filter (!·.isEmpty) = x ↔ x ≠ some [] := by
  rcases x with _ | _ | _ <;> simp [Option.filter]

theorem list_map_eq_self_iff {α : Type} {f : α → α} {l : List α} :
    l.map f = l ↔ ∀ a ∈ l, f a = a := by
  conv_lhs => rhs; rw [← List.map_id l]
  exact List.map_inj_left

namespace ManifestEntry

variable {e : ManifestEntry}

def reread (e : ManifestEntry) : ManifestEntry :=
  { e with name := e.name.reread, contentHash := e.contentHash.filter (!·.isEmpty) }

theorem fromDict_toDict (h : e.name.Shown) : fromDict e.toDict = .ok e.reread := by
  rw [fromDict, toDict, strItem_dict (s := e.kind.value) (by simp),
    strItem_dict (s := e.label) (by simp [List.lookup_cons]),
    nameItem_dict (n := e.name) (by simp [List.lookup_cons]), h.parseName_eq,
    getHex_dict (x := e.contentHash) (by simp [List.lookup_cons, List.lookup_append]),
    getInt_dict (x := e.size) (by simp [List.lookup_cons, List.lookup_append]),
    getInt_dict (x := e.latestSequence) (by simp [List.lookup_cons, List.lookup_append]),
    getInt_dict (x := e.totalItems) (by simp [List.lookup_cons, List.lookup_append]),
    getInt_dict (x := e.startTime) (by simp [List.lookup_cons, List.lookup_append]),
    getInt_dict (x := e.endTime) (by simp [List.lookup_cons, List.lookup_append])]
  simp only [bind, Except.bind, EntryKind.ofValue_value]
  rfl

theorem reread_eq_iff (h : e.name.Shown) :
    e.reread = e ↔ e.name.Plain ∧ e.contentHash ≠ some [] := by
  rw [← h.reread_eq_iff, ← filter_hash_eq_iff]
  cases e
  simp [reread]

end ManifestEntry

namespace Manifest

variable {m : Manifest}

/-- The names of the manifest have a display form. -/
structure Shown (m : Manifest) : Prop where
  entry : ∀ e ∈ m.entries, e.name.Shown
  previous : ∀ n ∈ m.previous, n.Shown

/-- No name has a label that can be read as hex and no hash is empty. -/
structure Plain (m : Manifest) : Prop where
  entry : ∀ e ∈ m.entries, e.name.Plain ∧ e.contentHash ≠ some []
  previous : ∀ n ∈ m.previous, n.Plain

def reread (m : Manifest) : Manifest :=
  { m with entries := m.entries.map ManifestEntry.reread, previous := m.previous.map Name.reread }

theorem fromDict_toDict (h : m.Shown) : fromDict m.toDict = .ok m.reread := by
  have hprevious : (dict ([("producer", .hex m.producer), ("sequence", .int m.sequence),
      ("timestamp", .int m.timestamp), ("entries", .list (m.entries.map ManifestEntry.toDict))] ++
      Json.member "previous" .name m.previous)).getTruthy "previous" parseName =
        .ok (m.previous.map Name.reread) := by
    cases hp : m.previous with
    | none => exact getTruthy_none (by simp [List.lookup_cons])
    | some n =>
      have hn := h.previous n hp
      have hstr : n.str.isEmpty = false := by
        rw [← Bool.not_eq_true, String.isEmpty_iff]
        intro he
        have hl := Name.toList_str hn.addr
        rw [he] at hl
        cases hl
      rw [getTruthy_str (s := n.str) (by simp [List.lookup_cons, Json.name]) hn.parseName_eq, hstr]
      rfl
  rw [fromDict, toDict, hexItem_dict (b := m.producer) (by simp),
    intItem_dict (n := m.sequence) (by simp [List.lookup_cons]),
    intItem_dict (n := m.timestamp) (by simp [List.lookup_cons]),
    listItem_dict (by simp [List.lookup_cons]; rfl), hprevious]
  simp only [bind, Except.bind]
  rw [mapM_map_eq_ok fun e he => ManifestEntry.fromDict_toDict (h.entry e he)]
  rfl

theorem reread_eq_iff (h : m.Shown) : m.reread = m ↔ m.Plain := by
  have hentries : m.entries.map ManifestEntry.reread = m.entries ↔
      ∀ e ∈ m.entries, e.name.Plain ∧ e.contentHash ≠ some [] := by
    rw [list_map_eq_self_iff]
    exact forall₂_congr fun e he => ManifestEntry.reread_eq_iff (h.entry e he)
  have hprevious : m.previous.map Name.reread = m.previous ↔ ∀ n ∈ m.previous, n.Plain := by
    cases hp : m.previous with
    | none => simp
    | some n => simpa using (h.previous n hp).reread_eq_iff
  have hm : m.reread = m ↔ m.entries.map ManifestEntry.reread = m.entries ∧
      m.previous.map Name.reread = m.previous := by
    cases m
    simp [reread]
  rw [hm, hentries, hprevious]
  exact ⟨fun h => ⟨h.1, h.2⟩, fun h => ⟨h.entry, h.previous⟩⟩

end Manifest

namespace ContentManifest

variable {m : ContentManifest}

def reread (m : ContentManifest) : ContentManifest :=
  { m with name := m.name.reread, contentHash := m.contentHash.filter (!·.isEmpty) }

theorem fromDict_toDict (h : m.name.Shown) : fromDict m.toDict = .ok m.reread := by
  rw [fromDict, toDict, nameItem_dict (n := m.name) (by simp), h.parseName_eq,
    listItem_dict (by simp [List.lookup_cons]; rfl),
    item_dict (v := m.totalSize) (by simp [List.lookup_cons]),
    getHex_dict (x := m.contentHash) (by simp [List.lookup_cons]),
    getOr_dict (v := m.sequence) (by simp [List.lookup_cons]),
    getOr_dict (v := m.timestamp) (by simp [List.lookup_cons])]
  simp only [bind, Except.bind]
  rw [mapM_map_eq_ok (g := id) fun c _ => ChunkRef.fromDict_toDict c, List.map_id]
  rfl

theorem reread_eq_iff (h : m.name.Shown) :
    m.reread = m ↔ m.name.Plain ∧ m.contentHash ≠ some [] := by
  rw [← h.reread_eq_iff, ← filter_hash_eq_iff]
  cases m
  simp [reread]

end ContentManifest

/-- A manifest is read back as it was written exactly if no label of its names can be read as hex
and none of its hashes is empty. -/
theorem manifests_read_back_iff (m : Manifest) (c : ContentManifest) :
    (m.Shown → (Manifest.fromDict m.toDict = .ok m ↔ m.Plain)) ∧
    (c.name.Shown →
      (ContentManifest.fromDict c.toDict = .ok c ↔ c.name.Plain ∧ c.contentHash ≠ some [])) := by
  constructor
  · intro h
    rw [Manifest.fromDict_toDict h, Except.ok.injEq, Manifest.reread_eq_iff h]
  · intro h
    rw [ContentManifest.fromDict_toDict h, Except.ok.injEq, ContentManifest.reread_eq_iff h]

def listing (label : Bytes) : Manifest where
  producer := List.replicate 16 0x01
  sequence := 1
  timestamp := 0
  entries :=
    [{ kind := .blob, label := "content", name := ⟨List.replicate 16 0x01, [label], none⟩ }]

theorem listing_shown {label : Bytes} {text : String} (h : Name.Displayable label text) :
    (listing label).Shown where
  entry e he := by
    obtain rfl := List.mem_singleton.mp he
    exact ⟨rfl, nofun, fun label hl => ⟨text, List.mem_singleton.mp hl ▸ h⟩⟩
  previous := nofun

def note : Bytes := [0x6e, 0x6f, 0x74, 0x65]

def emptyContent (label : Bytes) : ContentManifest where
  name := ⟨List.replicate 16 0x01, [label], none⟩
  chunks := []
  totalSize := .int 0

theorem note_read_back : Manifest.fromDict (listing note).toDict = .ok (listing note) ∧
    ContentManifest.fromDict (emptyContent note).toDict = .ok (emptyContent note) := by
  have hnote : Name.Displayable note "note" := ⟨by decide, by decide, by decide, by decide⟩
  have hplain : Name.readsAsHex note = false := by decide
  have hshown : (emptyContent note).name.Shown :=
    ⟨rfl, nofun, fun label hl => ⟨"note", List.mem_singleton.mp hl ▸ hnote⟩⟩
  have hread := manifests_read_back_iff (listing note) (emptyContent note)
  constructor
  · refine (hread.1 (listing_shown hnote)).mpr ⟨?_, nofun⟩
    simp [listing, Name.Plain, hplain]
  · refine (hread.2 hshown).mpr ⟨?_, nofun⟩
    simp [emptyContent, Name.Plain, hplain]

def cafe : Bytes := [0x63, 0x61, 0x66, 0x65]

/-- A manifest that lists `/<address>/cafe` is read as one that lists another name. -/
theorem cafe_read_as_hex : (listing cafe).Shown ∧
    Manifest.fromDict (listing cafe).toDict = .ok (listing [0xca, 0xfe]) ∧
    Manifest.fromDict (listing cafe).toDict ≠ .ok (listing cafe) := by
  have hcafe : Name.Displayable cafe "cafe" := ⟨by decide, by decide, by decide, by decide⟩
  have hshown : (listing cafe).Shown := listing_shown hcafe
  have hread : Name.rereadLabel cafe = [0xca, 0xfe] := by decide
  have hlisting : (listing cafe).reread = listing [0xca, 0xfe] := by
    rw [← hread]
    rfl
  rw [Manifest.fromDict_toDict hshown, hlisting]
  exact ⟨hshown, rfl, by decide⟩

end RnsIcn
