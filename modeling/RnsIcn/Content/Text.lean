import RnsIcn.Content.Manifest

/-! # The text of a document

`json.dumps` writes ASCII, with `,` and `:` between the parts of a document. Its text can be
taken apart in one way only, so documents with the same text are the same.
-/

namespace RnsIcn

open Fallible

namespace Json

def QUOTE : Char := Char.ofNat 0x22
def BACKSLASH : Char := Char.ofNat 0x5C
def OPEN_BRACE : Char := Char.ofNat 0x7B
def CLOSE_BRACE : Char := Char.ofNat 0x7D

/-- `ESCAPE_DCT`, with the letter that follows the backslash before what it stands for. -/
def ESCAPE_DCT : List (Char × Char) :=
  [(QUOTE, QUOTE), (BACKSLASH, BACKSLASH), ('n', Char.ofNat 0x0A), ('r', Char.ofNat 0x0D),
    ('t', Char.ofNat 0x09), ('f', Char.ofNat 0x0C), ('b', Char.ofNat 0x08)]

def unicodeEscape (n : ℕ) : List Char :=
  [BACKSLASH, 'u', Name.hexDigit (n / 4096), Name.hexDigit (n / 256), Name.hexDigit (n / 16),
    Name.hexDigit n]

/-- `ESCAPE_ASCII`: what is not printable ASCII is written in hex, as a surrogate pair beyond the
basic plane. -/
def escapeChar (c : Char) : List Char :=
  match ESCAPE_DCT.find? (·.2 = c) with
  | some e => [BACKSLASH, e.1]
  | none =>
    if ' ' ≤ c ∧ c ≤ '~' then [c]
    else if c.toNat < 0x10000 then unicodeEscape c.toNat
    else unicodeEscape (0xD800 + (c.toNat - 0x10000) / 0x400) ++
      unicodeEscape (0xDC00 + (c.toNat - 0x10000) % 0x400)

def escape (s : List Char) : List Char := s.flatMap escapeChar

def quote (s : String) : List Char := QUOTE :: (escape s.toList ++ [QUOTE])

def intText (n : ℤ) : List Char :=
  if n < 0 then '-' :: Nat.toDigits 10 n.natAbs else Nat.toDigits 10 n.natAbs

mutual

def dumps : Json → List Char
  | .null => ['n', 'u', 'l', 'l']
  | .bool true => ['t', 'r', 'u', 'e']
  | .bool false => ['f', 'a', 'l', 's', 'e']
  | .int n => intText n
  | .str s => quote s
  | .list [] => ['[', ']']
  | .list (item :: items) => '[' :: (dumps item ++ dumpsItems items)
  | .dict [] => [OPEN_BRACE, CLOSE_BRACE]
  | .dict ((key, v) :: members) =>
    OPEN_BRACE :: (quote key ++ ':' :: (dumps v ++ dumpsMembers members))

def dumpsItems : List Json → List Char
  | [] => [']']
  | item :: items => ',' :: (dumps item ++ dumpsItems items)

def dumpsMembers : List (String × Json) → List Char
  | [] => [CLOSE_BRACE]
  | (key, v) :: members => ',' :: (quote key ++ ':' :: (dumps v ++ dumpsMembers members))

end

def readHex4 : List Char → Option (ℕ × List Char)
  | a :: b :: c :: d :: s => do
    let a ← hexValue a
    let b ← hexValue b
    let c ← hexValue c
    let d ← hexValue d
    return (4096 * a + 256 * b + 16 * c + d, s)
  | _ => none

def unescape : List Char → Option (Char × List Char)
  | [] => none
  | [c] => if c = BACKSLASH then none else some (c, [])
  | c :: e :: s =>
    if c ≠ BACKSLASH then some (c, e :: s)
    else if e ≠ 'u' then (ESCAPE_DCT.lookup e).map fun c => (c, s)
    else do
      let (n, s) ← readHex4 s
      if n < 0xD800 ∨ 0xDC00 ≤ n then return (Char.ofNat n, s)
      else do
        let (m, s) ← readHex4 (s.drop 2)
        return (Char.ofNat (0x10000 + 0x400 * (n - 0xD800) + (m - 0xDC00)), s)

theorem readHex4_hexDigit {n : ℕ} (hn : n < 65536) (s : List Char) :
    readHex4 (Name.hexDigit (n / 4096) :: Name.hexDigit (n / 256) :: Name.hexDigit (n / 16) ::
      Name.hexDigit n :: s) = some (n, s) := by
  have hdigit (d : ℕ) : hexValue (Name.hexDigit d) = some (d % 16) := by
    rw [hexDigit_mod]
    exact hexValue_hexDigit _ (Nat.mod_lt _ (by decide))
  unfold readHex4
  simp only [hdigit, Option.bind_eq_bind, Option.bind_some, Option.pure_def, Option.some.injEq,
    Prod.mk.injEq, and_true]
  omega

/-- The escape of a code point outside of the high surrogates is that of a character. -/
theorem unescape_unicodeEscape {n : ℕ} (hn : n < 65536) (hs : n < 0xD800 ∨ 0xDC00 ≤ n)
    (s : List Char) : unescape (unicodeEscape n ++ s) = some (Char.ofNat n, s) := by
  unfold unicodeEscape
  simp only [List.cons_append, List.nil_append]
  rw [unescape, if_neg (by simp), if_neg (by simp), readHex4_hexDigit hn]
  simp [hs]

theorem unescape_surrogates {v : ℕ} (hv : v < 0x100000) (s : List Char) :
    unescape (unicodeEscape (0xD800 + v / 0x400) ++ (unicodeEscape (0xDC00 + v % 0x400) ++ s)) =
      some (Char.ofNat (0x10000 + v), s) := by
  have hhigh : ¬ (0xD800 + v / 0x400 < 0xD800 ∨ 0xDC00 ≤ 0xD800 + v / 0x400) := by omega
  have hsum : 0x10000 + 0x400 * (0xD800 + v / 0x400 - 0xD800) + (0xDC00 + v % 0x400 - 0xDC00) =
      0x10000 + v := by omega
  unfold unicodeEscape
  simp only [List.cons_append, List.nil_append]
  rw [unescape, if_neg (by simp), if_neg (by simp), readHex4_hexDigit (by omega)]
  simp only [Option.bind_eq_bind, Option.bind_some, if_neg hhigh, List.drop_succ_cons,
    List.drop_zero]
  rw [readHex4_hexDigit (by omega), Option.bind_some, hsum]
  rfl

theorem escape_dct_lookup :
    ∀ e ∈ ESCAPE_DCT, e.1 ≠ 'u' ∧ ESCAPE_DCT.lookup e.1 = some e.2 := by
  decide

theorem unescape_escapeChar (c : Char) (s : List Char) :
    unescape (escapeChar c ++ s) = some (c, s) := by
  unfold escapeChar
  cases hfind : ESCAPE_DCT.find? (·.2 = c) with
  | some e =>
    obtain ⟨hu, hlookup⟩ := escape_dct_lookup e (List.mem_of_find?_eq_some hfind)
    have hc : e.2 = c := by simpa using List.find?_some hfind
    simp only [List.cons_append, List.nil_append]
    rw [unescape, if_neg (by simp), if_pos hu, hlookup, hc]
    rfl
  | none =>
    have hback : c ≠ BACKSLASH := by
      rintro rfl
      exact absurd hfind (by decide)
    have hvalid := c.valid
    simp only
    split
    · cases s with
      | nil => rw [List.append_nil, unescape, if_neg hback]
      | cons e s => rw [List.singleton_append, unescape, if_pos hback]
    · split
      · rename_i hbasic
        rw [unescape_unicodeEscape hbasic, Char.ofNat_toNat]
        rcases hvalid with h | h
        · exact .inl h
        · exact .inr (by have := h.1; change 0xDFFF < c.toNat at this; omega)
      · rename_i hbasic
        have hlt : c.toNat < 0x110000 := by
          rcases hvalid with h | h
          · exact lt_trans h (by decide)
          · exact h.2
        rw [List.append_assoc, unescape_surrogates (by omega),
          Nat.add_sub_cancel' (Nat.le_of_not_lt hbasic), Char.ofNat_toNat]

theorem escapeChar_append_ne (c : Char) (s t : List Char) : escapeChar c ++ s ≠ QUOTE :: t := by
  intro h
  have hread := unescape_escapeChar c s
  have hquote : unescape (QUOTE :: t) = some (QUOTE, t) := by
    cases t <;> rfl
  rw [h, hquote] at hread
  obtain ⟨rfl, rfl⟩ := Prod.mk.inj (Option.some.inj hread)
  have hlen := congrArg List.length h
  simp [escapeChar, ESCAPE_DCT] at hlen

theorem escape_cancel {s t x y : List Char} (h : escape s ++ QUOTE :: x = escape t ++ QUOTE :: y) :
    s = t ∧ x = y := by
  unfold escape at h
  induction s generalizing t with
  | nil =>
    cases t with
    | nil => exact ⟨rfl, (List.cons.inj h).2⟩
    | cons d t =>
      rw [List.flatMap_cons, List.append_assoc] at h
      exact absurd h.symm (escapeChar_append_ne d _ _)
  | cons c s ih =>
    cases t with
    | nil =>
      rw [List.flatMap_cons, List.append_assoc] at h
      exact absurd h (escapeChar_append_ne c _ _)
    | cons d t =>
      rw [List.flatMap_cons, List.flatMap_cons, List.append_assoc, List.append_assoc] at h
      have hread := congrArg unescape h
      rw [unescape_escapeChar, unescape_escapeChar] at hread
      obtain ⟨rfl, hrest⟩ := Prod.mk.inj (Option.some.inj hread)
      obtain ⟨rfl, rfl⟩ := ih hrest
      exact ⟨rfl, rfl⟩

theorem quote_cancel {s t : String} {x y : List Char} (h : quote s ++ x = quote t ++ y) :
    s = t ∧ x = y := by
  unfold quote at h
  simp only [List.cons_append, List.append_assoc, List.nil_append, List.cons.injEq,
    true_and] at h
  obtain ⟨hs, rfl⟩ := escape_cancel h
  exact ⟨String.toList_inj.mp hs, rfl⟩

def Delimited (s : List Char) : Prop := ∀ c ∈ s.head?, c.isDigit = false

theorem isDigit_toDigits (n : ℕ) : ∀ c ∈ Nat.toDigits 10 n, c.isDigit = true := fun _ =>
  Nat.isDigit_of_mem_toDigits (by decide) (by decide)

theorem digits_cancel {s t x y : List Char} (hs : ∀ c ∈ s, c.isDigit = true)
    (ht : ∀ c ∈ t, c.isDigit = true) (hx : Delimited x) (hy : Delimited y)
    (h : s ++ x = t ++ y) : s = t ∧ x = y := by
  induction s generalizing t with
  | nil =>
    cases t with
    | nil => exact ⟨rfl, h⟩
    | cons d t =>
      have hd := hx d (by rw [show x = d :: (t ++ y) from h]; rfl)
      rw [ht d List.mem_cons_self] at hd
      cases hd
  | cons c s ih =>
    rw [List.forall_mem_cons] at hs
    cases t with
    | nil =>
      have hc := hy c (by rw [← show c :: (s ++ x) = y from h]; rfl)
      rw [hs.1] at hc
      cases hc
    | cons d t =>
      rw [List.forall_mem_cons] at ht
      obtain ⟨rfl, htail⟩ := List.cons.inj h
      obtain ⟨rfl, rfl⟩ := ih hs.2 ht.2 htail
      exact ⟨rfl, rfl⟩

theorem toDigits_cancel {m n : ℕ} {x y : List Char} (hx : Delimited x) (hy : Delimited y)
    (h : Nat.toDigits 10 m ++ x = Nat.toDigits 10 n ++ y) : m = n ∧ x = y := by
  obtain ⟨hdigits, rfl⟩ := digits_cancel (isDigit_toDigits m) (isDigit_toDigits n) hx hy h
  refine ⟨?_, rfl⟩
  rw [← Nat.ofDigitChars_ten_toDigits (n := m), hdigits, Nat.ofDigitChars_ten_toDigits]

theorem minus_ne_toDigits (n : ℕ) (x y : List Char) : '-' :: x ≠ Nat.toDigits 10 n ++ y := by
  intro h
  have hdigit := isDigit_toDigits n
  cases hn : Nat.toDigits 10 n with
  | nil => exact absurd hn Nat.toDigits_ne_nil
  | cons c s =>
    rw [hn] at h hdigit
    have hc := hdigit c List.mem_cons_self
    rw [← (List.cons.inj h).1] at hc
    exact absurd hc (by decide)

theorem intText_cancel {m n : ℤ} {x y : List Char} (hx : Delimited x) (hy : Delimited y)
    (h : intText m ++ x = intText n ++ y) : m = n ∧ x = y := by
  unfold intText at h
  split at h <;> split at h
  · obtain ⟨habs, rfl⟩ := toDigits_cancel hx hy (List.cons.inj h).2
    exact ⟨by omega, rfl⟩
  · exact absurd h (minus_ne_toDigits _ _ _)
  · exact absurd h.symm (minus_ne_toDigits _ _ _)
  · obtain ⟨habs, rfl⟩ := toDigits_cancel hx hy h
    exact ⟨by omega, rfl⟩

def kind : Json → ℕ
  | .null => 0
  | .bool _ => 1
  | .int _ => 2
  | .str _ => 3
  | .list _ => 4
  | .dict _ => 5

def leadKind (c : Char) : ℕ :=
  if c = 'n' then 0
  else if c = 't' ∨ c = 'f' then 1
  else if c = '-' ∨ c.isDigit = true then 2
  else if c = QUOTE then 3
  else if c = '[' then 4
  else if c = OPEN_BRACE then 5
  else 6

theorem leadKind_of_isDigit {c : Char} (h : c.isDigit = true) : leadKind c = 2 := by
  have hne (d : Char) (hd : d.isDigit = false) : c ≠ d := by
    rintro rfl
    rw [h] at hd
    cases hd
  unfold leadKind
  rw [if_neg (hne _ (by decide)), if_neg (not_or.mpr ⟨hne _ (by decide), hne _ (by decide)⟩),
    if_pos (.inr h)]

theorem leadKind_dumps (j : Json) : ∃ c cs, dumps j = c :: cs ∧ leadKind c = j.kind := by
  cases j with
  | null => exact ⟨_, _, by rw [dumps], rfl⟩
  | bool b => cases b <;> exact ⟨_, _, by rw [dumps], rfl⟩
  | int n =>
    rw [dumps, intText]
    split
    · exact ⟨_, _, rfl, rfl⟩
    · have hdigit := isDigit_toDigits n.natAbs
      cases hn : Nat.toDigits 10 n.natAbs with
      | nil => exact absurd hn Nat.toDigits_ne_nil
      | cons c s =>
        rw [hn] at hdigit
        exact ⟨c, s, rfl, leadKind_of_isDigit (hdigit c List.mem_cons_self)⟩
  | str s => exact ⟨_, _, by rw [dumps, quote], rfl⟩
  | list items => cases items <;> exact ⟨_, _, by rw [dumps], rfl⟩
  | dict members => cases members <;> exact ⟨_, _, by rw [dumps], rfl⟩

theorem kind_eq_of_dumps {j k : Json} {x y : List Char} (h : dumps j ++ x = dumps k ++ y) :
    j.kind = k.kind := by
  obtain ⟨c, cs, hj, hc⟩ := leadKind_dumps j
  obtain ⟨d, ds, hk, hd⟩ := leadKind_dumps k
  rw [hj, hk] at h
  rw [← hc, ← hd, (List.cons.inj h).1]

theorem delimited_dumpsItems (items : List Json) (x : List Char) :
    Delimited (dumpsItems items ++ x) := by
  intro c hc
  cases items <;> rw [dumpsItems] at hc <;> obtain rfl := Option.some.inj hc <;> decide

theorem delimited_dumpsMembers (members : List (String × Json)) (x : List Char) :
    Delimited (dumpsMembers members ++ x) := by
  intro c hc
  cases members <;> rw [dumpsMembers] at hc <;> obtain rfl := Option.some.inj hc <;> decide

theorem dumps_append_ne {j : Json} {c : Char} (hc : leadKind c = 6) (x y : List Char) :
    dumps j ++ x ≠ c :: y := by
  intro h
  obtain ⟨d, ds, hj, hd⟩ := leadKind_dumps j
  rw [hj] at h
  rw [(List.cons.inj h).1, hc] at hd
  cases j <;> cases hd

mutual

theorem dumps_cancel : ∀ (j k : Json) {x y : List Char}, Delimited x → Delimited y →
    dumps j ++ x = dumps k ++ y → j = k ∧ x = y
  | .null, k, x, y, _, _, h => by
    have hkind := kind_eq_of_dumps h
    cases k with
    | null => exact ⟨rfl, List.append_cancel_left h⟩
    | _ => cases hkind
  | .bool b, k, x, y, _, _, h => by
    have hkind := kind_eq_of_dumps h
    cases k with
    | bool b' => cases b <;> cases b' <;> simp [dumps] at h ⊢ <;> exact h
    | _ => cases hkind
  | .int n, k, x, y, hx, hy, h => by
    have hkind := kind_eq_of_dumps h
    cases k with
    | int n' =>
      rw [dumps, dumps] at h
      obtain ⟨rfl, rfl⟩ := intText_cancel hx hy h
      exact ⟨rfl, rfl⟩
    | _ => cases hkind
  | .str s, k, x, y, _, _, h => by
    have hkind := kind_eq_of_dumps h
    cases k with
    | str s' =>
      rw [dumps, dumps] at h
      obtain ⟨rfl, rfl⟩ := quote_cancel h
      exact ⟨rfl, rfl⟩
    | _ => cases hkind
  | .list [], k, x, y, _, _, h => by
    have hkind := kind_eq_of_dumps h
    cases k with
    | list items =>
      cases items with
      | nil => exact ⟨rfl, List.append_cancel_left h⟩
      | cons item items =>
        simp only [dumps, List.cons_append, List.append_assoc, List.cons.injEq, true_and] at h
        exact absurd h.symm (dumps_append_ne rfl _ _)
    | _ => cases hkind
  | .list (item :: items), k, x, y, _, _, h => by
    have hkind := kind_eq_of_dumps h
    cases k with
    | list items' =>
      cases items' with
      | nil =>
        simp only [dumps, List.cons_append, List.append_assoc, List.cons.injEq, true_and] at h
        exact absurd h (dumps_append_ne rfl _ _)
      | cons item' items' =>
        simp only [dumps, List.cons_append, List.append_assoc, List.cons.injEq, true_and] at h
        obtain ⟨rfl, hrest⟩ := dumps_cancel item item' (delimited_dumpsItems _ _)
          (delimited_dumpsItems _ _) h
        obtain ⟨rfl, rfl⟩ := dumpsItems_cancel items items' hrest
        exact ⟨rfl, rfl⟩
    | _ => cases hkind
  | .dict [], k, x, y, _, _, h => by
    have hkind := kind_eq_of_dumps h
    cases k with
    | dict members =>
      cases members with
      | nil => exact ⟨rfl, List.append_cancel_left h⟩
      | cons member members =>
        simp only [dumps, quote, List.cons_append, List.append_assoc, List.cons.injEq,
          true_and] at h
        exact absurd h.1 (by decide)
    | _ => cases hkind
  | .dict ((key, v) :: members), k, x, y, _, _, h => by
    have hkind := kind_eq_of_dumps h
    cases k with
    | dict members' =>
      cases members' with
      | nil =>
        simp only [dumps, quote, List.cons_append, List.append_assoc, List.cons.injEq,
          true_and] at h
        exact absurd h.1 (by decide)
      | cons member' members' =>
        simp only [dumps, List.cons_append, List.append_assoc, List.cons.injEq, true_and] at h
        obtain ⟨rfl, hvalue⟩ := quote_cancel h
        obtain ⟨rfl, hrest⟩ := dumps_cancel v member'.2 (delimited_dumpsMembers _ _)
          (delimited_dumpsMembers _ _) (List.cons.inj hvalue).2
        obtain ⟨rfl, rfl⟩ := dumpsMembers_cancel members members' hrest
        exact ⟨rfl, rfl⟩
    | _ => cases hkind

theorem dumpsItems_cancel : ∀ (items items' : List Json) {x y : List Char},
    dumpsItems items ++ x = dumpsItems items' ++ y → items = items' ∧ x = y
  | [], [], x, y, h => ⟨rfl, List.append_cancel_left h⟩
  | [], _ :: _, x, y, h => by
    simp only [dumpsItems, List.cons_append, List.cons.injEq] at h
    exact absurd h.1 (by decide)
  | _ :: _, [], x, y, h => by
    simp only [dumpsItems, List.cons_append, List.cons.injEq] at h
    exact absurd h.1 (by decide)
  | item :: items, item' :: items', x, y, h => by
    simp only [dumpsItems, List.cons_append, List.append_assoc, List.cons.injEq, true_and] at h
    obtain ⟨rfl, hrest⟩ := dumps_cancel item item' (delimited_dumpsItems _ _)
      (delimited_dumpsItems _ _) h
    obtain ⟨rfl, rfl⟩ := dumpsItems_cancel items items' hrest
    exact ⟨rfl, rfl⟩

theorem dumpsMembers_cancel : ∀ (members members' : List (String × Json)) {x y : List Char},
    dumpsMembers members ++ x = dumpsMembers members' ++ y → members = members' ∧ x = y
  | [], [], x, y, h => ⟨rfl, List.append_cancel_left h⟩
  | [], _ :: _, x, y, h => by
    simp only [dumpsMembers, List.cons_append, List.cons.injEq] at h
    exact absurd h.1 (by decide)
  | _ :: _, [], x, y, h => by
    simp only [dumpsMembers, List.cons_append, List.cons.injEq] at h
    exact absurd h.1 (by decide)
  | (key, v) :: members, (key', v') :: members', x, y, h => by
    simp only [dumpsMembers, List.cons_append, List.append_assoc, List.cons.injEq, true_and] at h
    obtain ⟨rfl, hvalue⟩ := quote_cancel h
    obtain ⟨rfl, hrest⟩ := dumps_cancel v v' (delimited_dumpsMembers _ _)
      (delimited_dumpsMembers _ _) (List.cons.inj hvalue).2
    obtain ⟨rfl, rfl⟩ := dumpsMembers_cancel members members' hrest
    exact ⟨rfl, rfl⟩

end

theorem dumps_injective {j k : Json} (h : dumps j = dumps k) : j = k :=
  (dumps_cancel j k (x := []) (y := []) nofun nofun (by rw [h])).1

def text (j : Json) : Bytes := encodeUtf8 (String.ofList (dumps j))

theorem text_injective {j k : Json} (h : j.text = k.text) : j = k := by
  unfold text encodeUtf8 at h
  have hbytes := ByteArray.ext (Array.toList_inj.mp h)
  exact dumps_injective (String.ofList_inj.mp (String.toByteArray_inj.mp hbytes))

end Json

def Manifest.toJson (m : Manifest) : Bytes := m.toDict.text

def Lists (text : Bytes) (label : String) : Prop :=
  ∃ m : Manifest, text = m.toJson ∧ ∃ e ∈ m.entries, e.label = label

theorem ManifestEntry.label_of_toDict {e e' : ManifestEntry} (h : e.toDict = e'.toDict) :
    e.label = e'.label := by
  unfold ManifestEntry.toDict at h
  simp only [List.cons_append, Json.dict.injEq, List.cons.injEq, Prod.mk.injEq, Json.str.injEq,
    true_and] at h
  exact h.2.1

theorem labels_of_map_toDict {l l' : List ManifestEntry}
    (h : l.map ManifestEntry.toDict = l'.map ManifestEntry.toDict) :
    l.map ManifestEntry.label = l'.map ManifestEntry.label := by
  induction l generalizing l' with
  | nil =>
    obtain rfl : l' = [] := by simpa using h.symm
    rfl
  | cons e l ih =>
    cases l' with
    | nil => cases h
    | cons e' l' =>
      obtain ⟨he, hl⟩ := List.cons.inj h
      rw [List.map_cons, List.map_cons, ManifestEntry.label_of_toDict he, ih hl]

theorem Manifest.labels_of_toJson {m m' : Manifest} (h : m.toJson = m'.toJson) :
    m.entries.map ManifestEntry.label = m'.entries.map ManifestEntry.label := by
  have hdict : m.toDict = m'.toDict := Json.text_injective h
  unfold Manifest.toDict at hdict
  simp only [List.cons_append, Json.dict.injEq, List.cons.injEq, Prod.mk.injEq, Json.list.injEq,
    true_and] at hdict
  exact labels_of_map_toDict hdict.2.2.2.1

theorem lists_toJson {m : Manifest} {label : String} :
    Lists m.toJson label ↔ ∃ e ∈ m.entries, e.label = label := by
  constructor
  · rintro ⟨m', h, e, he, rfl⟩
    have hmem := List.mem_map_of_mem (f := ManifestEntry.label) he
    rw [← Manifest.labels_of_toJson h] at hmem
    exact List.mem_map.mp hmem
  · exact fun h => ⟨m, rfl, h⟩

end RnsIcn
