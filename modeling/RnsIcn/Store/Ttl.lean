import Mathlib.Data.List.Sort
import RnsIcn.Lib.LongestMatch
import RnsIcn.Lib.Separator
import RnsIcn.Store.Content

/-! # Lifetimes by prefix

The table of lifetimes is keyed by displayed names, and the longest key that begins the
displayed name counts. The text of a name may begin with that of another which is no prefix
of it, and the text of a pinned prefix ends with its pin.
-/

namespace RnsIcn

open Separator

namespace Name

def texts (n : Name) : List (List Char) :=
  (componentStr true n.rnsAddr).toList :: n.path.map fun label => (componentStr false label).toList

def pinText : Option Bytes → List Char
  | none => []
  | some h => '?' :: ("hash=" ++ hex h).toList

variable {n p q : Name}

theorem toList_str_texts (n : Name) :
    n.str.toList = '/' :: (['/'].intercalate n.texts ++ pinText n.contentHash) := by
  rw [str, texts]
  cases n.contentHash <;>
    simp [pinText, String.toList_append, String.toList_intercalate, Function.comp_def]

theorem texts_ne_nil (n : Name) : n.texts ≠ [] := List.cons_ne_nil _ _

theorem length_texts (n : Name) : n.texts.length = n.len := by
  rw [texts, List.length_cons, List.length_map]
  rfl

theorem texts_prefix (h : n.startsWith p = true) : p.texts <+: n.texts := by
  obtain ⟨t, ht⟩ := startsWith_iff.mp h
  obtain ⟨haddr, hpath⟩ := List.cons.inj ht
  have hpath' : p.path ++ t = n.path := hpath
  refine ⟨t.map fun label => (componentStr false label).toList, ?_⟩
  rw [texts, texts, haddr, ← hpath', List.map_append]
  rfl

theorem toList_str_of_startsWith (h : n.startsWith p = true) (hn : n.contentHash = none) :
    ∃ rest, p.texts ++ rest = n.texts ∧
      n.str.toList = '/' :: (['/'].intercalate p.texts ++ rest.flatMap ('/' :: ·)) := by
  obtain ⟨rest, hrest⟩ := texts_prefix h
  refine ⟨rest, hrest, ?_⟩
  rw [toList_str_texts, hn, ← hrest, intercalate_append p.texts_ne_nil, pinText, List.append_nil]

/-- The display form of a name begins with that of a prefix if and only if the prefix has no
pin. -/
theorem str_prefix_iff (h : n.startsWith p = true) (hn : n.contentHash = none) :
    p.str.toList <+: n.str.toList ↔ p.contentHash = none := by
  obtain ⟨rest, -, hstr⟩ := toList_str_of_startsWith h hn
  rw [hstr, toList_str_texts, List.cons_prefix_cons, List.prefix_append_right_inj]
  cases hp : p.contentHash with
  | none => exact iff_of_true ⟨rfl, List.nil_prefix⟩ rfl
  | some pin =>
    refine iff_of_false ?_ nofun
    rintro ⟨-, hpin⟩
    cases rest with
    | nil => cases List.prefix_nil.mp hpin
    | cons r rest =>
      have hmark : '?' = '/' := (List.cons_prefix_cons.mp hpin).1
      exact absurd hmark (by decide)

/-- Of two prefixes without a pin, the one with more components has the longer display form. -/
theorem length_str_lt (hp : n.startsWith p = true) (hq : n.startsWith q = true)
    (hp' : p.contentHash = none) (hq' : q.contentHash = none) (hlen : p.len < q.len) :
    p.str.toList.length < q.str.toList.length := by
  have hpq : q.startsWith p = true := startsWith_iff.mpr
    (List.prefix_of_prefix_length_le (startsWith_iff.mp hp) (startsWith_iff.mp hq) hlen.le)
  obtain ⟨rest, hrest, hstr⟩ := toList_str_of_startsWith hpq hq'
  have hlonger := congrArg List.length hrest
  rw [List.length_append, length_texts, length_texts] at hlonger
  cases rest with
  | nil => exact absurd hlonger (by simpa using hlen.ne)
  | cons r rest =>
    rw [hstr, toList_str_texts, hp', pinText, List.flatMap_cons]
    simp only [List.length_cons, List.length_append, List.append_nil]
    omega

end Name

namespace ContentStore

variable {s : ContentStore} {names : List Name} {ttl : Name → ℕ} {n p : Name}

def Begins (p n : Name) : Prop := p.str.toList <+: n.str.toList

/-- The lifetimes of the overrides, by displayed name. -/
def overrides (names : List Name) (ttl : Name → ℕ) : List (String × ℕ) :=
  names.map fun p => (p.str, ttl p)

/-- The lifetime of an override with the most components of those that are prefixes of the name, or
the default. -/
def FollowsPrefixes (names : List Name) (ttl : Name → ℕ) (default : Option ℕ) (n : Name)
    (applied : Option ℕ) : Prop :=
  (∃ p ∈ names, n.startsWith p = true ∧
    (∀ q ∈ names, n.startsWith q = true → q.len ≤ p.len) ∧ applied = some (ttl p)) ∨
  (∀ p ∈ names, n.startsWith p = false) ∧ applied = default

/-- What only begins as a text is shorter than a prefix without a pin, and a pinned prefix has no
more components than one. -/
structure PrefixesByText (names : List Name) (n : Name) : Prop where
  text : ∀ p ∈ names, Begins p n → n.startsWith p = false → ∃ q ∈ names,
    n.startsWith q = true ∧ q.contentHash = none ∧ p.str.toList.length < q.str.toList.length
  pin : ∀ p ∈ names, n.startsWith p = true → ∃ q ∈ names,
    n.startsWith q = true ∧ q.contentHash = none ∧ p.len ≤ q.len

/-- The lifetime is that of the longest override that begins the text, if there is one. -/
theorem computeTtl_spec (hs : s.prefixTtls = overrides names ttl) (n : Name) :
    (∃ p ∈ names, Begins p n ∧
      (∀ q ∈ names, Begins q n → q.str.toList.length ≤ p.str.toList.length) ∧
      s.computeTtl n = some (ttl p)) ∨
    (∀ p ∈ names, ¬ Begins p n) ∧ s.computeTtl n = s.defaultTtl := by
  let longer (x y : String × ℕ) : Prop := y.1.length ≤ x.1.length
  have htotal : Std.Total longer := ⟨fun x y => Nat.le_total ..⟩
  have htrans : IsTrans (String × ℕ) longer := ⟨fun x y z hxy hyz => Nat.le_trans hyz hxy⟩
  have hsorted := List.pairwise_insertionSort longer s.prefixTtls
  have hmem (p : Name) (hp : p ∈ names) :
      (p.str, ttl p) ∈ s.prefixTtls.insertionSort longer := by
    rw [List.mem_insertionSort, hs]
    exact List.mem_map_of_mem hp
  unfold computeTtl
  dsimp only
  split
  · rename_i prefixStr ttl' hfind
    obtain ⟨he, hm, hlongest⟩ :=
      LongestMatch.longest_of_find? (fun x : String × ℕ => x.1.length) hsorted hfind
    rw [List.mem_insertionSort, hs] at he
    obtain ⟨p, hp, he⟩ := List.mem_map.mp he
    obtain ⟨rfl, rfl⟩ := Prod.mk.inj he
    refine .inl ⟨p, hp, List.isPrefixOf_iff_prefix.mp hm, fun q hq hbegins => ?_, rfl⟩
    have hle := hlongest _ (hmem q hq) (List.isPrefixOf_iff_prefix.mpr hbegins)
    rwa [String.length_toList, String.length_toList]
  · rename_i hfind
    refine .inr ⟨fun p hp hbegins => ?_, rfl⟩
    have hno := List.find?_eq_none.mp hfind _ (hmem p hp)
    exact hno (List.isPrefixOf_iff_prefix.mpr hbegins)

theorem PrefixesByText.followsPrefixes (h : PrefixesByText names n) (hn : n.contentHash = none)
    (hs : s.prefixTtls = overrides names ttl) :
    FollowsPrefixes names ttl s.defaultTtl n (s.computeTtl n) := by
  rcases computeTtl_spec hs n with ⟨p, hp, hbegins, hlongest, happlied⟩ | ⟨hnone, happlied⟩
  · have hbegins' (q : Name) (hq : n.startsWith q = true) (hpin : q.contentHash = none) :
        Begins q n := (Name.str_prefix_iff hq hn).mpr hpin
    have hstarts : n.startsWith p = true := by
      by_contra hno
      obtain ⟨q, hq, hqn, hpin, hlt⟩ := h.text p hp hbegins (Bool.eq_false_of_not_eq_true hno)
      exact absurd (hlongest q hq (hbegins' q hqn hpin)) (not_le.mpr hlt)
    have hpin := (Name.str_prefix_iff hstarts hn).mp hbegins
    refine .inl ⟨p, hp, hstarts, fun q hq hqn => ?_, happlied⟩
    obtain ⟨r, hr, hrn, hrpin, hle⟩ := h.pin q hq hqn
    refine hle.trans (not_lt.mp fun hlt => ?_)
    exact absurd (hlongest r hr (hbegins' r hrn hrpin))
      (not_le.mpr (Name.length_str_lt hstarts hrn hpin hrpin hlt))
  · refine .inr ⟨fun p hp => ?_, happlied⟩
    by_contra hstarts
    obtain ⟨q, hq, hqn, hpin, -⟩ := h.pin p hp (Bool.eq_true_of_not_eq_false hstarts)
    exact hnone q hq ((Name.str_prefix_iff hqn hn).mpr hpin)

/-- With lifetimes that are all different, what follows the prefixes reads them off the text. -/
theorem FollowsPrefixes.prefixesByText (hkeys : (names.map Name.str).Nodup)
    (hn : n.contentHash = none) (hs : s.prefixTtls = overrides names ttl)
    (hdefault : s.defaultTtl = none) (httl : Set.InjOn ttl { p | p ∈ names })
    (h : FollowsPrefixes names ttl s.defaultTtl n (s.computeTtl n)) : PrefixesByText names n := by
  rcases computeTtl_spec hs n with ⟨p, hp, hbegins, hlongest, happlied⟩ | ⟨hnone, happlied⟩
  · rw [happlied] at h
    -- The override that the text names is the one that the prefixes name.
    obtain ⟨hstarts, hmost⟩ : n.startsWith p = true ∧
        ∀ q ∈ names, n.startsWith q = true → q.len ≤ p.len := by
      rcases h with ⟨p', hp', hstarts, hmost, he⟩ | ⟨-, he⟩
      · obtain rfl := httl hp hp' (Option.some.inj he)
        exact ⟨hstarts, hmost⟩
      · rw [hdefault] at he
        cases he
    have hpin := (Name.str_prefix_iff hstarts hn).mp hbegins
    refine ⟨fun q hq hq' hno => ⟨p, hp, hstarts, hpin, ?_⟩,
      fun q hq hqn => ⟨p, hp, hstarts, hpin, hmost q hq hqn⟩⟩
    refine lt_of_le_of_ne (hlongest q hq hq') fun he => ?_
    have hstr := LongestMatch.eq_of_begins hq' hbegins he
    obtain rfl := List.inj_on_of_nodup_map hkeys hq hp (String.toList_injective hstr)
    rw [hstarts] at hno
    cases hno
  · rw [happlied, hdefault] at h
    have hno : ∀ p ∈ names, n.startsWith p = false := by
      rcases h with ⟨p, -, -, -, he⟩ | ⟨hno, -⟩
      · cases he
      · exact hno
    refine ⟨fun p hp hbegins _ => absurd hbegins (hnone p hp), fun p hp hstarts => ?_⟩
    rw [hno p hp] at hstarts
    cases hstarts

/-- The lifetimes follow the prefixes, whatever they are, if and only if the prefixes can be read
off the texts. -/
theorem ttl_follows_prefixes_iff (hkeys : (names.map Name.str).Nodup) (n : Name) :
    (∀ (s : ContentStore) (ttl : Name → ℕ), s.prefixTtls = overrides names ttl →
      FollowsPrefixes names ttl s.defaultTtl n.withoutContentHash
        (s.computeTtl n.withoutContentHash)) ↔
      PrefixesByText names n.withoutContentHash := by
  constructor
  · intro h
    have hnodup : names.Nodup := hkeys.of_map
    refine (h { prefixTtls := overrides names names.idxOf } names.idxOf rfl).prefixesByText hkeys
      rfl rfl rfl ?_
    exact fun p hp q hq he => (List.idxOf_inj hp).mp he
  · exact fun h s ttl hs => h.followsPrefixes rfl hs

def listed : List Name :=
  [⟨List.replicate 16 0x01, [], none⟩, ⟨List.replicate 16 0x01, [[0x61]], none⟩]

def nested : Name := ⟨List.replicate 16 0x01, [[0x61], [0x62]], none⟩

theorem nested_prefixesByText : PrefixesByText listed nested where
  text p hp _ hno := by
    have hall : ∀ p ∈ listed, nested.startsWith p = true := by decide
    rw [hall p hp] at hno
    cases hno
  pin p hp hstarts := by
    have hall : ∀ p ∈ listed, p.contentHash = none := by decide
    exact ⟨p, hp, hstarts, hall p hp, le_rfl⟩

theorem nested_follows : FollowsPrefixes listed Name.len none nested
    (computeTtl { prefixTtls := overrides listed Name.len } nested) :=
  (ttl_follows_prefixes_iff (by decide +kernel) nested).mpr nested_prefixesByText _ Name.len rfl

def sibling : Name := ⟨List.replicate 16 0x01, [[0x61, 0x62]], none⟩

/-- The sibling has the lifetime of the name that it is not under. -/
theorem sibling_gets_ttl :
    computeTtl { prefixTtls := overrides listed Name.len } sibling = some 2 ∧
      ¬ FollowsPrefixes listed Name.len none sibling
        (computeTtl { prefixTtls := overrides listed Name.len } sibling) := by
  have happlied : computeTtl { prefixTtls := overrides listed Name.len } sibling = some 2 := by
    decide +kernel
  refine ⟨happlied, ?_⟩
  rw [happlied]
  rintro (⟨p, hp, hstarts, -, he⟩ | ⟨-, he⟩)
  · have hall : ∀ p ∈ listed, sibling.startsWith p = true → some 2 ≠ some p.len := by decide
    exact hall p hp hstarts he
  · cases he

end ContentStore

end RnsIcn
