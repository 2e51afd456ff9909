import RnsIcn.Lib.Ascent
import RnsIcn.Store.Represented
import RnsIcn.Store.Serve

/-! # Child selection

A prefix request with a child selector is answered from the rows under the prefix in
the order of their sequences. The answer is the first row of the query that is not
reserved and matches its hash, unless a row whose name does not read back comes
before it.
-/

namespace RnsIcn

open Fallible Transition

namespace ContentStore

/-- The sequence `q` comes no later than `q'` in the order of the selector. -/
def Precedes : ChildSelector → ℕ → ℕ → Prop
  | .none, _, _ => True
  | .latest, q, q' => q' ≤ q
  | .oldest, q, q' => q ≤ q'

theorem Precedes.refl {child : ChildSelector} (q : ℕ) : Precedes child q q := by
  cases child with
  | none => trivial
  | latest => exact le_refl q
  | oldest => exact le_refl q

def rankLe : ChildSelector → Row → Row → Bool
  | .none, x, y => y.insertedAt ≤ x.insertedAt
  | .latest, x, y => y.sequence.getD 0 < x.sequence.getD 0 ||
      (x.sequence.getD 0 == y.sequence.getD 0 && y.insertedAt ≤ x.insertedAt)
  | .oldest, x, y => x.sequence.getD 0 < y.sequence.getD 0 ||
      (x.sequence.getD 0 == y.sequence.getD 0 && y.insertedAt ≤ x.insertedAt)

instance (child : ChildSelector) : Std.Total fun x y : Row => rankLe child x y = true where
  total x y := by
    cases child <;> simp only [rankLe, Bool.or_eq_true, Bool.and_eq_true, decide_eq_true_eq,
      beq_iff_eq] <;> omega

instance (child : ChildSelector) : IsTrans Row fun x y => rankLe child x y = true where
  trans x y z := by
    cases child <;> simp only [rankLe, Bool.or_eq_true, Bool.and_eq_true, decide_eq_true_eq,
      beq_iff_eq] <;> omega

theorem childLe_eq_rankLe {child : ChildSelector} {x y : Row} (hx : x.sequence.isSome = true)
    (hy : y.sequence.isSome = true) : childLe child x y = rankLe child x y := by
  obtain ⟨q, hq⟩ := Option.isSome_iff_exists.mp hx
  obtain ⟨q', hq'⟩ := Option.isSome_iff_exists.mp hy
  cases child <;> simp [childLe, rankLe, hq, hq']

theorem precedes_of_rankLe {child : ChildSelector} {x y : Row} (h : rankLe child x y = true)
    {q q' : ℕ} (hq : x.sequence = some q) (hq' : y.sequence = some q') : Precedes child q q' := by
  cases child with
  | none => trivial
  | latest =>
    simp only [rankLe, hq, hq', Option.getD_some, Bool.or_eq_true, Bool.and_eq_true,
      decide_eq_true_eq, beq_iff_eq] at h
    show q' ≤ q
    omega
  | oldest =>
    simp only [rankLe, hq, hq', Option.getD_some, Bool.or_eq_true, Bool.and_eq_true,
      decide_eq_true_eq, beq_iff_eq] at h
    show q ≤ q'
    omega

theorem childWhere_iff {child : ChildSelector} (hc : child ≠ .none) {floor : Option ℕ} {row : Row} :
    childWhere child floor row = true ↔ ∃ q ∈ row.sequence, Ascent.Above floor q := by
  simp [childWhere, hc, Option.any_eq_true, Option.all_eq_true, Ascent.Above]

theorem pairwise_rank_prefixRows (s : ContentStore) (child : ChildSelector)
    (floor : Option ℕ) (x : Bytes) :
    (s.prefixRows x child floor).Pairwise fun r r' => rankLe child r r' = true := by
  have hwhere : ∀ r ∈ s.prefixRows x child floor, childWhere child floor r = true := by
    intro r hr
    obtain ⟨key, -, -, hr⟩ := mem_prefixRows.mp hr
    exact hr
  have hsame : ∀ r ∈ s.prefixRows x child floor, ∀ r' ∈ s.prefixRows x child floor,
      childLe child r r' = rankLe child r r' := by
    intro r hr r' hr'
    by_cases hc : child = .none
    · rw [hc]
      rfl
    · obtain ⟨q, hq, -⟩ := (childWhere_iff hc).mp (hwhere r hr)
      obtain ⟨q', hq', -⟩ := (childWhere_iff hc).mp (hwhere r' hr')
      exact childLe_eq_rankLe (Option.isSome_iff_exists.mpr ⟨q, hq⟩)
        (Option.isSome_iff_exists.mpr ⟨q', hq'⟩)
  unfold prefixRows at hsame ⊢
  set rows := ((s.content.items.filter fun e => s.namePrefixes.contains (x, e.1) &&
    childWhere child floor e.2).insertionSort fun e f => e.1 ≤ f.1).map Prod.snd
  simp only [List.mem_insertionSort] at hsame
  have hsort : rows.insertionSort (fun x y => childLe child x y) =
      rows.insertionSort fun x y => rankLe child x y := by
    have hmap := List.map_insertionSort (fun x y => childLe child x y = true)
      (fun x y => rankLe child x y = true) id rows fun r hr r' hr' => by
        rw [id, id, hsame r hr r' hr']
    simpa using hmap
  rw [hsort]
  exact List.pairwise_insertionSort (fun x y => rankLe child x y = true) rows

theorem pairwise_prefixRows {s : ContentStore} {x : Bytes} {child : ChildSelector}
    {floor : Option ℕ} :
    (s.prefixRows x child floor).Pairwise fun r r' => ∀ q q', r.sequence = some q →
      r'.sequence = some q' → Precedes child q q' := by
  refine (s.pairwise_rank_prefixRows child floor x).imp ?_
  intro r r' h q q' hq hq'
  exact precedes_of_rankLe h hq hq'

variable [Hashlib]

def Unreadable (row : Row) : Prop := ∀ m, Name.fromBytes row.nameBytes ≠ .ok m

def Servable (row : Row) : Prop :=
  verifyContent row = true ∧
    ∃ m, Name.fromBytes row.nameBytes = .ok m ∧ Discovery.isReserved m = false

/-- Every unreadable row comes after one that may be served. -/
def Clear (rows : List Row) : Prop :=
  ∀ pre row post, rows = pre ++ row :: post → Unreadable row → ∃ r ∈ pre, Servable r

variable {child : ChildSelector} {now : ℕ} {row : Row} {rows : List Row}

omit [Hashlib] in
theorem not_unreadable {m : Name} (h : Name.fromBytes row.nameBytes = .ok m) : ¬ Unreadable row :=
  fun hno => hno m h

theorem clear_nil : Clear [] := by
  intro pre row post h
  simp at h

theorem clear_cons_of_servable (h : Servable row) : Clear (row :: rows) := by
  intro pre r post heq hr
  cases pre with
  | nil =>
    obtain ⟨rfl, -⟩ := List.cons.inj heq
    obtain ⟨-, m, hm, -⟩ := h
    exact absurd hr (not_unreadable hm)
  | cons r' pre =>
    obtain ⟨rfl, -⟩ := List.cons.inj heq
    exact ⟨row, List.mem_cons_self, h⟩

theorem clear_cons_iff (h : ¬ Servable row) :
    Clear (row :: rows) ↔ ¬ Unreadable row ∧ Clear rows := by
  constructor
  · intro hclear
    constructor
    · intro hr
      obtain ⟨r, hm, -⟩ := hclear [] row rows rfl hr
      cases hm
    · intro pre r post heq hr
      obtain ⟨r', hm, hs⟩ := hclear (row :: pre) r post (by rw [heq, List.cons_append]) hr
      rcases List.mem_cons.mp hm with rfl | hm
      · exact absurd hs h
      · exact ⟨r', hm, hs⟩
  · rintro ⟨hread, hclear⟩ pre r post heq hr
    cases pre with
    | nil =>
      obtain ⟨rfl, -⟩ := List.cons.inj heq
      exact absurd hr hread
    | cons r' pre =>
      obtain ⟨rfl, htail⟩ := List.cons.inj heq
      obtain ⟨r', hm, hs⟩ := hclear pre r post htail hr
      exact ⟨r', List.mem_cons_of_mem _ hm, hs⟩

theorem firstValid_of_servable {m : Name} (hv : verifyContent row = true)
    (hm : Name.fromBytes row.nameBytes = .ok m) (hres : Discovery.isReserved m = false) :
    firstValid child now (row :: rows) = .ok (some (rowData row m now)) := by
  simp [firstValid, hm, hres, hv, bind, Except.bind, pure, Except.pure]

theorem firstValid_of_not_servable (hc : child ≠ .none) (h : ¬ Servable row)
    (hread : ¬ Unreadable row) :
    firstValid child now (row :: rows) = firstValid child now rows := by
  obtain ⟨m, hm⟩ := not_forall_not.mp hread
  simp only [firstValid, hm, bind, Except.bind]
  by_cases hres : Discovery.isReserved m = true
  · simp [hc, hres]
  · have hv : verifyContent row ≠ true := fun hv => h ⟨hv, m, hm, by simpa using hres⟩
    simp [hres, hv]

theorem firstValid_of_unreadable (h : Unreadable row) :
    ¬ ∃ r, firstValid child now (row :: rows) = .ok r := by
  rintro ⟨r, hr⟩
  obtain ⟨m, hm, -⟩ := bind_eq_ok.mp hr
  exact h m hm

theorem firstValid_isOk_iff (hc : child ≠ .none) :
    (∃ r, firstValid child now rows = .ok r) ↔ Clear rows := by
  induction rows with
  | nil => exact ⟨fun _ => clear_nil, fun _ => ⟨none, rfl⟩⟩
  | cons row rows ih =>
    by_cases hs : Servable row
    · obtain ⟨hv, m, hm, hres⟩ := hs
      exact ⟨fun _ => clear_cons_of_servable ⟨hv, m, hm, hres⟩,
        fun _ => ⟨_, firstValid_of_servable hv hm hres⟩⟩
    · rw [clear_cons_iff hs]
      by_cases hread : Unreadable row
      · exact ⟨fun h => absurd h (firstValid_of_unreadable hread), fun h => absurd hread h.1⟩
      · rw [firstValid_of_not_servable hc hs hread, ih, and_iff_right hread]

theorem firstValid_eq_none (hc : child ≠ .none) (h : firstValid child now rows = .ok none) :
    ∀ r ∈ rows, ¬ Servable r ∧ ¬ Unreadable r := by
  induction rows with
  | nil => exact List.forall_mem_nil _
  | cons row rows ih =>
    by_cases hs : Servable row
    · obtain ⟨hv, m, hm, hres⟩ := hs
      rw [firstValid_of_servable hv hm hres] at h
      cases h
    · by_cases hread : Unreadable row
      · exact absurd ⟨none, h⟩ (firstValid_of_unreadable hread)
      · rw [firstValid_of_not_servable hc hs hread] at h
        exact List.forall_mem_cons.mpr ⟨⟨hs, hread⟩, ih h⟩

theorem firstValid_eq_some_first (hc : child ≠ .none) {d : Data}
    (h : firstValid child now rows = .ok (some d)) : ∃ pre row post, rows = pre ++ row :: post ∧
      Servable row ∧ Name.fromBytes row.nameBytes = .ok d.name ∧ d = rowData row d.name now ∧
      ∀ r ∈ pre, ¬ Servable r ∧ ¬ Unreadable r := by
  induction rows with
  | nil => cases h
  | cons row rows ih =>
    by_cases hs : Servable row
    · obtain ⟨hv, m, hm, hres⟩ := hs
      rw [firstValid_of_servable hv hm hres] at h
      obtain rfl := Option.some.inj (Except.ok.inj h)
      exact ⟨[], row, rows, rfl, ⟨hv, m, hm, hres⟩, hm, rfl, List.forall_mem_nil _⟩
    · by_cases hread : Unreadable row
      · exact absurd ⟨_, h⟩ (firstValid_of_unreadable hread)
      · rw [firstValid_of_not_servable hc hs hread] at h
        obtain ⟨pre, r, post, rfl, hr, hn, hd, hpre⟩ := ih h
        exact ⟨row :: pre, r, post, rfl, hr, hn, hd, List.forall_mem_cons.mpr ⟨⟨hs, hread⟩, hpre⟩⟩

variable {A : Name → Prop} {s t : ContentStore} {n m : Name} {key : Bytes} {floor : Option ℕ}

/-- The row is unexpired, has the name `m` under the prefix and a sequence at or above the floor. -/
structure Listed (s : ContentStore) (n : Name) (floor : Option ℕ) (now : ℕ) (m : Name)
    (row : Row) : Prop where
  held : ∃ key, s.HoldsRow m key row
  under : m.startsWith n = true
  live : ¬ row.Expired now
  sequenced : ∃ q ∈ row.sequence, Ascent.Above floor q

/-- The row may be chosen: it is listed, it matches its hash and its name is not reserved. -/
def Qualifies (s : ContentStore) (n : Name) (floor : Option ℕ) (now : ℕ) (row : Row) : Prop :=
  ∃ m, s.Listed n floor now m row ∧ verifyContent row = true ∧ Discovery.isReserved m = false

theorem holdsRow_purgeExpired :
    (s.purgeExpired now).HoldsRow m key row ↔ s.HoldsRow m key row ∧ ¬ row.Expired now := by
  rw [purgeExpired, holdsRow_deleteRows]
  exact and_congr_right fun h => not_congr (mem_expiredKeys h.get)

theorem Named.mem (h : Named A s) (hm : s.HoldsRow m key row) : A m := by
  obtain ⟨m', hkey, hrow⟩ := h.row key row hm.get
  have hname : m' = m := by
    apply Name.encode_inj hkey.encodable hm.encodable
    rw [← hrow.nameBytes, ← hm.nameBytes]
  exact hname ▸ hkey.mem

theorem Named.sequence (h : Named A s) (hm : s.HoldsRow m key row) :
    row.metadataJson.sequence = row.sequence := by
  obtain ⟨m', -, d, now, ttl, rfl, -⟩ := h.row key row hm.get
  rfl

theorem HoldsRow.fromBytes_eq (h : s.HoldsRow m key row) {m' : Name}
    (hm : Name.fromBytes row.nameBytes = .ok m') : m' = m :=
  Name.fromBytes_encode_eq h.encodable h.unpinned (h.nameBytes ▸ hm)

/-- The rows that do not read back are those of names with more than 32 components. -/
theorem HoldsRow.unreadable_iff (h : s.HoldsRow m key row) :
    Unreadable row ↔ MAX_COMPONENTS < m.len := by
  rw [Unreadable, h.nameBytes]
  constructor
  · intro hno
    by_contra hlen
    have hpin : ∀ x ∈ m.contentHash, x.length = CONTENT_HASH_BYTES := by simp [h.unpinned]
    exact hno m (Name.fromBytes_encode h.encodable (not_lt.mp hlen) hpin)
  · intro hlen m' hm
    exact absurd (Name.len_le_of_fromBytes_encode h.encodable hm) (not_le.mpr hlen)

theorem mem_prefixRows_iff (hA : Distinguished A) (hs : s.Represented) (hnamed : Named A s)
    (hn : A n) (hu : n.contentHash = none) (he : n.Encodable) (hc : child ≠ .none) :
    row ∈ (s.purgeExpired now).prefixRows (blake2b n.encode) child floor ↔
      ∃ m, s.Listed n floor now m row := by
  have hpurged : (s.purgeExpired now).Represented := hs.deleteRows _
  rw [mem_prefixRows]
  constructor
  · rintro ⟨key, hitem, hindex, hwhere⟩
    obtain ⟨m, hm⟩ := hpurged.row key row (Dict.get?_eq_some.mpr hitem)
    obtain ⟨hm', hlive⟩ := holdsRow_purgeExpired.mp hm
    have hunder := (hpurged.mem_index_iff hA hm hn (hnamed.mem hm') hu he).mp hindex
    exact ⟨m, ⟨key, hm'⟩, hunder, hlive, (childWhere_iff hc).mp hwhere⟩
  · rintro ⟨m, ⟨key, hm⟩, hunder, hlive, hseq⟩
    have hm' := holdsRow_purgeExpired.mpr ⟨hm, hlive⟩
    exact ⟨key, Dict.get?_eq_some.mp hm'.get,
      (hpurged.mem_index_iff hA hm' hn (hnamed.mem hm) hu he).mpr hunder,
      (childWhere_iff hc).mpr hseq⟩

theorem Listed.qualifies_iff (h : s.Listed n floor now m row) (hread : ¬ Unreadable row) :
    s.Qualifies n floor now row ↔ Servable row := by
  obtain ⟨key, hm⟩ := h.held
  constructor
  · rintro ⟨m', h', hv, hres⟩
    obtain ⟨key', hm'⟩ := h'.held
    obtain ⟨stored, hs⟩ := not_forall_not.mp hread
    exact ⟨hv, stored, hs, (hm'.fromBytes_eq hs).symm ▸ hres⟩
  · rintro ⟨hv, stored, hs, hres⟩
    exact ⟨m, h, hv, hm.fromBytes_eq hs ▸ hres⟩

theorem Listed.qualifies (h : s.Listed n floor now m row) (hs : Servable row) :
    s.Qualifies n floor now row := by
  obtain ⟨-, stored, hstored, -⟩ := id hs
  exact (h.qualifies_iff (not_unreadable hstored)).mpr hs

/-- What a query gives: a qualifying row whose sequence comes first, or nothing if none
qualifies. -/
structure Selects (s : ContentStore) (n : Name) (child : ChildSelector) (floor : Option ℕ)
    (now : ℕ) (x : Except PyError (Option Data)) : Prop where
  absent : x = .ok none ↔ ¬ ∃ row, s.Qualifies n floor now row
  chosen : (∃ row, s.Qualifies n floor now row) → ∃ d row, x = .ok (some d) ∧
    s.Qualifies n floor now row ∧ Name.fromBytes row.nameBytes = .ok d.name ∧
    d.content = row.contentBytes ∧ d.metadata.sequence = row.sequence ∧
    ∀ row', s.Qualifies n floor now row' → ∀ q ∈ row.sequence, ∀ q' ∈ row'.sequence,
      Precedes child q q'

theorem readPrefix_of_encodable (he : n.Encodable) (hc : child ≠ .none)
    (hfloor : ∀ x ∈ floor, x < 2 ^ 63) : s.readPrefix n child floor now =
      firstValid child now (s.prefixRows (blake2b n.encode) child floor) := by
  have hbind : sqliteOptInt floor = .ok () := by
    cases floor with
    | none => rfl
    | some x => exact if_pos (hfloor x rfl)
  simp [readPrefix, nameHash_eq_ok.mpr ⟨he, rfl⟩, hc, hbind, bind, Except.bind]

/-- A query is answered as it should be exactly if the prefix can be encoded and its rows are
clear. -/
theorem selects_iff (hA : Distinguished A) (hs : s.Represented) (hnamed : Named A s) (hn : A n)
    (hu : n.contentHash = none) (hc : child ≠ .none) (hfloor : ∀ x ∈ floor, x < 2 ^ 63)
    (later : ℕ) :
    s.Selects n child floor now ((s.purgeExpired now).readPrefix n child floor later) ↔
      n.Encodable ∧ Clear ((s.purgeExpired now).prefixRows (blake2b n.encode) child floor) := by
  constructor
  · intro h
    have hok : ∃ r, (s.purgeExpired now).readPrefix n child floor later = .ok r := by
      by_cases hsome : ∃ row, s.Qualifies n floor now row
      · obtain ⟨d, row, hd, -⟩ := h.chosen hsome
        exact ⟨some d, hd⟩
      · exact ⟨none, h.absent.mpr hsome⟩
    obtain ⟨r, hr⟩ := hok
    obtain ⟨x, hx, -⟩ := bind_eq_ok.mp hr
    have he := (nameHash_eq_ok.mp hx).1
    rw [readPrefix_of_encodable he hc hfloor] at hr
    exact ⟨he, (firstValid_isOk_iff hc).mp ⟨r, hr⟩⟩
  · rintro ⟨he, hclear⟩
    rw [readPrefix_of_encodable he hc hfloor]
    have hrows (row : Row) :
        row ∈ (s.purgeExpired now).prefixRows (blake2b n.encode) child floor ↔
          ∃ m, s.Listed n floor now m row :=
      mem_prefixRows_iff hA hs hnamed hn hu he hc
    have hsorted : ((s.purgeExpired now).prefixRows (blake2b n.encode) child floor).Pairwise _ :=
      pairwise_prefixRows
    obtain ⟨r, hr⟩ : ∃ r, firstValid child later
        ((s.purgeExpired now).prefixRows (blake2b n.encode) child floor) = .ok r :=
      (firstValid_isOk_iff hc).mpr hclear
    rw [hr]
    cases r with
    | none =>
      have hnone := firstValid_eq_none hc hr
      have hno : ¬ ∃ row, s.Qualifies n floor now row := by
        rintro ⟨row, m, hl, hq⟩
        obtain ⟨hserve, hread⟩ := hnone row ((hrows row).mpr ⟨m, hl⟩)
        exact hserve ((hl.qualifies_iff hread).mp ⟨m, hl, hq⟩)
      exact ⟨⟨fun _ => hno, fun _ => rfl⟩, fun hsome => absurd hsome hno⟩
    | some d =>
      obtain ⟨pre, row, post, hsplit, hserve, hname, hd, hpre⟩ := firstValid_eq_some_first hc hr
      rw [hsplit] at hrows hsorted
      obtain ⟨m, hl⟩ := (hrows row).mp (by simp)
      have hq := hl.qualifies hserve
      refine ⟨⟨nofun, fun hno => absurd ⟨row, hq⟩ hno⟩,
        fun _ => ⟨d, row, rfl, hq, hname, ?_, ?_, ?_⟩⟩
      · rw [hd]
        rfl
      · obtain ⟨key, hm⟩ := hl.held
        rw [hd]
        exact hnamed.sequence hm
      · rintro row' ⟨m', hl', hq'⟩ q hqr q' hqr'
        have hmem := (hrows row').mpr ⟨m', hl'⟩
        rw [List.mem_append, List.mem_cons] at hmem
        rcases hmem with hmem | rfl | hmem
        · obtain ⟨hno, hread⟩ := hpre row' hmem
          exact absurd ((hl'.qualifies_iff hread).mp ⟨m', hl', hq'⟩) hno
        · obtain rfl := Option.some.inj (hqr.symm.trans hqr')
          exact Precedes.refl q
        · have hlater := (List.pairwise_append.mp hsorted).2.1
          exact List.rel_of_pairwise_cons hlater hmem q q' hqr hqr'

/-- The sequence of the oldest row at or above the floor, at the `k`-th reading of the clock. -/
def sequenceQuery (n : Name) (times : ℕ → ℕ) (k : ℕ) (s : ContentStore) (floor : Option ℕ) :
    ContentStore × Except PyError (Option ℕ) :=
  let (t, x) := s.getPrefix n .oldest floor (times k)
  (t, x.map fun d => d.bind fun d => d.metadata.sequence)

/-- No row expires in the course of the readings. -/
def Quiet (s : ContentStore) (times : ℕ → ℕ) : Prop :=
  ∀ k key row, s.content.get? key = some row → (row.Expired (times k) ↔ row.Expired (times 0))

theorem qualifies_floor_iff : s.Qualifies n floor now row ↔
    s.Qualifies n none now row ∧ ∃ q ∈ row.sequence, Ascent.Above floor q := by
  constructor
  · rintro ⟨m, hl, hq⟩
    obtain ⟨q, hqr, -⟩ := hl.sequenced
    exact ⟨⟨m, { hl with sequenced := ⟨q, hqr, Ascent.above_none q⟩ }, hq⟩, hl.sequenced⟩
  · rintro ⟨⟨m, hl, hq⟩, hseq⟩
    exact ⟨m, { hl with sequenced := hseq }, hq⟩

omit [Hashlib] in
theorem purgeExpired_eq_self (h : ∀ key row, s.content.get? key = some row → ¬ row.Expired now) :
    s.purgeExpired now = s := by
  have hnone : s.expiredKeys now = [] := by
    rw [List.eq_nil_iff_forall_not_mem]
    intro key hkey
    obtain ⟨e, he, rfl⟩ := List.mem_map.mp hkey
    have hr := Dict.get?_eq_some.mpr (List.mem_of_mem_filter he)
    exact h e.1 e.2 hr ((mem_expiredKeys hr).mp hkey)
  rw [purgeExpired, hnone]
  rfl

omit [Hashlib] in
theorem Quiet.purgeExpired {times : ℕ → ℕ} (h : s.Quiet times) (k : ℕ) :
    s.purgeExpired (times k) = s.purgeExpired (times 0) ∧
      (s.purgeExpired (times 0)).purgeExpired (times k) = s.purgeExpired (times 0) := by
  constructor
  · have hkeys : s.expiredKeys (times k) = s.expiredKeys (times 0) := by
      unfold expiredKeys
      congr 1
      apply List.filter_congr
      intro e he
      have hr := Dict.get?_eq_some.mpr he
      have hiff := h k e.1 e.2 hr
      simp only [Row.Expired] at hiff
      rw [Bool.eq_iff_iff, Option.any_eq_true, Option.any_eq_true]
      simpa using hiff
    rw [ContentStore.purgeExpired, hkeys, ContentStore.purgeExpired]
  · apply purgeExpired_eq_self
    intro key row hr
    obtain ⟨hr, hlive⟩ := get?_purgeExpired.mp hr
    exact mt (h k key row hr).mp hlive

theorem sequenceQuery_of_swept {times : ℕ → ℕ} {k : ℕ} (h : s.purgeExpired (times k) = t) :
    sequenceQuery n times k s floor =
      (t, (t.readPrefix n .oldest floor (times k)).map
        fun d => d.bind fun d => d.metadata.sequence) := by
  rw [sequenceQuery, getPrefix, h]

theorem exists_sequences (s : ContentStore) (n : Name) (now : ℕ) : ∃ S : Finset ℕ, ∀ q, q ∈ S ↔
    ∃ row, s.Qualifies n none now row ∧ row.sequence = some q := by
  classical
  refine ⟨(s.content.values.filterMap Row.sequence).toFinset.filter fun q =>
    ∃ row, s.Qualifies n none now row ∧ row.sequence = some q, fun q => ?_⟩
  rw [Finset.mem_filter, and_iff_right_iff_imp, List.mem_toFinset, List.mem_filterMap]
  rintro ⟨row, ⟨m, hl, -⟩, hq⟩
  obtain ⟨key, hm⟩ := hl.held
  exact ⟨row, List.mem_map.mpr ⟨_, Dict.get?_eq_some.mp hm.get, rfl⟩, hq⟩

/-- A query that is answered as it should be gives the least qualifying sequence. -/
theorem Selects.least {x : Except PyError (Option Data)} (h : s.Selects n .oldest floor now x)
    {S : Finset ℕ} (hS : ∀ q, q ∈ S ↔ ∃ row, s.Qualifies n none now row ∧ row.sequence = some q) :
    ∃ r, (x.map fun d => d.bind fun d => d.metadata.sequence) = .ok r ∧ Ascent.Least S floor r := by
  by_cases hsome : ∃ row, s.Qualifies n floor now row
  · obtain ⟨d, row, rfl, hq, -, -, hseq, hmin⟩ := h.chosen hsome
    obtain ⟨hany, q, hqr, habove⟩ := qualifies_floor_iff.mp hq
    refine ⟨some q, ?_, (hS q).mpr ⟨row, hany, hqr⟩, habove, fun q' hq' habove' => ?_⟩
    · rw [Option.mem_def] at hqr
      simp [Except.map, hseq, hqr]
    · obtain ⟨row', hany', hqr'⟩ := (hS q').mp hq'
      exact hmin row' (qualifies_floor_iff.mpr ⟨hany', q', hqr', habove'⟩) q hqr q' hqr'
  · rw [h.absent.mpr hsome]
    refine ⟨none, rfl, fun q hq habove => hsome ?_⟩
    obtain ⟨row, hany, hqr⟩ := (hS q).mp hq
    exact ⟨row, qualifies_floor_iff.mpr ⟨hany, q, hqr, habove⟩⟩

/-- The walk from the floor visits the qualifying sequences, each once and in ascending order. -/
def WalksAll (s : ContentStore) (n : Name) (floor : Option ℕ) (times : ℕ → ℕ) : Prop :=
  ∃ qs, Ascent.Walk (sequenceQuery n times) 0 s floor qs ∧ qs.Pairwise (· < ·) ∧
    ∀ q, q ∈ qs ↔ ∃ row, s.Qualifies n floor (times 0) row ∧ row.sequence = some q

section Walk

variable {times : ℕ → ℕ}

theorem walksAll_of_selects (hquiet : s.Quiet times)
    (hselects : ∀ k f, f = floor ∨ (∃ row, s.Qualifies n floor (times 0) row ∧
      ∃ q ∈ row.sequence, f = some (q + 1)) → s.Selects n .oldest f (times 0)
        ((s.purgeExpired (times 0)).readPrefix n .oldest f (times k))) :
    s.WalksAll n floor times := by
  obtain ⟨S, hS⟩ := exists_sequences s n (times 0)
  let I (t : ContentStore) : Prop := ∀ k, t.purgeExpired (times k) = s.purgeExpired (times 0)
  have hI : ∀ k t f, I t → I (sequenceQuery n times k t f).1 := by
    intro k t f ht j
    rw [sequenceQuery_of_swept (ht k)]
    exact (hquiet.purgeExpired j).2
  have hleast : ∀ k t f, I t → Ascent.Floor S floor f →
      ∃ r, (sequenceQuery n times k t f).2 = .ok r ∧ Ascent.Least S f r := by
    intro k t f ht hf
    rw [sequenceQuery_of_swept (ht k)]
    refine (hselects k f ?_).least hS
    rcases hf with rfl | ⟨q, hq, habove, rfl⟩
    · exact .inl rfl
    · obtain ⟨row, hany, hqr⟩ := (hS q).mp hq
      exact .inr ⟨row, qualifies_floor_iff.mpr ⟨hany, q, hqr, habove⟩, q, hqr, rfl⟩
  obtain ⟨qs, hwalk, hsorted, hmem⟩ := Ascent.exists_walk (s := s) (k := 0) hI hleast
    (fun k => (hquiet.purgeExpired k).1) (.inl rfl)
  refine ⟨qs, hwalk, hsorted, fun q => ?_⟩
  rw [hmem, hS]
  constructor
  · rintro ⟨⟨row, hany, hqr⟩, habove⟩
    exact ⟨row, qualifies_floor_iff.mpr ⟨hany, q, hqr, habove⟩, hqr⟩
  · rintro ⟨row, hq, hqr⟩
    obtain ⟨hany, q', hqr', habove⟩ := qualifies_floor_iff.mp hq
    obtain rfl := Option.some.inj (hqr'.symm.trans hqr)
    exact ⟨⟨row, hany, hqr⟩, habove⟩

/-- On a walk that visits all, the query after each qualifying sequence is answered. -/
theorem WalksAll.answered (hquiet : s.Quiet times) (h : s.WalksAll n floor times)
    (hq : s.Qualifies n floor (times 0) row) {q : ℕ} (hqr : row.sequence = some q) :
    ∃ k r, (s.purgeExpired (times 0)).readPrefix n .oldest (some (q + 1)) (times k) = .ok r := by
  obtain ⟨qs, hwalk, -, hmem⟩ := h
  let I (t : ContentStore) : Prop := ∀ k, t.purgeExpired (times k) = s.purgeExpired (times 0)
  have hI : ∀ k t f, I t → I (sequenceQuery n times k t f).1 := by
    intro k t f ht j
    rw [sequenceQuery_of_swept (ht k)]
    exact (hquiet.purgeExpired j).2
  obtain ⟨k, t, r, ht, hr⟩ := hwalk.answered hI (fun k => (hquiet.purgeExpired k).1) (some (q + 1))
    (.inr ⟨q, (hmem q).mpr ⟨row, hq, hqr⟩, rfl⟩)
  rw [sequenceQuery_of_swept (ht k)] at hr
  obtain ⟨x, hx, -⟩ := map_eq_ok.mp hr
  exact ⟨k, x, hx⟩

end Walk

/-- The rows of the query at the floor, once the expired rows are gone. -/
def queried (s : ContentStore) (n : Name) (child : ChildSelector) (floor : Option ℕ) (now : ℕ) :
    List Row :=
  (s.purgeExpired now).prefixRows (blake2b n.encode) child floor

/-- In a reached store, both selections are exact and the walk visits all qualifying sequences in
order, exactly if the prefix can be encoded and in each of these queries every unreadable row comes
after one that may be served. -/
theorem child_selection_iff (hA : Distinguished A) {s₀ : ContentStore} {ops : List StoreOp}
    (hcontent : s₀.content = .empty) (hindex : s₀.namePrefixes = [])
    (hrun : Run step (fun _ => StoreOp.Uses A) s₀ ops s) (hn : A n) (hu : n.contentHash = none)
    {times : ℕ → ℕ} (hquiet : s.Quiet times) (hfloor : ∀ x ∈ floor, x < 2 ^ 63)
    (hseq : ∀ key row, s.content.get? key = some row → ∀ q ∈ row.sequence, q < 2 ^ 63 - 1) :
    (s.Selects n .latest floor (times 0) (s.getPrefix n .latest floor (times 0)).2 ∧
      s.Selects n .oldest floor (times 0) (s.getPrefix n .oldest floor (times 0)).2 ∧
      s.WalksAll n floor times) ↔
    n.Encodable ∧ Clear (s.queried n .latest floor (times 0)) ∧
      Clear (s.queried n .oldest floor (times 0)) ∧
      ∀ row, s.Qualifies n floor (times 0) row → ∀ q ∈ row.sequence,
        Clear (s.queried n .oldest (some (q + 1)) (times 0)) := by
  have hs : s.Represented ∧ Named A s :=
    hrun.invariant (I := fun s => s.Represented ∧ Named A s)
      ⟨.empty hcontent hindex, .empty hcontent hindex⟩ fun s op t hi hop hs => by
        obtain rfl := Option.some.inj hs
        exact ⟨hi.1.apply op, hi.2.apply hA hop⟩
  have hselects {child : ChildSelector} (hc : child ≠ .none) {f : Option ℕ}
      (hf : ∀ x ∈ f, x < 2 ^ 63) (later : ℕ) :
      s.Selects n child f (times 0) ((s.purgeExpired (times 0)).readPrefix n child f later) ↔
        n.Encodable ∧ Clear ((s.purgeExpired (times 0)).prefixRows (blake2b n.encode) child f) :=
    selects_iff hA hs.1 hs.2 hn hu hc hf later
  have hnext : ∀ row, s.Qualifies n floor (times 0) row → ∀ q ∈ row.sequence,
      ∀ x ∈ some (q + 1), x < 2 ^ 63 := by
    rintro row ⟨m, hl, -⟩ q hq x hx
    obtain ⟨key, hm⟩ := hl.held
    obtain rfl := Option.some.inj hx
    have hlt := hseq key row hm.get q hq
    omega
  constructor
  · rintro ⟨hlatest, holdest, hwalk⟩
    obtain ⟨he, hclear⟩ := (hselects (by decide) hfloor _).mp hlatest
    refine ⟨he, hclear, ((hselects (by decide) hfloor _).mp holdest).2, fun row hq q hqr => ?_⟩
    obtain ⟨k, r, hr⟩ := hwalk.answered hquiet hq hqr
    rw [readPrefix_of_encodable he (by decide) (hnext row hq q hqr)] at hr
    exact (firstValid_isOk_iff (by decide)).mp ⟨r, hr⟩
  · rintro ⟨he, hlatest, holdest, hafter⟩
    refine ⟨(hselects (by decide) hfloor _).mpr ⟨he, hlatest⟩,
      (hselects (by decide) hfloor _).mpr ⟨he, holdest⟩, walksAll_of_selects hquiet ?_⟩
    rintro k f (rfl | ⟨row, hq, q, hqr, rfl⟩)
    · exact (hselects (by decide) hfloor _).mpr ⟨he, holdest⟩
    · exact (hselects (by decide) (hnext row hq q hqr) _).mpr ⟨he, hafter row hq q hqr⟩

theorem clear_of_readable (h : ∀ r ∈ rows, ¬ Unreadable r) : Clear rows := by
  rintro pre r post rfl hr
  exact absurd hr (h r (by simp))

theorem clear_queried (h : ∀ key row, s.content.get? key = some row → ¬ Unreadable row) :
    Clear (s.queried n child floor now) := by
  apply clear_of_readable
  intro row hrow
  obtain ⟨key, hitem, -, -⟩ := mem_prefixRows.mp hrow
  exact h key row (get?_purgeExpired.mp (Dict.get?_eq_some.mpr hitem)).1

omit [Hashlib] in
theorem edition_selected :
    letI := Data.paddedHash
    let s := holding (signedHi editionName)
    let collection := editionName.ancestor 0
    s.Selects collection .latest none 5 (s.getPrefix collection .latest none 5).2 ∧
      s.Selects collection .oldest none 5 (s.getPrefix collection .oldest none 5).2 ∧
      s.WalksAll collection none fun _ => 5 := by
  let := Data.paddedHash
  intro s collection
  have hrun : Run step (fun _ => StoreOp.Uses fun m => ∃ i, m = editionName.ancestor i) {}
      [.insert editionName (signedHi editionName) 0] s :=
    .cons ⟨1, rfl⟩ rfl (.nil _)
  have hrows : ∀ e ∈ s.content.items, e.2.sequence = some 0 ∧
      Name.fromBytes e.2.nameBytes = .ok editionName := by decide
  have hrow (key : Bytes) (row : Row) (hr : s.content.get? key = some row) :=
    hrows _ (Dict.get?_eq_some.mp hr)
  have hclear {child : ChildSelector} {f : Option ℕ} : Clear (s.queried collection child f 5) :=
    clear_queried fun key row hr => not_unreadable (hrow key row hr).2
  have hquiet : s.Quiet fun _ => 5 := fun _ _ _ _ => Iff.rfl
  refine (child_selection_iff (distinguished_ancestors rfl (by decide)) rfl rfl hrun ⟨0, rfl⟩ rfl
    hquiet (by exact nofun) ?_).mpr
    ⟨⟨by decide, by decide⟩, hclear, hclear, fun _ _ _ _ => hclear⟩
  intro key row hr q hq
  rw [Option.mem_def, (hrow key row hr).1] at hq
  obtain rfl := Option.some.inj hq
  decide

def deepEdition : Data where
  name := ⟨List.replicate 16 0x01, List.replicate 32 [], none⟩
  content := [0x68, 0x69]
  metadata := { sequence := some 5 }

omit [Hashlib] in
/-- The only edition of a collection qualifies, and the queries raise at its name. -/
theorem deep_edition_unselected :
    letI := Data.paddedHash
    let s := holding deepEdition
    let collection := deepEdition.name.ancestor 0
    (∃ row, s.Qualifies collection none 5 row) ∧
      (s.getPrefix collection .latest none 5).2 =
        .error (.nameError "invalid component count: 33") ∧
      ¬ (s.Selects collection .latest none 5 (s.getPrefix collection .latest none 5).2 ∧
        s.Selects collection .oldest none 5 (s.getPrefix collection .oldest none 5).2 ∧
        s.WalksAll collection none fun _ => 5) := by
  let := Data.paddedHash
  intro s collection
  have hheld : s.HoldsRow deepEdition.name (blake2b deepEdition.name.encode)
      (makeRow deepEdition.name.encode deepEdition 0 none) :=
    ⟨rfl, ⟨by decide, by decide⟩, rfl, rfl, rfl⟩
  have hqualifies : s.Qualifies collection none 5
      (makeRow deepEdition.name.encode deepEdition 0 none) := by
    refine ⟨deepEdition.name, ⟨⟨_, hheld⟩, rfl, ?_, 5, rfl, Ascent.above_none 5⟩, rfl, rfl⟩
    rintro ⟨x, hx, -⟩
    cases hx
  refine ⟨⟨_, hqualifies⟩, rfl, fun hselects => ?_⟩
  obtain ⟨d, row, hd, -⟩ := hselects.1.chosen ⟨_, hqualifies⟩
  cases hd

end ContentStore

end RnsIcn
