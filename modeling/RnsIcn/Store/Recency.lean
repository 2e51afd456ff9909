import RnsIcn.Lib.BoundedDict
import RnsIcn.Lib.Recency
import RnsIcn.Store.Transaction

/-! # Which rows an insertion evicts

The rows of a full store are evicted in the order of their last insertion, and a read
does not move a row in this order. A log of the insertions and the successful reads
shows when that is the order of their last use.
-/

namespace RnsIcn

open Fallible Recency Transition

variable [Hashlib]

namespace ContentStore

variable {s t : ContentStore} {key : Bytes} {row : Row} {name : Name} {d : Data} {now : ℕ}

def servedUse (now : ℕ) : Except PyError (Option Data) → Option (Use Bytes)
  | .ok (some d) => (nameHash d.name).toOption.map fun key => ⟨key, now, true⟩
  | _ => none

/-- The use that an operation makes of a row: an insertion writes one and a read serves one. -/
def use (s : ContentStore) : StoreOp → Option (Use Bytes)
  | .insert name d now =>
    match s.insert name d now with
    | .ok _ => (nameHash name.withoutContentHash).toOption.map fun key => ⟨key, now, false⟩
    | .error _ => none
  | .get name now => servedUse now (s.get name now).2
  | .getPrefix name child minSequence now =>
    servedUse now (s.getPrefix name child minSequence now).2
  | _ => none

theorem servedUse_eq_some {x : Except PyError (Option Data)} {u : Use Bytes}
    (h : servedUse now x = some u) : u.time = now ∧ u.isRead = true := by
  unfold servedUse at h
  split at h
  · obtain ⟨key, -, rfl⟩ := Option.map_eq_some_iff.mp h
    exact ⟨rfl, rfl⟩
  · cases h

/-- A use is logged with the time of the operation, as a write for an insertion that succeeds and
as a read otherwise. -/
theorem use_eq_some {op : StoreOp} {u : Use Bytes} (h : s.use op = some u) :
    op.time = some u.time ∧ (u.isRead = true ∨ ∃ name d now t, op = .insert name d now ∧
      s.insert name d now = .ok t) := by
  cases op with
  | insert name d now =>
    rw [use] at h
    cases hi : s.insert name d now with
    | error e => simp [hi] at h
    | ok t =>
      rw [hi] at h
      obtain ⟨key, -, rfl⟩ := Option.map_eq_some_iff.mp h
      exact ⟨rfl, .inr ⟨name, d, now, t, rfl, hi⟩⟩
  | get name now =>
    obtain ⟨rfl, hread⟩ := servedUse_eq_some h
    exact ⟨rfl, .inl hread⟩
  | getPrefix name child minSequence now =>
    obtain ⟨rfl, hread⟩ := servedUse_eq_some h
    exact ⟨rfl, .inl hread⟩
  | _ => cases h

theorem use_insert (h : s.insert name d now = .ok t) :
    s.use (.insert name d now) = some ⟨blake2b name.withoutContentHash.encode, now, false⟩ := by
  obtain ⟨nameBytes, prefixes, hb, -⟩ := insert_eq_ok h
  obtain ⟨he, rfl⟩ := Name.toBytes_eq_ok.mp hb
  simp [use, h, nameHash_eq_ok.mpr ⟨he, rfl⟩, Except.toOption]

theorem apply_max (op : StoreOp) : (s.apply op).max = s.max := by
  cases op with
  | insert name d now =>
    rw [apply]
    cases hi : s.insert name d now with
    | error e => rfl
    | ok t =>
      obtain ⟨nameBytes, prefixes, -, -, -, count, rfl⟩ := insert_eq_ok hi
      exact deleteRows_max _ _
  | get | getPrefix | purgeExpired | evictLru => exact deleteRows_max s _
  | remove name =>
    rw [apply, remove]
    cases nameHash name with
    | error e => rfl
    | ok k => exact deleteRows_max s [k]
  | invalidate name byPrefix =>
    rw [apply, invalidate]
    cases nameHash name with
    | error e => rfl
    | ok k => exact deleteRows_max s _

theorem apply_size_le (op : StoreOp) (h : s.content.size ≤ s.max) :
    (s.apply op).content.size ≤ (s.apply op).max := by
  have hdelete (keys : List Bytes) :
      (s.deleteRows keys).content.size ≤ (s.deleteRows keys).max := by
    rw [deleteRows_max]
    exact (size_deleteRows_le s keys).trans h
  cases op with
  | insert name d now =>
    rw [apply]
    cases hi : s.insert name d now with
    | error e => exact h
    | ok t => exact insert_size_le hi
  | get | getPrefix | purgeExpired | evictLru => exact hdelete _
  | remove name =>
    rw [apply, remove]
    cases nameHash name with
    | error e => exact h
    | ok k => exact hdelete [k]
  | invalidate name byPrefix =>
    rw [apply, invalidate]
    cases nameHash name with
    | error e => exact h
    | ok k => exact hdelete _

end ContentStore

/-- A store with the log of its uses and the first reading that the clock has not passed. -/
structure History where
  store : ContentStore
  log : List (Use Bytes) := []
  next : ℕ := 0

namespace History

/-- An operation that reads the clock. -/
def step (h : History) (op : StoreOp) : Option History :=
  op.time.map fun now => ⟨h.store.apply op, (h.store.use op).toList ++ h.log, now + 1⟩

/-- The readings of the clock increase strictly. -/
def InOrder (h : History) (op : StoreOp) : Prop := ∀ now ∈ op.time, h.next ≤ now

structure Initial (h : History) : Prop where
  content : h.store.content = .empty
  log : h.log = []
  max : 0 < h.store.max

/-- The rows are those of the last insertions in the log, within the capacity. -/
structure Kept (h : History) : Prop where
  max : 0 < h.store.max
  size : h.store.content.size ≤ h.store.max
  timed : Timed h.log
  past : ∀ u ∈ h.log, u.time < h.next
  written : ∀ key row, h.store.content.get? key = some row →
    ⟨key, row.insertedAt, false⟩ ∈ h.log ∧
      ∀ u ∈ h.log, u.key = key → u.isRead = true ∨ u.time ≤ row.insertedAt

variable {h h' : History} {key : Bytes} {row : Row} {name : Name} {d : Data} {now : ℕ}

omit [Hashlib] in
theorem Initial.kept (h₀ : h.Initial) : h.Kept where
  max := h₀.max
  size := by
    rw [h₀.content]
    exact Nat.zero_le _
  timed := by
    rw [h₀.log]
    exact .nil
  past := by
    rw [h₀.log]
    exact List.forall_mem_nil _
  written key row hr := by
    rw [h₀.content] at hr
    cases hr

/-- A row after an operation is an old one whose key has at most been read, or the new one. -/
theorem get?_apply {op : StoreOp} (hr : (h.store.apply op).content.get? key = some row) :
    (∃ name d now t, op = .insert name d now ∧ h.store.insert name d now = .ok t ∧
      h.store.use op = some ⟨key, now, false⟩ ∧ row.insertedAt = now) ∨
    h.store.content.get? key = some row ∧ ∀ u ∈ h.store.use op, u.key = key → u.isRead = true := by
  by_cases hins : ∃ name d now t, op = .insert name d now ∧ h.store.insert name d now = .ok t
  · obtain ⟨name, d, now, t, rfl, hi⟩ := hins
    have huse := ContentStore.use_insert hi
    rw [ContentStore.apply, hi, ContentStore.commit_ok] at hr
    obtain ⟨nameBytes, prefixes, hb, -, -, count, rfl⟩ := ContentStore.insert_eq_ok hi
    obtain ⟨-, rfl⟩ := Name.toBytes_eq_ok.mp hb
    have hrow := ContentStore.evictLruInternal_sub _ count _ _ hr
    rw [ContentStore.get?_upsert] at hrow
    by_cases hkey : key = blake2b name.withoutContentHash.encode
    · rw [if_pos hkey] at hrow
      obtain rfl := Option.some.inj hrow
      exact .inl ⟨name, d, now, _, rfl, hi, hkey ▸ huse, rfl⟩
    · rw [if_neg hkey] at hrow
      refine .inr ⟨hrow, fun u hu hku => ?_⟩
      obtain rfl := Option.some.inj (huse.symm.trans hu)
      exact absurd hku.symm hkey
  · have hread : ∀ u ∈ h.store.use op, u.isRead = true := fun u hu =>
      (ContentStore.use_eq_some hu).2.resolve_right hins
    refine .inr ⟨?_, fun u hu _ => hread u hu⟩
    cases op with
    | insert name d now =>
      cases hi : h.store.insert name d now with
      | error e => simpa [ContentStore.apply, hi] using hr
      | ok t => exact absurd ⟨name, d, now, t, rfl, hi⟩ hins
    | _ => exact ContentStore.apply_get? id hr

theorem Kept.step (hk : h.Kept) {op : StoreOp} (hop : h.InOrder op) (hs : h.step op = some h') :
    h'.Kept := by
  obtain ⟨now, htime, rfl⟩ := Option.map_eq_some_iff.mp hs
  have hnow := hop now htime
  have hnew : ∀ u ∈ h.store.use op, u.time = now := fun u hu =>
    Option.some.inj ((ContentStore.use_eq_some hu).1.symm.trans htime)
  have hpast : ∀ u ∈ h.log, u.time < now := fun u hu => (hk.past u hu).trans_le hnow
  have hlog : ∀ u ∈ (h.store.use op).toList ++ h.log, u ∈ h.store.use op ∨ u ∈ h.log := by
    intro u hu
    rwa [List.mem_append, Option.mem_toList] at hu
  constructor
  · exact hk.max.trans_eq (ContentStore.apply_max op).symm
  · exact ContentStore.apply_size_le op hk.size
  · cases huse : h.store.use op with
    | none => exact hk.timed
    | some u => exact .cons (fun v hv => (hpast v hv).trans_eq (hnew u huse).symm) hk.timed
  · intro u hu
    rcases hlog u hu with hu | hu
    · exact Nat.lt_succ_of_le (hnew u hu).le
    · exact (hpast u hu).trans (Nat.lt_succ_self now)
  · intro key row hr
    rcases get?_apply hr with ⟨name, d, at', t, rfl, -, huse, hrow⟩ | ⟨hrow, hread⟩
    · refine ⟨List.mem_append_left _ (Option.mem_toList.mpr (hrow ▸ huse)), fun u hu _ => ?_⟩
      obtain rfl : at' = now := Option.some.inj htime
      rcases hlog u hu with hu | hu
      · exact .inr ((hnew u hu).trans hrow.symm).le
      · exact .inr ((hpast u hu).trans_eq hrow.symm).le
    · obtain ⟨hmem, hlast⟩ := hk.written key row hrow
      refine ⟨List.mem_append_right _ hmem, fun u hu hku => ?_⟩
      rcases hlog u hu with hu | hu
      · exact .inl (hread u hu hku)
      · exact hlast u hu hku

theorem kept_of_run {ops : List StoreOp} (h₀ : h.Initial) (hrun : Run step InOrder h ops h') :
    h'.Kept :=
  hrun.invariant h₀.kept fun _ _ _ hk hop hs => hk.step hop hs

def First (h : History) (key : Bytes) : Prop :=
  ∃ row, h.store.content.get? key = some row ∧
    ∀ k r, h.store.content.get? k = some r → row.insertedAt ≤ r.insertedAt

omit [Hashlib] in
theorem Kept.lt_of_first (hk : h.Kept) (hr : h.store.content.get? key = some row)
    (hmin : ∀ k r, h.store.content.get? k = some r → row.insertedAt ≤ r.insertedAt) {k : Bytes}
    {r : Row} (hkr : h.store.content.get? k = some r) (hne : k ≠ key) :
    row.insertedAt < r.insertedAt := by
  refine (hmin k r hkr).lt_of_ne fun heq => hne ?_
  have hsame := hk.timed.eq_of_time_eq (hk.written key row hr).1 (hk.written k r hkr).1 heq
  exact congrArg Use.key hsame.symm

omit [Hashlib] in
theorem exists_first (hne : 0 < h.store.content.size) : ∃ key, h.First key := by
  obtain ⟨key, row, hlow, -⟩ := Dict.exists_lowest Row.insertedAt hne
  exact ⟨key, row, hlow.get?, fun _ _ => hlow.le⟩

end History

namespace ContentStore

variable {s t : ContentStore} {key : Bytes} {row : Row} {name : Name} {d : Data} {now : ℕ}

omit [Hashlib] in
/-- If one row was inserted before all others, it is the first one to be evicted. -/
theorem lruKeys_one (hr : s.content.get? key = some row)
    (hmin : ∀ k r, s.content.get? k = some r → k ≠ key → row.insertedAt < r.insertedAt) :
    s.lruKeys 1 = [key] := by
  have hmem := (List.mem_insertionSort fun x y : Bytes × Row => x.2.insertedAt ≤ y.2.insertedAt).mpr
    (Dict.get?_eq_some.mp hr)
  have hsub : ∀ e ∈ s.content.items.insertionSort (fun x y => x.2.insertedAt ≤ y.2.insertedAt),
      e ∈ s.content.items := fun e he => (List.mem_insertionSort _).mp he
  have hsorted := List.pairwise_insertionSort
    (fun x y : Bytes × Row => x.2.insertedAt ≤ y.2.insertedAt) s.content.items
  rw [lruKeys]
  cases hl : s.content.items.insertionSort fun x y => x.2.insertedAt ≤ y.2.insertedAt with
  | nil =>
    rw [hl] at hmem
    cases hmem
  | cons e l =>
    rw [hl] at hmem hsub hsorted
    have hle : e.2.insertedAt ≤ row.insertedAt := by
      rcases List.mem_cons.mp hmem with rfl | hmem
      · exact le_rfl
      · exact List.rel_of_pairwise_cons hsorted hmem
    have hkey : e.1 = key := by
      by_contra hne
      have he := Dict.get?_eq_some.mpr (hsub e List.mem_cons_self)
      exact (hmin e.1 e.2 he hne).not_ge hle
    simp [hkey]

/-- The insertion of a new row into a full store. -/
def Exceeds (s : ContentStore) (name : Name) : Prop :=
  s.content.contains (blake2b name.withoutContentHash.encode) = false ∧
    s.max ≤ s.content.size

omit [Hashlib] in
theorem size_upsert_of_new {prefixes : List Bytes} (hnew : s.content.contains key = false) :
    (s.upsert key row prefixes).content.size = s.content.size + 1 := by
  refine Dict.size_set_of_get?_eq_none ?_
  rw [Dict.get?_eq_none, Dict.mem_keys, ← Dict.contains_iff, hnew]
  exact Bool.false_ne_true

theorem insert_of_exceeds (hi : s.insert name d now = .ok t) (hover : s.Exceeds name)
    (hsize : s.content.size ≤ s.max) : ∃ ttl prefixes,
      t = (s.upsert (blake2b name.withoutContentHash.encode)
        (makeRow name.withoutContentHash.encode d now ttl) prefixes).evictLruInternal 1 := by
  simp only [insert, bind_eq_ok, pure_eq_ok] at hi
  obtain ⟨nameBytes, hb, -, -, prefixes, -, ht⟩ := hi
  obtain ⟨-, rfl⟩ := Name.toBytes_eq_ok.mp hb
  refine ⟨s.computeTtl name.withoutContentHash, prefixes, ?_⟩
  have hgrown : (s.upsert (blake2b name.withoutContentHash.encode)
    (makeRow name.withoutContentHash.encode d now (s.computeTtl name.withoutContentHash))
      prefixes).content.size = s.content.size + 1 := size_upsert_of_new hover.1
  have hfull := hover.2
  have hmax : (s.upsert (blake2b name.withoutContentHash.encode)
    (makeRow name.withoutContentHash.encode d now (s.computeTtl name.withoutContentHash))
      prefixes).max = s.max := rfl
  rw [hgrown, hmax, if_pos (by omega)] at ht
  rw [← ht]
  congr 1
  omega

theorem contains_insert_full (hi : s.insert name d now = .ok t) (hover : s.Exceeds name)
    (hsize : s.content.size ≤ s.max) (hr : s.content.get? key = some row)
    (hmin : ∀ k r, s.content.get? k = some r → k ≠ key → row.insertedAt < r.insertedAt)
    (hnow : row.insertedAt < now) (k : Bytes) : t.content.contains k = true ↔
      k ≠ key ∧ (k = blake2b name.withoutContentHash.encode ∨ s.content.contains k = true) := by
  obtain ⟨ttl, prefixes, rfl⟩ := insert_of_exceeds hi hover hsize
  set new := blake2b name.withoutContentHash.encode
  have hnew : key ≠ new := by
    rintro rfl
    have hhas := Dict.contains_iff.mpr ⟨row, hr⟩
    rw [hover.1] at hhas
    cases hhas
  have hfirst : (s.upsert new (makeRow name.withoutContentHash.encode d now ttl)
      prefixes).lruKeys 1 = [key] := by
    apply lruKeys_one
    · rw [get?_upsert, if_neg hnew, hr]
    · intro k r hkr hne
      rw [get?_upsert] at hkr
      by_cases hk : k = new
      · rw [if_pos hk] at hkr
        obtain rfl := Option.some.inj hkr
        exact hnow
      · rw [if_neg hk] at hkr
        exact hmin k r hkr hne
  rw [Dict.contains_iff, Dict.contains_iff, evictLruInternal, hfirst]
  simp only [get?_deleteRows, List.mem_singleton, get?_upsert]
  by_cases hk : k = key <;> by_cases hkn : k = new <;> simp [hk, hkn]

omit [Hashlib] in
/-- A row at the end of the table is not the first one to be evicted if another was inserted no
later. -/
theorem not_mem_lruKeys_one {l : List (Bytes × Row)} {e : Bytes × Row}
    (hl : s.content.items = l ++ [(key, row)]) (he : e ∈ l)
    (hle : e.2.insertedAt ≤ row.insertedAt) : key ∉ s.lruKeys 1 := by
  let le : Bytes × Row → Bytes × Row → Prop := fun x y => x.2.insertedAt ≤ y.2.insertedAt
  have hpair : [e, (key, row)].Sublist s.content.items := by
    rw [hl]
    exact (List.singleton_sublist.mpr he).append (List.Sublist.refl _)
  have hsorted := List.sublist_insertionSort (r := le) (List.pairwise_pair.mpr hle) hpair
  have hperm := List.perm_insertionSort le s.content.items
  have hnodup := (hperm.map Prod.fst).nodup_iff.mpr s.content.nodup
  intro (hmem : key ∈ ((s.content.items.insertionSort le).take 1).map Prod.fst)
  cases hs : s.content.items.insertionSort le with
  | nil =>
    rw [hs] at hsorted
    cases hsorted
  | cons f rest =>
    rw [hs] at hsorted hnodup hmem
    obtain rfl : key = f.1 := by simpa using hmem
    -- The row would come after another one and again before it.
    have hlater : (f.1, row) ∈ rest := by
      cases hsorted with
      | cons _ h => exact h.mem (by simp)
      | cons_cons _ h => exact h.mem (by simp)
    exact (List.nodup_cons.mp hnodup).1 (List.mem_map.mpr ⟨_, hlater, rfl⟩)

theorem size_insert_le (hi : s.insert name d now = .ok t) :
    t.content.size ≤ s.content.size + 1 := by
  obtain ⟨nameBytes, prefixes, -, -, -, count, rfl⟩ := insert_eq_ok hi
  exact (size_deleteRows_le _ _).trans (Dict.size_set_le s.content _ _)

/-- An inserted row stays if there is room for it, or if it is not older than the others. -/
theorem get?_insert_self (hi : s.insert name d now = .ok t) (hsize : s.content.size ≤ s.max)
    (hmax : 0 < s.max) (hroom : s.content.size < s.max ∨
      ∀ k r, s.content.get? k = some r → r.insertedAt ≤ now) :
    t.content.get? (blake2b name.withoutContentHash.encode) =
      some (makeRow name.withoutContentHash.encode d now
        (s.computeTtl name.withoutContentHash)) := by
  simp only [insert, bind_eq_ok, pure_eq_ok] at hi
  obtain ⟨nameBytes, hb, -, -, prefixes, -, ht⟩ := hi
  obtain ⟨-, rfl⟩ := Name.toBytes_eq_ok.mp hb
  set key := blake2b name.withoutContentHash.encode
  set row := makeRow name.withoutContentHash.encode d now (s.computeTtl name.withoutContentHash)
  have hnew : (s.upsert key row prefixes).content.get? key = some row := by
    rw [get?_upsert, if_pos rfl]
  split at ht
  · rename_i hover
    -- The table has grown by the row, and one row is evicted.
    have hkey : s.content.contains key = false := by
      rw [← Bool.not_eq_true, Dict.contains_iff]
      rintro ⟨old, hold⟩
      have hsame : (s.upsert key row prefixes).content.size = s.content.size :=
        Dict.size_set_of_get?_eq_some hold
      exact hover.not_ge (hsame ▸ hsize)
    have hgrown : (s.upsert key row prefixes).content.size = s.content.size + 1 :=
      size_upsert_of_new hkey
    have hcap : (s.upsert key row prefixes).max = s.max := rfl
    have hone : (s.upsert key row prefixes).content.size - (s.upsert key row prefixes).max = 1 := by
      omega
    have hitems : (s.upsert key row prefixes).content.items = s.content.items ++ [(key, row)] := by
      have hkeys : key ∉ s.content.keys := by
        rw [Dict.mem_keys, ← Dict.contains_iff, hkey]
        exact Bool.false_ne_true
      rw [upsert, Dict.set, dif_neg hkeys]
    have hpos : 0 < s.content.items.length := by
      have : s.content.size = s.content.items.length := rfl
      omega
    obtain ⟨e, he⟩ := List.exists_mem_of_length_pos hpos
    have hle : e.2.insertedAt ≤ row.insertedAt := by
      rcases hroom with hroom | hroom
      · omega
      · exact hroom e.1 e.2 (Dict.get?_eq_some.mpr he)
    rw [← ht, hone, evictLruInternal, get?_deleteRows,
      if_neg (not_mem_lruKeys_one hitems he hle), hnew]
  · rw [← ht, hnew]

end ContentStore

namespace History

variable {h h' : History} {name : Name} {d : Data} {now : ℕ}

/-- Every row that the insertion evicts was last used no later than every row that it leaves. -/
def EvictsLeastRecent (h : History) (name : Name) (d : Data) (now : ℕ) : Prop :=
  ∀ h', h.step (.insert name d now) = some h' → ∀ evicted kept,
    (h.store.content.contains evicted = true ∨
      evicted = blake2b name.withoutContentHash.encode) →
    h'.store.content.contains evicted = false → h'.store.content.contains kept = true →
      NoLater h'.log evicted kept

/-- Every read of the row that was inserted first has been followed by a use of each other row. -/
def FirstIdle (h : History) : Prop :=
  ∀ key, h.First key → ∀ u ∈ h.log, u.key = key → u.isRead = true →
    ∀ other, h.store.content.contains other = true → other ≠ key →
      ∃ v ∈ h.log, v.key = other ∧ u.time < v.time

theorem evicts_least_recent_iff_of_kept (hk : h.Kept) (hop : h.next ≤ now) {t : ContentStore}
    (hi : h.store.insert name d now = .ok t) (hover : h.store.Exceeds name) :
    h.EvictsLeastRecent name d now ↔ h.FirstIdle := by
  obtain ⟨first, row, hr, hmin⟩ := exists_first (hk.max.trans_le hover.2)
  have hlt {k : Bytes} {r : Row} (hkr : h.store.content.get? k = some r) (hne : k ≠ first) :=
    hk.lt_of_first hr hmin hkr hne
  have hpast : ∀ u ∈ h.log, u.time < now := fun u hu => (hk.past u hu).trans_le hop
  have hnow : row.insertedAt < now := hpast _ (hk.written first row hr).1
  have hcontains := ContentStore.contains_insert_full hi hover hk.size hr (fun k r => hlt) hnow
  have huse := ContentStore.use_insert hi
  set new := blake2b name.withoutContentHash.encode
  have hhas : h.store.content.contains first = true := Dict.contains_iff.mpr ⟨row, hr⟩
  have hne : first ≠ new := by
    rintro rfl
    rw [hover.1] at hhas
    cases hhas
  have hstep : h.step (.insert name d now) =
      some ⟨t, ⟨new, now, false⟩ :: h.log, now + 1⟩ := by
    simp [step, StoreOp.time, huse, ContentStore.apply, hi]
  have hkept : (⟨t, ⟨new, now, false⟩ :: h.log, now + 1⟩ : History).Kept := by
    refine hk.step ?_ hstep
    rintro _ ⟨⟩
    exact hop
  have hreads (other : Bytes) (ho : h.store.content.contains other = true) (hof : other ≠ first) :
      NoLater (⟨new, now, false⟩ :: h.log) first other ↔
        ∀ u ∈ h.log, u.key = first → u.isRead = true → ∃ v ∈ h.log, v.key = other ∧
          u.time < v.time := by
    obtain ⟨r, hor⟩ := Dict.contains_iff.mp ho
    have hon : new ≠ other := by
      rintro rfl
      rw [hover.1] at ho
      cases ho
    rw [noLater_cons_of_ne hne.symm hon]
    refine hk.timed.noLater_iff_reads hof.symm (hk.written first row hr).2 ?_
    exact ⟨_, (hk.written other r hor).1, rfl, hlt hor hof⟩
  constructor
  · intro hevicts key hfirst u hu hku hread other ho hok
    have hkey : key = first := by
      obtain ⟨row', hr', hmin'⟩ := hfirst
      by_contra hkf
      exact (hlt hr' hkf).not_ge (hmin' first row hr)
    subst hkey
    have hgone : t.content.contains key = false := by
      rw [← Bool.not_eq_true, hcontains]
      exact fun hno => hno.1 rfl
    have hlater :=
      hevicts _ hstep key other (.inl hhas) hgone ((hcontains other).mpr ⟨hok, .inr ho⟩)
    exact (hreads other ho hok).mp hlater u hu hku hread
  · intro hidle h' hs evicted kept hwas hgone hleft
    obtain rfl := Option.some.inj (hstep.symm.trans hs)
    have hevicted : evicted = first := by
      by_contra hef
      have hstays := (hcontains evicted).mpr ⟨hef, hwas.symm⟩
      rw [hgone] at hstays
      cases hstays
    subst hevicted
    obtain ⟨hkf, rfl | hkept'⟩ := (hcontains kept).mp hleft
    · exact hkept.timed.noLater_key
    · exact (hreads kept hkept' hkf).mpr fun u hu hku hread =>
        hidle evicted ⟨row, hr, hmin⟩ u hu hku hread kept hkept' hkf

/-- In any run with strictly increasing times, an insertion that goes over the capacity evicts in
the order of the last use exactly if no read of the row inserted first is more recent than the last
use of another row. -/
theorem evicts_least_recent_iff {h₀ : History} {ops : List StoreOp} (hinit : h₀.Initial)
    (hrun : Run step InOrder h₀ ops h) (hop : h.next ≤ now) {t : ContentStore}
    (hi : h.store.insert name d now = .ok t) (hover : h.store.Exceeds name) :
    h.EvictsLeastRecent name d now ↔ h.FirstIdle :=
  evicts_least_recent_iff_of_kept (kept_of_run hinit hrun) hop hi hover

def letterName (letter : UInt8) : Name := ⟨List.replicate 16 1, [[letter]], none⟩

def insertLetter (letter : UInt8) (now : ℕ) : StoreOp :=
  .insert (letterName letter) { name := letterName letter, content := [letter] } now

def twoRows : History := { store := { max := 2 } }

def readInTurn : List StoreOp :=
  [insertLetter 0x61 1, insertLetter 0x62 2, .get (letterName 0x61) 3, .get (letterName 0x62) 4]

def filled : History := (exec step twoRows readInTurn).getD twoRows

def firstRead : History :=
  (exec step twoRows [insertLetter 0x61 1, insertLetter 0x62 2, .get (letterName 0x61) 3]).getD
    twoRows

omit [Hashlib] in
theorem filled_inOrder :
    letI := Data.paddedHash
    Run step InOrder twoRows readInTurn filled := by
  let := Data.paddedHash
  exact run_of_exec_check (fun h op => op.time.all (h.next ≤ ·))
    (fun h op hcheck now hnow => of_decide_eq_true ((Option.all_eq_true ..).mp hcheck now hnow))
    rfl rfl

omit [Hashlib] in
/-- The row that was inserted first has been read, and the other one after it. -/
theorem filled_firstIdle :
    letI := Data.paddedHash
    filled.FirstIdle := by
  let := Data.paddedHash
  have hlater : ∀ e ∈ filled.store.content.items,
      (∀ e' ∈ filled.store.content.items, e.2.insertedAt ≤ e'.2.insertedAt) →
        ∀ u ∈ filled.log, u.key = e.1 → u.isRead = true →
          ∀ e' ∈ filled.store.content.items, e'.1 ≠ e.1 →
            ∃ v ∈ filled.log, v.key = e'.1 ∧ u.time < v.time := by decide +kernel
  rintro key ⟨row, hr, hmin⟩ u hu hku hread other ho hne
  obtain ⟨row', hr'⟩ := Dict.contains_iff.mp ho
  exact hlater _ (Dict.get?_eq_some.mp hr)
    (fun e he => hmin e.1 e.2 (Dict.get?_eq_some.mpr he)) u hu hku hread _
    (Dict.get?_eq_some.mp hr') hne

omit [Hashlib] in
theorem filled_evicts_least_recent :
    letI := Data.paddedHash
    filled.EvictsLeastRecent (letterName 0x63)
      { name := letterName 0x63, content := [0x63] } 5 := by
  let := Data.paddedHash
  exact (evicts_least_recent_iff ⟨rfl, rfl, by decide⟩ filled_inOrder (by decide) rfl
    ⟨rfl, by decide⟩).mpr filled_firstIdle

omit [Hashlib] in
/-- The row that was read last is evicted, and the one that was used before stays. -/
theorem recently_read_evicted :
    letI := Data.paddedHash
    ¬ firstRead.EvictsLeastRecent (letterName 0x63) { name := letterName 0x63, content := [0x63] }
      4 := by
  let := Data.paddedHash
  intro hevicts
  obtain ⟨y, hy, hle⟩ := hevicts _ rfl (blake2b (letterName 0x61).encode)
    (blake2b (letterName 0x62).encode) (.inl rfl) rfl rfl 3 rfl
  cases hy
  exact absurd hle (by decide)

end History

end RnsIcn
