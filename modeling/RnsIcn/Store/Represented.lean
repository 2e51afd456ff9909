import RnsIcn.Lib.BoundedDict
import RnsIcn.Store.Purge

/-! # What the tables of the Content Store represent

The rows are a map from unpinned names to what is stored under them, and the index
relates each name to all of its prefixes, itself included. Every operation keeps
the two tables in step.
-/

namespace RnsIcn

open Fallible

/-- `expires_at IS NOT NULL AND expires_at <= now` -/
def Row.Expired (row : Row) (now : ℕ) : Prop := ∃ x ∈ row.expiresAt, x ≤ now

theorem Row.Expired.mono {row : Row} {now now' : ℕ} (h : row.Expired now) (hle : now ≤ now') :
    row.Expired now' := by
  obtain ⟨x, hx, hxn⟩ := h
  exact ⟨x, hx, hxn.trans hle⟩

variable [Hashlib]

namespace ContentStore

variable {s t : ContentStore} {key : Bytes} {row : Row} {n m : Name}

omit [Hashlib] in
theorem mem_expiredKeys {now : ℕ} (h : s.content.get? key = some row) :
    key ∈ s.expiredKeys now ↔ row.Expired now := by
  have hitem := Dict.get?_eq_some.mp h
  simp only [expiredKeys, List.mem_map, List.mem_filter, Option.any_eq_true,
    decide_eq_true_eq]
  constructor
  · rintro ⟨e, ⟨he, hx⟩, rfl⟩
    rwa [Dict.item_eq_of_key_eq he hitem rfl] at hx
  · intro hx
    exact ⟨(key, row), ⟨hitem, hx⟩, rfl⟩

omit [Hashlib] in
theorem get?_purgeExpired {now : ℕ} : (s.purgeExpired now).content.get? key = some row ↔
    s.content.get? key = some row ∧ ¬ row.Expired now := by
  rw [purgeExpired, get?_deleteRows]
  constructor
  · intro h
    obtain ⟨hno, hr⟩ := Option.ite_none_left_eq_some.mp h
    exact ⟨hr, mt (mem_expiredKeys hr).mpr hno⟩
  · rintro ⟨hr, hlive⟩
    rw [if_neg (mt (mem_expiredKeys hr).mp hlive), hr]

/-- The row is that of the unpinned name, under its key. -/
structure HoldsRow (s : ContentStore) (n : Name) (key : Bytes) (row : Row) : Prop where
  get : s.content.get? key = some row
  encodable : n.Encodable
  unpinned : n.contentHash = none
  key : key = blake2b n.encode
  nameBytes : row.nameBytes = n.encode

/-- Every row is that of a name, and the index has the pairs of the prefixes of these names. -/
structure Represented (s : ContentStore) : Prop where
  row : ∀ key row, s.content.get? key = some row → ∃ n, s.HoldsRow n key row
  index : ∀ h key, (h, key) ∈ s.namePrefixes ↔
    ∃ n row, s.HoldsRow n key row ∧ ∃ i < n.len, h = blake2b (n.ancestor i).encode
  nodup : s.namePrefixes.Nodup

theorem HoldsRow.unique (h : s.HoldsRow n key row) {row' : Row} (h' : s.HoldsRow m key row') :
    n = m := by
  have hrow : row = row' := Option.some.inj (h.get.symm.trans h'.get)
  apply Name.encode_inj h.encodable h'.encodable
  rw [← h.nameBytes, ← h'.nameBytes, hrow]

theorem Represented.empty (h : s.content = .empty) (hi : s.namePrefixes = []) :
    Represented s where
  row key row hr := by
    rw [h] at hr
    cases hr
  index x key := by
    constructor
    · intro hm
      rw [hi] at hm
      cases hm
    · rintro ⟨n, row, hrow, -⟩
      have hget := hrow.get
      rw [h] at hget
      cases hget
  nodup := hi ▸ List.nodup_nil

theorem Represented.key_unique (h : Represented s) {key' : Bytes} {row' : Row}
    (hr : s.content.get? key = some row) (hr' : s.content.get? key' = some row')
    (hn : row.nameBytes = row'.nameBytes) : key = key' := by
  obtain ⟨n, hrow⟩ := h.row key row hr
  obtain ⟨m, hrow'⟩ := h.row key' row' hr'
  have hnm : n = m := by
    apply Name.encode_inj hrow.encodable hrow'.encodable
    rw [← hrow.nameBytes, ← hrow'.nameBytes, hn]
  rw [hrow.key, hrow'.key, hnm]

theorem holdsRow_deleteRows {keys : List Bytes} :
    (s.deleteRows keys).HoldsRow n key row ↔ s.HoldsRow n key row ∧ key ∉ keys := by
  constructor
  · rintro ⟨hget, he, hu, hk, hb⟩
    rw [get?_deleteRows] at hget
    obtain ⟨hno, hget⟩ := Option.ite_none_left_eq_some.mp hget
    exact ⟨⟨hget, he, hu, hk, hb⟩, hno⟩
  · rintro ⟨⟨hget, he, hu, hk, hb⟩, hno⟩
    refine ⟨?_, he, hu, hk, hb⟩
    rw [get?_deleteRows, if_neg hno, hget]

omit [Hashlib] in
theorem nodup_deleteRows {keys : List Bytes} (h : s.namePrefixes.Nodup) :
    (s.deleteRows keys).namePrefixes.Nodup := by
  induction keys generalizing s with
  | nil => exact h
  | cons key keys ih => exact ih (h.filter _)

theorem Represented.deleteRows (h : Represented s) (keys : List Bytes) :
    Represented (s.deleteRows keys) where
  row key row hr := by
    rw [get?_deleteRows] at hr
    obtain ⟨hno, hr⟩ := Option.ite_none_left_eq_some.mp hr
    obtain ⟨n, hrow⟩ := h.row key row hr
    exact ⟨n, holdsRow_deleteRows.mpr ⟨hrow, hno⟩⟩
  index x key := by
    rw [mem_namePrefixes_deleteRows_iff, h.index]
    constructor
    · rintro ⟨⟨n, row, hrow, hi⟩, hno⟩
      exact ⟨n, row, holdsRow_deleteRows.mpr ⟨hrow, hno⟩, hi⟩
    · rintro ⟨n, row, hrow, hi⟩
      obtain ⟨hrow, hno⟩ := holdsRow_deleteRows.mp hrow
      exact ⟨⟨n, row, hrow, hi⟩, hno⟩
  nodup := nodup_deleteRows h.nodup

theorem holdsRow_upsert {k : Bytes} {r : Row} {prefixes : List Bytes} (he : m.Encodable)
    (hu : m.contentHash = none) (hk : k = blake2b m.encode) (hb : r.nameBytes = m.encode) :
    (s.upsert k r prefixes).HoldsRow n key row ↔
      n = m ∧ key = k ∧ row = r ∨ key ≠ k ∧ s.HoldsRow n key row := by
  constructor
  · intro h
    have hget := h.get
    rw [get?_upsert] at hget
    by_cases hkey : key = k
    · rw [if_pos hkey] at hget
      obtain rfl := Option.some.inj hget
      exact .inl ⟨Name.encode_inj h.encodable he (h.nameBytes.symm.trans hb), hkey, rfl⟩
    · rw [if_neg hkey] at hget
      exact .inr ⟨hkey, hget, h.encodable, h.unpinned, h.key, h.nameBytes⟩
  · rintro (⟨rfl, rfl, rfl⟩ | ⟨hkey, h⟩)
    · refine ⟨?_, he, hu, hk, hb⟩
      rw [get?_upsert, if_pos rfl]
    · refine ⟨?_, h.encodable, h.unpinned, h.key, h.nameBytes⟩
      rw [get?_upsert, if_neg hkey, h.get]

theorem Represented.upsert (h : Represented s) {r : Row} {prefixes : List Bytes} (he : m.Encodable)
    (hu : m.contentHash = none) (hb : r.nameBytes = m.encode)
    (hp : prefixHashes m = .ok prefixes) :
    Represented (s.upsert (blake2b m.encode) r prefixes) where
  row key row hr := by
    rw [get?_upsert] at hr
    by_cases hkey : key = blake2b m.encode
    · rw [if_pos hkey] at hr
      exact ⟨m, (holdsRow_upsert he hu rfl hb).mpr (.inl ⟨rfl, hkey, (Option.some.inj hr).symm⟩)⟩
    · rw [if_neg hkey] at hr
      obtain ⟨n, hrow⟩ := h.row key row hr
      exact ⟨n, (holdsRow_upsert he hu rfl hb).mpr (.inr ⟨hkey, hrow⟩)⟩
  index x key := by
    have hmem : (x, key) ∈ (s.upsert (blake2b m.encode) r prefixes).namePrefixes ↔
        (x, key) ∈ s.namePrefixes ∧ key ≠ blake2b m.encode ∨
          key = blake2b m.encode ∧ x ∈ prefixes := by
      unfold ContentStore.upsert
      rw [List.mem_append, List.mem_filter, List.mem_map, decide_eq_true_eq]
      refine or_congr_right ⟨?_, ?_⟩
      · rintro ⟨y, hy, heq⟩
        obtain ⟨rfl, rfl⟩ := Prod.mk.inj heq
        exact ⟨rfl, List.mem_dedup.mp hy⟩
      · rintro ⟨rfl, hx⟩
        exact ⟨x, List.mem_dedup.mpr hx, rfl⟩
    rw [hmem, h.index, mem_prefixHashes hp]
    constructor
    · rintro (⟨⟨n, row, hrow, hi⟩, hkey⟩ | ⟨rfl, hi⟩)
      · exact ⟨n, row, (holdsRow_upsert he hu rfl hb).mpr (.inr ⟨hkey, hrow⟩), hi⟩
      · exact ⟨m, r, (holdsRow_upsert he hu rfl hb).mpr (.inl ⟨rfl, rfl, rfl⟩), hi⟩
    · rintro ⟨n, row, hrow, hi⟩
      rcases (holdsRow_upsert he hu rfl hb).mp hrow with ⟨rfl, hkey, -⟩ | ⟨hkey, hrow⟩
      · exact .inr ⟨hkey, hi⟩
      · exact .inl ⟨⟨n, row, hrow, hi⟩, hkey⟩
  nodup := by
    rw [ContentStore.upsert, List.nodup_append]
    refine ⟨h.nodup.filter _, ?_, ?_⟩
    · exact prefixes.nodup_dedup.map fun a b hab => (Prod.mk.inj hab).1
    · rintro p hp' q hq rfl
      obtain ⟨x, -, rfl⟩ := List.mem_map.mp hq
      simp at hp'

theorem Represented.insert (h : Represented s) {name : Name} {d : Data} {now : ℕ}
    (hi : s.insert name d now = .ok t) : Represented t := by
  obtain ⟨nameBytes, prefixes, hb, hp, -, count, rfl⟩ := insert_eq_ok hi
  obtain ⟨he, rfl⟩ := Name.toBytes_eq_ok.mp hb
  exact (h.upsert he rfl rfl hp).deleteRows _

theorem Represented.apply (h : Represented s) (op : StoreOp) : Represented (s.apply op) := by
  cases op with
  | insert name d now =>
    rw [ContentStore.apply]
    cases hi : s.insert name d now with
    | error e => exact h
    | ok t => exact h.insert hi
  | get name now => exact h.deleteRows _
  | getPrefix name child minSequence now => exact h.deleteRows _
  | purgeExpired now => exact h.deleteRows _
  | evictLru targetCount => exact h.deleteRows _
  | remove name =>
    rw [ContentStore.apply, remove]
    cases nameHash name with
    | error e => exact h
    | ok k => exact h.deleteRows [k]
  | invalidate name byPrefix =>
    rw [ContentStore.apply, invalidate]
    cases nameHash name with
    | error e => exact h
    | ok k => exact h.deleteRows _

theorem Represented.mem_index_iff {A : Name → Prop} (hA : Distinguished A) (h : Represented s)
    (hm : s.HoldsRow m key row) (hn : A n) (hmA : A m) (hu : n.contentHash = none)
    (he : n.Encodable) :
    (blake2b n.encode, key) ∈ s.namePrefixes ↔ m.startsWith n = true := by
  rw [h.index, Name.startsWith_iff_ancestor hu]
  constructor
  · rintro ⟨m', row', hm', i, hi, hh⟩
    obtain rfl := hm.unique hm'
    exact ⟨i, hi, hA.hash n _ hn (hA.ancestor m i hmA) he (hm.encodable.ancestor i) hh⟩
  · rintro ⟨i, hi, rfl⟩
    exact ⟨m, row, hm, i, hi, rfl⟩

/-- A prefix invalidation deletes the rows whose names start with the prefix, and no others. -/
theorem Represented.get?_invalidated {A : Name → Prop} (hA : Distinguished A) (h : Represented s)
    (hm : s.HoldsRow m key row) (hn : A n) (hmA : A m) (hu : n.contentHash = none)
    (he : n.Encodable) :
    (s.deleteRows (s.invalidatedKeys (blake2b n.encode) true)).content.get? key =
      if m.startsWith n = true then none else some row := by
  have hkeys : key ∈ s.invalidatedKeys (blake2b n.encode) true ↔ m.startsWith n = true := by
    rw [← h.mem_index_iff hA hm hn hmA hu he, invalidatedKeys, if_pos rfl, List.mem_map]
    constructor
    · rintro ⟨p, hp, rfl⟩
      obtain ⟨hp, hx⟩ := List.mem_filter.mp hp
      exact of_decide_eq_true hx ▸ hp
    · intro hp
      exact ⟨_, List.mem_filter.mpr ⟨hp, by simp⟩, rfl⟩
  rw [get?_deleteRows, hm.get]
  exact if_congr hkeys rfl rfl

omit [Hashlib] in
theorem items_deleteRows (s : ContentStore) (keys : List Bytes) :
    (s.deleteRows keys).content.items = s.content.items.filter fun e => e.1 ∉ keys := by
  induction keys generalizing s with
  | nil => simp [ContentStore.deleteRows]
  | cons key keys ih =>
    rw [ContentStore.deleteRows, List.foldl_cons, ← ContentStore.deleteRows, ih]
    simp only [deleteRow, Dict.erase, Dict.filter, List.filter_filter, List.mem_cons, not_or]
    exact List.filter_congr fun e _ => by rw [Bool.decide_and, Bool.and_comm]

omit [Hashlib] in
theorem keys_lruKeys (s : ContentStore) (count : ℕ) :
    (s.lruKeys count).Nodup ∧ (∀ key ∈ s.lruKeys count, key ∈ s.content.keys) ∧
      (s.lruKeys count).length = min count s.content.size := by
  have hperm := List.perm_insertionSort (fun x y : Bytes × Row => x.2.insertedAt ≤ y.2.insertedAt)
    s.content.items
  refine ⟨?_, ?_, ?_⟩
  · have hnodup := (hperm.map Prod.fst).nodup_iff.mpr s.content.nodup
    exact hnodup.sublist ((List.take_sublist _ _).map _)
  · intro key hkey
    obtain ⟨e, he, rfl⟩ := List.mem_map.mp hkey
    exact List.mem_map_of_mem (hperm.mem_iff.mp (List.mem_of_mem_take he))
  · rw [lruKeys, List.length_map, List.length_take, hperm.length_eq, Dict.size]

omit [Hashlib] in
theorem size_deleteRows {keys : List Bytes} (hnodup : keys.Nodup)
    (hsub : ∀ key ∈ keys, key ∈ s.content.keys) :
    (s.deleteRows keys).content.size + keys.length = s.content.size := by
  induction keys generalizing s with
  | nil => rfl
  | cons key keys ih =>
    obtain ⟨hnew, hnodup⟩ := List.nodup_cons.mp hnodup
    obtain ⟨row, hrow⟩ := Dict.mem_keys.mp (hsub key List.mem_cons_self)
    have herase : (s.deleteRow key).content.size + 1 = s.content.size :=
      Dict.size_erase_of_get?_eq_some hrow
    have hrest := ih (s := s.deleteRow key) hnodup fun k hk =>
      (Dict.mem_keys_erase _).mpr ⟨fun h => hnew (h ▸ hk), hsub k (List.mem_cons_of_mem _ hk)⟩
    change ((s.deleteRow key).deleteRows keys).content.size + (keys.length + 1) = _
    omega

omit [Hashlib] in
@[simp] theorem deleteRows_max (s : ContentStore) (keys : List Bytes) :
    (s.deleteRows keys).max = s.max := by
  induction keys generalizing s with
  | nil => rfl
  | cons key keys ih => exact ih (s.deleteRow key)

omit [Hashlib] in
theorem size_deleteRows_le (s : ContentStore) (keys : List Bytes) :
    (s.deleteRows keys).content.size ≤ s.content.size := by
  rw [Dict.size, Dict.size, items_deleteRows]
  exact List.length_filter_le ..

theorem insert_size_le {name : Name} {d : Data} {now : ℕ} (hi : s.insert name d now = .ok t) :
    t.content.size ≤ t.max := by
  simp only [ContentStore.insert, bind_eq_ok, pure_eq_ok] at hi
  obtain ⟨nameBytes, -, -, -, prefixes, -, ht⟩ := hi
  generalize s.upsert (blake2b nameBytes) _ prefixes = u at ht
  split at ht
  · subst ht
    obtain ⟨hnodup, hsub, hlen⟩ := keys_lruKeys u (u.content.size - u.max)
    have hsize := size_deleteRows hnodup hsub
    rw [evictLruInternal, deleteRows_max]
    omega
  · rename_i hle
    exact ht ▸ not_lt.mp hle

/-- The row under the unpinned name is unexpired, it matches its hash and the pin, and its name
reads back. -/
structure Answers (s : ContentStore) (n : Name) (now : ℕ) (row : Row) : Prop where
  encodable : n.withoutContentHash.Encodable
  get : s.content.get? (blake2b n.withoutContentHash.encode) = some row
  live : ¬ row.Expired now
  stored : ∃ m, Name.fromBytes row.nameBytes = .ok m
  verified : verifyContent row = true
  pin : ∀ pin ∈ n.contentHash, blake2b row.contentBytes = pin

theorem get_eq_some_iff {now : ℕ} {d : Data} : (s.get n now).2 = .ok (some d) ↔
    ∃ row, s.Answers n now row ∧ Name.fromBytes row.nameBytes = .ok d.name ∧
      d = rowData row d.name now := by
  rw [ContentStore.get]
  constructor
  · intro hd
    obtain ⟨key, hkey, hd⟩ := bind_eq_ok.mp hd
    obtain ⟨he, rfl⟩ := nameHash_eq_ok.mp hkey
    split at hd
    · cases hd
    · rename_i row hrow
      obtain ⟨hget, hlive⟩ := get?_purgeExpired.mp hrow
      obtain ⟨m, hm, hd⟩ := bind_eq_ok.mp hd
      split at hd
      · cases hd
      · rename_i hv
        split at hd
        · cases hd
        · rename_i hpin
          obtain rfl := Option.some.inj (Except.ok.inj hd)
          refine ⟨row, ⟨he, hget, hlive, ⟨m, hm⟩, by simpa using hv, fun pin hp => ?_⟩, hm, rfl⟩
          rw [Option.mem_def] at hp
          simpa [hp] using hpin
  · rintro ⟨row, h, hm, hd⟩
    have hrow := get?_purgeExpired.mpr ⟨h.get, h.live⟩
    have hpin : n.contentHash.any (fun pin => blake2b row.contentBytes != pin) = false := by
      cases hp : n.contentHash with
      | none => rfl
      | some pin => simp [h.pin pin hp]
    rw [hd]
    simp [read, nameHash_eq_ok.mpr ⟨h.encodable, rfl⟩, hrow, hm, h.verified, hpin, bind,
      Except.bind, pure, Except.pure]

theorem exists_get_iff {now : ℕ} :
    (∃ d, (s.get n now).2 = .ok (some d)) ↔ ∃ row, s.Answers n now row := by
  constructor
  · rintro ⟨d, hd⟩
    obtain ⟨row, h, -⟩ := get_eq_some_iff.mp hd
    exact ⟨row, h⟩
  · rintro ⟨row, h⟩
    obtain ⟨m, hm⟩ := h.stored
    exact ⟨rowData row m now, get_eq_some_iff.mpr ⟨row, h, hm, rfl⟩⟩

end ContentStore

end RnsIcn
