import RnsIcn.Store.Run

/-! # The names of stored rows

A row is kept under the hash of its unpinned name and indexed under the hashes of
the ancestors of that name. While the hash tells the names in use apart, a read
returns Data under the name asked for or under an extension of it.
-/

namespace RnsIcn

open Fallible

theorem ContentStore.mem_namePrefixes_deleteRows_iff {s : ContentStore} {keys : List Bytes}
    {p : Bytes × Bytes} :
    p ∈ (s.deleteRows keys).namePrefixes ↔ p ∈ s.namePrefixes ∧ p.2 ∉ keys := by
  induction keys generalizing s with
  | nil => simp [deleteRows]
  | cons key keys ih =>
    rw [deleteRows, List.foldl_cons, ← deleteRows, ih, deleteRow, List.mem_filter, List.mem_cons,
      not_or, decide_eq_true_eq, and_assoc]

theorem ContentStore.mem_namePrefixes_deleteRows {s : ContentStore} {keys : List Bytes}
    {p : Bytes × Bytes} (h : p ∈ (s.deleteRows keys).namePrefixes) : p ∈ s.namePrefixes :=
  (mem_namePrefixes_deleteRows_iff.mp h).1

variable [Hashlib]

/-- A set of names, closed under ancestors, that the hash tells apart. -/
structure Distinguished (A : Name → Prop) : Prop where
  ancestor : ∀ n i, A n → A (n.ancestor i)
  hash : ∀ n m, A n → A m → n.Encodable → m.Encodable → blake2b n.encode = blake2b m.encode →
    n = m

theorem Distinguished.unpinned {A : Name → Prop} (hA : Distinguished A) {n : Name} (h : A n) :
    A n.withoutContentHash :=
  n.ancestor_length ▸ hA.ancestor n _ h

theorem distinguished_ancestors {n : Name} (hp : n.path.length = 1)
    (hne : blake2b (n.ancestor 0).encode ≠ blake2b (n.ancestor 1).encode) :
    Distinguished fun m => ∃ i, m = n.ancestor i where
  ancestor := by
    rintro _ i ⟨j, rfl⟩
    exact ⟨min i j, by simp [Name.ancestor, List.take_take]⟩
  hash := by
    have hname (i : ℕ) : n.ancestor i = n.ancestor 0 ∨ n.ancestor i = n.ancestor 1 := by
      cases i with
      | zero => exact .inl rfl
      | succ i => exact .inr (by simp [Name.ancestor, List.take_of_length_le, hp])
    rintro _ _ ⟨i, rfl⟩ ⟨j, rfl⟩ - - h
    rcases hname i with hi | hi <;> rcases hname j with hj | hj <;> rw [hi, hj] at h ⊢
    · exact absurd h hne
    · exact absurd h.symm hne

/-- The names under which an operation stores Data are in use. -/
def StoreOp.Uses (A : Name → Prop) : StoreOp → Prop
  | .insert name _ _ => A name
  | _ => True

namespace ContentStore

variable {A : Name → Prop} {s t : ContentStore} {key : Bytes} {d : Data}

structure KeyOf (A : Name → Prop) (n : Name) (key : Bytes) : Prop where
  mem : A n
  encodable : n.Encodable
  unpinned : n.contentHash = none
  key : key = blake2b n.encode

theorem KeyOf.unique (hA : Distinguished A) {n m : Name} (hn : KeyOf A n key)
    (hm : KeyOf A m key) : n = m :=
  hA.hash n m hn.mem hm.mem hn.encodable hm.encodable (hn.key.symm.trans hm.key)

def RowOf (n : Name) (row : Row) : Prop :=
  ∃ d now ttl, row = makeRow n.encode d now ttl ∧ bindRow row = .ok ()

theorem RowOf.nameBytes {n : Name} {row : Row} (h : RowOf n row) : row.nameBytes = n.encode := by
  obtain ⟨d, now, ttl, rfl, -⟩ := h
  rfl

/-- Every row is under the key of its name and every index pair relates an ancestor of a name to
the key of the name. -/
structure Named (A : Name → Prop) (s : ContentStore) : Prop where
  row : ∀ key row, s.content.get? key = some row → ∃ n, KeyOf A n key ∧ RowOf n row
  index : ∀ h key, (h, key) ∈ s.namePrefixes →
    ∃ n i, KeyOf A n key ∧ h = blake2b (n.ancestor i).encode

theorem Named.empty (h : s.content = .empty) (hi : s.namePrefixes = []) : Named A s where
  row key row hr := by rw [h] at hr; cases hr
  index h key hm := by rw [hi] at hm; cases hm

theorem Named.deleteRows (h : Named A s) (keys : List Bytes) : Named A (s.deleteRows keys) where
  row key row hr := h.row key row (deleteRows_sub s keys key row hr)
  index x key hm := h.index x key (mem_namePrefixes_deleteRows hm)

theorem prefixHashes_eq_map {n : Name} {prefixes : List Bytes} (h : prefixHashes n = .ok prefixes) :
    prefixes = (List.range n.len).map fun i => blake2b (n.ancestor i).encode := by
  have hid := map_of_mapM_eq_ok (g := id) (r := fun i => blake2b (n.ancestor i).encode) h
    fun i _ x hx => by
      obtain ⟨m, hm, hh⟩ := bind_eq_ok.mp hx
      rw [id, (nameHash_eq_ok.mp hh).2, Name.new_eq_ok hm]
      rfl
  rwa [List.map_id] at hid

theorem mem_prefixHashes {n : Name} {prefixes : List Bytes} (h : prefixHashes n = .ok prefixes)
    {x : Bytes} : x ∈ prefixes ↔ ∃ i < n.len, x = blake2b (n.ancestor i).encode := by
  simp [prefixHashes_eq_map h, eq_comm]

theorem prefixHashes_eq_ok {n : Name} {prefixes : List Bytes} (h : prefixHashes n = .ok prefixes)
    {x : Bytes} (hx : x ∈ prefixes) : ∃ i, x = blake2b (n.ancestor i).encode := by
  obtain ⟨i, -, hi⟩ := (mem_prefixHashes h).mp hx
  exact ⟨i, hi⟩

theorem Named.insert (hA : Distinguished A) (h : Named A s) {name : Name} {d : Data} {now : ℕ}
    (hn : A name) (hi : s.insert name d now = .ok t) : Named A t := by
  obtain ⟨nameBytes, prefixes, hb, hp, hbind, count, rfl⟩ := insert_eq_ok hi
  obtain ⟨he, rfl⟩ := Name.toBytes_eq_ok.mp hb
  have hkey : KeyOf A name.withoutContentHash (blake2b name.withoutContentHash.encode) :=
    ⟨hA.unpinned hn, he, rfl, rfl⟩
  apply Named.deleteRows
  constructor
  · intro key row hr
    rw [get?_upsert] at hr
    split at hr
    · rename_i hk
      obtain rfl := Option.some.inj hr
      exact ⟨_, hk ▸ hkey, d, now, _, rfl, hbind⟩
    · exact h.row key row hr
  · intro x key hm
    rcases List.mem_append.mp hm with hm | hm
    · exact h.index x key (List.mem_of_mem_filter hm)
    · obtain ⟨x', hx, he⟩ := List.mem_map.mp hm
      obtain ⟨rfl, rfl⟩ := Prod.mk.inj he
      obtain ⟨i, hi⟩ := prefixHashes_eq_ok hp (List.mem_dedup.mp hx)
      exact ⟨_, i, hkey, hi⟩

theorem Named.apply (hA : Distinguished A) (h : Named A s) {op : StoreOp}
    (hop : StoreOp.Uses A op) : Named A (s.apply op) := by
  cases op with
  | insert name d now =>
    rw [ContentStore.apply]
    cases hi : s.insert name d now with
    | error e => exact h
    | ok t => exact h.insert hA hop hi
  | get name now => exact h.deleteRows _
  | getPrefix name child minSequence now => exact h.deleteRows _
  | purgeExpired now => exact h.deleteRows _
  | evictLru targetCount => exact h.deleteRows _
  | remove name =>
    rw [ContentStore.apply, remove]
    cases nameHash name with
    | error e => exact h
    | ok k => exact h.deleteRows [k]
  | invalidate name byPrefix =>
    rw [ContentStore.apply, invalidate]
    cases nameHash name with
    | error e => exact h
    | ok k => exact h.deleteRows _

/-- `d` is served from a row of the store whose content matches its hash. -/
def Serves (s : ContentStore) (d : Data) : Prop :=
  ∃ key row now, s.content.get? key = some row ∧ verifyContent row = true ∧
    Name.fromBytes row.nameBytes = .ok d.name ∧ d = rowData row d.name now

theorem Serves.of_sub (h : Serves t d) (hsub : Sub t s) : Serves s d := by
  obtain ⟨key, row, now, hr, hrest⟩ := h
  exact ⟨key, row, now, hsub key row hr, hrest⟩

theorem read_row {name : Name} {now : ℕ} (hr : s.read name now = .ok (some d)) :
    ∃ key row, s.content.get? key = some row ∧ verifyContent row = true ∧
      Name.fromBytes row.nameBytes = .ok d.name ∧ d = rowData row d.name now := by
  obtain ⟨key, -, hr⟩ := bind_eq_ok.mp hr
  split at hr
  · cases hr
  · rename_i row hrow
    obtain ⟨stored, hs, hr⟩ := bind_eq_ok.mp hr
    split at hr
    · cases hr
    · rename_i hv
      split at hr
      · cases hr
      · obtain rfl := Option.some.inj (Except.ok.inj hr)
        exact ⟨key, row, hrow, by simpa using hv, hs, rfl⟩

theorem read_serves {name : Name} {now : ℕ} (hr : s.read name now = .ok (some d)) :
    s.Serves d := by
  obtain ⟨key, row, hrow, hrest⟩ := read_row hr
  exact ⟨key, row, now, hrow, hrest⟩

theorem read_of_sub {name : Name} {now : ℕ} (hsub : Sub t s)
    (hr : t.read name now = .ok (some d)) : s.read name now = .ok (some d) := by
  obtain ⟨key, hkey, hr⟩ := bind_eq_ok.mp hr
  rw [ContentStore.read, hkey]
  cases hrow : t.content.get? key with
  | none =>
    rw [hrow] at hr
    cases hr
  | some row =>
    rw [hrow] at hr
    simp only [bind, Except.bind, hsub key row hrow]
    exact hr

theorem firstValid_eq_some {child : ChildSelector} {now : ℕ} {rows : List Row}
    (h : firstValid child now rows = .ok (some d)) :
    ∃ row ∈ rows, verifyContent row = true ∧ Name.fromBytes row.nameBytes = .ok d.name ∧
      d = rowData row d.name now := by
  induction rows with
  | nil => cases h
  | cons row rows ih =>
    obtain ⟨stored, hs, h⟩ := bind_eq_ok.mp h
    have hlater (h : firstValid child now rows = .ok (some d)) :
        ∃ row' ∈ row :: rows, verifyContent row' = true ∧
          Name.fromBytes row'.nameBytes = .ok d.name ∧ d = rowData row' d.name now := by
      obtain ⟨row', hm, he⟩ := ih h
      exact ⟨row', List.mem_cons_of_mem _ hm, he⟩
    split at h
    · exact hlater h
    · split at h
      · rename_i hv
        obtain rfl := Option.some.inj (Except.ok.inj h)
        exact ⟨row, List.mem_cons_self, hv, hs, rfl⟩
      · exact hlater h

theorem readPrefix_serves {name : Name} {child : ChildSelector} {minSequence : Option ℕ} {now : ℕ}
    (hr : s.readPrefix name child minSequence now = .ok (some d)) :
    ∃ key row, s.content.get? key = some row ∧ verifyContent row = true ∧
      Name.fromBytes row.nameBytes = .ok d.name ∧ d = rowData row d.name now ∧
      name.Encodable ∧ (blake2b name.encode, key) ∈ s.namePrefixes := by
  obtain ⟨x, hx, hr⟩ := bind_eq_ok.mp hr
  obtain ⟨he, rfl⟩ := nameHash_eq_ok.mp hx
  have hfirst : firstValid child now (s.prefixRows (blake2b name.encode) child minSequence) =
      .ok (some d) := by
    split at hr
    · exact (bind_eq_ok.mp hr).choose_spec.2
    · exact hr
  obtain ⟨row, hrow, hv, hs, hd⟩ := firstValid_eq_some hfirst
  obtain ⟨key, hitem, hindex, -⟩ := mem_prefixRows.mp hrow
  exact ⟨key, row, Dict.get?_eq_some.mpr hitem, hv, hs, hd, he, hindex⟩

theorem Named.read (hA : Distinguished A) (h : Named A s) {name : Name} {now : ℕ}
    (hn : A name) (hr : s.read name now = .ok (some d)) :
    d.name = name.withoutContentHash ∧ ∀ pin ∈ name.contentHash, blake2b d.content = pin := by
  rw [ContentStore.read] at hr
  obtain ⟨key, hkey, hr⟩ := bind_eq_ok.mp hr
  obtain ⟨he, rfl⟩ := nameHash_eq_ok.mp hkey
  split at hr
  · cases hr
  · rename_i row hrow
    obtain ⟨stored, hs, hr⟩ := bind_eq_ok.mp hr
    obtain ⟨n, hn', hb⟩ := h.row _ row hrow
    obtain rfl := hn'.unique hA ⟨hA.unpinned hn, he, rfl, rfl⟩
    obtain rfl := Name.fromBytes_encode_eq he rfl (hb.nameBytes ▸ hs)
    split at hr
    · cases hr
    · split at hr
      · cases hr
      · rename_i hpin
        obtain rfl := Option.some.inj (Except.ok.inj hr)
        refine ⟨rfl, fun pin hp => ?_⟩
        rw [Option.mem_def] at hp
        simpa [hp, rowData] using hpin

theorem Named.readPrefix (hA : Distinguished A) (h : Named A s) {name : Name}
    {child : ChildSelector} {minSequence : Option ℕ} {now : ℕ} (hn : A name)
    (hr : s.readPrefix name child minSequence now = .ok (some d)) :
    d.name.contentHash = none ∧ ∃ i, name = d.name.ancestor i := by
  obtain ⟨key, row, hrow, -, hs, -, he, hindex⟩ := readPrefix_serves hr
  obtain ⟨n, hkey, hb⟩ := h.row key row hrow
  obtain ⟨m, i, hkey', hx⟩ := h.index _ key hindex
  obtain rfl := hkey.unique hA hkey'
  have hd : d.name = n :=
    Name.fromBytes_encode_eq hkey.encodable hkey.unpinned (hb.nameBytes ▸ hs)
  rw [hd]
  exact ⟨hkey.unpinned, i, hA.hash _ _ hn (hA.ancestor n i hkey.mem) he
    (hkey.encodable.ancestor i) hx⟩

end ContentStore

end RnsIcn
