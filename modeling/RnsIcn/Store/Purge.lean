import RnsIcn.Store.Names

/-! # What an invalidation deletes

Each row is indexed under the hashes of the ancestors of its own name. An
invalidation therefore deletes rows of the invalidated name or of names under it,
as far as the hash tells the names apart.
-/

namespace RnsIcn

open Fallible

variable [Hashlib]

namespace ContentStore

variable {s t : ContentStore} {key : Bytes} {row : Row}

/-- The row is kept under the key of its name and indexed under ancestors of that name. -/
def RowIndexed (s : ContentStore) (key : Bytes) (row : Row) : Prop :=
  ∃ n : Name, n.Encodable ∧ n.contentHash = none ∧ row.nameBytes = n.encode ∧
    key = blake2b n.encode ∧
    ∀ h, (h, key) ∈ s.namePrefixes → ∃ i, h = blake2b (n.ancestor i).encode

def Indexed (s : ContentStore) : Prop :=
  ∀ key row, s.content.get? key = some row → s.RowIndexed key row

theorem Indexed.empty (h : s.content = .empty) : Indexed s := by
  intro key row hr
  rw [h] at hr
  cases hr

theorem Indexed.deleteRows (h : Indexed s) (keys : List Bytes) : Indexed (s.deleteRows keys) := by
  intro key row hr
  obtain ⟨n, he, hc, hb, hk, hi⟩ := h key row (deleteRows_sub s keys key row hr)
  exact ⟨n, he, hc, hb, hk, fun x hx => hi x (mem_namePrefixes_deleteRows hx)⟩

theorem Indexed.insert (h : Indexed s) {name : Name} {d : Data} {now : ℕ}
    (hi : s.insert name d now = .ok t) : Indexed t := by
  obtain ⟨nameBytes, prefixes, hb, hp, -, count, rfl⟩ := insert_eq_ok hi
  obtain ⟨he, rfl⟩ := Name.toBytes_eq_ok.mp hb
  refine Indexed.deleteRows (fun key row hr => ?_) _
  rw [get?_upsert] at hr
  split at hr
  · rename_i hk
    obtain rfl := Option.some.inj hr
    refine ⟨name.withoutContentHash, he, rfl, rfl, hk, fun x hx => ?_⟩
    rcases List.mem_append.mp hx with hx | hx
    · exact absurd hk (by simpa using (List.mem_filter.mp hx).2)
    · obtain ⟨x', hx', hxe⟩ := List.mem_map.mp hx
      obtain ⟨rfl, -⟩ := Prod.mk.inj hxe
      exact prefixHashes_eq_ok hp (List.mem_dedup.mp hx')
  · rename_i hk
    obtain ⟨n, hen, hc, hbn, hkn, hin⟩ := h key row hr
    refine ⟨n, hen, hc, hbn, hkn, fun x hx => ?_⟩
    rcases List.mem_append.mp hx with hx | hx
    · exact hin x (List.mem_of_mem_filter hx)
    · obtain ⟨x', -, hxe⟩ := List.mem_map.mp hx
      exact absurd (Prod.mk.inj hxe).2.symm hk

theorem Indexed.apply (h : Indexed s) (op : StoreOp) : Indexed (s.apply op) := by
  cases op with
  | insert name d now =>
    rw [ContentStore.apply]
    cases hi : s.insert name d now with
    | error e => exact h
    | ok t => exact h.insert hi
  | get name now => exact h.deleteRows _
  | getPrefix name child minSequence now => exact h.deleteRows _
  | purgeExpired now => exact h.deleteRows _
  | evictLru targetCount => exact h.deleteRows _
  | remove name =>
    rw [ContentStore.apply, remove]
    cases nameHash name with
    | error e => exact h
    | ok k => exact h.deleteRows [k]
  | invalidate name byPrefix =>
    rw [ContentStore.apply, invalidate]
    cases nameHash name with
    | error e => exact h
    | ok k => exact h.deleteRows _

/-- A row that an invalidation deletes is that of the name or of a name under it. -/
theorem Indexed.invalidated {A : Name → Prop} (hA : Distinguished A) (h : Indexed s) {n m : Name}
    {byPrefix : Bool} (hr : s.content.get? key = some row) (hm : row.nameBytes = m.encode)
    (he : m.Encodable) (hc : m.contentHash = none) (hn : A n) (hmA : A m)
    (hgone : (s.apply (.invalidate n byPrefix)).content.get? key = none) :
    m = n ∨ byPrefix = true ∧ m.startsWith n = true := by
  obtain ⟨m', he', hc', hb', rfl, hindex⟩ := h key row hr
  obtain rfl : m' = m := Name.encode_inj he' he (hb'.symm.trans hm)
  rw [ContentStore.apply, invalidate] at hgone
  cases hk : nameHash n with
  | error e =>
    rw [hk] at hgone
    exact absurd (hr.symm.trans hgone) (by simp)
  | ok hash =>
    obtain ⟨hen, rfl⟩ := nameHash_eq_ok.mp hk
    have hmem : blake2b m'.encode ∈ s.invalidatedKeys (blake2b n.encode) byPrefix := by
      by_contra hno
      rw [hk] at hgone
      have hg : (s.deleteRows (s.invalidatedKeys (blake2b n.encode) byPrefix)).content.get?
          (blake2b m'.encode) = none := hgone
      rw [get?_deleteRows, if_neg hno, hr] at hg
      cases hg
    rw [invalidatedKeys] at hmem
    split at hmem
    · rename_i hp
      obtain ⟨p, hp', hpk⟩ := List.mem_map.mp hmem
      obtain ⟨hp', hpe⟩ := List.mem_filter.mp hp'
      obtain ⟨i, hi⟩ := hindex p.1 (hpk ▸ hp')
      have hni : n = m'.ancestor i := hA.hash _ _ hn (hA.ancestor m' i hmA) hen (he.ancestor i)
        ((of_decide_eq_true hpe).symm.trans hi)
      exact .inr ⟨hp, hni ▸ m'.startsWith_ancestor i⟩
    · rw [List.mem_singleton] at hmem
      exact .inl (hA.hash _ _ hmA hn he hen hmem)

end ContentStore

end RnsIcn
