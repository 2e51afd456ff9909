import RnsIcn.Server.Invalidation
import RnsIcn.Store.Represented
import RnsIcn.Store.Serve

/-! # The keys that the store operations derive from a name

Rows are kept under the hash of the unpinned name. A read drops the pin of the name
before it hashes it, and the operations that look for a row or delete it do not.
-/

namespace RnsIcn

open Effect Fallible Transition

variable [Hashlib]

namespace ContentStore

variable {s t : ContentStore} {n : Name} {now : ℕ} {row : Row}

theorem get_of_get?_eq_none (he : n.withoutContentHash.Encodable)
    (h : s.content.get? (blake2b n.withoutContentHash.encode) = none) :
    (s.get n now).2 = .ok none := by
  have hgone : (s.purgeExpired now).content.get? (blake2b n.withoutContentHash.encode) = none := by
    rw [purgeExpired, get?_deleteRows, h, ite_self]
  simp [ContentStore.get, read, nameHash_eq_ok.mpr ⟨he, rfl⟩, hgone, bind, Except.bind, pure,
    Except.pure]

/-- What is served for `n` is contained, and removing or invalidating `n` deletes it. -/
structure KeysAgree (s : ContentStore) (n : Name) : Prop where
  contains : s.contains n = .ok true
  remove : ∃ t, s.remove n = .ok (t, true) ∧ ∀ now, (t.get n now).2 = .ok none
  invalidate : ∀ byPrefix, ∃ t count, s.invalidate n byPrefix = .ok (t, count) ∧ 0 < count ∧
    t.content.get? (blake2b n.withoutContentHash.encode) = none

/-- The key of an unpinned name is among those that an invalidation of it deletes. -/
theorem Represented.mem_invalidatedKeys (h : s.Represented)
    (hr : s.content.get? (blake2b n.encode) = some row) (byPrefix : Bool) :
    blake2b n.encode ∈ s.invalidatedKeys (blake2b n.encode) byPrefix := by
  obtain ⟨m, hrow⟩ := h.row _ row hr
  cases byPrefix with
  | false => exact List.mem_singleton_self _
  | true =>
    have hself : (blake2b n.encode, blake2b n.encode) ∈ s.namePrefixes := by
      rw [h.index]
      refine ⟨m, row, hrow, m.path.length, Nat.lt_succ_self _, ?_⟩
      rw [m.ancestor_length, hrow.key]
      congr 2
      cases m
      exact congrArg _ hrow.unpinned
    exact List.mem_map.mpr ⟨_, List.mem_filter.mpr ⟨hself, by simp⟩, rfl⟩

theorem Represented.keysAgree (h : s.Represented) (hn : n.contentHash = none)
    (ha : s.Answers n now row) : s.KeysAgree n := by
  have hname : n.withoutContentHash = n := by
    cases n
    exact congrArg _ hn.symm
  have he : n.Encodable := hname ▸ ha.encodable
  have hr : s.content.get? (blake2b n.encode) = some row := by
    have hget := ha.get
    rwa [hname] at hget
  have hhas : s.content.contains (blake2b n.encode) = true := Dict.contains_iff.mpr ⟨row, hr⟩
  have hkey := nameHash_eq_ok.mpr ⟨he, rfl⟩
  constructor
  · simp [ContentStore.contains, hkey, hhas, bind, Except.bind, pure, Except.pure]
  · refine ⟨s.deleteRow (blake2b n.encode), ?_, fun now => ?_⟩
    · simp [ContentStore.remove, hkey, hhas, bind, Except.bind, pure, Except.pure]
    · apply get_of_get?_eq_none ha.encodable
      rw [hname, get?_deleteRow, if_pos rfl]
  · intro byPrefix
    have hmem := h.mem_invalidatedKeys hr byPrefix
    refine ⟨s.deleteRows (s.invalidatedKeys (blake2b n.encode) byPrefix), _, ?_,
      List.countP_pos_iff.mpr ⟨_, hmem, hhas⟩, ?_⟩
    · simp [ContentStore.invalidate, hkey, bind, Except.bind, pure, Except.pure]
    · rw [hname, get?_deleteRows, if_pos hmem]

theorem Answers.purgeExpired (h : s.Answers n now row) : (s.purgeExpired now).Answers n now row :=
  { h with get := get?_purgeExpired.mpr ⟨h.get, h.live⟩ }

theorem not_keysAgree_of_pinned (hn : n.contentHash ≠ none) (ha : s.Answers n now row)
    (hcol : blake2b n.encode = blake2b n.withoutContentHash.encode →
      n.encode = n.withoutContentHash.encode) : ¬ s.KeysAgree n := by
  rintro ⟨-, ⟨t, hremove, hgone⟩, -⟩
  obtain ⟨key, hkey, ht⟩ := bind_eq_ok.mp hremove
  obtain ⟨he, rfl⟩ := nameHash_eq_ok.mp hkey
  obtain ⟨rfl, -⟩ := Prod.mk.inj (Except.ok.inj ht)
  have hne : blake2b n.withoutContentHash.encode ≠ blake2b n.encode := by
    intro heq
    apply hn
    rw [Name.encode_inj he ha.encodable (hcol heq.symm)]
    rfl
  have hkept : (s.deleteRow (blake2b n.encode)).Answers n now row := by
    refine { ha with get := ?_ }
    rw [get?_deleteRow, if_neg hne, ha.get]
  obtain ⟨d, hd⟩ := exists_get_iff.mpr ⟨row, hkept⟩
  rw [hgone now] at hd
  cases hd

end ContentStore

namespace Server

open ContentStore

/-- With this store, an accepted invalidation of the name leaves nothing to serve for it. -/
def Purges (cs : ContentStore) (n : Name) : Prop :=
  ∀ (s t : Server) face raw drawn v, s.forwarder.cs = cs → v.name = n →
    s.relayed (.incoming face raw drawn) = some (face, v) →
    s.step (.incoming face raw drawn) = some t → ∀ now, (t.forwarder.cs.get n now).2 = .ok none

theorem purges_of_keysAgree {cs : ContentStore} {n : Name} (he : n.withoutContentHash.Encodable)
    (h : cs.KeysAgree n) : Purges cs n := by
  intro s t face raw drawn v hcs hv hrelayed hstep now
  obtain ⟨u, count, hok, -, hgone⟩ := h.invalidate v.isPrefix
  have ht : t.forwarder.cs = u := by
    rw [(step_relayed hrelayed hstep).cs, hcs, hv, ContentStore.apply, hok]
    rfl
  rw [ht]
  exact get_of_get?_eq_none he hgone

/-- For what a reached store serves, the operations agree on the key and an accepted invalidation
purges it, exactly if the name carries no pin. -/
theorem keys_agree_iff {s₀ s : ContentStore} {ops : List StoreOp} (h₀ : s₀.Represented)
    (hrun : Run ContentStore.step anyStep s₀ ops s) (n : Name) (now : ℕ)
    (hcol : blake2b n.encode = blake2b n.withoutContentHash.encode →
      n.encode = n.withoutContentHash.encode) :
    (∀ d t, s.get n now = (t, .ok (some d)) → t.KeysAgree n ∧ Purges t n) ↔
      n.contentHash = none ∨ ∀ row, ¬ s.Answers n now row := by
  have hs : s.Represented := hrun.invariant h₀ fun s op t hi _ hs => by
    obtain rfl := Option.some.inj hs
    exact hi.apply op
  constructor
  · intro hagree
    by_contra hno
    obtain ⟨hn, hrow⟩ := not_or.mp hno
    obtain ⟨row, ha⟩ := not_forall_not.mp hrow
    obtain ⟨d, hd⟩ := exists_get_iff.mpr ⟨row, ha⟩
    have hget : s.get n now = (s.purgeExpired now, .ok (some d)) := Prod.ext rfl hd
    exact not_keysAgree_of_pinned hn ha.purgeExpired hcol (hagree d _ hget).1
  · intro hcond d t hget
    have ht : s.purgeExpired now = t := congrArg Prod.fst hget
    obtain ⟨row, ha⟩ := exists_get_iff.mp ⟨d, congrArg Prod.snd hget⟩
    have hn : n.contentHash = none := hcond.resolve_right fun hnone => hnone row ha
    have hkeys : t.KeysAgree n := by
      rw [← ht]
      exact (hs.deleteRows _).keysAgree hn ha.purgeExpired
    exact ⟨hkeys, purges_of_keysAgree ha.encodable hkeys⟩

omit [Hashlib] in
/-- A name without a pin that is served is deleted by each of the operations. -/
theorem edition_keys_agree :
    letI := Data.paddedHash
    let cs := holding (signedHi editionName)
    (∃ d, cs.get editionName 5 = (cs, .ok (some d))) ∧ ∀ d t,
      cs.get editionName 5 = (t, .ok (some d)) →
        t.KeysAgree editionName ∧ Purges t editionName := by
  let := Data.paddedHash
  have hrun : Run ContentStore.step anyStep {} [.insert editionName (signedHi editionName) 0]
      (holding (signedHi editionName)) := run_of_exec rfl
  exact ⟨⟨_, rfl⟩, (keys_agree_iff (.empty rfl rfl) hrun editionName 5 fun _ => rfl).mpr (.inl rfl)⟩

def chunkPurge : Invalidate where
  name := chunkName
  epoch := 5
  signature := some (List.replicate 64 7)

set_option maxRecDepth 2000 in
omit [Hashlib] in
/-- The chunk is served under its pinned name before and after the server accepts an invalidation
of that name, and the store has nothing to delete under it. -/
theorem pinned_chunk_kept :
    letI := Data.paddedHash
    let cs := holding (signedHi chunkName)
    let received := Label.incoming 100 (wireBytes (.invalidate chunkPurge)) drawn
    (∃ d, cs.get chunkName 5 = (cs, .ok (some d))) ∧
    (verifying.withStore cs).relayed received = some (100, chunkPurge) ∧
    cs.contains chunkName = .ok false ∧ (cs.remove chunkName).map Prod.snd = .ok false ∧
    (cs.invalidate chunkName false).map Prod.snd = .ok 0 ∧
    (cs.invalidate chunkName true).map Prod.snd = .ok 0 ∧
    cs.apply (.invalidate chunkName chunkPurge.isPrefix) = cs ∧
    ¬ ∀ d t, cs.get chunkName 5 = (t, .ok (some d)) → t.KeysAgree chunkName ∧
      Purges t chunkName := by
  let := Data.paddedHash
  intro cs received
  refine ⟨⟨_, rfl⟩, rfl, rfl, rfl, rfl, rfl, rfl, fun hagree => ?_⟩
  have hcontains := (hagree _ _ rfl).1.contains
  cases hcontains

end Server

end RnsIcn
