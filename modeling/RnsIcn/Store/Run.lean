import RnsIcn.Lib.Transition
import RnsIcn.Store.Content

/-! # Runs of the Content Store

The operations of a store as the steps of a run. A row stays as it was written
until an operation overwrites it or deletes it, whatever the reason for deleting
it is.
-/

namespace RnsIcn

open Fallible

inductive StoreOp where
  | insert (name : Name) (d : Data) (now : ℕ)
  | get (name : Name) (now : ℕ)
  | getPrefix (name : Name) (child : ChildSelector) (minSequence : Option ℕ) (now : ℕ)
  | purgeExpired (now : ℕ)
  | evictLru (targetCount : ℕ)
  | remove (name : Name)
  | invalidate (name : Name) (byPrefix : Bool)
  deriving DecidableEq, Repr

namespace ContentStore

variable {s t : ContentStore} {key : Bytes}

def commit (s : ContentStore) : Except PyError ContentStore → ContentStore
  | .ok t => t
  | .error _ => s

@[simp] theorem commit_ok (s t : ContentStore) : s.commit (.ok t) = t := rfl

@[simp] theorem commit_error (s : ContentStore) (e : PyError) : s.commit (.error e) = s := rfl

section Apply

variable [Hashlib]

def apply (s : ContentStore) : StoreOp → ContentStore
  | .insert name d now => s.commit (s.insert name d now)
  | .get name now => (s.get name now).1
  | .getPrefix name child minSequence now => (s.getPrefix name child minSequence now).1
  | .purgeExpired now => s.purgeExpired now
  | .evictLru targetCount => s.evictLru targetCount
  | .remove name => s.commit ((s.remove name).map Prod.fst)
  | .invalidate name byPrefix => s.commit ((s.invalidate name byPrefix).map Prod.fst)

def step (s : ContentStore) (op : StoreOp) : Option ContentStore := some (s.apply op)

end Apply

@[simp] theorem get?_deleteRow (s : ContentStore) (key k : Bytes) :
    (s.deleteRow key).content.get? k = if k = key then none else s.content.get? k :=
  Dict.get?_erase s.content key k

theorem get?_deleteRows (s : ContentStore) (keys : List Bytes) (k : Bytes) :
    (s.deleteRows keys).content.get? k = if k ∈ keys then none else s.content.get? k := by
  induction keys generalizing s with
  | nil => rfl
  | cons key keys ih =>
    rw [deleteRows, List.foldl_cons, ← deleteRows, ih, get?_deleteRow]
    by_cases hk : k = key <;> by_cases hm : k ∈ keys <;> simp [hk, hm]

theorem get?_upsert (s : ContentStore) (key : Bytes) (row : Row) (prefixes : List Bytes)
    (k : Bytes) :
    (s.upsert key row prefixes).content.get? k = if k = key then some row else s.content.get? k :=
  Dict.get?_set s.content key row k

def Sub (t s : ContentStore) : Prop :=
  ∀ k row, t.content.get? k = some row → s.content.get? k = some row

theorem sub_refl (s : ContentStore) : Sub s s := fun _ _ h => h

theorem deleteRows_sub (s : ContentStore) (keys : List Bytes) : Sub (s.deleteRows keys) s := by
  intro k row h
  rw [get?_deleteRows] at h
  split at h
  · cases h
  · exact h

theorem evictLruInternal_sub (s : ContentStore) (count : ℕ) : Sub (s.evictLruInternal count) s :=
  deleteRows_sub s _

theorem deleteRows_ttls (s : ContentStore) (keys : List Bytes) :
    (s.deleteRows keys).defaultTtl = s.defaultTtl ∧
      (s.deleteRows keys).prefixTtls = s.prefixTtls := by
  induction keys generalizing s with
  | nil => exact ⟨rfl, rfl⟩
  | cons key keys ih => exact ih (s.deleteRow key)

theorem evictLruInternal_ttls (s : ContentStore) (count : ℕ) :
    (s.evictLruInternal count).defaultTtl = s.defaultTtl ∧
      (s.evictLruInternal count).prefixTtls = s.prefixTtls := deleteRows_ttls s _

variable [Hashlib]

theorem insert_eq_ok {name : Name} {d : Data} {now : ℕ} (h : s.insert name d now = .ok t) :
    ∃ nameBytes prefixes, name.withoutContentHash.toBytes = .ok nameBytes ∧
      prefixHashes name.withoutContentHash = .ok prefixes ∧
      bindRow (makeRow nameBytes d now (s.computeTtl name.withoutContentHash)) = .ok () ∧
      ∃ count, t = (s.upsert (blake2b nameBytes)
        (makeRow nameBytes d now (s.computeTtl name.withoutContentHash)) prefixes).evictLruInternal
          count := by
  simp only [insert, bind_eq_ok, pure_eq_ok] at h
  obtain ⟨nameBytes, hn, ⟨⟩, hb, prefixes, hp, ht⟩ := h
  refine ⟨nameBytes, prefixes, hn, hp, hb, ?_⟩
  split at ht
  · exact ⟨_, ht.symm⟩
  · exact ⟨0, by simp [← ht, evictLruInternal, lruKeys, deleteRows]⟩

theorem insert_ttls {name : Name} {d : Data} {now : ℕ} (h : s.insert name d now = .ok t) :
    t.defaultTtl = s.defaultTtl ∧ t.prefixTtls = s.prefixTtls := by
  obtain ⟨nameBytes, prefixes, -, -, -, count, rfl⟩ := insert_eq_ok h
  exact evictLruInternal_ttls _ count

theorem apply_ttls (op : StoreOp) :
    (s.apply op).defaultTtl = s.defaultTtl ∧ (s.apply op).prefixTtls = s.prefixTtls := by
  cases op with
  | insert name d now =>
    rw [apply]
    cases hi : s.insert name d now with
    | error e => exact ⟨rfl, rfl⟩
    | ok t => exact insert_ttls hi
  | get | getPrefix | purgeExpired | evictLru => exact deleteRows_ttls s _
  | remove name =>
    rw [apply, remove]
    cases nameHash name with
    | error e => exact ⟨rfl, rfl⟩
    | ok k => exact deleteRows_ttls s [k]
  | invalidate name byPrefix =>
    rw [apply, invalidate]
    cases nameHash name with
    | error e => exact ⟨rfl, rfl⟩
    | ok k => exact deleteRows_ttls s _

/-- Whether an insertion succeeds depends on the configured lifetimes and on nothing else in the
store. -/
theorem insert_isOk {name : Name} {d : Data} {now : ℕ} (hd : t.defaultTtl = s.defaultTtl)
    (hp : t.prefixTtls = s.prefixTtls) (h : ∃ u, s.insert name d now = .ok u) :
    ∃ u, t.insert name d now = .ok u := by
  obtain ⟨u, h⟩ := h
  have httl (n : Name) : t.computeTtl n = s.computeTtl n := by rw [computeTtl, computeTtl, hd, hp]
  simp only [insert, bind_eq_ok, pure_eq_ok, httl] at h ⊢
  obtain ⟨nameBytes, hn, ⟨⟩, hb, prefixes, hh, -⟩ := h
  exact ⟨_, nameBytes, hn, ⟨⟩, hb, prefixes, hh, rfl⟩

theorem get?_apply_insert {name : Name} {d : Data} {now : ℕ} {row : Row}
    (hr : (s.apply (.insert name d now)).content.get? key = some row) :
    s.content.get? key = some row ∨
      name.withoutContentHash.Encodable ∧ key = blake2b name.withoutContentHash.encode ∧
        (∃ ttl, row = makeRow name.withoutContentHash.encode d now ttl) ∧
        ∃ t, s.insert name d now = .ok t := by
  rw [apply] at hr
  cases hi : s.insert name d now with
  | error e => exact .inl (by simpa [hi] using hr)
  | ok t =>
    obtain ⟨nameBytes, prefixes, hb, -, -, count, rfl⟩ := insert_eq_ok hi
    obtain ⟨he, rfl⟩ := Name.toBytes_eq_ok.mp hb
    have hu := evictLruInternal_sub _ count _ _ (by simpa [hi] using hr)
    rw [get?_upsert] at hu
    split at hu
    · exact .inr ⟨he, by assumption, ⟨_, (Option.some.inj hu).symm⟩, _, rfl⟩
    · exact .inl hu

theorem nameHash_eq_ok {n : Name} {k : Bytes} :
    nameHash n = .ok k ↔ n.Encodable ∧ k = blake2b n.encode := by
  simp only [nameHash, bind_eq_ok, pure_eq_ok, Name.toBytes_eq_ok]
  constructor
  · rintro ⟨_, ⟨h, rfl⟩, rfl⟩; exact ⟨h, rfl⟩
  · rintro ⟨h, rfl⟩; exact ⟨_, ⟨h, rfl⟩, rfl⟩

def Overwrites (key : Bytes) : StoreOp → Prop
  | .insert name _ _ => nameHash name.withoutContentHash = .ok key
  | _ => False

/-- The operation neither overwrites the row of `key` nor deletes it. -/
def Spares (key : Bytes) (s : ContentStore) (op : StoreOp) : Prop :=
  ¬ Overwrites key op ∧ (s.content.contains key = true → (s.apply op).content.contains key = true)

theorem apply_get? {op : StoreOp} (h : ¬ Overwrites key op) {row : Row}
    (hr : (s.apply op).content.get? key = some row) : s.content.get? key = some row := by
  cases op with
  | insert name d now =>
    rcases get?_apply_insert hr with hr | ⟨he, hk, -⟩
    · exact hr
    · exact absurd (nameHash_eq_ok.mpr ⟨he, hk⟩) h
  | get name now => exact deleteRows_sub s _ _ _ hr
  | getPrefix name child minSequence now => exact deleteRows_sub s _ _ _ hr
  | purgeExpired now => exact deleteRows_sub s _ _ _ hr
  | evictLru targetCount => exact deleteRows_sub s _ _ _ hr
  | remove name =>
    rw [apply] at hr
    cases hi : nameHash name with
    | error e => simpa [remove, hi, bind, Except.bind, Except.map] using hr
    | ok k => exact deleteRows_sub s [k] _ _ (by
        simpa [remove, hi, bind, Except.bind, pure, Except.pure, Except.map, deleteRows] using hr)
  | invalidate name byPrefix =>
    rw [apply] at hr
    cases hi : nameHash name with
    | error e => simpa [invalidate, hi, bind, Except.bind, Except.map] using hr
    | ok k => exact deleteRows_sub s _ _ _ (by
        simpa [invalidate, hi, bind, Except.bind, pure, Except.pure, Except.map] using hr)

theorem Spares.get? {op : StoreOp} (h : Spares key s op) {row : Row}
    (hr : s.content.get? key = some row) : (s.apply op).content.get? key = some row := by
  obtain ⟨row', hr'⟩ := Dict.contains_iff.mp (h.2 (Dict.contains_iff.mpr ⟨row, hr⟩))
  rw [hr', ← apply_get? h.1 hr', hr]

theorem get?_of_run {ops : List StoreOp} (h : Transition.Run step (Spares key) s ops t) {row : Row}
    (hr : s.content.get? key = some row) : t.content.get? key = some row :=
  h.invariant (I := fun s => s.content.get? key = some row) hr fun s op u hi hok hs => by
    obtain rfl := Option.some.inj hs
    exact hok.get? hi

end ContentStore

end RnsIcn
