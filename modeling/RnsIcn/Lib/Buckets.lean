import RnsIcn.Lib.Dict

/-! # Dictionaries of lists

A key without an item holds nothing. The entries are what the keys hold, each with its key.
-/

namespace Dict

variable {κ α : Type*} [DecidableEq κ] {d : Dict κ (List α)} {k : κ} {l : List α}

/-- What the key holds. -/
def bucket (d : Dict κ (List α)) (k : κ) : List α := (d.get? k).getD []

def entries (d : Dict κ (List α)) : List (κ × α) := d.items.flatMap fun e => e.2.map (e.1, ·)

@[simp] theorem bucket_set (d : Dict κ (List α)) (k k' : κ) (l : List α) :
    (d.set k l).bucket k' = if k' = k then l else d.bucket k' := by
  rw [bucket, get?_set]
  split <;> rfl

@[simp] theorem bucket_erase (d : Dict κ (List α)) (k k' : κ) :
    (d.erase k).bucket k' = if k' = k then [] else d.bucket k' := by
  rw [bucket, get?_erase]
  split <;> rfl

theorem entries_set_perm (d : Dict κ (List α)) (k : κ) (l : List α) :
    (d.set k l).entries.Perm (l.map (k, ·) ++ (d.erase k).entries) :=
  (d.items_set_perm k l).flatMap_right _

theorem entries_perm (d : Dict κ (List α)) (k : κ) :
    d.entries.Perm ((d.bucket k).map (k, ·) ++ (d.erase k).entries) := by
  cases h : d.get? k with
  | none =>
    rw [bucket, h, erase_of_get?_eq_none h]
    exact .refl _
  | some l =>
    have hset := d.entries_set_perm k l
    rwa [set_of_get?_eq_some h, ← Option.getD_some (a := l) (b := []), ← h, ← bucket] at hset

theorem entries_append_perm (d : Dict κ (List α)) (k : κ) (a : α) :
    (d.set k (d.bucket k ++ [a])).entries.Perm ((k, a) :: d.entries) := by
  have hset := d.entries_set_perm k (d.bucket k ++ [a])
  rw [List.map_append, List.append_assoc, List.map_cons, List.map_nil,
    List.singleton_append] at hset
  exact hset.trans (List.perm_middle.trans ((d.entries_perm k).symm.cons _))

omit [DecidableEq κ] in
theorem length_entries (d : Dict κ (List α)) : d.entries.length = d.total List.length := by
  simp [entries, total, values, List.length_flatMap, Function.comp_def]

/-- The key holds the list from now on, without an item if the list is empty. -/
def keep (d : Dict κ (List α)) (k : κ) (l : List α) : Dict κ (List α) :=
  if l.isEmpty then d.erase k else d.set k l

@[simp] theorem bucket_keep (d : Dict κ (List α)) (k k' : κ) (l : List α) :
    (d.keep k l).bucket k' = if k' = k then l else d.bucket k' := by
  unfold keep
  split
  · rename_i h
    rw [List.isEmpty_iff.mp h, bucket_erase]
  · rw [bucket_set]

theorem entries_keep_perm (d : Dict κ (List α)) (k : κ) (l : List α) :
    (d.keep k l).entries.Perm (l.map (k, ·) ++ (d.erase k).entries) := by
  unfold keep
  split
  · rename_i h
    rw [List.isEmpty_iff.mp h]
    exact .refl _
  · exact d.entries_set_perm k l

def Occupied (d : Dict κ (List α)) : Prop := ∀ k, d.get? k ≠ some []

theorem occupied_empty : (empty : Dict κ (List α)).Occupied := fun k h => by
  rw [get?_empty] at h
  cases h

theorem Occupied.set (h : d.Occupied) (k : κ) (hl : l ≠ []) : (d.set k l).Occupied := by
  intro k' hk'
  rw [get?_set] at hk'
  split at hk'
  · exact hl (Option.some.inj hk')
  · exact h k' hk'

theorem Occupied.erase (h : d.Occupied) (k : κ) : (d.erase k).Occupied := by
  intro k' hk'
  rw [get?_erase] at hk'
  split at hk'
  · cases hk'
  · exact h k' hk'

theorem Occupied.keep (h : d.Occupied) (k : κ) (l : List α) : (d.keep k l).Occupied := by
  unfold Dict.keep
  split
  · exact h.erase k
  · rename_i hl
    exact h.set k fun hnil => hl (List.isEmpty_iff.mpr hnil)

theorem Occupied.mem_keys (h : d.Occupied) : k ∈ d.keys ↔ d.bucket k ≠ [] := by
  rw [Dict.mem_keys, bucket]
  constructor
  · rintro ⟨l, hl⟩ hnil
    rw [hl, Option.getD_some] at hnil
    exact h k (hnil ▸ hl)
  · intro hne
    cases hl : d.get? k with
    | none => exact absurd (by rw [hl]; rfl) hne
    | some l => exact ⟨l, rfl⟩

end Dict
