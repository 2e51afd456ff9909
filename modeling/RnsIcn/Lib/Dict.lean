import Mathlib.Algebra.BigOperators.Group.List.Basic
import Mathlib.Algebra.GroupWithZero.Nat
import Mathlib.Data.List.Induction
import Mathlib.Data.List.Nodup

/-! # Insertion-ordered dictionaries

A dictionary is a list of items with distinct keys. Assigning to a present key
keeps its position, assigning to a new key appends, and iteration follows the
list.
-/

/-- A finite map that remembers the order in which its keys were first assigned. -/
structure Dict (κ ν : Type*) where

  items : List (κ × ν)
  nodup : (items.map Prod.fst).Nodup

namespace Dict

variable {κ ν : Type*}

theorem ext_items {d e : Dict κ ν} (h : d.items = e.items) : d = e := by
  cases d; cases e; simp_all

def keys (d : Dict κ ν) : List κ := d.items.map Prod.fst

def values (d : Dict κ ν) : List ν := d.items.map Prod.snd

def size (d : Dict κ ν) : ℕ := d.items.length

def empty : Dict κ ν := ⟨[], List.nodup_nil⟩

theorem item_eq_of_key_eq {d : Dict κ ν} {e f : κ × ν} (he : e ∈ d.items) (hf : f ∈ d.items)
    (h : e.1 = f.1) : e = f :=
  List.inj_on_of_nodup_map d.nodup he hf h

/-- The items that satisfy a predicate, in order. -/
def filter (p : κ → ν → Bool) (d : Dict κ ν) : Dict κ ν :=
  ⟨d.items.filter fun e => p e.1 e.2, d.nodup.sublist (List.filter_sublist.map _)⟩

def mapValues (f : ν → ν) (d : Dict κ ν) : Dict κ ν :=
  ⟨d.items.map fun e => (e.1, f e.2), by rw [List.map_map]; exact d.nodup⟩

@[simp] theorem mem_items_filter {p : κ → ν → Bool} {d : Dict κ ν} {e : κ × ν} :
    e ∈ (d.filter p).items ↔ e ∈ d.items ∧ p e.1 e.2 = true := List.mem_filter

variable [DecidableEq κ]

def get? (d : Dict κ ν) (k : κ) : Option ν := (d.items.find? (·.1 = k)).map Prod.snd

def contains (d : Dict κ ν) (k : κ) : Bool := d.items.any (·.1 = k)

theorem get?_eq_some {d : Dict κ ν} {k : κ} {v : ν} : d.get? k = some v ↔ (k, v) ∈ d.items := by
  simp only [get?, Option.map_eq_some_iff]
  constructor
  · rintro ⟨e, he, rfl⟩
    have hk : e.1 = k := by simpa using List.find?_some he
    exact hk ▸ List.mem_of_find?_eq_some he
  · intro h
    have hs : (d.items.find? (·.1 = k)).isSome := List.find?_isSome.mpr ⟨_, h, by simp⟩
    obtain ⟨e, he⟩ := Option.isSome_iff_exists.mp hs
    have hk : e.1 = k := by simpa using List.find?_some he
    exact ⟨e, he, by rw [item_eq_of_key_eq (List.mem_of_find?_eq_some he) h hk]⟩

theorem mem_keys {d : Dict κ ν} {k : κ} : k ∈ d.keys ↔ ∃ v, d.get? k = some v := by
  simp [keys, get?_eq_some]

theorem get?_eq_none {d : Dict κ ν} {k : κ} : d.get? k = none ↔ k ∉ d.keys := by
  rw [mem_keys, Option.eq_none_iff_forall_ne_some, not_exists]

theorem contains_iff {d : Dict κ ν} {k : κ} : d.contains k = true ↔ ∃ v, d.get? k = some v := by
  simp [contains, get?_eq_some]

@[simp] theorem get?_empty (k : κ) : (empty : Dict κ ν).get? k = none := rfl

def set (d : Dict κ ν) (k : κ) (v : ν) : Dict κ ν :=
  if h : k ∈ d.keys then
    ⟨d.items.map fun e => if e.1 = k then (k, v) else e, by
      have hkeys : (d.items.map fun e => if e.1 = k then (k, v) else e).map Prod.fst =
          d.items.map Prod.fst := by
        rw [List.map_map]
        refine List.map_congr_left fun e _ => ?_
        by_cases he : e.1 = k <;> simp [he]
      exact hkeys ▸ d.nodup⟩
  else
    ⟨d.items ++ [(k, v)], by
      rw [List.map_append, List.nodup_append]
      refine ⟨d.nodup, by simp, ?_⟩
      rintro a ha b hb rfl
      obtain rfl : a = k := by simpa using hb
      exact h ha⟩

theorem mem_items_set {d : Dict κ ν} {k : κ} {v : ν} {e : κ × ν} :
    e ∈ (d.set k v).items ↔ e = (k, v) ∨ e ∈ d.items ∧ e.1 ≠ k := by
  by_cases h : k ∈ d.keys
  · simp only [set, dif_pos h, List.mem_map]
    constructor
    · rintro ⟨f, hf, rfl⟩
      by_cases hk : f.1 = k <;> simp [hk, hf]
    · rintro (rfl | ⟨he, hk⟩)
      · obtain ⟨f, hf, rfl⟩ := List.mem_map.mp h
        exact ⟨f, hf, by simp⟩
      · exact ⟨e, he, by simp [hk]⟩
  · simp only [set, dif_neg h, List.mem_append, List.mem_singleton]
    constructor
    · rintro (he | rfl)
      · exact .inr ⟨he, fun hk => h (List.mem_map.mpr ⟨e, he, hk⟩)⟩
      · exact .inl rfl
    · rintro (rfl | ⟨he, -⟩)
      · exact .inr rfl
      · exact .inl he

theorem get?_set (d : Dict κ ν) (k : κ) (v : ν) (k' : κ) :
    (d.set k v).get? k' = if k' = k then some v else d.get? k' := by
  ext w
  rw [get?_eq_some, mem_items_set]
  by_cases h : k' = k
  · subst h; simp [eq_comm]
  · simp [h, get?_eq_some]

@[simp] theorem get?_set_self (d : Dict κ ν) (k : κ) (v : ν) : (d.set k v).get? k = some v := by
  rw [get?_set, if_pos rfl]

theorem get?_set_ne (d : Dict κ ν) {k k' : κ} (v : ν) (h : k' ≠ k) :
    (d.set k v).get? k' = d.get? k' := by
  rw [get?_set, if_neg h]

theorem get?_filter (p : κ → ν → Bool) (d : Dict κ ν) (k : κ) :
    (d.filter p).get? k = (d.get? k).filter (p k) := by
  ext v
  rw [get?_eq_some, mem_items_filter, Option.filter_eq_some_iff, get?_eq_some]

def erase (d : Dict κ ν) (k : κ) : Dict κ ν := d.filter fun k' _ => k' ≠ k

theorem get?_erase (d : Dict κ ν) (k k' : κ) :
    (d.erase k).get? k' = if k' = k then none else d.get? k' := by
  rw [erase, get?_filter]
  by_cases h : k' = k <;> cases d.get? k' <;> simp [h]

@[simp] theorem get?_erase_self (d : Dict κ ν) (k : κ) : (d.erase k).get? k = none := by
  rw [get?_erase, if_pos rfl]

theorem get?_erase_ne (d : Dict κ ν) {k k' : κ} (h : k' ≠ k) :
    (d.erase k).get? k' = d.get? k' := by
  rw [get?_erase, if_neg h]

theorem mem_keys_set (d : Dict κ ν) {k k' : κ} {v : ν} :
    k' ∈ (d.set k v).keys ↔ k' = k ∨ k' ∈ d.keys := by
  rw [mem_keys, mem_keys, get?_set]
  by_cases h : k' = k
  · rw [if_pos h]
    exact ⟨fun _ => .inl h, fun _ => ⟨v, rfl⟩⟩
  · rw [if_neg h, or_iff_right h]

theorem mem_keys_erase (d : Dict κ ν) {k k' : κ} :
    k' ∈ (d.erase k).keys ↔ k' ≠ k ∧ k' ∈ d.keys := by
  rw [mem_keys, mem_keys, get?_erase]
  by_cases h : k' = k
  · rw [if_pos h]
    exact ⟨nofun, fun hk => absurd h hk.1⟩
  · rw [if_neg h, and_iff_right h]

theorem erase_of_get?_eq_none {d : Dict κ ν} {k : κ} (h : d.get? k = none) : d.erase k = d := by
  refine ext_items (List.filter_eq_self.mpr fun e he => ?_)
  have hk : e.1 ≠ k := by
    rintro rfl
    exact get?_eq_none.mp h (List.mem_map_of_mem he)
  simpa using hk

theorem set_of_get?_eq_some {d : Dict κ ν} {k : κ} {v : ν} (h : d.get? k = some v) :
    d.set k v = d := by
  refine ext_items ?_
  rw [set, dif_pos (mem_keys.mpr ⟨v, h⟩)]
  refine (List.map_congr_left fun e he => ?_).trans (List.map_id _)
  split
  · rename_i hk
    exact item_eq_of_key_eq (get?_eq_some.mp h) he hk.symm
  · rfl

def total (f : ν → ℕ) (d : Dict κ ν) : ℕ := (d.values.map f).sum

theorem items_set_perm (d : Dict κ ν) (k : κ) (v : ν) :
    (d.set k v).items.Perm ((k, v) :: (d.erase k).items) := by
  have hnotin : (k, v) ∉ (d.erase k).items := by simp [erase]
  refine (List.perm_ext_iff_of_nodup (d.set k v).nodup.of_map
    (List.nodup_cons.mpr ⟨hnotin, (d.erase k).nodup.of_map⟩)).mpr fun e => ?_
  rw [mem_items_set, List.mem_cons, erase, mem_items_filter, decide_eq_true_eq]

theorem total_set (f : ν → ℕ) (d : Dict κ ν) (k : κ) (v : ν) :
    (d.set k v).total f = f v + (d.erase k).total f := by
  have h := (((d.items_set_perm k v).map Prod.snd).map f).sum_eq
  simpa only [total, values, List.map_cons, List.sum_cons] using h

theorem total_erase (f : ν → ℕ) (d : Dict κ ν) (k : κ) :
    (d.get? k).elim 0 f + (d.erase k).total f = d.total f := by
  cases h : d.get? k with
  | none => rw [erase_of_get?_eq_none h, Option.elim_none, zero_add]
  | some v => rw [Option.elim_some, ← total_set, set_of_get?_eq_some h]

theorem mem_values {d : Dict κ ν} {v : ν} : v ∈ d.values ↔ ∃ k, d.get? k = some v := by
  rw [values, List.mem_map]
  constructor
  · rintro ⟨⟨k, _⟩, he, rfl⟩
    exact ⟨k, get?_eq_some.mpr he⟩
  · rintro ⟨k, hk⟩
    exact ⟨(k, v), get?_eq_some.mp hk, rfl⟩

end Dict
