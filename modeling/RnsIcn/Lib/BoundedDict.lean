import Mathlib.Data.List.MinMax
import RnsIcn.Lib.Dict

/-! # Dictionaries of bounded size

A dictionary with a capacity makes room for an item by dropping the one whose value
ranks lowest. It never outgrows its capacity, and an item is dropped only if there is
no room.
-/

namespace Dict

variable {κ ν τ : Type*}

theorem size_filter_le (p : κ → ν → Bool) (d : Dict κ ν) : (d.filter p).size ≤ d.size :=
  List.length_filter_le _ _

section Size

variable [DecidableEq κ] {d : Dict κ ν} {k : κ} {v w : ν}

theorem size_set (d : Dict κ ν) (k : κ) (v : ν) : (d.set k v).size = (d.erase k).size + 1 :=
  (d.items_set_perm k v).length_eq

theorem size_set_of_get?_eq_none (h : d.get? k = none) : (d.set k v).size = d.size + 1 := by
  rw [size_set, erase_of_get?_eq_none h]

theorem size_erase_of_get?_eq_some (h : d.get? k = some v) : (d.erase k).size + 1 = d.size := by
  rw [← size_set d k v, set_of_get?_eq_some h]

theorem size_set_of_get?_eq_some (h : d.get? k = some w) : (d.set k v).size = d.size := by
  rw [size_set, size_erase_of_get?_eq_some h]

theorem size_pos_of_get?_eq_some (h : d.get? k = some v) : 0 < d.size := by
  rw [← size_erase_of_get?_eq_some h]
  exact Nat.succ_pos _

theorem size_set_le (d : Dict κ ν) (k : κ) (v : ν) : (d.set k v).size ≤ d.size + 1 := by
  rw [size_set]
  exact Nat.succ_le_succ (size_filter_le _ d)

end Size

section Lowest

variable [DecidableEq κ] [LinearOrder τ] {rank : ν → τ} {d : Dict κ ν}

/-- The item with the lowest rank is dropped, the first one if there are several. -/
def dropLowest (rank : ν → τ) (d : Dict κ ν) : Dict κ ν :=
  match d.items.argmin fun e => rank e.2 with
  | none => d
  | some e => d.erase e.1

structure Lowest (rank : ν → τ) (d : Dict κ ν) (k : κ) (v : ν) : Prop where
  get? : d.get? k = some v
  le : ∀ {k' : κ} {v' : ν}, d.get? k' = some v' → rank v ≤ rank v'

theorem exists_lowest (rank : ν → τ) (h : 0 < d.size) :
    ∃ k v, d.Lowest rank k v ∧ d.dropLowest rank = d.erase k := by
  unfold dropLowest
  cases hmin : d.items.argmin fun e => rank e.2 with
  | none =>
    rw [size, List.argmin_eq_none.mp hmin] at h
    cases h
  | some e =>
    refine ⟨e.1, e.2, ⟨get?_eq_some.mpr (List.argmin_mem hmin), fun {k' v'} hk => ?_⟩, rfl⟩
    exact List.le_of_mem_argmin (f := fun e : κ × ν => rank e.2) (get?_eq_some.mp hk) hmin

def makeRoom (rank : ν → τ) (capacity : ℕ) (d : Dict κ ν) : Dict κ ν :=
  if capacity ≤ d.size then d.dropLowest rank else d

theorem size_makeRoom_lt {capacity : ℕ} (hpos : 0 < capacity) (h : d.size ≤ capacity) :
    (d.makeRoom rank capacity).size < capacity := by
  unfold makeRoom
  split
  · rename_i hfull
    obtain ⟨k, v, hlow, hdrop⟩ := exists_lowest rank (hpos.trans_le hfull)
    have hsize := size_erase_of_get?_eq_some hlow.get?
    rw [hdrop]
    omega
  · rename_i hroom
    exact not_le.mp hroom

theorem size_set_makeRoom_le {capacity : ℕ} (hpos : 0 < capacity) (h : d.size ≤ capacity) (k : κ)
    (v : ν) : ((d.makeRoom rank capacity).set k v).size ≤ capacity :=
  (size_set_le _ k v).trans (size_makeRoom_lt hpos h)

end Lowest

end Dict
