import Mathlib.Data.List.Basic

/-! # A queue with several consumers

Items are taken in the order in which they came, each by one consumer. The queue remembers
who took what, so that what one consumer got can be compared with what it should have got.
-/

/-- What waits, and what was taken by whom, each in the order of arrival. -/
structure SharedQueue (κ α : Type*) where
  items : List α := []
  taken : List (κ × α) := []

namespace SharedQueue

variable {κ α : Type*} {q q' : SharedQueue κ α} {k : κ} {a : α} {p p' : κ × α → Bool}

def put (q : SharedQueue κ α) (a : α) : SharedQueue κ α := { q with items := q.items ++ [a] }

def take (q : SharedQueue κ α) (k : κ) : Option (α × SharedQueue κ α) :=
  match q.items with
  | [] => none
  | a :: items => some (a, { items, taken := q.taken ++ [(k, a)] })

def arrived (q : SharedQueue κ α) : List α := q.taken.map Prod.snd ++ q.items

def selected (q : SharedQueue κ α) (p : κ × α → Bool) : List α := (q.taken.filter p).map Prod.snd

theorem arrived_put (q : SharedQueue κ α) (a : α) : (q.put a).arrived = q.arrived ++ [a] :=
  (List.append_assoc ..).symm

theorem take_eq_some : q.take k = some (a, q') ↔
    ∃ items, q.items = a :: items ∧ q' = { items, taken := q.taken ++ [(k, a)] } := by
  unfold take
  constructor
  · intro h
    split at h
    · cases h
    · rename_i b items hitems
      obtain ⟨rfl, rfl⟩ := Prod.mk.inj (Option.some.inj h)
      exact ⟨items, hitems, rfl⟩
  · rintro ⟨items, hitems, rfl⟩
    rw [hitems]

theorem arrived_of_take (h : q.take k = some (a, q')) : q'.arrived = q.arrived := by
  obtain ⟨items, hitems, rfl⟩ := take_eq_some.mp h
  simp [arrived, hitems]

theorem selected_of_take (h : q.take k = some (a, q')) :
    q'.selected p = q.selected p ++ if p (k, a) then [a] else [] := by
  obtain ⟨items, -, rfl⟩ := take_eq_some.mp h
  unfold selected
  rw [List.filter_append, List.map_append]
  cases hp : p (k, a) <;> simp [hp]

theorem selected_sublist (q : SharedQueue κ α) (p : κ × α → Bool) :
    (q.selected p).Sublist q.arrived :=
  (List.filter_sublist.map _).trans (List.sublist_append_left ..)

/-- A stronger check selects the same if and only if it passes all that the weaker one passes. -/
theorem selected_eq_iff (hp : ∀ x, p x = true → p' x = true) :
    q.selected p = q.selected p' ↔ ∀ x ∈ q.taken, p' x = true → p x = true := by
  have htwice : (q.taken.filter p').filter p = q.taken.filter p := by
    rw [List.filter_filter]
    refine List.filter_congr fun x _ => ?_
    cases h : p x
    · rfl
    · rw [hp x h]
      rfl
  constructor
  · intro h x hx hx'
    have hlen := congrArg List.length h
    unfold selected at hlen
    rw [List.length_map, List.length_map, ← htwice, List.length_filter_eq_length_iff] at hlen
    exact hlen x (List.mem_filter.mpr ⟨hx, hx'⟩)
  · intro h
    unfold selected
    rw [← htwice]
    refine congrArg (List.map Prod.snd) (List.filter_eq_self.mpr fun x hx => ?_)
    obtain ⟨hx, hx'⟩ := List.mem_filter.mp hx
    exact h x hx hx'

end SharedQueue
