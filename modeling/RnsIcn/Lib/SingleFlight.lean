import Mathlib.Data.Set.Insert

/-! # One task for a key

A key is marked when a task for it begins and is cleared when the task ends. A
task begins only if its key is not marked, so each key has one task at most, and
the marked keys are those of the tasks that run.
-/

/-- `marked` are the keys of the tasks that run, and no key has two of them. -/
structure SingleFlight {κ ι : Type*} (marked : Set κ) (runs : κ → ι → Prop) : Prop where
  marked_iff : ∀ k, k ∈ marked ↔ ∃ i, runs k i
  unique : ∀ k i j, runs k i → runs k j → i = j

namespace SingleFlight

variable {κ ι : Type*} {marked : Set κ} {runs runs' : κ → ι → Prop} {k : κ} {i : ι}

theorem none (h : ∀ k i, ¬ runs k i) : SingleFlight ∅ runs where
  marked_iff k := by simp [h]
  unique k i _ hr _ := absurd hr (h k i)

theorem congr (h : SingleFlight marked runs) (hr : ∀ k i, runs' k i ↔ runs k i) :
    SingleFlight marked runs' where
  marked_iff k := by simp only [h.marked_iff, hr]
  unique k i j hi hj := h.unique k i j ((hr k i).mp hi) ((hr k j).mp hj)

theorem begins (h : SingleFlight marked runs) (hk : k ∉ marked)
    (hr : ∀ k' i', runs' k' i' ↔ runs k' i' ∨ k' = k ∧ i' = i) :
    SingleFlight (insert k marked) runs' where
  marked_iff k' := by
    simp only [Set.mem_insert_iff, h.marked_iff, hr]
    constructor
    · rintro (rfl | ⟨i', hi'⟩)
      · exact ⟨i, .inr ⟨rfl, rfl⟩⟩
      · exact ⟨i', .inl hi'⟩
    · rintro ⟨i', hi' | ⟨rfl, -⟩⟩
      · exact .inr ⟨i', hi'⟩
      · exact .inl rfl
  unique k' i' j hi hj := by
    have hfree (j : ι) : ¬ runs k j := fun hj => hk ((h.marked_iff k).mpr ⟨j, hj⟩)
    rw [hr] at hi hj
    rcases hi with hi | ⟨rfl, rfl⟩
    · rcases hj with hj | ⟨rfl, -⟩
      · exact h.unique k' i' j hi hj
      · exact absurd hi (hfree i')
    · rcases hj with hj | ⟨-, rfl⟩
      · exact absurd hj (hfree j)
      · rfl

theorem ends (h : SingleFlight marked runs) (hi : runs k i) (hkey : ∀ k', runs k' i → k' = k)
    (hr : ∀ k' i', runs' k' i' ↔ runs k' i' ∧ i' ≠ i) :
    SingleFlight (marked \ {k}) runs' where
  marked_iff k' := by
    simp only [Set.mem_sdiff, Set.mem_singleton_iff, h.marked_iff, hr]
    constructor
    · rintro ⟨⟨i', hi'⟩, hne⟩
      refine ⟨i', hi', ?_⟩
      rintro rfl
      exact hne (hkey k' hi')
    · rintro ⟨i', hi', hne⟩
      refine ⟨⟨i', hi'⟩, ?_⟩
      rintro rfl
      exact hne (h.unique k' i' i hi' hi)
  unique k' i' j hi' hj := h.unique k' i' j ((hr k' i').mp hi').1 ((hr k' j).mp hj).1

end SingleFlight
