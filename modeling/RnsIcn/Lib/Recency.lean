import Mathlib.Data.List.Basic
import Mathlib.Order.Nat

/-! # Recency of use

A log of timed writes and reads, the latest first. What was last used no later
than another key is told from the times in the log.
-/

namespace Recency

structure Use (κ : Type*) where
  key : κ
  time : ℕ
  isRead : Bool
  deriving DecidableEq, Repr

variable {κ : Type*} [DecidableEq κ]

def lastUse (log : List (Use κ)) (k : κ) : Option ℕ :=
  (log.find? fun u => u.key = k).map Use.time

def NoLater (log : List (Use κ)) (j k : κ) : Prop :=
  ∀ x ∈ lastUse log j, ∃ y ∈ lastUse log k, x ≤ y

def Timed (log : List (Use κ)) : Prop := log.Pairwise fun u v => v.time < u.time

variable {log : List (Use κ)} {j k : κ}

theorem lastUse_cons_of_ne {u : Use κ} (h : u.key ≠ k) : lastUse (u :: log) k = lastUse log k := by
  simp [lastUse, h]

theorem noLater_cons_of_ne {u : Use κ} (hj : u.key ≠ j) (hk : u.key ≠ k) :
    NoLater (u :: log) j k ↔ NoLater log j k := by
  rw [NoLater, NoLater, lastUse_cons_of_ne hj, lastUse_cons_of_ne hk]

omit [DecidableEq κ] in
theorem Timed.eq_of_time_eq (h : Timed log) {u v : Use κ} (hu : u ∈ log) (hv : v ∈ log)
    (ht : u.time = v.time) : u = v := by
  induction h with
  | nil => cases hu
  | @cons w log hw _ ih =>
    rw [List.mem_cons] at hu hv
    rcases hu with rfl | hu <;> rcases hv with rfl | hv
    · rfl
    · exact absurd ht (hw v hv).ne'
    · exact absurd ht (hw u hu).ne
    · exact ih hu hv

theorem Timed.mem_lastUse_iff (h : Timed log) {x : ℕ} : x ∈ lastUse log k ↔
    (∃ u ∈ log, u.key = k ∧ u.time = x) ∧ ∀ u ∈ log, u.key = k → u.time ≤ x := by
  induction h with
  | nil => simp [lastUse]
  | @cons w log hw _ ih =>
    by_cases hk : w.key = k
    · have hlast : lastUse (w :: log) k = some w.time := by simp [lastUse, hk]
      rw [hlast, Option.mem_some_iff]
      constructor
      · rintro rfl
        refine ⟨⟨w, List.mem_cons_self, hk, rfl⟩, fun u hu _ => ?_⟩
        rcases List.mem_cons.mp hu with rfl | hu
        · exact le_rfl
        · exact (hw u hu).le
      · rintro ⟨⟨u, hu, -, rfl⟩, hmax⟩
        rcases List.mem_cons.mp hu with rfl | hu
        · rfl
        · exact absurd (hmax w List.mem_cons_self hk) (hw u hu).not_ge
    · simp [lastUse_cons_of_ne hk, ih, hk]

theorem exists_lastUse {u : Use κ} (hu : u ∈ log) (hk : u.key = k) : ∃ x, x ∈ lastUse log k := by
  have hsome : (log.find? fun u => u.key = k).isSome = true :=
    List.find?_isSome.mpr ⟨u, hu, by simpa using hk⟩
  obtain ⟨v, hv⟩ := Option.isSome_iff_exists.mp hsome
  exact ⟨v.time, by simp [lastUse, hv]⟩

theorem Timed.noLater_iff (h : Timed log) : NoLater log j k ↔
    ∀ u ∈ log, u.key = j → ∃ v ∈ log, v.key = k ∧ u.time ≤ v.time := by
  constructor
  · intro hle u hu hj
    obtain ⟨x, hx⟩ := exists_lastUse hu hj
    obtain ⟨y, hy, hxy⟩ := hle x hx
    obtain ⟨v, hv, hk, rfl⟩ := (h.mem_lastUse_iff.mp hy).1
    exact ⟨v, hv, hk, ((h.mem_lastUse_iff.mp hx).2 u hu hj).trans hxy⟩
  · intro hall x hx
    obtain ⟨u, hu, hj, rfl⟩ := (h.mem_lastUse_iff.mp hx).1
    obtain ⟨v, hv, hk, huv⟩ := hall u hu hj
    obtain ⟨y, hy⟩ := exists_lastUse hv hk
    exact ⟨y, hy, huv.trans ((h.mem_lastUse_iff.mp hy).2 v hv hk)⟩

theorem Timed.noLater_key {u : Use κ} (h : Timed (u :: log)) : NoLater (u :: log) j u.key := by
  rw [h.noLater_iff]
  intro v hv _
  refine ⟨u, List.mem_cons_self, rfl, ?_⟩
  rcases List.mem_cons.mp hv with rfl | hv
  · exact le_rfl
  · exact (List.rel_of_pairwise_cons h hv).le

/-- For a key that was written last before another one, only the reads matter. -/
theorem Timed.noLater_iff_reads (h : Timed log) (hne : j ≠ k) {written : ℕ}
    (hj : ∀ u ∈ log, u.key = j → u.isRead = true ∨ u.time ≤ written)
    (hk : ∃ v ∈ log, v.key = k ∧ written < v.time) : NoLater log j k ↔
      ∀ u ∈ log, u.key = j → u.isRead = true → ∃ v ∈ log, v.key = k ∧ u.time < v.time := by
  rw [h.noLater_iff]
  constructor
  · intro hall u hu huj _
    obtain ⟨v, hv, hvk, hle⟩ := hall u hu huj
    refine ⟨v, hv, hvk, hle.lt_of_ne fun ht => hne ?_⟩
    rw [← huj, ← hvk, h.eq_of_time_eq hu hv ht]
  · intro hall u hu huj
    rcases hj u hu huj with hread | hle
    · obtain ⟨v, hv, hvk, hlt⟩ := hall u hu huj hread
      exact ⟨v, hv, hvk, hlt.le⟩
    · obtain ⟨v, hv, hvk, hlt⟩ := hk
      exact ⟨v, hv, hvk, hle.trans hlt.le⟩

end Recency
