import Mathlib.Data.Finset.Card
import Mathlib.Order.Nat

/-! # Ascending walks

A query for the least number at or above a floor, asked again with the floor after
each answer, visits a finite set in ascending order and ends.
-/

namespace Ascent

def Above (floor : Option ℕ) (q : ℕ) : Prop := ∀ x ∈ floor, x ≤ q

instance (floor : Option ℕ) : DecidablePred (Above floor) := fun q =>
  inferInstanceAs (Decidable (∀ x ∈ floor, x ≤ q))

@[simp] theorem above_none (q : ℕ) : Above none q := nofun

@[simp] theorem above_some {x q : ℕ} : Above (some x) q ↔ x ≤ q := by
  simp [Above]

variable {σ ε : Type*}

/-- The `k`-th query and the ones after it give the numbers in turn, up to one without an
answer. -/
inductive Walk (query : ℕ → σ → Option ℕ → σ × Except ε (Option ℕ)) :
    ℕ → σ → Option ℕ → List ℕ → Prop where

  | done {k : ℕ} {s t : σ} {floor : Option ℕ} : query k s floor = (t, .ok none) →
      Walk query k s floor []

  | next {k q : ℕ} {s t : σ} {floor : Option ℕ} {qs : List ℕ} :
      query k s floor = (t, .ok (some q)) → Walk query (k + 1) t (some (q + 1)) qs →
      Walk query k s floor (q :: qs)

def Least (S : Finset ℕ) (floor : Option ℕ) : Option ℕ → Prop
  | none => ∀ q ∈ S, ¬ Above floor q
  | some q => q ∈ S ∧ Above floor q ∧ ∀ q' ∈ S, Above floor q' → q ≤ q'

/-- The floors of a walk: the first one and those after a number that it visits. -/
def Floor (S : Finset ℕ) (start floor : Option ℕ) : Prop :=
  floor = start ∨ ∃ q ∈ S, Above start q ∧ floor = some (q + 1)

variable {query : ℕ → σ → Option ℕ → σ × Except ε (Option ℕ)} {S : Finset ℕ}
  {start floor : Option ℕ} {k : ℕ} {s : σ} {qs : List ℕ}

theorem Floor.above (h : Floor S start floor) {q : ℕ} (hq : Above floor q) : Above start q := by
  rcases h with rfl | ⟨p, -, hp, rfl⟩
  · exact hq
  · intro x hx
    exact (hp x hx).trans (Nat.le_of_succ_le (above_some.mp hq))

/-- If every query on the way gives the least number, the walk visits all of them in order. -/
theorem exists_walk {I : σ → Prop} (hI : ∀ k s floor, I s → I (query k s floor).1)
    (hleast : ∀ k s floor, I s → Floor S start floor →
      ∃ r, (query k s floor).2 = .ok r ∧ Least S floor r)
    (hs : I s) (hfloor : Floor S start floor) :
    ∃ qs, Walk query k s floor qs ∧ qs.Pairwise (· < ·) ∧ ∀ q, q ∈ qs ↔ q ∈ S ∧ Above floor q := by
  induction hn : (S.filter (Above floor)).card using Nat.strong_induction_on
    generalizing k s floor with
  | _ n ih =>
    obtain ⟨r, hr, hmin⟩ := hleast k s floor hs hfloor
    cases r with
    | none =>
      refine ⟨[], .done (Prod.ext rfl hr), .nil, fun q => ?_⟩
      constructor
      · exact nofun
      · rintro ⟨hq, ha⟩
        exact absurd ha (hmin q hq)
    | some q =>
      obtain ⟨hq, ha, hmin⟩ := hmin
      have hnext : Floor S start (some (q + 1)) := .inr ⟨q, hq, hfloor.above ha, rfl⟩
      -- The numbers above the next floor are those above this one, without the least.
      have hfewer : (S.filter (Above (some (q + 1)))).card < n := by
        rw [← hn]
        refine Finset.card_lt_card ⟨fun p hp => ?_, fun hsub => ?_⟩
        · obtain ⟨hpS, hpa⟩ := Finset.mem_filter.mp hp
          have hlt := above_some.mp hpa
          exact Finset.mem_filter.mpr ⟨hpS, fun x hx => (ha x hx).trans (Nat.le_of_succ_le hlt)⟩
        · have hself := (Finset.mem_filter.mp (hsub (Finset.mem_filter.mpr ⟨hq, ha⟩))).2
          exact absurd (above_some.mp hself) (Nat.not_succ_le_self q)
      obtain ⟨qs, hwalk, hsorted, hmem⟩ := ih _ hfewer (hI k s floor hs) hnext rfl
      refine ⟨q :: qs, .next (Prod.ext rfl hr) hwalk, ?_, fun p => ?_⟩
      · exact List.pairwise_cons.mpr ⟨fun p hp => above_some.mp ((hmem p).mp hp).2, hsorted⟩
      · rw [List.mem_cons, hmem, above_some]
        constructor
        · rintro (rfl | ⟨hp, hlt⟩)
          · exact ⟨hq, ha⟩
          · exact ⟨hp, fun x hx => (ha x hx).trans (Nat.le_of_succ_le hlt)⟩
        · rintro ⟨hp, hpa⟩
          rcases (hmin p hp hpa).eq_or_lt with heq | hlt
          · exact .inl heq.symm
          · exact .inr ⟨hp, hlt⟩

/-- A walk gets an answer to its first query and to the one after each number it visits. -/
theorem Walk.answered {I : σ → Prop} (hI : ∀ k s floor, I s → I (query k s floor).1) (hs : I s)
    (h : Walk query k s floor qs) : ∀ f, f = floor ∨ (∃ q ∈ qs, f = some (q + 1)) →
      ∃ k s r, I s ∧ (query k s f).2 = .ok r := by
  induction h with
  | done hq =>
    rintro f (rfl | ⟨q, hm, -⟩)
    · exact ⟨_, _, none, hs, by rw [hq]⟩
    · cases hm
  | @next k q s t floor qs hq _ ih =>
    have ht : I t := by
      have hnext := hI k s floor hs
      rwa [hq] at hnext
    rintro f (rfl | ⟨p, hm, rfl⟩)
    · exact ⟨_, _, some q, hs, by rw [hq]⟩
    · rcases List.mem_cons.mp hm with rfl | hm
      · exact ih ht _ (.inl rfl)
      · exact ih ht _ (.inr ⟨p, hm, rfl⟩)

end Ascent
