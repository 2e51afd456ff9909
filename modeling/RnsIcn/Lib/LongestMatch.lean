import Mathlib.Data.List.Induction
import Mathlib.Data.List.MinMax

/-! # Longest matches

A scan of a table keeps the first longest of the entries that match. If the keys of
the matching entries begin one query, then the key of the match is determined.
-/

namespace LongestMatch

variable {τ α : Type*} {m m' : τ → Bool} {len : τ → ℕ} {es : List τ} {e e' : τ} {found : Option τ}

def keepLonger (m : τ → Bool) (len : τ → ℕ) (found : Option τ) (e : τ) : Option τ :=
  if m e && found.all (len · < len e) then some e else found

def scan (m : τ → Bool) (len : τ → ℕ) (es : List τ) : Option τ :=
  es.foldl (keepLonger m len) none

/-- `e` matches, the matching entries before it are shorter, and those after it are not longer. -/
def FirstLongest (m : τ → Bool) (len : τ → ℕ) (es : List τ) (e : τ) : Prop :=
  ∃ l r, es = l ++ e :: r ∧ m e = true ∧ (∀ x ∈ l, m x = true → len x < len e) ∧
    ∀ x ∈ r, m x = true → len x ≤ len e

theorem FirstLongest.mem (h : FirstLongest m len es e) : e ∈ es := by
  obtain ⟨l, r, rfl, -⟩ := h
  simp

theorem FirstLongest.matches (h : FirstLongest m len es e) : m e = true := by
  obtain ⟨-, -, -, hm, -⟩ := h
  exact hm

theorem FirstLongest.longest (h : FirstLongest m len es e) :
    ∀ x ∈ es, m x = true → len x ≤ len e := by
  obtain ⟨l, r, rfl, -, hl, hr⟩ := h
  intro x hx hm
  rcases List.mem_append.mp hx with hx | hx
  · exact (hl x hx hm).le
  · rcases List.mem_cons.mp hx with rfl | hx
    · exact le_rfl
    · exact hr x hx hm

theorem FirstLongest.snoc_of_not (h : FirstLongest m len es e)
    (hno : (m e' && decide (len e < len e')) = false) : FirstLongest m len (es ++ [e']) e := by
  obtain ⟨l, r, rfl, hm, hl, hr⟩ := h
  refine ⟨l, r ++ [e'], by simp, hm, hl, ?_⟩
  intro x hx hmx
  rcases List.mem_append.mp hx with hx | hx
  · exact hr x hx hmx
  · obtain rfl := List.mem_singleton.mp hx
    simpa [hmx] using hno

/-- A scan that has found nothing has seen no match; what it has found is the first longest. -/
theorem scan_spec (m : τ → Bool) (len : τ → ℕ) (es : List τ) :
    match scan m len es with
    | none => ∀ e ∈ es, m e = false
    | some e => FirstLongest m len es e := by
  induction es using List.reverseRecOn with
  | nil =>
    intro e he
    cases he
  | append_singleton es e ih =>
    have hscan : scan m len (es ++ [e]) = keepLonger m len (scan m len es) e := by simp [scan]
    rw [hscan, keepLonger]
    cases hs : scan m len es with
    | none =>
      rw [hs] at ih
      by_cases hm : m e = true
      · simp only [hm, Option.all_none, Bool.and_self, if_true]
        refine ⟨es, [], rfl, hm, ?_, by simp⟩
        intro x hx hmx
        exact absurd hmx (by simp [ih x hx])
      · simp only [hm, Option.all_none, Bool.and_true, Bool.false_eq_true, if_false]
        intro x hx
        rcases List.mem_append.mp hx with hx | hx
        · exact ih x hx
        · rw [List.mem_singleton.mp hx]
          simpa using hm
    | some f =>
      rw [hs] at ih
      simp only [Option.all_some]
      by_cases htake : (m e && decide (len f < len e)) = true
      · rw [if_pos htake]
        obtain ⟨hm, hlt⟩ := Bool.and_eq_true_iff.mp htake
        refine ⟨es, [], rfl, hm, ?_, by simp⟩
        intro x hx hmx
        exact (ih.longest x hx hmx).trans_lt (of_decide_eq_true hlt)
      · rw [if_neg htake]
        exact ih.snoc_of_not (Bool.eq_false_iff.mpr htake)

theorem FirstLongest.unique (h : FirstLongest m len es e) (h' : FirstLongest m len es e') :
    e = e' := by
  obtain ⟨l, r, rfl, hm, hl, hr⟩ := h
  obtain ⟨l', r', heq, hm', hl', hr'⟩ := h'
  rcases List.append_eq_append_iff.mp heq with ⟨a, rfl, ha⟩ | ⟨a, rfl, ha⟩
  · cases a with
    | nil => exact (List.cons.inj ha).1
    | cons x a =>
      obtain ⟨rfl, rfl⟩ := List.cons.inj ha
      have hlt := hl' e (by simp) hm
      have hle := hr e' (by simp) hm'
      omega
  · cases a with
    | nil => exact (List.cons.inj ha).1.symm
    | cons x a =>
      obtain ⟨rfl, rfl⟩ := List.cons.inj ha
      have hlt := hl e' (by simp) hm'
      have hle := hr' e (by simp) hm
      omega

theorem scan_eq_some_iff : scan m len es = some e ↔ FirstLongest m len es e := by
  have hspec := scan_spec m len es
  constructor
  · intro h
    rwa [h] at hspec
  · intro h
    cases hs : scan m len es with
    | none =>
      rw [hs] at hspec
      exact absurd h.matches (by simp [hspec e h.mem])
    | some e' =>
      rw [hs] at hspec
      exact congrArg some (hspec.unique h)

theorem scan_eq_none_iff : scan m len es = none ↔ ∀ e ∈ es, m e = false := by
  have hspec := scan_spec m len es
  constructor
  · intro h
    rwa [h] at hspec
  · intro h
    cases hs : scan m len es with
    | none => rfl
    | some e =>
      rw [hs] at hspec
      exact absurd hspec.matches (by simp [h e hspec.mem])

/-- The first longest match of a query is that of a query with fewer matches, if it is among
them. -/
theorem FirstLongest.mono (h : FirstLongest m len es e) (hm : m' e = true)
    (hsub : ∀ x ∈ es, m' x = true → m x = true) : FirstLongest m' len es e := by
  obtain ⟨l, r, rfl, -, hl, hr⟩ := h
  refine ⟨l, r, rfl, hm, ?_, ?_⟩
  · intro x hx hmx
    exact hl x hx (hsub x (by simp [hx]) hmx)
  · intro x hx hmx
    exact hr x hx (hsub x (by simp [hx]) hmx)

/-- A rewriting of the entries that keeps their matches and lengths, and `e` as it is, keeps the
first longest match. -/
theorem FirstLongest.filterMap (h : FirstLongest m len es e) {k : τ → Option τ}
    (he : k e = some e)
    (hk : ∀ x ∈ es, ∀ y ∈ k x, m y = true → m x = true ∧ len y = len x) :
    FirstLongest m len (es.filterMap k) e := by
  obtain ⟨l, r, rfl, hm, hl, hr⟩ := h
  refine ⟨l.filterMap k, r.filterMap k, ?_, hm, ?_, ?_⟩
  · rw [List.filterMap_append, List.filterMap_cons_some he]
  · intro y hy hmy
    obtain ⟨x, hx, hky⟩ := List.mem_filterMap.mp hy
    obtain ⟨hmx, hlen⟩ := hk x (by simp [hx]) y hky hmy
    exact hlen ▸ hl x hx hmx
  · intro y hy hmy
    obtain ⟨x, hx, hky⟩ := List.mem_filterMap.mp hy
    obtain ⟨hmx, hlen⟩ := hk x (by simp [hx]) y hky hmy
    exact hlen ▸ hr x hx hmx

theorem eq_of_begins {query key key' : List α} (h : key <+: query) (h' : key' <+: query)
    (hl : key.length = key'.length) : key = key' :=
  (List.prefix_of_prefix_length_le h h' hl.le).eq_of_length hl

/-- The first match of a table that is sorted by length, the longest entries first. -/
theorem longest_of_find? (len : τ → ℕ) (hsorted : es.Pairwise fun x y => len y ≤ len x)
    (h : es.find? m = some e) : e ∈ es ∧ m e = true ∧ ∀ x ∈ es, m x = true → len x ≤ len e := by
  obtain ⟨hm, l, r, rfl, hl⟩ := List.find?_eq_some_iff_append.mp h
  refine ⟨by simp, hm, fun x hx hmx => ?_⟩
  rcases List.mem_append.mp hx with hx | hx
  · exact absurd hmx (by simpa using hl x hx)
  · rcases List.mem_cons.mp hx with rfl | hx
    · exact le_rfl
    · exact (List.pairwise_cons.mp (List.pairwise_append.mp hsorted).2.1).1 x hx

end LongestMatch
