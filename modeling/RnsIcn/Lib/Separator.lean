import Mathlib.Data.List.Infix

/-! # Texts with separators

A word without the separator occurs in a text of parts if and only if it occurs in one of
the parts.
-/

namespace Separator

variable {α : Type*} {c : α} {w a b : List α}

theorem infix_append_cons_iff (hc : c ∉ w) : w <:+: a ++ c :: b ↔ w <:+: a ∨ w <:+: b := by
  constructor
  · rintro ⟨s, t, h⟩
    rcases List.append_eq_append_iff.mp h with ⟨x, rfl, -⟩ | ⟨x, hx, hb⟩
    · exact .inl ⟨s, x, rfl⟩
    · -- The word ends behind the separator, so it starts behind it.
      rcases x with _ | ⟨d, x⟩
      · exact .inl ⟨s, [], by rw [hx, List.append_nil, List.append_nil]⟩
      obtain ⟨rfl, rfl⟩ := List.cons.inj hb
      rcases List.append_eq_append_iff.mp hx with ⟨y, -, rfl⟩ | ⟨y, -, hy⟩
      · exact absurd (List.mem_append_right y List.mem_cons_self) hc
      · rcases y with _ | ⟨e, y⟩
        · rw [List.nil_append] at hy
          exact absurd (hy ▸ List.mem_cons_self) hc
        · obtain ⟨rfl, rfl⟩ := List.cons.inj hy
          exact .inr ⟨y, t, rfl⟩
  · rintro (h | h)
    · exact h.trans (List.prefix_append ..).isInfix
    · exact h.trans (List.suffix_cons .. |>.trans (List.suffix_append ..)).isInfix

/-- A word that starts with a letter that comes but once in the text starts where the text does. -/
theorem infix_cons_iff_prefix (hc : c ∉ b) : c :: w <:+: c :: b ↔ w <+: b := by
  constructor
  · rintro ⟨s, t, h⟩
    rcases s with _ | ⟨d, s⟩
    · exact ⟨t, (List.cons.inj h).2⟩
    · have hb := (List.cons.inj h).2
      exact absurd (hb ▸ by simp) hc
  · rintro ⟨t, rfl⟩
    exact ⟨[], t, rfl⟩

theorem intercalate_cons (p : List α) (rest : List (List α)) :
    [c].intercalate (p :: rest) = p ++ rest.flatMap (c :: ·) := by
  induction rest generalizing p with
  | nil => rw [List.intercalate_singleton, List.flatMap_nil, List.append_nil]
  | cons r rest ih =>
    rw [List.intercalate_cons_cons, ih, List.flatMap_cons, List.append_assoc]
    rfl

theorem intercalate_append {parts : List (List α)} (h : parts ≠ []) (rest : List (List α)) :
    [c].intercalate (parts ++ rest) = [c].intercalate parts ++ rest.flatMap (c :: ·) := by
  obtain ⟨p, ps, rfl⟩ := List.exists_cons_of_ne_nil h
  rw [List.cons_append, intercalate_cons, intercalate_cons, List.flatMap_append,
    List.append_assoc]

theorem intercalate_concat {parts : List (List α)} (h : parts ≠ []) (p : List α) :
    [c].intercalate (parts ++ [p]) = [c].intercalate parts ++ c :: p := by
  rw [intercalate_append h, List.flatMap_singleton]

end Separator
