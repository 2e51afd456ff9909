import RnsIcn.Lib.Fallible

/-! # Truncated input

A reader takes a value from the front of its input and returns what is left of it. It is
stable if more input behind what it reads changes nothing but what is left. A parser
that is put together from stable readers runs on a truncated input as it does on the
whole one up to the reader that the cut falls in, and it is rejected there.
-/

universe u

namespace Truncation

open Fallible

variable {ε ε' : Type*} {α β γ : Type u}

def Stable (read : List β → Except ε (α × List β)) : Prop :=
  ∀ ⦃data : List β⦄ ⦃x : α⦄ ⦃rest : List β⦄, read data = .ok (x, rest) →
    ∀ c, read (data ++ c) = .ok (x, rest ++ c)

def Detects (parse : List β → Except ε γ) (full : List β) : Prop :=
  ∀ ⦃b c : List β⦄, b ++ c = full → c ≠ [] → ∃ e, parse b = .error e

section Stable

variable {read : List β → Except ε (α × List β)}

/-- On an initial segment of an input a stable reader reads what it reads on the input. -/
theorem Stable.align (h : Stable read) {b c full rest rest' : List β} {x x' : α}
    (hb : read b = .ok (x, rest)) (he : b ++ c = full) (hfull : read full = .ok (x', rest')) :
    x = x' ∧ rest ++ c = rest' := by
  subst he
  have hext := h hb c
  rw [hfull] at hext
  obtain ⟨hx, hrest⟩ := Prod.mk.inj (Except.ok.inj hext)
  exact ⟨hx.symm, hrest.symm⟩

theorem Stable.pure (x : α) : Stable fun data : List β => (Except.ok (x, data) : Except ε _) := by
  rintro data x rest h c
  cases h
  rfl

theorem Stable.error (e : ε) : Stable fun _ : List β => (Except.error e : Except ε (α × _)) :=
  nofun

theorem Stable.ite {p : Prop} [Decidable p] {read' : List β → Except ε (α × List β)}
    (h : Stable read) (h' : Stable read') :
    Stable fun data => if p then read data else read' data := by
  by_cases hp : p
  · simpa only [hp, if_true] using h
  · simpa only [hp, if_false] using h'

theorem Stable.bind {k : α × List β → Except ε (γ × List β)} (h : Stable read)
    (hk : ∀ x, Stable fun data => k (x, data)) : Stable fun data => read data >>= k := by
  intro data y rest hy c
  obtain ⟨⟨x, rest'⟩, hx, hy⟩ := bind_eq_ok.mp hy
  exact bind_eq_ok.mpr ⟨_, h hx c, hk x hy c⟩

theorem Stable.step {m : Except ε γ} {k : γ → List β → Except ε (α × List β)}
    (hk : ∀ y, Stable (k y)) : Stable fun data => m >>= fun y => k y data := by
  intro data x rest hx c
  obtain ⟨y, hy, hx⟩ := bind_eq_ok.mp hx
  exact bind_eq_ok.mpr ⟨y, hy, hk y hx c⟩

theorem Stable.mapError (f : ε → ε') (h : Stable read) :
    Stable fun data => (read data).mapError f := by
  intro data x rest hx c
  exact mapError_eq_ok.mpr (h (mapError_eq_ok.mp hx) c)

end Stable

section Detects

variable {read : List β → Except ε (α × List β)} {full : List β}

theorem Detects.nil (parse : List β → Except ε γ) : Detects parse [] := by
  intro b c he hc
  exact absurd (List.append_eq_nil_iff.mp he).2 hc

theorem Detects.error_of_cut {parse : List β → Except ε γ} (h : Detects parse full) {b : List β}
    (hb : b <+: full) (hne : b ≠ full) : ∃ e, parse b = .error e := by
  obtain ⟨c, rfl⟩ := hb
  refine h rfl ?_
  rintro rfl
  exact hne (List.append_nil b).symm

theorem Detects.bind {k : α × List β → Except ε γ} {x : α} {rest : List β} (h : Stable read)
    (hread : read full = .ok (x, rest)) (hk : Detects (fun data => k (x, data)) rest) :
    Detects (fun data => read data >>= k) full := by
  intro b c he hc
  cases hb : read b with
  | error e => exact ⟨e, bind_eq_error.mpr (.inl hb)⟩
  | ok p =>
    obtain ⟨x', rest'⟩ := p
    obtain ⟨rfl, hrest⟩ := h.align hb he hread
    obtain ⟨e, hk⟩ := hk hrest hc
    exact ⟨e, bind_eq_error.mpr (.inr ⟨_, hb, hk⟩)⟩

theorem Detects.last {k : α × List β → Except ε γ} {x : α} (h : Stable read)
    (hread : read full = .ok (x, [])) : Detects (fun data => read data >>= k) full :=
  .bind h hread (.nil _)

theorem Detects.step {m : Except ε α} {k : α → List β → Except ε γ}
    (hk : ∀ y, m = .ok y → Detects (k y) full) :
    Detects (fun data => m >>= fun y => k y data) full := by
  intro b c he hc
  cases hm : m with
  | error e => exact ⟨e, rfl⟩
  | ok y =>
    obtain ⟨e, hk⟩ := hk y hm he hc
    exact ⟨e, bind_eq_error.mpr (.inr ⟨y, rfl, hk⟩)⟩

theorem Detects.unless {p : List β → Prop} [DecidablePred p] {reject parse : List β → Except ε γ}
    (hreject : ∀ b, ∃ e, reject b = .error e) (h : Detects parse full) :
    Detects (fun data => if p data then reject data else parse data) full := by
  intro b c he hc
  by_cases hb : p b
  · obtain ⟨e, hr⟩ := hreject b
    exact ⟨e, (if_pos hb).trans hr⟩
  · obtain ⟨e, hr⟩ := h he hc
    exact ⟨e, (if_neg hb).trans hr⟩

theorem Detects.of_length {parse : List β → Except ε γ}
    (h : ∀ b : List β, b.length < full.length → ∃ e, parse b = .error e) :
    Detects parse full := by
  intro b c he hc
  have hpos : 0 < c.length := List.length_pos_iff.mpr hc
  refine h b ?_
  rw [← he, List.length_append]
  omega

theorem Detects.cons {parse : List β → Except ε γ} {s : β} (hnil : ∃ e, parse [] = .error e)
    (h : Detects (fun data => parse (s :: data)) full) : Detects parse (s :: full) := by
  intro b c he hc
  cases b with
  | nil => exact hnil
  | cons t b =>
    obtain ⟨rfl, he'⟩ := List.cons.inj he
    exact h he' hc

theorem Detects.map {parse : List β → Except ε α} (f : α → γ) (h : Detects parse full) :
    Detects (fun data => f <$> parse data) full := by
  intro b c he hc
  obtain ⟨e, hb⟩ := h he hc
  exact ⟨e, congrArg (Functor.map f) hb⟩

end Detects

end Truncation
