import Mathlib.Data.List.Forall2

/-! # Successful computations

When a fallible computation succeeds, each of its steps did. The lemmas turn an
equation with `Except.ok` into facts about the steps.
-/

universe u

namespace Fallible

variable {ε : Type*} {α β : Type u}

@[simp] theorem bind_eq_ok {x : Except ε α} {f : α → Except ε β} {b : β} :
    (x >>= f) = .ok b ↔ ∃ a, x = .ok a ∧ f a = .ok b := by
  cases x <;> simp [bind, Except.bind]

@[simp] theorem pure_eq_ok {a b : α} : (pure a : Except ε α) = .ok b ↔ a = b := by
  simp [pure, Except.pure]

@[simp] theorem map_eq_ok {x : Except ε α} {f : α → β} {b : β} :
    f <$> x = .ok b ↔ ∃ a, x = .ok a ∧ f a = b := by
  cases x <;> simp [Functor.map, Except.map]

theorem bind_eq_error {x : Except ε α} {f : α → Except ε β} {e : ε} :
    x >>= f = .error e ↔ x = .error e ∨ ∃ a, x = .ok a ∧ f a = .error e := by
  cases x <;> simp [bind, Except.bind]

@[simp] theorem throw_ne_ok {e : ε} {a : α} : (throw e : Except ε α) ≠ .ok a := by
  simp [throw, throwThe, MonadExceptOf.throw]

theorem ite_error_eq_ok {p : Prop} [Decidable p] {e : ε} {x : Except ε α} {a : α} :
    (if p then .error e else x) = .ok a ↔ ¬ p ∧ x = .ok a := by
  by_cases h : p <;> simp [h]

theorem ite_ok_eq_ok {p : Prop} [Decidable p] {e : ε} {a b : α} :
    (if p then .ok a else .error e : Except ε α) = .ok b ↔ p ∧ a = b := by
  by_cases h : p <;> simp [h]

theorem mapError_eq_ok {ε' : Type*} {f : ε → ε'} {x : Except ε α} {a : α} :
    x.mapError f = .ok a ↔ x = .ok a := by
  cases x <;> simp [Except.mapError]

theorem ok_inj {x : Except ε α} {a b : α} (ha : x = .ok a) (hb : x = .ok b) : a = b :=
  Except.ok.inj (ha.symm.trans hb)

@[simp] theorem toOption_eq_some {x : Except ε α} {a : α} : x.toOption = some a ↔ x = .ok a := by
  cases x <;> simp [Except.toOption]

theorem mem_of_mapM_eq_ok {f : α → Except ε β} {l : List α} {bs : List β} {b : β}
    (h : l.mapM f = .ok bs) (hb : b ∈ bs) : ∃ a ∈ l, f a = .ok b := by
  induction l generalizing bs with
  | nil =>
    obtain rfl : [] = bs := by simpa using h
    cases hb
  | cons a l ih =>
    simp only [List.mapM_cons, bind_eq_ok, pure_eq_ok] at h
    obtain ⟨b', hb', bs', hbs', rfl⟩ := h
    rcases List.mem_cons.mp hb with rfl | hb
    · exact ⟨a, List.mem_cons_self, hb'⟩
    · obtain ⟨a', ha', hf⟩ := ih hbs' hb
      exact ⟨a', List.mem_cons_of_mem _ ha', hf⟩

theorem mem_results_of_mapM_eq_ok {f : α → Except ε β} {l : List α} {bs : List β} {a : α} {b : β}
    (h : l.mapM f = .ok bs) (ha : a ∈ l) (hb : f a = .ok b) : b ∈ bs := by
  induction l generalizing bs with
  | nil => cases ha
  | cons a' l ih =>
    simp only [List.mapM_cons, bind_eq_ok, pure_eq_ok] at h
    obtain ⟨b', hb', bs', hbs', rfl⟩ := h
    rcases List.mem_cons.mp ha with rfl | ha
    · rw [Except.ok.inj (hb.symm.trans hb')]
      exact List.mem_cons_self
    · exact List.mem_cons_of_mem _ (ih hbs' ha)

theorem getElem?_of_mapM_eq_ok {f : α → Except ε β} {l : List α} {bs : List β} {b : β} {k : ℕ}
    (h : l.mapM f = .ok bs) (hb : bs[k]? = some b) : ∃ a, l[k]? = some a ∧ f a = .ok b := by
  induction l generalizing bs k with
  | nil =>
    obtain rfl : [] = bs := by simpa using h
    cases hb
  | cons a l ih =>
    simp only [List.mapM_cons, bind_eq_ok, pure_eq_ok] at h
    obtain ⟨b', hb', bs', hbs', rfl⟩ := h
    cases k with
    | zero =>
      obtain rfl : b' = b := Option.some.inj hb
      exact ⟨a, rfl, hb'⟩
    | succ k => exact ih hbs' hb

theorem length_of_mapM_eq_ok {f : α → Except ε β} {l : List α} {bs : List β}
    (h : l.mapM f = .ok bs) : bs.length = l.length := by
  induction l generalizing bs with
  | nil =>
    obtain rfl : [] = bs := by simpa using h
    rfl
  | cons a l ih =>
    simp only [List.mapM_cons, bind_eq_ok, pure_eq_ok] at h
    obtain ⟨b, -, bs', hbs', rfl⟩ := h
    rw [List.length_cons, List.length_cons, ih hbs']

theorem isOk_of_mapM_eq_ok {f : α → Except ε β} {l : List α} {bs : List β} {a : α}
    (h : l.mapM f = .ok bs) (ha : a ∈ l) : ∃ b, f a = .ok b := by
  induction l generalizing bs with
  | nil => cases ha
  | cons a' l ih =>
    simp only [List.mapM_cons, bind_eq_ok, pure_eq_ok] at h
    obtain ⟨b, hb, bs', hbs', -⟩ := h
    rcases List.mem_cons.mp ha with rfl | ha
    · exact ⟨b, hb⟩
    · exact ih hbs' ha

theorem mapM_isOk {f : α → Except ε β} {l : List α} (h : ∀ a ∈ l, ∃ b, f a = .ok b) :
    ∃ bs, l.mapM f = .ok bs := by
  induction l with
  | nil => exact ⟨[], rfl⟩
  | cons a l ih =>
    rw [List.forall_mem_cons] at h
    obtain ⟨b, hb⟩ := h.1
    obtain ⟨bs, hbs⟩ := ih h.2
    exact ⟨b :: bs, by rw [List.mapM_cons, hb, hbs]; rfl⟩

theorem mapM_map_eq_ok {γ : Type*} {w : γ → α} {f : α → Except ε β} {g : γ → β} {l : List γ}
    (h : ∀ c ∈ l, f (w c) = .ok (g c)) : (l.map w).mapM f = .ok (l.map g) := by
  induction l with
  | nil => rfl
  | cons c l ih =>
    rw [List.forall_mem_cons] at h
    rw [List.map_cons, List.mapM_cons, h.1, ih h.2]
    rfl

/-- What can be read off the results of a traversal can be read off the elements. -/
theorem map_of_mapM_eq_ok {γ : Type*} {f : α → Except ε β} {l : List α} {bs : List β} {g : β → γ}
    {r : α → γ} (h : l.mapM f = .ok bs) (hg : ∀ a ∈ l, ∀ b, f a = .ok b → g b = r a) :
    bs.map g = l.map r := by
  induction l generalizing bs with
  | nil =>
    obtain rfl : [] = bs := by simpa using h
    rfl
  | cons a l ih =>
    simp only [List.mapM_cons, bind_eq_ok, pure_eq_ok] at h
    obtain ⟨b, hb, bs', hbs', rfl⟩ := h
    rw [List.forall_mem_cons] at hg
    rw [List.map_cons, List.map_cons, hg.1 b hb, ih hbs' hg.2]

theorem foldlM_append_eq_ok {γ : Type u} {f : α → Except ε (List γ)} {l : List α}
    {init out : List γ} :
    l.foldlM (fun acc a => do return acc ++ (← f a)) init = .ok out ↔
      ∃ parts, List.Forall₂ (fun a part => f a = .ok part) l parts ∧
        out = init ++ parts.flatten := by
  induction l generalizing init with
  | nil => simp [List.forall₂_nil_left_iff, eq_comm (a := out)]
  | cons a l ih =>
    simp only [List.foldlM_cons, bind_eq_ok, pure_eq_ok, ih, List.forall₂_cons_left_iff]
    constructor
    · rintro ⟨_, ⟨part, hpart, rfl⟩, parts, hparts, rfl⟩
      exact ⟨part :: parts, ⟨part, parts, hpart, hparts, rfl⟩, by simp⟩
    · rintro ⟨_, ⟨part, parts, hpart, hparts, rfl⟩, rfl⟩
      exact ⟨_, ⟨part, hpart, rfl⟩, parts, hparts, by simp⟩

section Loop

variable {γ : Type u} {κ : Type*} {f : γ → κ → Except ε γ} {l : List κ} {init out : γ}

/-- What holds at the start of a loop and what its steps keep holds at its end. -/
theorem foldlM_induction {P : γ → Prop} (h : l.foldlM f init = .ok out) (h₀ : P init)
    (hstep : ∀ c a c', a ∈ l → P c → f c a = .ok c' → P c') : P out := by
  induction l generalizing init with
  | nil =>
    obtain rfl : init = out := by simpa using h
    exact h₀
  | cons a l ih =>
    rw [List.foldlM_cons, bind_eq_ok] at h
    obtain ⟨c, hc, h⟩ := h
    exact ih h (hstep init a c List.mem_cons_self h₀ hc) fun c a c' ha =>
      hstep c a c' (List.mem_cons_of_mem _ ha)

theorem isOk_of_foldlM_eq_ok (h : l.foldlM f init = .ok out) {a : κ} (ha : a ∈ l) :
    ∃ c c', f c a = .ok c' := by
  induction l generalizing init with
  | nil => cases ha
  | cons b l ih =>
    rw [List.foldlM_cons, bind_eq_ok] at h
    obtain ⟨c, hc, h⟩ := h
    rcases List.mem_cons.mp ha with rfl | ha
    · exact ⟨init, c, hc⟩
    · exact ih h ha

end Loop

end Fallible
