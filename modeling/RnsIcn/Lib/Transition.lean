import Mathlib.Algebra.GroupWithZero.Nat
import Mathlib.Data.List.Basic
import Mathlib.Logic.Function.Basic

/-! # Runs of a step function

A labelled step function is partial: a label that is not enabled has no result.
A run is a sequence of steps that all satisfy a condition on the state before
them and their label.
-/

namespace Transition

variable {σ ℓ : Type*}

/-- `Run step ok s ls t`: the labels `ls` lead from `s` to `t` and every step meets `ok`. -/
inductive Run (step : σ → ℓ → Option σ) (ok : σ → ℓ → Prop) : σ → List ℓ → σ → Prop where

  | nil (s : σ) : Run step ok s [] s

  | cons {s t u : σ} {l : ℓ} {ls : List ℓ} : ok s l → step s l = some t →
      Run step ok t ls u → Run step ok s (l :: ls) u

/-- The condition that every step meets. -/
def anyStep : σ → ℓ → Prop := fun _ _ => True

/-- The state after the labels, if all of them are enabled in turn. -/
def exec (step : σ → ℓ → Option σ) : σ → List ℓ → Option σ
  | s, [] => some s
  | s, l :: ls => (step s l).bind fun t => exec step t ls

variable {step : σ → ℓ → Option σ} {ok ok' : σ → ℓ → Prop} {s t u : σ} {ls ls' : List ℓ}

theorem Run.append (h : Run step ok s ls t) (h' : Run step ok t ls' u) :
    Run step ok s (ls ++ ls') u := by
  induction h with
  | nil => exact h'
  | cons hok hs _ ih => exact .cons hok hs (ih h')

theorem Run.snoc {l : ℓ} (h : Run step ok s ls t) (hok : ok t l) (hs : step t l = some u) :
    Run step ok s (ls ++ [l]) u :=
  h.append (.cons hok hs (.nil u))

theorem Run.mono (h : Run step ok s ls t) (hk : ∀ s l, ok s l → ok' s l) :
    Run step ok' s ls t := by
  induction h with
  | nil => exact .nil _
  | cons hok hs _ ih => exact .cons (hk _ _ hok) hs ih

/-- A predicate that every admitted step preserves holds after a run if it holds before. -/
theorem Run.invariant {I : σ → Prop} (h : Run step ok s ls t) (h₀ : I s)
    (hstep : ∀ s l t, I s → ok s l → step s l = some t → I t) : I t := by
  induction h with
  | nil => exact h₀
  | cons hok hs _ ih => exact ih (hstep _ _ _ h₀ hok hs)

theorem Run.frame {α : Type*} (f : σ → α) (h : Run step ok s ls t)
    (hstep : ∀ s l t, ok s l → step s l = some t → f t = f s) : f t = f s :=
  h.invariant (I := fun x => f x = f s) rfl fun _ _ _ hi hok hs => (hstep _ _ _ hok hs).trans hi

theorem run_of_exec_of (h : exec step s ls = some t) (hok : ∀ l ∈ ls, ∀ s, ok s l) :
    Run step ok s ls t := by
  induction ls generalizing s with
  | nil => cases h; exact .nil _
  | cons l ls ih =>
    obtain ⟨u, hu, hr⟩ := Option.bind_eq_some_iff.mp h
    obtain ⟨hl, hls⟩ := List.forall_mem_cons.mp hok
    exact .cons (hl s) hu (ih hr hls)

theorem run_of_exec (h : exec step s ls = some t) : Run step anyStep s ls t :=
  run_of_exec_of h fun _ _ _ => trivial

theorem Run.with_invariant {I : σ → Prop} (h : Run step ok s ls t) (h₀ : I s)
    (hstep : ∀ s l t, I s → ok s l → step s l = some t → I t) :
    Run step (fun s l => I s ∧ ok s l) s ls t := by
  induction h with
  | nil => exact .nil _
  | cons hok hs _ ih => exact .cons ⟨h₀, hok⟩ hs (ih (hstep _ _ _ h₀ hok hs))

/-- The steps of the labels, each with the states before and after it. -/
def trace (step : σ → ℓ → Option σ) : σ → List ℓ → List (σ × ℓ × σ)
  | _, [] => []
  | s, l :: ls =>
    match step s l with
    | none => []
    | some t => (s, l, t) :: trace step t ls

theorem trace_cons {l : ℓ} (h : step s l = some t) (ls : List ℓ) :
    trace step s (l :: ls) = (s, l, t) :: trace step t ls := by
  rw [trace, h]

theorem Run.trace_append (h : Run step ok s ls t) (ls' : List ℓ) :
    trace step s (ls ++ ls') = trace step s ls ++ trace step t ls' := by
  induction h with
  | nil => rfl
  | cons _ hs _ ih => rw [List.cons_append, trace_cons hs, trace_cons hs, ih, List.cons_append]

theorem run_of_exec_check (check : σ → ℓ → Bool) (hcheck : ∀ s l, check s l = true → ok s l)
    (h : exec step s ls = some t)
    (hall : (trace step s ls).all (fun e => check e.1 e.2.1) = true) : Run step ok s ls t := by
  induction ls generalizing s with
  | nil => cases h; exact .nil _
  | cons l ls ih =>
    obtain ⟨u, hu, hr⟩ := Option.bind_eq_some_iff.mp h
    rw [trace_cons hu, List.all_cons, Bool.and_eq_true] at hall
    exact .cons (hcheck s l hall.1) hu (ih hr hall.2)

theorem label_of_mem_trace {e : σ × ℓ × σ} (he : e ∈ trace step s ls) : e.2.1 ∈ ls := by
  induction ls generalizing s with
  | nil => cases he
  | cons l ls ih =>
    rw [trace] at he
    split at he
    · cases he
    · rcases List.mem_cons.mp he with rfl | he
      · exact List.mem_cons_self
      · exact List.mem_cons_of_mem _ (ih he)

theorem Run.of_mem_trace (h : Run step ok s ls t) {e : σ × ℓ × σ} (he : e ∈ trace step s ls) :
    ok e.1 e.2.1 ∧ step e.1 e.2.1 = some e.2.2 := by
  induction h with
  | nil => cases he
  | cons hok hs _ ih =>
    rw [trace_cons hs] at he
    rcases List.mem_cons.mp he with rfl | he
    · exact ⟨hok, hs⟩
    · exact ih he

theorem Run.of_trace (h : Run step ok s ls t) (hok : ∀ e ∈ trace step s ls, ok' e.1 e.2.1) :
    Run step ok' s ls t := by
  induction h with
  | nil => exact .nil _
  | cons _ hs _ ih =>
    rw [trace_cons hs, List.forall_mem_cons] at hok
    exact .cons hok.1 hs (ih hok.2)

theorem Run.trace_invariant {I : σ → Prop} (h : Run step ok s ls t) (h₀ : I s)
    (hstep : ∀ s l t, I s → ok s l → step s l = some t → I t) :
    ∀ e ∈ trace step s ls, I e.1 ∧ I e.2.2 := by
  induction h with
  | nil => exact nofun
  | cons hok hs _ ih =>
    rw [trace_cons hs, List.forall_mem_cons]
    have ht := hstep _ _ _ h₀ hok hs
    exact ⟨⟨h₀, ht⟩, ih ht⟩

theorem Run.account {w : σ → ℕ} {paid : σ × ℓ × σ → ℕ} {given : ℓ → ℕ} (h : Run step ok s ls t)
    (hstep : ∀ s l t, step s l = some t → paid (s, l, t) + w t ≤ given l + w s) :
    ((trace step s ls).map paid).sum + w t ≤ (ls.map given).sum + w s := by
  induction h with
  | nil => exact Nat.le_refl _
  | cons _ hs _ ih =>
    have hpaid := hstep _ _ _ hs
    rw [trace_cons hs, List.map_cons, List.map_cons, List.sum_cons, List.sum_cons]
    omega

/-- If the steps that do what is wanted are exactly those that are not bad, then all steps of a run
do what is wanted exactly if the run has no bad step. -/
theorem Run.trace_iff {I : σ → Prop} {P : σ → ℓ → σ → Prop} {bad : σ → ℓ → Prop}
    (h : Run step ok s ls t) (h₀ : I s)
    (hkeep : ∀ s l t, I s → ok s l → step s l = some t → P s l t → I t)
    (hiff : ∀ s l t, I s → ok s l → step s l = some t → (P s l t ↔ ¬ bad s l)) :
    (∀ e ∈ trace step s ls, P e.1 e.2.1 e.2.2) ↔ ∀ e ∈ trace step s ls, ¬ bad e.1 e.2.1 := by
  induction h with
  | nil => exact iff_of_true nofun nofun
  | cons hok hs _ ih =>
    rw [trace_cons hs, List.forall_mem_cons, List.forall_mem_cons, ← hiff _ _ _ h₀ hok hs]
    exact and_congr_right fun hp => ih (hkeep _ _ _ h₀ hok hs hp)

/-- If an invariant survives exactly the good steps, then it holds all through a run exactly if the
run has no bad step. -/
theorem Run.trace_invariant_iff {I J : σ → Prop} {bad : σ → ℓ → Prop} (h : Run step ok s ls t)
    (h₀ : J s) (hi : I s) (hkeep : ∀ s l t, J s → ok s l → step s l = some t → J t)
    (hgood : ∀ s l t, J s → I s → ok s l → step s l = some t → ¬ bad s l → I t)
    (hbad : ∀ s l t, J s → ok s l → step s l = some t → bad s l → ¬ I t) :
    (∀ e ∈ trace step s ls, I e.2.2) ↔ ∀ e ∈ trace step s ls, ¬ bad e.1 e.2.1 :=
  h.trace_iff (I := fun s => J s ∧ I s) (P := fun _ _ t => I t) ⟨h₀, hi⟩
    (fun _ _ _ hji hok hs ht => ⟨hkeep _ _ _ hji.1 hok hs, ht⟩)
    fun _ _ _ hji hok hs => ⟨fun ht hb => hbad _ _ _ hji.1 hok hs hb ht,
      hgood _ _ _ hji.1 hji.2 hok hs⟩

/-- What is read off the steps of a run, in order. -/
def observed {α : Type*} (step : σ → ℓ → Option σ) (f : σ × ℓ × σ → Option α) (s : σ)
    (ls : List ℓ) : List α :=
  (trace step s ls).filterMap f

theorem observed_cons {α : Type*} {l : ℓ} (h : step s l = some t) (f : σ × ℓ × σ → Option α)
    (ls : List ℓ) :
    observed step f s (l :: ls) = (f (s, l, t)).toList ++ observed step f t ls := by
  rw [observed, trace_cons h, List.filterMap_cons]
  cases f (s, l, t) <;> rfl

section Observed

variable {α : Type*} {f : σ × ℓ × σ → Option α} {R : α → α → Prop}

theorem Run.of_mem_observed (h : Run step ok s ls t) {a : α} (ha : a ∈ observed step f s ls) :
    ∃ u l v, ok u l ∧ step u l = some v ∧ f (u, l, v) = some a := by
  obtain ⟨⟨u, l, v⟩, he, hf⟩ := List.mem_filterMap.mp ha
  obtain ⟨hok, hs⟩ := h.of_mem_trace he
  exact ⟨u, l, v, hok, hs, hf⟩

theorem Run.invariant_of_unobserved {I : σ → Prop} (h : Run step ok s ls t)
    (hnone : observed step f s ls = []) (h₀ : I s)
    (hkeep : ∀ s l t, ok s l → step s l = some t → f (s, l, t) = none → I s → I t) : I t := by
  induction h with
  | nil => exact h₀
  | cons hok hs _ ih =>
    rw [observed_cons hs, List.append_eq_nil_iff, Option.toList_eq_nil_iff] at hnone
    exact ih hnone.2 (hkeep _ _ _ hok hs hnone.1 h₀)

/-- What an observation makes true and steps without one preserve holds of the last one at the
end. -/
theorem Run.of_mem_getLast?_observed {P : α → σ → Prop} (h : Run step ok s ls t)
    (hnew : ∀ s l t a, ok s l → step s l = some t → f (s, l, t) = some a → P a t)
    (hkeep : ∀ s l t a, ok s l → step s l = some t → f (s, l, t) = none → P a s → P a t) :
    ∀ a ∈ (observed step f s ls).getLast?, P a t := by
  induction h with
  | nil => exact nofun
  | @cons s t u l ls hok hs hr ih =>
    intro a ha
    rw [observed_cons hs, List.getLast?_append] at ha
    cases hlast : (observed step f t ls).getLast? with
    | some b =>
      rw [hlast, Option.some_or] at ha
      exact ih a (hlast.trans ha)
    | none =>
      have hnone := List.getLast?_eq_none_iff.mp hlast
      rw [hlast, Option.none_or] at ha
      cases hf : f (s, l, t) with
      | none => rw [hf] at ha; cases ha
      | some b =>
        rw [hf] at ha
        obtain rfl : b = a := Option.some.inj ha
        exact hr.invariant_of_unobserved hnone (hnew _ _ _ _ hok hs hf) fun s l t => hkeep s l t b

theorem Run.observed_past (Past : α → σ → Prop) (h : Run step ok s ls t)
    (hnew : ∀ s l t a, ok s l → step s l = some t → f (s, l, t) = some a → Past a t)
    (hkeep : ∀ s l t a, ok s l → step s l = some t → Past a s → Past a t) :
    ∀ a ∈ observed step f s ls, Past a t := by
  induction h with
  | nil => exact nofun
  | @cons s t u l ls hok hs hr ih =>
    intro a ha
    rw [observed_cons hs] at ha
    rcases List.mem_append.mp ha with ha | ha
    · have hpast := hnew _ _ _ a hok hs (Option.mem_toList.mp ha)
      exact hr.invariant (I := Past a) hpast fun _ _ _ hi hok hs => hkeep _ _ _ a hok hs hi
    · exact ih a ha

theorem Run.observed_rel {Past : α → σ → Prop} (h : Run step ok s ls t) {a : α} (ha : Past a s)
    (hkeep : ∀ s l t a, ok s l → step s l = some t → Past a s → Past a t)
    (hrel : ∀ s l t a b, ok s l → step s l = some t → Past a s → f (s, l, t) = some b → R a b) :
    ∀ b ∈ observed step f s ls, R a b := by
  induction h with
  | nil => exact nofun
  | cons hok hs _ ih =>
    intro b hb
    rw [observed, trace_cons hs] at hb
    obtain ⟨e, he, hf⟩ := List.mem_filterMap.mp hb
    rcases List.mem_cons.mp he with rfl | he
    · exact hrel _ _ _ _ _ hok hs ha hf
    · exact ih (hkeep _ _ _ _ hok hs ha) b (List.mem_filterMap.mpr ⟨e, he, hf⟩)

/-- A relation holds between all observations of a run, each with the later ones, if the state
remembers what it takes. -/
theorem Run.observed_pairwise (Past : α → σ → Prop) (h : Run step ok s ls t)
    (hnew : ∀ s l t a, ok s l → step s l = some t → f (s, l, t) = some a → Past a t)
    (hkeep : ∀ s l t a, ok s l → step s l = some t → Past a s → Past a t)
    (hrel : ∀ s l t a b, ok s l → step s l = some t → Past a s → f (s, l, t) = some b → R a b) :
    (observed step f s ls).Pairwise R := by
  induction h with
  | nil => exact .nil
  | @cons s t u l ls hok hs hr ih =>
    rw [observed_cons hs]
    cases hf : f (s, l, t) with
    | none => exact ih
    | some a => exact .cons (hr.observed_rel (hnew _ _ _ _ hok hs hf) hkeep hrel) ih

end Observed

section Family

variable {ι : Type*} [DecidableEq ι] {N M : ι → σ}

/-- One member of a family of systems makes a step. -/
def family (step : σ → ℓ → Option σ) (N : ι → σ) (e : ι × ℓ) : Option (ι → σ) :=
  (step (N e.1) e.2).map (Function.update N e.1)

theorem family_eq_some {e : ι × ℓ} (h : family step N e = some M) :
    step (N e.1) e.2 = some (M e.1) ∧ ∀ i ≠ e.1, M i = N i := by
  obtain ⟨t, ht, rfl⟩ := Option.map_eq_some_iff.mp h
  exact ⟨by rw [ht, Function.update_self], fun i hi => Function.update_of_ne hi _ _⟩

theorem family_of_step {i : ι} {l : ℓ} (h : step (N i) l = some t) :
    family step N (i, l) = some (Function.update N i t) := by
  rw [family, h]
  rfl

theorem family_of_step_update {i : ι} {l : ℓ} (h : step t l = some u) :
    family step (Function.update N i t) (i, l) = some (Function.update N i u) := by
  have hstep : step (Function.update N i t i) l = some u := by rw [Function.update_self, h]
  rw [family_of_step hstep, Function.update_idem]

/-- One member of a family, each with a step function of its own, makes a step. -/
def interleave (step : ι → σ → ℓ → Option σ) (N : ι → σ) (e : ι × ℓ) : Option (ι → σ) :=
  (step e.1 (N e.1) e.2).map (Function.update N e.1)

theorem interleave_eq_some {step : ι → σ → ℓ → Option σ} {e : ι × ℓ}
    (h : interleave step N e = some M) :
    step e.1 (N e.1) e.2 = some (M e.1) ∧ ∀ i ≠ e.1, M i = N i := by
  have hfamily : family (step e.1) N e = some M := h
  exact family_eq_some hfamily

end Family

/-- `t` ends a run from an initial state. -/
def Reachable (init : σ → Prop) (step : σ → ℓ → Option σ) (ok : σ → ℓ → Prop) (t : σ) : Prop :=
  ∃ s ls, init s ∧ Run step ok s ls t

variable {init : σ → Prop}

theorem Reachable.invariant {I : σ → Prop} (h : Reachable init step ok t)
    (h₀ : ∀ s, init s → I s)
    (hstep : ∀ s l t, I s → ok s l → step s l = some t → I t) : I t := by
  obtain ⟨s, ls, hi, hr⟩ := h
  exact hr.invariant (h₀ s hi) hstep

theorem Reachable.trans (h : Reachable init step ok s) (h' : Run step ok s ls t) :
    Reachable init step ok t := by
  obtain ⟨r, ls', hi, hr⟩ := h
  exact ⟨r, ls' ++ ls, hi, hr.append h'⟩

end Transition
