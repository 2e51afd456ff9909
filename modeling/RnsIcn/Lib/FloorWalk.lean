import Mathlib.Data.List.ReduceOption
import Mathlib.Order.Nat
import RnsIcn.Lib.Transition

/-! # Walks along a floor

A walk asks for an item at or above a floor, hands out the answer, moves the floor
past it and asks again. An answer need not be at or above the floor, and it need not
have a number.
-/

namespace FloorWalk

open Transition

inductive Event where
  | ask (floor : ℕ)
  | item (number : Option ℕ)
  deriving DecidableEq, Repr

/-- The floors that are asked for. -/
def asks : List Event → List ℕ
  | [] => []
  | .ask floor :: es => floor :: asks es
  | .item _ :: es => asks es

/-- The numbers of the items that are handed out. -/
def items : List Event → List (Option ℕ)
  | [] => []
  | .ask _ :: es => items es
  | .item x :: es => x :: items es

/-- The walk has only moved forward from `start`, and has stopped at `max` items. -/
structure Forward (start : ℕ) (max : Option ℕ) (es : List Event) : Prop where
  present : none ∉ items es
  above : ∀ x ∈ (items es).reduceOption, start ≤ x
  increasing : (items es).reduceOption.Pairwise (· < ·)
  bounded : ∀ m ∈ max, (items es).length ≤ m
  once : (asks es).Nodup

/-- Where a walk stands: before it asks for a floor, after that, or at its end. -/
inductive Stage where
  | before (floor : ℕ)
  | asking (floor : ℕ)
  | over
  deriving DecidableEq, Repr

def Stage.floor : Stage → Option ℕ
  | .before floor | .asking floor => some floor
  | .over => none

@[simp] theorem Stage.floor_before (floor : ℕ) : (Stage.before floor).floor = some floor := rfl

@[simp] theorem Stage.floor_asking (floor : ℕ) : (Stage.asking floor).floor = some floor := rfl

def past (floor : ℕ) : Option ℕ → ℕ
  | some x => if floor ≤ x then x + 1 else floor
  | none => floor

inductive Move (max : Option ℕ) : Stage → ℕ → Option Event → Stage → ℕ → Prop where

  | ask {floor n : ℕ} : (∀ m ∈ max, n < m) →
      Move max (.before floor) n (some (.ask floor)) (.asking floor) n

  | answer {floor n : ℕ} (x : Option ℕ) :
      Move max (.asking floor) n (some (.item x)) (.before (past floor x)) (n + 1)

  | stay {q : Stage} {n : ℕ} : Move max q n none q n

  | stop {q : Stage} {n : ℕ} : Move max q n none .over n

def Meets (q : Stage) (e : Option Event) : Prop :=
  ∀ floor x, q = .asking floor → e = some (.item x) → ∃ n ∈ x, floor ≤ n

/-- The events have led to the stage, with every answer at or above its floor. -/
structure Along (start : ℕ) (max : Option ℕ) (q : Stage) (n : ℕ) (es : List Event) : Prop where
  forward : Forward start max es
  counted : (items es).length = n
  below : ∀ floor ∈ q.floor, ∀ x ∈ (items es).reduceOption, x < floor
  reached : ∀ floor ∈ q.floor, floor = start ∨ ∃ x ∈ (items es).reduceOption, floor = x + 1
  asked : ∀ floor, q = .before floor → ∀ a ∈ asks es, a < floor
  asking : ∀ floor, q = .asking floor → (∀ a ∈ asks es, a ≤ floor) ∧ ∀ m ∈ max, n < m

variable {start n n' floor : ℕ} {max : Option ℕ} {q q' : Stage} {e : Option Event}
  {es es' : List Event}

@[simp] theorem asks_append (es es' : List Event) : asks (es ++ es') = asks es ++ asks es' := by
  induction es with
  | nil => rfl
  | cons e es ih => cases e <;> simp [asks, ih]

@[simp] theorem items_append (es es' : List Event) :
    items (es ++ es') = items es ++ items es' := by
  induction es with
  | nil => rfl
  | cons e es ih => cases e <;> simp [items, ih]

theorem Along.nil (start : ℕ) (max : Option ℕ) : Along start max (.before start) 0 [] := by
  constructor
  · constructor <;> simp [items, asks]
  · rfl
  · simp [items]
  · rintro floor ⟨⟩
    exact .inl rfl
  · simp [asks]
  · rintro floor ⟨⟩

theorem Along.start_le (h : Along start max q n es) (hq : floor ∈ q.floor) : start ≤ floor := by
  rcases h.reached floor hq with rfl | ⟨x, hx, rfl⟩
  · exact le_rfl
  · have := h.forward.above x hx
    omega

theorem Along.ask (h : Along start max (.before floor) n es) (hmax : ∀ m ∈ max, n < m) :
    Along start max (.asking floor) n (es ++ [.ask floor]) := by
  have hasked := h.asked floor rfl
  constructor
  · constructor
    · simpa [items] using h.forward.present
    · simpa [items] using h.forward.above
    · simpa [items] using h.forward.increasing
    · simpa [items] using h.forward.bounded
    · rw [asks_append, List.nodup_append]
      refine ⟨h.forward.once, by simp [asks], ?_⟩
      intro a ha b hb
      obtain rfl : b = floor := by simpa [asks] using hb
      exact (hasked a ha).ne
  · simpa [items] using h.counted
  · simpa [items] using h.below
  · simpa [items] using h.reached
  · rintro f ⟨⟩
  · rintro f ⟨⟩
    refine ⟨fun a ha => ?_, hmax⟩
    rw [asks_append] at ha
    rcases List.mem_append.mp ha with ha | ha
    · exact (hasked a ha).le
    · exact (List.mem_singleton.mp ha).le

theorem Along.answer {x : ℕ} (h : Along start max (.asking floor) n es) (hx : floor ≤ x) :
    Along start max (.before (x + 1)) (n + 1) (es ++ [.item (some x)]) := by
  obtain ⟨hasked, hroom⟩ := h.asking floor rfl
  have hstart : start ≤ floor := h.start_le rfl
  have hbelow := h.below floor rfl
  have hitems : (items (es ++ [.item (some x)])).reduceOption =
      (items es).reduceOption ++ [x] := by
    simp [items, List.reduceOption_append]
  have hlength : (items (es ++ [.item (some x)])).length = n + 1 := by
    simp [items, h.counted]
  constructor
  · constructor
    · simpa [items] using h.forward.present
    · rw [hitems]
      intro y hy
      rcases List.mem_append.mp hy with hy | hy
      · exact h.forward.above y hy
      · obtain rfl := List.mem_singleton.mp hy
        exact hstart.trans hx
    · rw [hitems, List.pairwise_append]
      refine ⟨h.forward.increasing, List.pairwise_singleton _ _, ?_⟩
      intro y hy z hz
      obtain rfl := List.mem_singleton.mp hz
      exact (hbelow y hy).trans_le hx
    · rw [hlength]
      exact hroom
    · simpa [asks] using h.forward.once
  · exact hlength
  · rintro f ⟨⟩ y hy
    rw [hitems] at hy
    rcases List.mem_append.mp hy with hy | hy
    · have := hbelow y hy
      omega
    · have := List.mem_singleton.mp hy
      omega
  · rintro f ⟨⟩
    exact .inr ⟨x, hitems ▸ List.mem_append_right _ (List.mem_singleton_self x), rfl⟩
  · rintro f ⟨⟩ a ha
    rw [asks_append] at ha
    have := hasked a (by simpa [asks] using ha)
    omega
  · rintro f ⟨⟩

theorem Along.stop (h : Along start max q n es) : Along start max .over n es := by
  constructor
  · exact h.forward
  · exact h.counted
  all_goals rintro f ⟨⟩

theorem Along.move (h : Along start max q n es) (hm : Move max q n e q' n') (he : Meets q e) :
    Along start max q' n' (es ++ e.toList) := by
  cases hm with
  | ask hmax => exact h.ask hmax
  | @answer floor n x =>
    obtain ⟨k, rfl, hk⟩ := he floor x rfl rfl
    rw [past, if_pos hk]
    exact h.answer hk
  | stay => simpa using h
  | stop => simpa using h.stop

/-- After an answer without a number or below its floor the walk is not a forward one. -/
theorem Along.not_forward (h : Along start max q n es) (he : ¬ Meets q e) (es' : List Event) :
    ¬ Forward start max (es ++ e.toList ++ es') := by
  intro hf
  refine he fun floor x hq hx => ?_
  subst hq hx
  cases x with
  | none => exact absurd hf.present (by simp [items])
  | some x =>
    refine ⟨x, rfl, not_lt.mp fun hlt => ?_⟩
    have hitems : (items (es ++ (some (Event.item (some x))).toList ++ es')).reduceOption =
        (items es).reduceOption ++ x :: (items es').reduceOption := by
      simp [items, List.reduceOption_append]
    rcases h.reached floor rfl with rfl | ⟨y, hy, rfl⟩
    · have := hf.above x (hitems ▸ List.mem_append_right _ List.mem_cons_self)
      omega
    · have hpair := hf.increasing
      rw [hitems, List.pairwise_append] at hpair
      have := hpair.2.2 y hy x List.mem_cons_self
      omega

section Run

variable {σ ℓ : Type*} {step : σ → ℓ → Option σ} {ok : σ → ℓ → Prop} {s t : σ} {ls : List ℓ}
  {event : σ × ℓ × σ → Option Event} {stage : σ → Stage} {count : σ → ℕ}

/-- A run whose steps are those of a walk moves forward exactly if every answer is at or above the
floor that it was asked for with. -/
theorem Along.forward_iff (hr : Run step ok s ls t)
    (hmove : ∀ s l t, ok s l → step s l = some t →
      Move max (stage s) (count s) (event (s, l, t)) (stage t) (count t))
    (h : Along start max (stage s) (count s) es) :
    Forward start max (es ++ observed step event s ls) ↔
      ∀ e ∈ trace step s ls, Meets (stage e.1) (event e) := by
  induction hr generalizing es with
  | nil =>
    constructor
    · exact fun _ => nofun
    · intro _
      simpa [observed, trace] using h.forward
  | @cons s t u l ls hok hs hr ih =>
    rw [observed_cons hs, trace_cons hs, List.forall_mem_cons, ← List.append_assoc]
    by_cases he : Meets (stage s) (event (s, l, t))
    · rw [ih (h.move (hmove _ _ _ hok hs) he)]
      constructor
      · exact fun hall => ⟨he, hall⟩
      · exact fun hall => hall.2
    · constructor
      · exact fun hf => absurd hf (h.not_forward he _)
      · exact fun hall => absurd hall.1 he

theorem items_observed {out : σ → List (Option ℕ)} (hr : Run step ok s ls t)
    (hstep : ∀ s l t, ok s l → step s l = some t →
      out t = out s ++ items (event (s, l, t)).toList) :
    out t = out s ++ items (observed step event s ls) := by
  induction hr with
  | nil => simp [observed, trace, items]
  | cons hok hs _ ih =>
    rw [ih, hstep _ _ _ hok hs, observed_cons hs, items_append, List.append_assoc]

end Run

end FloorWalk
