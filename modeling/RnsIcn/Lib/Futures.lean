import Mathlib.Logic.Function.Basic
import Mathlib.Data.List.Basic
import Mathlib.Data.Nat.Basic
import Mathlib.Order.Basic

/-! # One-shot futures registered under keys

A waiter creates a future under a key and suspends on it. An announcement for
the key takes all futures off it and completes those still pending. A waiter is
owned by its key: while its future is pending the key leads to it, and no other
key does.
-/

inductive FutureState (ν : Type*) where
  | pending
  | done (v : ν)
  | cancelled
  deriving DecidableEq, Repr

structure Futures (κ ν : Type*) where

  state : ℕ → FutureState ν
  next : ℕ
  notifiers : κ → List ℕ
  bound : ∀ key, ∀ i ∈ notifiers key, i < next

namespace Futures

variable {κ ν : Type*}

def empty : Futures κ ν := ⟨fun _ => .pending, 0, fun _ => [], by simp⟩

def complete (v : ν) : FutureState ν → FutureState ν
  | .pending => .done v
  | st => st

def cancel (F : Futures κ ν) (i : ℕ) : Futures κ ν :=
  { F with state := Function.update F.state i .cancelled }

variable [DecidableEq κ]

def register (F : Futures κ ν) (key : κ) : Futures κ ν where
  state := Function.update F.state F.next .pending
  next := F.next + 1
  notifiers := Function.update F.notifiers key (F.notifiers key ++ [F.next])
  bound key' i hi := by
    by_cases hk : key' = key
    · subst hk
      rw [Function.update_self, List.mem_append, List.mem_singleton] at hi
      rcases hi with hi | rfl
      · exact (F.bound _ _ hi).trans (Nat.lt_succ_self _)
      · exact Nat.lt_succ_self _
    · rw [Function.update_of_ne hk] at hi
      exact (F.bound _ _ hi).trans (Nat.lt_succ_self _)

def announce (F : Futures κ ν) (key : κ) (v : ν) : Futures κ ν where
  state i := if i ∈ F.notifiers key then complete v (F.state i) else F.state i
  next := F.next
  notifiers := Function.update F.notifiers key []
  bound key' i hi := by
    by_cases hk : key' = key
    · simp [hk] at hi
    · rw [Function.update_of_ne hk] at hi
      exact F.bound _ _ hi

@[simp] theorem next_register (F : Futures κ ν) (key : κ) : (F.register key).next = F.next + 1 :=
  rfl

@[simp] theorem next_announce (F : Futures κ ν) (key : κ) (v : ν) :
    (F.announce key v).next = F.next := rfl

omit [DecidableEq κ] in
@[simp] theorem next_cancel (F : Futures κ ν) (i : ℕ) : (F.cancel i).next = F.next := rfl

omit [DecidableEq κ] in
@[simp] theorem notifiers_cancel (F : Futures κ ν) (i : ℕ) :
    (F.cancel i).notifiers = F.notifiers := rfl

@[simp] theorem state_register_self (F : Futures κ ν) (key : κ) :
    (F.register key).state F.next = .pending := Function.update_self ..

theorem state_register (F : Futures κ ν) (key : κ) {i : ℕ} (hi : i < F.next) :
    (F.register key).state i = F.state i := Function.update_of_ne hi.ne _ _

theorem mem_notifiers_register {F : Futures κ ν} {key key' : κ} {i : ℕ} :
    i ∈ (F.register key).notifiers key' ↔ i ∈ F.notifiers key' ∨ key' = key ∧ i = F.next := by
  by_cases hk : key' = key
  · subst hk; simp [register]
  · simp [register, hk]

theorem mem_notifiers_announce {F : Futures κ ν} {key key' : κ} {v : ν} {i : ℕ} :
    i ∈ (F.announce key v).notifiers key' ↔ i ∈ F.notifiers key' ∧ key' ≠ key := by
  by_cases hk : key' = key
  · subst hk; simp [announce]
  · simp [announce, hk]

omit [DecidableEq κ] in
theorem state_cancel_ne (F : Futures κ ν) {i j : ℕ} (h : j ≠ i) :
    (F.cancel i).state j = F.state j := Function.update_of_ne h _ _

omit [DecidableEq κ] in
@[simp] theorem state_cancel_self (F : Futures κ ν) (i : ℕ) :
    (F.cancel i).state i = .cancelled := Function.update_self ..

theorem state_announce_of_done {F : Futures κ ν} {key : κ} {v w : ν} {i : ℕ}
    (h : F.state i = .done w) : (F.announce key v).state i = .done w := by
  simp only [announce, h, complete, ite_self]

/-- An announcement completes nothing exactly if no future of the key is pending. -/
theorem state_announce_eq_iff {F : Futures κ ν} {key : κ} {v : ν} :
    (F.announce key v).state = F.state ↔ ∀ i ∈ F.notifiers key, F.state i ≠ .pending := by
  rw [funext_iff]
  refine forall_congr' fun i => ?_
  by_cases hm : i ∈ F.notifiers key
  · cases hs : F.state i <;> simp [announce, hm, hs, complete]
  · simp [announce, hm]

/-- The key leads to the future while it is pending, and no other key leads to it. -/
structure Owned (F : Futures κ ν) (key : κ) (i : ℕ) : Prop where
  lt : i < F.next
  unique : ∀ key', i ∈ F.notifiers key' → key' = key
  mem : F.state i = .pending → i ∈ F.notifiers key

variable {F : Futures κ ν} {key key' : κ} {i j : ℕ} {v w : ν}

theorem owned_register (F : Futures κ ν) (key : κ) : (F.register key).Owned key F.next where
  lt := Nat.lt_succ_self _
  unique key' h := by
    rcases mem_notifiers_register.mp h with h | h
    · exact absurd (F.bound _ _ h) (lt_irrefl _)
    · exact h.1
  mem _ := mem_notifiers_register.mpr (.inr ⟨rfl, rfl⟩)

theorem Owned.register (h : F.Owned key i) (key' : κ) : (F.register key').Owned key i where
  lt := h.lt.trans (Nat.lt_succ_self _)
  unique key'' hm := by
    rcases mem_notifiers_register.mp hm with hm | ⟨-, rfl⟩
    · exact h.unique _ hm
    · exact absurd h.lt (lt_irrefl _)
  mem hp := mem_notifiers_register.mpr (.inl (h.mem (by rwa [state_register F key' h.lt] at hp)))

theorem Owned.announce (h : F.Owned key i) (key' : κ) (v : ν) :
    (F.announce key' v).Owned key i where
  lt := h.lt
  unique key'' hm := h.unique _ (mem_notifiers_announce.mp hm).1
  mem hp := by
    have hp' : F.state i = .pending ∧ i ∉ F.notifiers key' := by
      simp only [Futures.announce] at hp
      split at hp
      · cases hs : F.state i <;> simp [hs, complete] at hp
      · exact ⟨hp, by assumption⟩
    refine mem_notifiers_announce.mpr ⟨h.mem hp'.1, ?_⟩
    rintro rfl
    exact hp'.2 (h.mem hp'.1)

omit [DecidableEq κ] in
theorem Owned.cancel (h : F.Owned key i) (j : ℕ) : (F.cancel j).Owned key i where
  lt := h.lt
  unique := h.unique
  mem hp := by
    by_cases hj : i = j
    · subst hj; simp at hp
    · exact h.mem (by rwa [state_cancel_ne F hj] at hp)

theorem Owned.state_announce (h : F.Owned key i) (hp : F.state i = .pending) (v : ν) :
    (F.announce key v).state i = .done v := by
  simp [Futures.announce, h.mem hp, hp, complete]

theorem Owned.state_announce_ne (h : F.Owned key i) (hk : key' ≠ key) (v : ν) :
    (F.announce key' v).state i = F.state i := by
  simp only [Futures.announce]
  exact if_neg fun hm => hk (h.unique _ hm)

/-- A future that an announcement completed was pending, under the key of the announcement. -/
theorem Owned.done_announce (h : F.Owned key i) (hs : (F.announce key' v).state i = .done w) :
    F.state i = .done w ∨ F.state i = .pending ∧ key' = key ∧ w = v := by
  simp only [Futures.announce] at hs
  split at hs
  · rename_i hm
    cases hst : F.state i with
    | pending =>
      rw [hst, complete] at hs
      exact .inr ⟨rfl, h.unique _ hm, (FutureState.done.inj hs).symm⟩
    | done x => exact .inl (by simpa [hst, complete] using hs)
    | cancelled => simp [hst, complete] at hs
  · exact .inl hs

theorem Owned.state_announce_eq_done_iff (h : F.Owned key i) (hp : F.state i = .pending) :
    (F.announce key' v).state i = .done v ↔ key' = key := by
  constructor
  · intro hs
    rcases h.done_announce hs with hd | ⟨-, hk, -⟩
    · rw [hp] at hd
      cases hd
    · exact hk
  · rintro rfl
    exact h.state_announce hp v

end Futures
