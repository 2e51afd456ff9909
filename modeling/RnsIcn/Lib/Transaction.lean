import Mathlib.Tactic.TypeStar

/-! # Transactions

A connection to a database shows what has been committed, with the changes of the
open transaction. A block commits all of it when it ends, and rolls back to what
has been committed when it raises.
-/

namespace Transaction

structure Session (σ : Type*) where
  committed : σ
  current : σ

namespace Session

variable {σ ε : Type*} {s : Session σ}

def change (s : Session σ) (f : σ → σ) : Session σ := { s with current := f s.current }

def block (s : Session σ) : Except ε σ → Session σ
  | .ok t => ⟨t, t⟩
  | .error _ => ⟨s.committed, s.committed⟩

def Both (I : σ → Prop) (s : Session σ) : Prop := I s.committed ∧ I s.current

theorem Both.change {I : σ → Prop} {f : σ → σ} (h : s.Both I) (hf : I s.current → I (f s.current)) :
    (s.change f).Both I := ⟨h.1, hf h.2⟩

theorem Both.block {I : σ → Prop} {x : Except ε σ} (h : s.Both I) (hx : ∀ t, x = .ok t → I t) :
    (s.block x).Both I := by
  cases x with
  | ok t => exact ⟨hx t rfl, hx t rfl⟩
  | error e => exact ⟨h.1, h.1⟩

theorem block_settled (x : Except ε σ) : (s.block x).current = (s.block x).committed := by
  cases x <;> rfl

end Session

end Transaction
