import RnsIcn.Lib.Transition

/-! # Simulation

A step function replies to its labels. A relation over other states allows some replies.
If related states stay related under every admitted step, with a reply that is allowed,
then the replies of a whole run are allowed in turn.
-/

namespace Simulation

open Transition

variable {σ α ℓ ω : Type*}

/-- `Performs R a rs b`: the relation leads from `a` to `b` by the labels and replies `rs`. -/
inductive Performs (R : α → ℓ → ω → α → Prop) : α → List (ℓ × ω) → α → Prop where

  | nil (a : α) : Performs R a [] a

  | cons {a b c : α} {l : ℓ} {w : ω} {rs : List (ℓ × ω)} : R a l w b → Performs R b rs c →
      Performs R a ((l, w) :: rs) c

/-- The labels of a run, each with its reply. -/
def replies (step : σ → ℓ → Option σ) (reply : σ → ℓ → ω) (s : σ) (ls : List ℓ) :
    List (ℓ × ω) :=
  (trace step s ls).map fun e => (e.2.1, reply e.1 e.2.1)

variable {step : σ → ℓ → Option σ} {ok : σ → ℓ → Prop} {reply : σ → ℓ → ω}
  {R : α → ℓ → ω → α → Prop} {s t : σ} {a : α} {ls : List ℓ}

theorem replies_cons {l : ℓ} (h : step s l = some t) (ls : List ℓ) :
    replies step reply s (l :: ls) = (l, reply s l) :: replies step reply t ls := by
  rw [replies, trace_cons h, List.map_cons, ← replies]

/-- A relation that admitted steps keep, with replies that are allowed, holds at the end of a run,
and the replies of the run are allowed. -/
theorem performs_of_run {S : σ → α → Prop} (h : Run step ok s ls t) (h₀ : S s a)
    (hstep : ∀ s l t a, S s a → ok s l → step s l = some t → ∃ b, R a l (reply s l) b ∧ S t b) :
    ∃ b, Performs R a (replies step reply s ls) b ∧ S t b := by
  induction h generalizing a with
  | nil => exact ⟨a, .nil a, h₀⟩
  | cons hok hs _ ih =>
    obtain ⟨b, hab, hb⟩ := hstep _ _ _ _ h₀ hok hs
    obtain ⟨c, hbc, hc⟩ := ih hb
    rw [replies_cons hs]
    exact ⟨c, .cons hab hbc, hc⟩

end Simulation
