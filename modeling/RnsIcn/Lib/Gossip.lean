import Mathlib.Data.Set.Insert
import Mathlib.Order.MinMax
import Mathlib.Order.WithBot
import RnsIcn.Lib.Flood

/-! # Gossip of the highest value

Nodes are joined by links that are used in both directions. A node that hears of a value, from
outside or over a link, keeps the highest it knows. What is new to it goes to its other links.
Once all that was sent has been heard, nodes that links join know the same.
-/

open Relation

structure Gossip (V D α : Type*) where
  known : V → WithBot α
  sent : D → Set α

namespace Gossip

variable {V D α : Type*} [DecidableEq V] [LinearOrder α] {W : Wiring V D} {s t : Gossip V D α}

/-- The node `v` hears of a value, over a link if it is told by another node. -/
structure Tells (W : Wiring V D) (v : V) (a : α) (link : Option D) (s t : Gossip V D α) :
    Prop where
  heard : ∀ e ∈ link, W.dst e = v ∧ a ∈ s.sent e
  known : t.known = Function.update s.known v (max (s.known v) a)
  sent : ∀ e b, b ∈ t.sent e ↔
    b ∈ s.sent e ∨ b = a ∧ W.src e = v ∧ ∀ e' ∈ link, e ≠ W.rev e'

/-- Nodes send what they know, and they have sent it over each link unless the other end knows as
much. -/
structure Backed (W : Wiring V D) (s : Gossip V D α) : Prop where
  known : ∀ e, ∀ a ∈ s.sent e, (a : WithBot α) ≤ s.known (W.src e)
  told : ∀ e (a : α), s.known (W.src e) = a → a ∈ s.sent e ∨ (a : WithBot α) ≤ s.known (W.dst e)

variable {v w : V} {a : α} {link : Option D}

theorem Tells.known_le (h : Tells W v a link s t) (w : V) : s.known w ≤ t.known w := by
  rw [h.known, Function.update_apply]
  split
  · rename_i hw
    exact hw ▸ le_max_left _ _
  · exact le_rfl

theorem Tells.le_known (h : Tells W v a link s t) : (a : WithBot α) ≤ t.known v := by
  rw [h.known, Function.update_self]
  exact le_max_right _ _

theorem Backed.tells (h : Backed W s) (ht : Tells W v a link s t) : Backed W t where
  known e b hb := by
    rcases (ht.sent e b).mp hb with hb | ⟨rfl, rfl, -⟩
    · exact (h.known e b hb).trans (ht.known_le _)
    · exact ht.le_known
  told e b hb := by
    by_cases hv : W.src e = v
    · subst hv
      rw [ht.known, Function.update_self] at hb
      rcases max_choice (s.known (W.src e)) a with hmax | hmax
      · rw [hmax] at hb
        exact (h.told e b hb).imp (fun hm => (ht.sent e b).mpr (.inl hm))
          fun hle => hle.trans (ht.known_le _)
      · obtain rfl : a = b := WithBot.coe_injective (hmax.symm.trans hb)
        by_cases honward : ∀ e' ∈ link, e ≠ W.rev e'
        · exact .inl ((ht.sent e a).mpr (.inr ⟨rfl, rfl, honward⟩))
        · -- The value came over this link, so its other end knows it.
          simp only [not_forall, not_not] at honward
          obtain ⟨e', he', rfl⟩ := honward
          rw [W.dst_rev]
          exact .inr ((h.known e' a (ht.heard e' he').2).trans (ht.known_le _))
    · rw [ht.known, Function.update_of_ne hv] at hb
      exact (h.told e b hb).imp (fun hm => (ht.sent e b).mpr (.inl hm))
        fun hle => hle.trans (ht.known_le _)

omit [DecidableEq V] in
/-- If all that was sent has been heard, then the ends of a link know the same, and so do all nodes
that links join. -/
theorem Backed.agree (h : Backed W s) (hheard : ∀ e, ∀ a ∈ s.sent e, ↑a ≤ s.known (W.dst e))
    (hjoin : ReflTransGen (fun v w => ∃ e, W.src e = v ∧ W.dst e = w) v w) :
    s.known v = s.known w := by
  have hle (e : D) : s.known (W.src e) ≤ s.known (W.dst e) := by
    cases hk : s.known (W.src e) with
    | bot => exact bot_le
    | coe a => exact (h.told e a hk).elim (hheard e a) id
  induction hjoin with
  | refl => rfl
  | tail _ hlink ih =>
    obtain ⟨e, rfl, rfl⟩ := hlink
    have hback := hle (W.rev e)
    rw [W.dst_rev] at hback
    exact ih.trans ((hle e).antisymm hback)

end Gossip
