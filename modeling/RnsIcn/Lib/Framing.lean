import Mathlib.Data.List.Basic

/-! # Self-delimiting encoders

An encoder is self-delimiting when its output shows where a value ends, so a
concatenation of such outputs can be split in one way only. Fixed-width fields
and counted sequences are self-delimiting.
-/

namespace Framing

variable {α β γ : Type*}

/-- Two encodings of admissible values that begin equal strings are the same encoding. -/
def SelfDelimiting (P : α → Prop) (enc : α → List β) : Prop :=
  ∀ ⦃a b : α⦄ ⦃x y : List β⦄, P a → P b → enc a ++ x = enc b ++ y → a = b ∧ x = y

variable {P : α → Prop} {Q : γ → Prop} {enc : α → List β} {enc' : γ → List β}

theorem SelfDelimiting.of_width {k : ℕ} (hk : ∀ a, P a → (enc a).length = k)
    (hi : ∀ a b, P a → P b → enc a = enc b → a = b) : SelfDelimiting P enc := by
  intro a b x y ha hb h
  have hl : (enc a).length = (enc b).length := by rw [hk a ha, hk b hb]
  obtain ⟨he, hxy⟩ := List.append_inj h hl
  exact ⟨hi a b ha hb he, hxy⟩

theorem SelfDelimiting.inj (h : SelfDelimiting P enc) {a b : α} (ha : P a) (hb : P b)
    (he : enc a = enc b) : a = b :=
  (h (x := []) (y := []) ha hb (by rw [he])).1

theorem SelfDelimiting.flatMap (h : SelfDelimiting P enc) :
    ∀ {l m : List α} {x y : List β}, (∀ a ∈ l, P a) → (∀ a ∈ m, P a) → l.length = m.length →
      l.flatMap enc ++ x = m.flatMap enc ++ y → l = m ∧ x = y
  | [], [], _, _, _, _, _, he => ⟨rfl, by simpa using he⟩
  | a :: l, b :: m, x, y, hl, hm, hn, he => by
    rw [List.flatMap_cons, List.flatMap_cons, List.append_assoc, List.append_assoc] at he
    obtain ⟨rfl, he'⟩ := h (hl a (by simp)) (hm b (by simp)) he
    obtain ⟨rfl, hxy⟩ := h.flatMap (fun c hc => hl c (List.mem_cons_of_mem _ hc))
      (fun c hc => hm c (List.mem_cons_of_mem _ hc)) (Nat.succ.inj hn) he'
    exact ⟨rfl, hxy⟩

def counted (count : ℕ → List β) (enc : α → List β) (l : List α) : List β :=
  count l.length ++ l.flatMap enc

theorem SelfDelimiting.counted {N : ℕ → Prop} {count : ℕ → List β}
    (hc : SelfDelimiting N count) (h : SelfDelimiting P enc) :
    SelfDelimiting (fun l : List α => N l.length ∧ ∀ a ∈ l, P a) (Framing.counted count enc) := by
  rintro l m x y ⟨hl, hla⟩ ⟨hm, hma⟩ he
  rw [Framing.counted, Framing.counted, List.append_assoc, List.append_assoc] at he
  obtain ⟨hn, he⟩ := hc hl hm he
  exact h.flatMap hla hma hn he

theorem selfDelimiting_singleton : SelfDelimiting (fun _ : β => True) (fun b => [b]) :=
  .of_width (fun _ _ => rfl) (fun _ _ _ _ h => by simpa using h)

end Framing
