import Mathlib.Data.List.TakeWhile

/-! # Trying candidates until one succeeds

Candidates are tried in their order, each once. The first that succeeds ends the
trial with its result; those before it failed, and those after it are not tried.
-/

variable {α β : Type*}

def failedBefore (out : α → Option β) (l : List α) : List α :=
  l.takeWhile fun a => (out a).isNone

def firstSuccess (out : α → Option β) (l : List α) : Option (α × β) :=
  l.findSome? fun a => (out a).map (a, ·)

def tried (out : α → Option β) (l : List α) : List α :=
  failedBefore out l ++ ((firstSuccess out l).map Prod.fst).toList

variable {out : α → Option β} {a : α} {b : β} {l l' : List α}

theorem firstSuccess_eq_none_iff : firstSuccess out l = none ↔ ∀ a ∈ l, out a = none := by
  simp [firstSuccess, List.findSome?_eq_none_iff]

theorem failedBefore_append (h : ∀ a ∈ l, out a = none) :
    failedBefore out (l ++ l') = l ++ failedBefore out l' := by
  rw [failedBefore, List.takeWhile_append_of_pos, failedBefore]
  intro a ha
  rw [h a ha, Option.isNone_none]

theorem firstSuccess_append (h : ∀ a ∈ l, out a = none) :
    firstSuccess out (l ++ l') = firstSuccess out l' := by
  rw [firstSuccess, List.findSome?_append]
  have hnone : firstSuccess out l = none := firstSuccess_eq_none_iff.mpr h
  rw [firstSuccess] at hnone
  rw [hnone, Option.none_or, firstSuccess]

theorem failedBefore_of_success (h : ∀ a ∈ l, out a = none) (ha : out a = some b) :
    failedBefore out (l ++ a :: l') = l := by
  rw [failedBefore_append h, failedBefore, List.takeWhile_cons_of_neg (by simp [ha]),
    List.append_nil]

theorem firstSuccess_of_success (h : ∀ a ∈ l, out a = none) (ha : out a = some b) :
    firstSuccess out (l ++ a :: l') = some (a, b) := by
  rw [firstSuccess_append h, firstSuccess, List.findSome?_cons, ha]
  rfl

theorem failedBefore_of_failure (h : ∀ a ∈ l, out a = none) : failedBefore out l = l := by
  have happ : failedBefore out (l ++ []) = l ++ failedBefore out [] := failedBefore_append h
  rwa [List.append_nil, failedBefore, failedBefore, List.takeWhile_nil, List.append_nil] at happ
