import Mathlib.Data.List.Induction
import RnsIcn.Lib.Dict

/-! # Grouping by a key

Elements that come with a key are filed in a dictionary under it. A group is not empty
and keeps the order in which its elements came. Where only the first element of each key
is kept, nothing is lost exactly if no key comes twice.
-/

namespace Grouping

variable {κ α : Type*} [DecidableEq κ]

def file (groups : Dict κ (α × List α)) (k : κ) (a : α) : Dict κ (α × List α) :=
  groups.set k ((groups.get? k).elim (a, []) fun g => (g.1, g.2 ++ [a]))

def group (l : List (κ × α)) : Dict κ (α × List α) :=
  l.foldl (fun groups e => file groups e.1 e.2) .empty

def withKey (k : κ) (l : List (κ × α)) : List α := (l.filter (·.1 = k)).map Prod.snd

theorem withKey_append (k : κ) (l l' : List (κ × α)) :
    withKey k (l ++ l') = withKey k l ++ withKey k l' := by
  unfold withKey
  rw [List.filter_append, List.map_append]

theorem get?_group {l : List (κ × α)} {k : κ} {g : α × List α} :
    (group l).get? k = some g ↔ withKey k l = g.1 :: g.2 := by
  induction l using List.reverseRecOn generalizing g with
  | nil =>
    constructor
    · intro h
      cases h
    · intro h
      cases h
  | append_singleton l e ih =>
    obtain ⟨k', a⟩ := e
    have hgroup : group (l ++ [(k', a)]) = file (group l) k' a := by
      unfold group
      rw [List.foldl_append]
      rfl
    rw [hgroup, file, Dict.get?_set, withKey_append]
    split
    · rename_i hk
      subst hk
      have hlast : withKey k [(k, a)] = [a] := by simp [withKey]
      rw [hlast]
      cases hg : (group l).get? k with
      | none =>
        have hnil : withKey k l = [] := by
          cases hw : withKey k l with
          | nil => rfl
          | cons b bs =>
            have hsome := (ih (g := (b, bs))).mpr hw
            rw [hg] at hsome
            cases hsome
        rw [hnil, Option.elim_none, Option.some.injEq, List.nil_append, Prod.ext_iff,
          List.cons.injEq]
      | some g' =>
        rw [ih.mp hg, Option.elim_some, Option.some.injEq, List.cons_append, Prod.ext_iff,
          List.cons.injEq]
    · rename_i hk
      have hlast : withKey k [(k', a)] = [] := by simp [withKey, Ne.symm hk]
      rw [hlast, List.append_nil, ih]

theorem mem_keys_group {l : List (κ × α)} {k : κ} : k ∈ (group l).keys ↔ ∃ a, (k, a) ∈ l := by
  rw [Dict.mem_keys]
  constructor
  · rintro ⟨g, hg⟩
    have hfirst : g.1 ∈ withKey k l := by
      rw [get?_group.mp hg]
      exact List.mem_cons_self
    obtain ⟨e, he, ha⟩ := List.mem_map.mp hfirst
    obtain ⟨he, hk⟩ := List.mem_filter.mp he
    have hk : e.1 = k := by simpa using hk
    exact ⟨e.2, hk ▸ he⟩
  · rintro ⟨a, ha⟩
    have hmem : a ∈ withKey k l := List.mem_map.mpr ⟨(k, a), by simp [ha], rfl⟩
    obtain ⟨b, bs, hw⟩ := List.exists_cons_of_ne_nil (List.ne_nil_of_mem hmem)
    exact ⟨(b, bs), get?_group.mpr hw⟩

/-- The elements whose key neither comes before them nor is among the keys seen already. -/
def firsts (key : α → κ) : List κ → List α → List α
  | _, [] => []
  | seen, a :: l =>
    if key a ∈ seen then firsts key seen l else a :: firsts key (key a :: seen) l

variable {key : α → κ}

theorem firsts_sublist (seen : List κ) (l : List α) : (firsts key seen l).Sublist l := by
  induction l generalizing seen with
  | nil => exact .slnil
  | cons a l ih =>
    unfold firsts
    split
    · exact (ih seen).cons a
    · exact (ih _).cons_cons a

theorem firsts_eq_self_iff {seen : List κ} {l : List α} :
    firsts key seen l = l ↔ (l.map key).Nodup ∧ ∀ a ∈ l, key a ∉ seen := by
  induction l generalizing seen with
  | nil => simp [firsts]
  | cons a l ih =>
    unfold firsts
    split
    · rename_i hseen
      constructor
      · intro h
        have hsub : (firsts key seen l).Sublist l := firsts_sublist seen l
        have hlen := hsub.length_le
        rw [h, List.length_cons] at hlen
        omega
      · rintro ⟨-, h⟩
        exact absurd hseen (h a List.mem_cons_self)
    · rename_i hseen
      rw [List.cons.injEq, ih, List.map_cons, List.nodup_cons, List.mem_map, List.forall_mem_cons]
      constructor
      · rintro ⟨-, hnodup, hnew⟩
        refine ⟨⟨?_, hnodup⟩, hseen, fun b hb => ?_⟩
        · rintro ⟨b, hb, he⟩
          exact hnew b hb (he ▸ List.mem_cons_self)
        · exact fun hmem => hnew b hb (List.mem_cons_of_mem _ hmem)
      · rintro ⟨⟨hfirst, hnodup⟩, -, hnew⟩
        refine ⟨rfl, hnodup, fun b hb hmem => ?_⟩
        rcases List.mem_cons.mp hmem with he | hmem
        · exact hfirst ⟨b, hb, he⟩
        · exact hnew b hb hmem

theorem length_firsts_eq_iff {l : List α} :
    (firsts key [] l).length = l.length ↔ (l.map key).Nodup := by
  constructor
  · intro h
    exact (firsts_eq_self_iff.mp ((firsts_sublist [] l).eq_of_length h)).1
  · intro h
    rw [firsts_eq_self_iff.mpr ⟨h, fun _ _ => List.not_mem_nil⟩]

end Grouping
