import RnsIcn.Forwarder.Tables
import RnsIcn.Lib.LongestMatch
import Mathlib.Data.Set.Card

/-! # The FIB as a map of routes

A table of routes relates prefixes and faces to costs. The FIB holds such a table
as entries of cost-ordered faces, and a lookup answers with the faces of the
longest prefix that has one.
-/

namespace RnsIcn

open LongestMatch

inductive FibOp where
  | insert (namePrefix : Name) (face : FaceId) (cost : ℕ)
  | removeFace (namePrefix : Name) (face : FaceId)
  | removePrefix (namePrefix : Name)
  | removeAllForFace (face : FaceId)
  deriving DecidableEq, Repr

namespace Fib

def removeFace (t : Fib) (namePrefix : Name) (face : FaceId) : Fib :=
  ⟨t.entries.filterMap fun e =>
    if e.namePrefix.startsWith namePrefix || namePrefix.startsWith e.namePrefix then
      if (e.withdraw face).faces.isEmpty then none else some (e.withdraw face)
    else some e⟩

def removePrefix (t : Fib) (namePrefix : Name) : Fib :=
  ⟨t.entries.filter fun e => !e.namePrefix.startsWith namePrefix⟩

/-- What `remove_all_for_face` returns. -/
def withdrawn (t : Fib) (face : FaceId) : ℕ :=
  t.entries.countP fun e => (e.withdraw face).faces.length != e.faces.length

def lookup? (t : Fib) (n : Name) : Option (List (FaceId × ℕ)) :=
  (best n t.entries none).map FibEntry.faces

def apply (t : Fib) : FibOp → Fib
  | .insert namePrefix face cost => t.insert namePrefix face cost
  | .removeFace namePrefix face => t.removeFace namePrefix face
  | .removePrefix namePrefix => t.removePrefix namePrefix
  | .removeAllForFace face => t.removeAllForFace face

theorem lookup_eq (t : Fib) (n : Name) : t.lookup n = (t.lookup? n).getD [] := rfl

end Fib

/-- The cost of a face for a prefix. -/
abbrev Routes := Name → FaceId → Option ℕ

namespace Routes

def empty : Routes := fun _ _ => none

def apply (R : Routes) : FibOp → Routes
  | .insert p f cost => fun q g => if q = p ∧ g = f then some cost else R q g
  | .removeFace p f => fun q g =>
    if g = f ∧ (q.startsWith p = true ∨ p.startsWith q = true) then none else R q g
  | .removePrefix p => fun q g => if q.startsWith p = true then none else R q g
  | .removeAllForFace f => fun q g => if g = f then none else R q g

/-- The prefix has a face. -/
def Has (R : Routes) (p : Name) : Prop := ∃ f cost, R p f = some cost

end Routes

/-- A list of faces as an entry keeps it: each once, in the order of their costs, and at least
one. -/
structure FibEntry.Proper (e : FibEntry) : Prop where
  nonempty : e.faces ≠ []
  nodup : (e.faces.map Prod.fst).Nodup
  sorted : e.faces.Pairwise fun x y => x.2 ≤ y.2

namespace FibEntry

variable {e : FibEntry} {face g : FaceId} {cost c : ℕ} {l : List (FaceId × ℕ)}

theorem mem_setCost {x : FaceId × ℕ} (h : x ∈ setCost face cost l) : x.1 = face ∨ x ∈ l := by
  induction l with
  | nil => exact .inl (by rw [List.mem_singleton.mp h])
  | cons e l ih =>
    rw [setCost] at h
    split at h
    · rcases List.mem_cons.mp h with rfl | h
      · exact .inl rfl
      · exact .inr (List.mem_cons_of_mem _ h)
    · rcases List.mem_cons.mp h with rfl | h
      · exact .inr List.mem_cons_self
      · exact (ih h).imp_right (List.mem_cons_of_mem _)

theorem mem_setCost_iff (h : (l.map Prod.fst).Nodup) :
    (g, c) ∈ setCost face cost l ↔ g = face ∧ c = cost ∨ g ≠ face ∧ (g, c) ∈ l := by
  induction l with
  | nil => simp [setCost]
  | cons x l ih =>
    obtain ⟨hx, hl⟩ := List.nodup_cons.mp h
    rw [setCost]
    split
    · rename_i hface
      subst hface
      have hother : (g, c) ∈ l → g ≠ x.1 := by
        rintro hm rfl
        exact hx (List.mem_map.mpr ⟨_, hm, rfl⟩)
      constructor
      · intro hm
        rcases List.mem_cons.mp hm with he | hm
        · exact .inl (Prod.mk.inj he)
        · exact .inr ⟨hother hm, List.mem_cons_of_mem _ hm⟩
      · rintro (⟨rfl, rfl⟩ | ⟨hne, hm⟩)
        · exact List.mem_cons_self
        · rcases List.mem_cons.mp hm with rfl | hm
          · exact absurd rfl hne
          · exact List.mem_cons_of_mem _ hm
    · rename_i hface
      rw [List.mem_cons, ih hl, List.mem_cons]
      constructor
      · rintro (rfl | ⟨rfl, rfl⟩ | ⟨hne, hm⟩)
        · exact .inr ⟨hface, .inl rfl⟩
        · exact .inl ⟨rfl, rfl⟩
        · exact .inr ⟨hne, .inr hm⟩
      · rintro (⟨rfl, rfl⟩ | ⟨hne, rfl | hm⟩)
        · exact .inr (.inl ⟨rfl, rfl⟩)
        · exact .inl rfl
        · exact .inr (.inr ⟨hne, hm⟩)

theorem keys_setCost : (setCost face cost l).map Prod.fst =
    if face ∈ l.map Prod.fst then l.map Prod.fst else l.map Prod.fst ++ [face] := by
  induction l with
  | nil => simp [setCost]
  | cons x l ih =>
    rw [setCost]
    by_cases hx : x.1 = face
    · simp [hx]
    · rw [if_neg hx, List.map_cons, ih]
      by_cases hl : face ∈ l.map Prod.fst
      · simp [hl]
      · simp [hl, Ne.symm hx]

theorem nodup_setCost (h : (l.map Prod.fst).Nodup) :
    ((setCost face cost l).map Prod.fst).Nodup := by
  rw [keys_setCost]
  split
  · exact h
  · rename_i hf
    rw [List.nodup_append]
    refine ⟨h, List.nodup_singleton _, ?_⟩
    rintro a ha b hb rfl
    exact hf (List.mem_singleton.mp hb ▸ ha)

theorem mem_insert (h : e.Proper) :
    (g, c) ∈ (e.insert face cost).faces ↔
      g = face ∧ c = cost ∨ g ≠ face ∧ (g, c) ∈ e.faces := by
  rw [insert, List.mem_insertionSort, mem_setCost_iff h.nodup]

theorem Proper.insert (h : e.Proper) : (e.insert face cost).Proper where
  nonempty he := by
    have hm : (face, cost) ∈ (e.insert face cost).faces := (mem_insert h).mpr (.inl ⟨rfl, rfl⟩)
    rw [he] at hm
    cases hm
  nodup := (((setCost face cost e.faces).perm_insertionSort _).map Prod.fst).nodup_iff.mpr
    (nodup_setCost h.nodup)
  sorted := by
    have : Std.Total fun x y : FaceId × ℕ => x.2 ≤ y.2 := ⟨fun x y => le_total x.2 y.2⟩
    have : IsTrans (FaceId × ℕ) fun x y => x.2 ≤ y.2 := ⟨fun _ _ _ => le_trans⟩
    exact List.pairwise_insertionSort _ _

theorem mem_withdraw : (g, c) ∈ (e.withdraw face).faces ↔ (g, c) ∈ e.faces ∧ g ≠ face := by
  simp [withdraw]

theorem Proper.withdraw (h : e.Proper) (hne : (e.withdraw face).faces ≠ []) :
    (e.withdraw face).Proper where
  nonempty := hne
  nodup := h.nodup.sublist (List.filter_sublist.map _)
  sorted := h.sorted.sublist List.filter_sublist

theorem withdraw_shortens_iff :
    ((e.withdraw face).faces.length != e.faces.length) = true ↔ ∃ cost, (face, cost) ∈ e.faces := by
  have hlen : (e.withdraw face).faces.length = e.faces.length ↔ ∀ x ∈ e.faces, x.1 ≠ face := by
    simp [FibEntry.withdraw, List.length_filter_eq_length_iff]
  rw [bne_iff_ne, ne_eq, hlen]
  push Not
  constructor
  · rintro ⟨⟨f, cost⟩, hm, rfl⟩
    exact ⟨cost, hm⟩
  · rintro ⟨cost, hm⟩
    exact ⟨_, hm, rfl⟩

end FibEntry

namespace Fib

variable {t : Fib} {R : Routes} {p q n : Name} {face g : FaceId} {cost c : ℕ} {e : FibEntry}

/-- Each prefix has one entry, whose faces are as they should be. -/
structure Proper (t : Fib) : Prop where
  nodup : (t.entries.map FibEntry.namePrefix).Nodup
  entry : ∀ e ∈ t.entries, e.Proper

/-- The table holds the routes of the map. -/
def Holds (t : Fib) (R : Routes) : Prop :=
  ∀ p f cost, R p f = some cost ↔ ∃ e ∈ t.entries, e.namePrefix = p ∧ (f, cost) ∈ e.faces

theorem Proper.empty : Proper {} where
  nodup := List.nodup_nil
  entry e he := by cases he

theorem holds_empty : Holds {} .empty := by
  intro p f cost
  simp [Routes.empty]

theorem Proper.entry_unique (h : t.Proper) {e e' : FibEntry} (he : e ∈ t.entries)
    (he' : e' ∈ t.entries) (hp : e.namePrefix = e'.namePrefix) : e = e' :=
  List.inj_on_of_nodup_map h.nodup he he' hp

/-- Entries that keep their prefixes, with some of their faces or all of them gone. -/
theorem Proper.of_filterMap (h : t.Proper) {k : FibEntry → Option FibEntry}
    (hk : ∀ e ∈ t.entries, ∀ e' ∈ k e, e'.namePrefix = e.namePrefix ∧ (e.Proper → e'.Proper)) :
    Proper ⟨t.entries.filterMap k⟩ where
  nodup := by
    obtain ⟨hnodup, -⟩ := h
    generalize t.entries = es at hk hnodup
    induction es with
    | nil => exact List.nodup_nil
    | cons e es ih =>
      obtain ⟨he, hes⟩ := List.nodup_cons.mp hnodup
      have hrest := ih (fun e he => hk e (List.mem_cons_of_mem _ he)) hes
      cases hke : k e with
      | none => rwa [List.filterMap_cons_none hke]
      | some e' =>
        rw [List.filterMap_cons_some hke, List.map_cons, List.nodup_cons]
        refine ⟨?_, hrest⟩
        rw [(hk e List.mem_cons_self e' hke).1]
        intro hm
        obtain ⟨x, hx, hxe⟩ := List.mem_map.mp hm
        obtain ⟨y, hy, hyx⟩ := List.mem_filterMap.mp hx
        have hxy := (hk y (List.mem_cons_of_mem _ hy) x hyx).1
        exact he (List.mem_map.mpr ⟨y, hy, hxy.symm.trans hxe⟩)
  entry e' he' := by
    obtain ⟨e, he, hke⟩ := List.mem_filterMap.mp he'
    exact (hk e he e' hke).2 (h.entry e he)

theorem insertEntries_cases (p : Name) (face : FaceId) (cost : ℕ) (es : List FibEntry) :
    (∃ l e r, es = l ++ e :: r ∧ e.namePrefix = p ∧ p ∉ l.map FibEntry.namePrefix ∧
      insertEntries p face cost es = l ++ e.insert face cost :: r) ∨
    p ∉ es.map FibEntry.namePrefix ∧
      insertEntries p face cost es = es ++ [⟨p, [(face, cost)]⟩] := by
  induction es with
  | nil => exact .inr ⟨List.not_mem_nil, rfl⟩
  | cons e es ih =>
    rw [insertEntries]
    by_cases he : e.namePrefix = p
    · rw [if_pos he]
      exact .inl ⟨[], e, es, rfl, he, List.not_mem_nil, rfl⟩
    · rw [if_neg he]
      rcases ih with ⟨l, e', r, rfl, hp, hl, hi⟩ | ⟨hno, hi⟩
      · refine .inl ⟨e :: l, e', r, rfl, hp, ?_, by rw [hi]; rfl⟩
        rw [List.map_cons, List.mem_cons, not_or]
        exact ⟨Ne.symm he, hl⟩
      · refine .inr ⟨?_, by rw [hi]; rfl⟩
        rw [List.map_cons, List.mem_cons, not_or]
        exact ⟨Ne.symm he, hno⟩

theorem nodup_insert (h : t.Proper) (p : Name) (face : FaceId) (cost : ℕ) :
    ((t.insert p face cost).entries.map FibEntry.namePrefix).Nodup := by
  unfold Fib.insert
  rcases insertEntries_cases p face cost t.entries with ⟨l, e, r, hes, -, -, hi⟩ | ⟨hno, hi⟩
  · have hnodup := h.nodup
    rw [hes] at hnodup
    rw [hi]
    simpa [FibEntry.insert] using hnodup
  · rw [hi, List.map_append, List.nodup_append]
    refine ⟨h.nodup, List.nodup_singleton _, ?_⟩
    rintro a ha b hb rfl
    obtain rfl : a = p := List.mem_singleton.mp hb
    exact hno ha

/-- After an insertion the prefix has one entry, with the new cost of the face. -/
theorem mem_insert (h : t.Proper) (p : Name) (face : FaceId) (cost : ℕ) :
    ∃ new : FibEntry, new.namePrefix = p ∧ new.Proper ∧
      (∀ g c, (g, c) ∈ new.faces ↔ g = face ∧ c = cost ∨
        g ≠ face ∧ ∃ e ∈ t.entries, e.namePrefix = p ∧ (g, c) ∈ e.faces) ∧
      ∀ x, x ∈ (t.insert p face cost).entries ↔ x = new ∨ x ∈ t.entries ∧ x.namePrefix ≠ p := by
  unfold Fib.insert
  rcases insertEntries_cases p face cost t.entries with ⟨l, e, r, hes, rfl, hl, hi⟩ | ⟨hno, hi⟩
  · have he : e ∈ t.entries := by simp [hes]
    have hr : ∀ x ∈ r, x.namePrefix ≠ e.namePrefix := by
      have hnodup := h.nodup
      rw [hes, List.map_append, List.map_cons, List.nodup_append, List.nodup_cons] at hnodup
      intro x hx heq
      exact hnodup.2.1.1 (List.mem_map.mpr ⟨x, hx, heq⟩)
    refine ⟨e.insert face cost, rfl, (h.entry e he).insert, ?_, ?_⟩
    · intro g c
      rw [FibEntry.mem_insert (h.entry e he)]
      refine or_congr_right (and_congr_right fun _ => ⟨fun hm => ⟨e, he, rfl, hm⟩, ?_⟩)
      rintro ⟨e', he', hp, hm⟩
      exact h.entry_unique he' he hp ▸ hm
    · intro x
      rw [hi, hes]
      simp only [List.mem_append, List.mem_cons]
      constructor
      · rintro (hx | rfl | hx)
        · exact .inr ⟨.inl hx, fun heq => hl (List.mem_map.mpr ⟨x, hx, heq⟩)⟩
        · exact .inl rfl
        · exact .inr ⟨.inr (.inr hx), hr x hx⟩
      · rintro (rfl | ⟨hx | rfl | hx, hne⟩)
        · exact .inr (.inl rfl)
        · exact .inl hx
        · exact absurd rfl hne
        · exact .inr (.inr hx)
  · have hne : ∀ x ∈ t.entries, x.namePrefix ≠ p :=
      fun x hx heq => hno (List.mem_map.mpr ⟨x, hx, heq⟩)
    refine ⟨⟨p, [(face, cost)]⟩, rfl, ⟨by simp, by simp, by simp⟩, ?_, ?_⟩
    · intro g c
      rw [List.mem_singleton, Prod.mk.injEq]
      refine ⟨.inl, ?_⟩
      rintro (h | ⟨-, e, he, hp, -⟩)
      · exact h
      · exact absurd hp (hne e he)
    · intro x
      rw [hi, List.mem_append, List.mem_singleton, or_comm]
      exact or_congr_right ⟨fun hx => ⟨hx, hne x hx⟩, fun hx => hx.1⟩

theorem Proper.insert (h : t.Proper) (p : Name) (face : FaceId) (cost : ℕ) :
    (t.insert p face cost).Proper where
  nodup := nodup_insert h p face cost
  entry e he := by
    obtain ⟨new, -, hnew, -, hmem⟩ := mem_insert h p face cost
    rcases (hmem e).mp he with rfl | ⟨he, -⟩
    · exact hnew
    · exact h.entry e he

theorem Holds.insert (ht : t.Proper) (h : t.Holds R) (p : Name) (face : FaceId) (cost : ℕ) :
    (t.insert p face cost).Holds (R.apply (.insert p face cost)) := by
  intro q f c
  obtain ⟨new, rfl, -, hfaces, hmem⟩ := mem_insert ht p face cost
  have hroute : R.apply (.insert new.namePrefix face cost) q f =
      if q = new.namePrefix ∧ f = face then some cost else R q f := rfl
  rw [hroute]
  by_cases hq : q = new.namePrefix
  · subst hq
    have hnew : (∃ e ∈ (t.insert new.namePrefix face cost).entries,
        e.namePrefix = new.namePrefix ∧ (f, c) ∈ e.faces) ↔ (f, c) ∈ new.faces := by
      constructor
      · rintro ⟨e, he, hp, hm⟩
        rcases (hmem e).mp he with rfl | ⟨-, hne⟩
        · exact hm
        · exact absurd hp hne
      · intro hm
        exact ⟨new, (hmem new).mpr (.inl rfl), rfl, hm⟩
    rw [hnew, hfaces, ← h]
    by_cases hf : f = face <;> simp [hf, eq_comm]
  · rw [if_neg fun hqf => hq hqf.1, h]
    constructor
    · rintro ⟨e, he, rfl, hm⟩
      exact ⟨e, (hmem e).mpr (.inr ⟨he, hq⟩), rfl, hm⟩
    · rintro ⟨e, he, rfl, hm⟩
      rcases (hmem e).mp he with rfl | ⟨he, -⟩
      · exact absurd rfl hq
      · exact ⟨e, he, rfl, hm⟩

/-- What `remove_face` keeps of an entry. -/
def keptBy (p : Name) (face : FaceId) (e : FibEntry) : Option FibEntry :=
  if e.namePrefix.startsWith p || p.startsWith e.namePrefix then
    if (e.withdraw face).faces.isEmpty then none else some (e.withdraw face)
  else some e

theorem removeFace_eq (t : Fib) (p : Name) (face : FaceId) :
    t.removeFace p face = ⟨t.entries.filterMap (keptBy p face)⟩ := rfl

theorem removeAllForFace_eq (t : Fib) (face : FaceId) :
    t.removeAllForFace face = ⟨t.entries.filterMap fun e =>
      if (e.withdraw face).faces.isEmpty then none else some (e.withdraw face)⟩ := by
  rw [removeAllForFace, ← List.filterMap_eq_filter, List.filterMap_map]
  congr 1
  refine List.filterMap_congr fun e _ => ?_
  by_cases he : (e.withdraw face).faces.isEmpty <;> simp [Option.guard, he]

theorem removePrefix_eq (t : Fib) (p : Name) :
    t.removePrefix p = ⟨t.entries.filterMap fun e =>
      if e.namePrefix.startsWith p then none else some e⟩ := by
  rw [removePrefix, ← List.filterMap_eq_filter]
  congr 1
  refine List.filterMap_congr fun e _ => ?_
  by_cases he : e.namePrefix.startsWith p <;> simp [Option.guard, he]

def Thins (gone : Name → FaceId → Prop) (k : FibEntry → Option FibEntry) : Prop :=
  ∀ e, match k e with
    | none => ∀ x ∈ e.faces, gone e.namePrefix x.1
    | some e' => e'.namePrefix = e.namePrefix ∧ (e.Proper → e'.Proper) ∧
      ∀ f c, (f, c) ∈ e'.faces ↔ (f, c) ∈ e.faces ∧ ¬ gone e.namePrefix f

theorem thins_withdraw (face : FaceId) : Thins (fun _ f => f = face) fun e =>
    if (e.withdraw face).faces.isEmpty then none else some (e.withdraw face) := by
  intro e
  by_cases he : (e.withdraw face).faces = []
  · simp only [he, List.isEmpty_nil, if_true]
    rintro ⟨f, c⟩ hx
    by_contra hf
    have hm := FibEntry.mem_withdraw.mpr ⟨hx, hf⟩
    rw [he] at hm
    cases hm
  · simp only [List.isEmpty_iff, he, if_false]
    exact ⟨rfl, fun h => h.withdraw he, fun _ _ => FibEntry.mem_withdraw⟩

theorem thins_keptBy (p : Name) (face : FaceId) : Thins (fun q f => f = face ∧
    (q.startsWith p = true ∨ p.startsWith q = true)) (keptBy p face) := by
  intro e
  unfold keptBy
  by_cases hp : e.namePrefix.startsWith p = true ∨ p.startsWith e.namePrefix = true
  · simpa [hp] using thins_withdraw face e
  · have hno : (e.namePrefix.startsWith p || p.startsWith e.namePrefix) = false := by simpa using hp
    simp [hno, hp]

theorem thins_removePrefix (p : Name) : Thins (fun q _ => q.startsWith p = true) fun e =>
    if e.namePrefix.startsWith p then none else some e := by
  intro e
  by_cases hp : e.namePrefix.startsWith p = true <;> simp [hp]

theorem Thins.proper {gone : Name → FaceId → Prop} {k : FibEntry → Option FibEntry}
    (hk : Thins gone k) (h : t.Proper) : Proper ⟨t.entries.filterMap k⟩ := by
  apply h.of_filterMap
  intro e _ e' he'
  have hthin := hk e
  rw [he'] at hthin
  exact ⟨hthin.1, hthin.2.1⟩

theorem Thins.holds {gone : Name → FaceId → Prop} {k : FibEntry → Option FibEntry} {R' : Routes}
    (hk : Thins gone k) (h : t.Holds R)
    (hR : ∀ q f c, R' q f = some c ↔ R q f = some c ∧ ¬ gone q f) :
    Holds ⟨t.entries.filterMap k⟩ R' := by
  intro q f c
  rw [hR, h]
  constructor
  · rintro ⟨⟨e, he, rfl, hm⟩, hgone⟩
    have hthin := hk e
    cases hke : k e with
    | none =>
      rw [hke] at hthin
      exact absurd (hthin _ hm) hgone
    | some e' =>
      rw [hke] at hthin
      exact ⟨e', List.mem_filterMap.mpr ⟨e, he, hke⟩, hthin.1, (hthin.2.2 f c).mpr ⟨hm, hgone⟩⟩
  · rintro ⟨e', he', rfl, hm⟩
    obtain ⟨e, he, hke⟩ := List.mem_filterMap.mp he'
    have hthin := hk e
    rw [hke] at hthin
    obtain ⟨hm, hgone⟩ := (hthin.2.2 f c).mp hm
    rw [hthin.1]
    exact ⟨⟨e, he, rfl, hm⟩, hgone⟩

theorem Proper.apply (h : t.Proper) (op : FibOp) : (t.apply op).Proper := by
  cases op with
  | insert p face cost => exact h.insert p face cost
  | removeFace p face => exact (thins_keptBy p face).proper h
  | removePrefix p =>
    rw [Fib.apply, removePrefix_eq]
    exact (thins_removePrefix p).proper h
  | removeAllForFace face =>
    rw [Fib.apply, removeAllForFace_eq]
    exact (thins_withdraw face).proper h

theorem Holds.apply (ht : t.Proper) (h : t.Holds R) (op : FibOp) :
    (t.apply op).Holds (R.apply op) := by
  have hif (b : Prop) [Decidable b] (x : Option ℕ) (c : ℕ) :
      (if b then none else x) = some c ↔ x = some c ∧ ¬ b := by
    by_cases hb : b <;> simp [hb]
  cases op with
  | insert p face cost => exact h.insert ht p face cost
  | removeFace p face => exact (thins_keptBy p face).holds h fun q f c => hif _ _ _
  | removePrefix p =>
    rw [Fib.apply, removePrefix_eq]
    exact (thins_removePrefix p).holds h fun q f c => hif _ _ _
  | removeAllForFace face =>
    rw [Fib.apply, removeAllForFace_eq]
    exact (thins_withdraw face).holds h fun q f c => hif _ _ _

/-- The table after a sequence of operations. -/
def run (t : Fib) (ops : List FibOp) : Fib := ops.foldl apply t

theorem Proper.run (h : t.Proper) (ops : List FibOp) : (t.run ops).Proper := by
  induction ops generalizing t with
  | nil => exact h
  | cons op ops ih => exact ih (h.apply op)

theorem Holds.run (ht : t.Proper) (h : t.Holds R) (ops : List FibOp) :
    (t.run ops).Holds (ops.foldl Routes.apply R) := by
  induction ops generalizing t R with
  | nil => exact h
  | cons op ops ih => exact ih (ht.apply op) (h.apply ht op)

/-- The entry that answers the name: the first with a longest prefix of it. -/
def Answers (t : Fib) (n : Name) : FibEntry → Prop :=
  FirstLongest (fun e => n.startsWith e.namePrefix) (fun e => e.namePrefix.len) t.entries

theorem best_eq_foldl (n : Name) (es : List FibEntry) (found : Option FibEntry) :
    best n es found = es.foldl
      (keepLonger (fun e => n.startsWith e.namePrefix) fun e => e.namePrefix.len) found := by
  induction es generalizing found with
  | nil => rfl
  | cons e es ih =>
    rw [best, List.foldl_cons, keepLonger]
    split <;> exact ih _

theorem best_eq_some_iff : best n t.entries none = some e ↔ t.Answers n e := by
  rw [best_eq_foldl]
  exact scan_eq_some_iff

theorem lookup?_eq_none_iff :
    t.lookup? n = none ↔ ∀ e ∈ t.entries, n.startsWith e.namePrefix = false := by
  rw [lookup?, Option.map_eq_none_iff, best_eq_foldl]
  exact scan_eq_none_iff

theorem lookup?_eq_some_iff {fs : List (FaceId × ℕ)} :
    t.lookup? n = some fs ↔ ∃ e, t.Answers n e ∧ e.faces = fs := by
  rw [lookup?, Option.map_eq_some_iff]
  exact exists_congr fun e => and_congr_left fun _ => best_eq_some_iff

theorem Proper.lookup (h : t.Proper) (n : Name) :
    ((t.lookup n).map Prod.fst).Nodup ∧ (t.lookup n).Pairwise fun x y => x.2 ≤ y.2 := by
  cases hl : t.lookup? n with
  | none =>
    rw [lookup_eq, hl]
    exact ⟨List.nodup_nil, .nil⟩
  | some fs =>
    obtain ⟨e, he, rfl⟩ := lookup?_eq_some_iff.mp hl
    rw [lookup_eq, hl]
    exact ⟨(h.entry e he.mem).nodup, (h.entry e he.mem).sorted⟩

/-- The prefix has a face and is the longest prefix of the name that has one. -/
structure LongestRoute (R : Routes) (n p : Name) : Prop where
  has : R.Has p
  begins : n.startsWith p = true
  longest : ∀ q, R.Has q → n.startsWith q = true → q.len ≤ p.len

theorem Holds.has_iff (ht : t.Proper) (h : t.Holds R) :
    R.Has p ↔ ∃ e ∈ t.entries, e.namePrefix = p := by
  constructor
  · rintro ⟨f, c, hR⟩
    obtain ⟨e, he, hp, -⟩ := (h p f c).mp hR
    exact ⟨e, he, hp⟩
  · rintro ⟨e, he, hp⟩
    obtain ⟨⟨f, c⟩, hm⟩ := List.exists_mem_of_ne_nil _ (ht.entry e he).nonempty
    exact ⟨f, c, (h p f c).mpr ⟨e, he, hp, hm⟩⟩

theorem Answers.longestRoute (ht : t.Proper) (h : t.Holds R) (he : t.Answers n e) :
    LongestRoute R n e.namePrefix where
  has := (h.has_iff ht).mpr ⟨e, he.mem, rfl⟩
  begins := he.matches
  longest q hq hn := by
    obtain ⟨e', he', rfl⟩ := (h.has_iff ht).mp hq
    exact he.longest e' he' hn

theorem Answers.routes (ht : t.Proper) (h : t.Holds R) (he : t.Answers n e) (f : FaceId) (c : ℕ) :
    (f, c) ∈ e.faces ↔ R e.namePrefix f = some c := by
  rw [h]
  constructor
  · intro hm
    exact ⟨e, he.mem, rfl, hm⟩
  · rintro ⟨e', he', hp, hm⟩
    exact ht.entry_unique he' he.mem hp ▸ hm

theorem LongestRoute.unique (h : LongestRoute R n p) (h' : LongestRoute R n q)
    (hp : p.contentHash = none) (hq : q.contentHash = none) : p = q := by
  have hlen : p.components.length = q.components.length :=
    le_antisymm (h'.longest p h.has h.begins) (h.longest q h'.has h'.begins)
  have heq := eq_of_begins (Name.startsWith_iff.mp h.begins) (Name.startsWith_iff.mp h'.begins) hlen
  obtain ⟨haddr, hpath⟩ := List.cons.inj heq
  cases p
  cases q
  simp_all

theorem lookup?_eq_none_iff_routes (ht : t.Proper) (h : t.Holds R) :
    t.lookup? n = none ↔ ∀ p, R.Has p → n.startsWith p = false := by
  rw [lookup?_eq_none_iff]
  constructor
  · rintro hno p hp
    obtain ⟨e, he, rfl⟩ := (h.has_iff ht).mp hp
    exact hno e he
  · intro hno e he
    exact hno _ ((h.has_iff ht).mpr ⟨e, he, rfl⟩)

theorem withdrawn_eq (ht : t.Proper) (h : t.Holds R) (face : FaceId) :
    t.withdrawn face = {p | ∃ c, R p face = some c}.ncard := by
  let es := t.entries.filter fun e => (e.withdraw face).faces.length != e.faces.length
  have hset : {p | ∃ c, R p face = some c} =
      ((es.map FibEntry.namePrefix).toFinset : Set Name) := by
    ext p
    simp only [Set.mem_ofPred_eq, List.coe_toFinset, List.mem_map, es, List.mem_filter,
      FibEntry.withdraw_shortens_iff]
    constructor
    · rintro ⟨c, hc⟩
      obtain ⟨e, he, hp, hm⟩ := (h p face c).mp hc
      exact ⟨e, ⟨he, c, hm⟩, hp⟩
    · rintro ⟨e, ⟨he, c, hm⟩, hp⟩
      exact ⟨c, (h p face c).mpr ⟨e, he, hp, hm⟩⟩
  have hnodup : (es.map FibEntry.namePrefix).Nodup := ht.nodup.sublist (List.filter_sublist.map _)
  rw [hset, Set.ncard_coe_finset, List.toFinset_card_of_nodup hnodup, List.length_map, withdrawn,
    List.countP_eq_length_filter]

end Fib

/-- The operation gives the face a route. -/
def FibOp.Inserts (face : FaceId) : FibOp → Prop
  | .insert _ f _ => f = face
  | _ => False

/-- The operation adds no pinned prefix. -/
def FibOp.Unpinned : FibOp → Prop
  | .insert p _ _ => p.contentHash = none
  | _ => True

namespace Routes

variable {R : Routes} {ops : List FibOp} {face : FaceId} {p : Name}

/-- The routes after a sequence of operations. -/
def run (R : Routes) (ops : List FibOp) : Routes := ops.foldl apply R

theorem apply_eq_some {op : FibOp} {f : FaceId} {c : ℕ} (h : R.apply op p f = some c) :
    R p f = some c ∨ op = .insert p f c := by
  cases op with
  | insert q g cost =>
    rw [apply] at h
    by_cases hqg : p = q ∧ f = g
    · obtain ⟨rfl, rfl⟩ := hqg
      have hc : cost = c := by simpa using h
      exact .inr (hc ▸ rfl)
    · exact .inl (by simpa [hqg] using h)
  | removeFace q g | removePrefix q | removeAllForFace g =>
    rw [apply] at h
    exact .inl (Option.ite_none_left_eq_some.mp h).2

theorem run_eq_none (h : ∀ p, R p face = none) (hops : ∀ op ∈ ops, ¬ op.Inserts face) (p : Name) :
    R.run ops p face = none := by
  induction ops generalizing R with
  | nil => exact h p
  | cons op ops ih =>
    apply ih
    · intro q
      rw [Option.eq_none_iff_forall_ne_some]
      intro c hc
      rcases apply_eq_some hc with hq | rfl
      · exact absurd hq (by simp [h q])
      · exact hops _ List.mem_cons_self rfl
    · intro op' hop
      exact hops op' (List.mem_cons_of_mem _ hop)

theorem has_unpinned (hops : ∀ op ∈ ops, op.Unpinned) (h : ∀ p, R.Has p → p.contentHash = none) :
    ∀ p, (R.run ops).Has p → p.contentHash = none := by
  induction ops generalizing R with
  | nil => exact h
  | cons op ops ih =>
    apply ih
    · intro op' hop
      exact hops op' (List.mem_cons_of_mem _ hop)
    · rintro p ⟨f, c, hR⟩
      rcases apply_eq_some hR with hR | rfl
      · exact h p ⟨f, c, hR⟩
      · exact hops _ List.mem_cons_self

end Routes

namespace Fib

variable {t : Fib} {R : Routes} {n p : Name} {face : FaceId} {e : FibEntry}

def after (ops : List FibOp) : Fib := run {} ops

theorem after_proper (ops : List FibOp) : (after ops).Proper := Proper.empty.run ops

theorem after_holds (ops : List FibOp) : (after ops).Holds (Routes.empty.run ops) :=
  holds_empty.run .empty ops

theorem removed_not_looked_up {later : List FibOp} (ht : t.Proper) (h : t.Holds R)
    (hlater : ∀ op ∈ later, ¬ op.Inserts face) {faces : List (FaceId × ℕ)}
    (hl : ((t.removeAllForFace face).run later).lookup? n = some faces) :
    face ∉ faces.map Prod.fst := by
  have ht' : (t.apply (.removeAllForFace face)).Proper := ht.apply _
  have h' := (h.apply ht (.removeAllForFace face)).run ht' later
  obtain ⟨e, he, rfl⟩ := lookup?_eq_some_iff.mp hl
  intro hface
  obtain ⟨⟨f, c⟩, hm, rfl⟩ := List.mem_map.mp hface
  have hroute := (he.routes (ht'.run later) h' f c).mp hm
  have hnone := Routes.run_eq_none (R := R.apply (.removeAllForFace f)) (fun q => if_pos rfl) hlater
    e.namePrefix
  rw [Routes.run] at hnone
  rw [hnone] at hroute
  cases hroute

/-- The FIB is a longest-prefix map of the routes that the operations leave. -/
theorem lookup_longest_route (ops : List FibOp) (hops : ∀ op ∈ ops, op.Unpinned) :
    (after ops).Proper ∧
    (∀ n, (after ops).lookup? n = none ↔
      ∀ p, (Routes.empty.run ops).Has p → n.startsWith p = false) ∧
    (∀ n faces, (after ops).lookup? n = some faces →
      ∃ p, LongestRoute (Routes.empty.run ops) n p ∧
        (∀ q, LongestRoute (Routes.empty.run ops) n q → q = p) ∧
        (faces.map Prod.fst).Nodup ∧ faces.Pairwise (fun x y => x.2 ≤ y.2) ∧
        ∀ f c, (f, c) ∈ faces ↔ Routes.empty.run ops p f = some c) ∧
    (∀ face, (after ops).withdrawn face = {p | ∃ c, Routes.empty.run ops p face = some c}.ncard) ∧
    ∀ face later n faces, (∀ op ∈ later, ¬ op.Inserts face) →
      (((after ops).removeAllForFace face).run later).lookup? n = some faces →
        face ∉ faces.map Prod.fst := by
  have ht := after_proper ops
  have h := after_holds ops
  have hunpinned := Routes.has_unpinned (R := .empty) hops (by rintro p ⟨f, c, hR⟩; cases hR)
  refine ⟨ht, fun n => lookup?_eq_none_iff_routes ht h, ?_, withdrawn_eq ht h, ?_⟩
  · intro n faces hl
    obtain ⟨e, he, rfl⟩ := lookup?_eq_some_iff.mp hl
    have hlongest := he.longestRoute ht h
    refine ⟨e.namePrefix, hlongest, ?_, (ht.entry e he.mem).nodup, (ht.entry e he.mem).sorted,
      he.routes ht h⟩
    intro q hq
    exact hq.unique hlongest (hunpinned q hq.has) (hunpinned _ hlongest.has)
  · intro face later n faces hlater hl
    exact removed_not_looked_up ht h hlater hl

def under (path : List Bytes) : Name := ⟨List.replicate 16 0x01, path, none⟩

def overlapping : List FibOp :=
  [.insert (under [[0x61]]) 1 20, .insert (under [[0x61], [0x62]]) 2 10,
    .insert (under [[0x61], [0x62]]) 3 5, .insert (under [[0x61], [0x62]]) 2 1]

theorem overlapping_looked_up :
    (after overlapping).lookup? (under [[0x61], [0x62], [0x63]]) = some [(2, 1), (3, 5)] ∧
      (∃ p, LongestRoute (Routes.empty.run overlapping) (under [[0x61], [0x62], [0x63]]) p ∧
        Routes.empty.run overlapping p 2 = some 1) ∧
      (after overlapping).withdrawn 2 =
        {p | ∃ c, Routes.empty.run overlapping p 2 = some c}.ncard := by
  have hunpinned : ∀ op ∈ overlapping, op.Unpinned := by simp [overlapping, FibOp.Unpinned, under]
  have hl : (after overlapping).lookup? (under [[0x61], [0x62], [0x63]]) =
      some [(2, 1), (3, 5)] := by decide
  obtain ⟨-, -, hlongest, hcount, -⟩ := lookup_longest_route overlapping hunpinned
  obtain ⟨p, hp, -, -, -, hroutes⟩ := hlongest _ _ hl
  exact ⟨hl, ⟨p, hp, (hroutes 2 1).mp (by decide)⟩, hcount 2⟩

theorem mem_removeFace (he : e ∈ (t.removeFace p face).entries) :
    ∃ x ∈ t.entries, x.namePrefix = e.namePrefix ∧
      ∀ f c, (f, c) ∈ e.faces ↔ (f, c) ∈ x.faces ∧
        ¬ (f = face ∧ (x.namePrefix.startsWith p = true ∨ p.startsWith x.namePrefix = true)) := by
  rw [removeFace_eq] at he
  obtain ⟨x, hx, hk⟩ := List.mem_filterMap.mp he
  have hthin := thins_keptBy p face x
  rw [hk] at hthin
  exact ⟨x, hx, hthin.1.symm, hthin.2.2⟩

theorem not_mem_removeFace (he : e ∈ (t.removeFace p face).entries)
    (hp : e.namePrefix.startsWith p = true ∨ p.startsWith e.namePrefix = true) :
    face ∉ e.faces.map Prod.fst := by
  obtain ⟨x, -, hx, hmem⟩ := mem_removeFace he
  intro hface
  obtain ⟨⟨f, c⟩, hm, rfl⟩ := List.mem_map.mp hface
  exact ((hmem f c).mp hm).2 ⟨rfl, hx ▸ hp⟩

/-- The removal keeps an entry beside the prefix, and one above it without the face. -/
theorem keptBy_eq_self (he : e.Proper) (hbelow : e.namePrefix.startsWith p = false)
    (habove : p.startsWith e.namePrefix = true → face ∉ e.faces.map Prod.fst) :
    keptBy p face e = some e := by
  unfold keptBy
  rw [hbelow, Bool.false_or]
  split
  · rename_i hp
    have hsame : e.withdraw face = e := by
      have hfilter : (e.faces.filter fun x => x.1 ≠ face) = e.faces := by
        apply List.filter_eq_self.mpr
        intro x hx
        have hne : x.1 ≠ face := fun hf => habove hp (hf ▸ List.mem_map_of_mem hx)
        exact decide_eq_true hne
      rw [FibEntry.withdraw, hfilter]
    rw [hsame, if_neg (by simpa using he.nonempty)]
  · rfl

theorem Answers.own (h : t.Answers n e) : t.Answers e.namePrefix e := by
  have hn := Name.startsWith_iff.mp h.matches
  apply h.mono
  · exact Name.startsWith_iff.mpr (List.prefix_refl _)
  · intro x _ hx
    exact Name.startsWith_iff.mpr ((Name.startsWith_iff.mp hx).trans hn)

/-- Removing a face from a prefix leaves the lookups of all other names alone exactly if no entry
that answers a name has the face at a proper prefix of it. -/
theorem remove_face_frame_iff (ops : List FibOp) (p : Name) (face : FaceId) :
    ((∀ n e, ((after ops).removeFace p face).Answers n e → e.namePrefix.startsWith p = true →
        face ∉ e.faces.map Prod.fst) ∧
      ∀ n, n.startsWith p = false →
        ((after ops).removeFace p face).lookup? n = (after ops).lookup? n) ↔
    ∀ n e, (after ops).Answers n e → p.startsWith e.namePrefix = true →
      e.namePrefix.len < p.len → face ∉ e.faces.map Prod.fst := by
  constructor
  · rintro ⟨-, hframe⟩ n e he hp hlt hface
    have hbelow : e.namePrefix.startsWith p = false := by
      rw [Name.startsWith, if_pos hlt]
    have hsame := hframe e.namePrefix hbelow
    rw [lookup?_eq_some_iff.mpr ⟨e, he.own, rfl⟩] at hsame
    obtain ⟨e', he', hfaces⟩ := lookup?_eq_some_iff.mp hsame
    have hp' : p.startsWith e'.namePrefix = true := Name.startsWith_iff.mpr
      ((Name.startsWith_iff.mp he'.matches).trans (Name.startsWith_iff.mp hp))
    exact not_mem_removeFace he'.mem (.inr hp') (hfaces ▸ hface)
  · intro hcond
    refine ⟨fun n e he hp => not_mem_removeFace he.mem (.inl hp), fun n hn => ?_⟩
    have hbelow (x : FibEntry) (hx : n.startsWith x.namePrefix = true) :
        x.namePrefix.startsWith p = false := by
      by_contra hxp
      have hnp := (Name.startsWith_iff.mp (Bool.of_not_eq_false hxp)).trans
        (Name.startsWith_iff.mp hx)
      exact absurd (Name.startsWith_iff.mpr hnp) (by simp [hn])
    cases hl : (after ops).lookup? n with
    | none =>
      rw [lookup?_eq_none_iff] at hl ⊢
      intro e he
      obtain ⟨x, hx, hpx, -⟩ := mem_removeFace he
      rw [← hpx]
      exact hl x hx
    | some faces =>
      obtain ⟨e, he, rfl⟩ := lookup?_eq_some_iff.mp hl
      have hkept : keptBy p face e = some e := by
        apply keptBy_eq_self ((after_proper ops).entry e he.mem) (hbelow e he.matches)
        intro hp
        have hle := (Name.startsWith_iff.mp hp).length_le
        refine hcond n e he hp (lt_of_le_of_ne hle ?_)
        intro hlen
        have heq := (Name.startsWith_iff.mp hp).eq_of_length hlen
        have hself : e.namePrefix.startsWith p = true :=
          Name.startsWith_iff.mpr (heq ▸ List.prefix_refl _)
        exact absurd hself (by simp [hbelow e he.matches])
      refine lookup?_eq_some_iff.mpr ⟨e, ?_, rfl⟩
      rw [removeFace_eq]
      apply he.filterMap hkept
      intro x _ y hy hny
      have hthin := thins_keptBy p face x
      rw [hy] at hthin
      rw [← hthin.1]
      exact ⟨hny, rfl⟩

/-- To remove a face from `/a/b` removes it from `/a` too, and `/a` has no route then. -/
theorem parent_route_removed :
    (under [[0x61]]).startsWith (under [[0x61], [0x62]]) = false ∧
      (after [.insert (under [[0x61]]) 1 10]).lookup? (under [[0x61]]) = some [(1, 10)] ∧
      ((after [.insert (under [[0x61]]) 1 10]).removeFace (under [[0x61], [0x62]]) 1).lookup?
        (under [[0x61]]) = none ∧
      ¬ ∀ n, n.startsWith (under [[0x61], [0x62]]) = false →
        ((after [.insert (under [[0x61]]) 1 10]).removeFace (under [[0x61], [0x62]]) 1).lookup? n =
          (after [.insert (under [[0x61]]) 1 10]).lookup? n := by
  have hbelow : (under [[0x61]]).startsWith (under [[0x61], [0x62]]) = false := by decide
  have hbefore : (after [.insert (under [[0x61]]) 1 10]).lookup? (under [[0x61]]) =
      some [(1, 10)] := by decide
  have hafter : ((after [.insert (under [[0x61]]) 1 10]).removeFace (under [[0x61], [0x62]])
      1).lookup? (under [[0x61]]) = none := by decide
  refine ⟨hbelow, hbefore, hafter, fun hframe => ?_⟩
  have hsame := hframe _ hbelow
  rw [hbefore, hafter] at hsame
  cases hsame

end Fib

end RnsIcn
