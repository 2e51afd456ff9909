import Mathlib.Data.List.Chain
import Mathlib.Data.List.Induction
import RnsIcn.Lib.Transition

/-! # Flooding

Nodes are joined by links that are used in both directions. What comes over a link
is passed on over the other links of its target, by nodes that relay. Messages are
delivered in any order. Nothing is sent twice over a link in one direction exactly
if the message cannot come back to a link that it has passed.
-/

structure Wiring (V D : Type*) where
  src : D → V
  rev : D → D
  rev_rev : ∀ e, rev (rev e) = e
  rev_ne : ∀ e, rev e ≠ e

namespace Wiring

open Relation

variable {V D : Type*}

def dst (W : Wiring V D) (e : D) : V := W.src (W.rev e)

/-- What is delivered over `e` is passed on over `e'`. -/
structure Passes (W : Wiring V D) (relays : V → Prop) (e e' : D) : Prop where
  joins : W.src e' = W.dst e
  onward : e' ≠ W.rev e
  relays : relays (W.dst e)

def Reached (W : Wiring V D) (relays : V → Prop) (v : V) (e : D) : Prop :=
  ∃ h, W.src h = v ∧ ReflTransGen (W.Passes relays) h e

/-- A message that starts at `v` comes back to a link. -/
def Circuit (W : Wiring V D) (relays : V → Prop) (v : V) : Prop :=
  ∃ e, W.Reached relays v e ∧ TransGen (W.Passes relays) e e

variable {W : Wiring V D} {relays : V → Prop} {v : V} {e e' a b h z : D}

@[simp] theorem dst_rev (W : Wiring V D) (e : D) : W.dst (W.rev e) = W.src e := by
  rw [dst, W.rev_rev]

theorem rev_inj (he : W.rev a = W.rev b) : a = b := by
  rw [← W.rev_rev a, he, W.rev_rev]

theorem Passes.reverse (h : W.Passes relays e e') : W.Passes relays (W.rev e') (W.rev e) where
  joins := by rw [dst_rev, h.joins]; rfl
  onward he := h.onward (by rw [he, W.rev_rev])
  relays := by rw [dst_rev, h.joins]; exact h.relays

theorem reaches_reverse (h : ReflTransGen (W.Passes relays) a b) :
    ReflTransGen (W.Passes relays) (W.rev b) (W.rev a) := by
  induction h with
  | refl => exact .refl
  | tail _ hp ih => exact .head hp.reverse ih

theorem Reached.next (h : W.Reached relays v e) (hp : W.Passes relays e e') :
    W.Reached relays v e' := by
  obtain ⟨f, hf, hr⟩ := h
  exact ⟨f, hf, hr.tail hp⟩

/-- A walk that returns to where it started contains a circuit: as long as its ends are the same
link, both are taken off. -/
theorem exists_circuit_of_chain {l : List D} (hc : l.IsChain (W.Passes relays)) :
    ∀ h ∈ l.head?, ∀ z ∈ l.getLast?, W.src h = W.dst z → relays (W.dst z) →
      ∃ e, ReflTransGen (W.Passes relays) h e ∧ TransGen (W.Passes relays) e e := by
  induction l using List.bidirectionalRec with
  | nil => exact nofun
  | singleton a =>
    rintro _ ⟨⟩ _ ⟨⟩ hs hr
    exact ⟨a, .refl, .single ⟨hs, (W.rev_ne a).symm, hr⟩⟩
  | cons_append a l b ih =>
    intro h hh z hz hs hr
    obtain rfl : a = h := by simpa using hh
    obtain rfl : b = z := by
      rw [← List.cons_append, List.getLast?_concat] at hz
      simpa using hz
    by_cases hback : a = W.rev b
    · cases l with
      | nil =>
        have hp : W.Passes relays a b := List.isChain_pair.mp hc
        exact absurd (by rw [hback, W.rev_rev]) hp.onward
      | cons c m =>
        have hsplit : (a :: c :: m).IsChain (W.Passes relays) ∧
            ∀ y ∈ (a :: c :: m).getLast?, W.Passes relays y b := by
          rw [← List.cons_append] at hc
          obtain ⟨hl, -, hb⟩ := List.isChain_append.mp hc
          exact ⟨hl, fun y hy => hb y hy b rfl⟩
        obtain ⟨hac, hcm⟩ := List.isChain_cons_cons.mp hsplit.1
        obtain ⟨y, hy⟩ : ∃ y, (c :: m).getLast? = some y := ⟨_, List.getLast?_eq_some_getLast
          (List.cons_ne_nil c m)⟩
        have hyb : W.Passes relays y b := hsplit.2 y (by rw [List.getLast?_cons_cons]; exact hy)
        have hjoin : W.src c = W.dst y := by
          rw [hac.joins, hback, dst_rev, hyb.joins]
        obtain ⟨e, hce, hloop⟩ := ih hcm c rfl y hy hjoin hyb.relays
        exact ⟨e, .head hac hce, hloop⟩
    · have hab : ReflTransGen (W.Passes relays) a b :=
        List.relationReflTransGen_of_exists_isChain_cons _ hc (by simp)
      exact ⟨a, .refl, .tail' hab ⟨hs, hback, hr⟩⟩

theorem exists_circuit (hw : ReflTransGen (W.Passes relays) h z) (hs : W.src h = W.dst z)
    (hr : relays (W.dst z)) :
    ∃ e, ReflTransGen (W.Passes relays) h e ∧ TransGen (W.Passes relays) e e := by
  obtain ⟨l, hc, hl⟩ := List.exists_isChain_cons_of_relationReflTransGen hw
  refine exists_circuit_of_chain hc h rfl z ?_ hs hr
  rw [← hl]
  exact List.getLast?_eq_some_getLast _

theorem Reached.pred_unique (hn : ¬ W.Circuit relays v) (hv : ∀ w, relays w → relays v)
    (ha : W.Reached relays v a) (hb : W.Reached relays v b) (hae : W.Passes relays a e)
    (hbe : W.Passes relays b e) : a = b := by
  obtain ⟨f, hf, hfa⟩ := ha
  obtain ⟨g, hg, hgb⟩ := hb
  by_contra hne
  have hturn : W.Passes relays a (W.rev b) :=
    ⟨by rw [← hae.joins, hbe.joins]; rfl, fun he => hne (rev_inj he.symm), hae.relays⟩
  have hwalk : ReflTransGen (W.Passes relays) f (W.rev g) :=
    hfa.trans (.head hturn (reaches_reverse hgb))
  obtain ⟨x, hfx, hloop⟩ := exists_circuit hwalk (by rw [dst_rev, hf, hg]) (by
    rw [dst_rev, hg]; exact hv _ hae.relays)
  exact hn ⟨x, ⟨f, hf, hfx⟩, hloop⟩

theorem Reached.not_home (hn : ¬ W.Circuit relays v) (ha : W.Reached relays v a)
    (hp : W.Passes relays a e) : W.src e ≠ v := by
  obtain ⟨f, hf, hfa⟩ := ha
  intro he
  obtain ⟨x, hfx, hloop⟩ := exists_circuit hfa (by rw [hf, ← he, hp.joins]) hp.relays
  exact hn ⟨x, ⟨f, hf, hfx⟩, hloop⟩

/-- How many messages are under way over each link, and how many were sent. -/
structure Flood (D : Type*) where
  transit : D → ℕ
  sent : D → ℕ

namespace Flood

open scoped Classical in
/-- How many messages are passed on over `e'` when one is delivered over `e`. -/
noncomputable def passed (W : Wiring V D) (relays : V → Prop) (e e' : D) : ℕ :=
  if W.Passes relays e e' then 1 else 0

open scoped Classical in
/-- `v` has sent one message over each of its links, and `extra` others are under way. -/
noncomputable def start (W : Wiring V D) (v : V) (extra : D → ℕ) : Flood D where
  transit e := extra e + if W.src e = v then 1 else 0
  sent e := if W.src e = v then 1 else 0

open scoped Classical in
/-- A message is delivered over `e`. -/
noncomputable def step (W : Wiring V D) (relays : V → Prop) (s : Flood D) (e : D) :
    Option (Flood D) :=
  if 0 < s.transit e then some
    { transit := fun e' => (s.transit e' - if e' = e then 1 else 0) + passed W relays e e'
      sent := fun e' => s.sent e' + passed W relays e e' }
  else none

variable {s t : Flood D} {extra : D → ℕ}

theorem passed_eq_one (hp : W.Passes relays e e') : passed W relays e e' = 1 := if_pos hp

theorem passed_eq_zero (hp : ¬ W.Passes relays e e') : passed W relays e e' = 0 := if_neg hp

theorem step_eq_some (hs : step W relays s e = some t) :
    0 < s.transit e ∧ (∀ e', t.sent e' = s.sent e' + passed W relays e e') ∧
      t.transit e = s.transit e - 1 + passed W relays e e ∧
      ∀ e' ≠ e, t.transit e' = s.transit e' + passed W relays e e' := by
  rw [step] at hs
  split at hs
  · rename_i hpos
    cases hs
    refine ⟨hpos, fun _ => rfl, by simp, fun e' he => by simp [he]⟩
  · cases hs

/-- What a flood without a circuit looks like: a link over which something was sent has been
reached, and the link that caused it carries nothing any more. -/
structure Once (W : Wiring V D) (relays : V → Prop) (v : V) (s : Flood D) : Prop where
  sent : ∀ e, s.sent e ≤ 1
  transit : ∀ e e', W.Passes relays e e' → s.transit e ≤ s.sent e
  reached : ∀ e, 0 < s.transit e → W.Reached relays v e
  spent : ∀ e e', W.Passes relays e e' → W.Reached relays v e → 0 < s.sent e' → s.transit e = 0
  caused : ∀ e e', W.Passes relays e e' → W.Reached relays v e → 0 < s.sent e' → 0 < s.sent e

theorem once_start (hn : ¬ W.Circuit relays v)
    (hextra : ∀ e e', 0 < extra e → W.src e = v ∧ ¬ W.Passes relays e e') :
    Once W relays v (start W v extra) := by
  have hhome {e e' : D} (hp : W.Passes relays e e') (hr : W.Reached relays v e) :
      (start W v extra).sent e' = 0 := if_neg (hr.not_home hn hp)
  refine ⟨fun e => ?_, fun e e' hp => ?_, fun e he => ?_, fun e e' hp hr hs => ?_,
    fun e e' hp hr hs => ?_⟩
  · rw [start]
    dsimp only
    split <;> omega
  · have hx : extra e = 0 := Nat.eq_zero_of_not_pos fun hpos => (hextra e e' hpos).2 hp
    simp [start, hx]
  · refine ⟨e, ?_, .refl⟩
    by_contra hne
    rw [start] at he
    simp only [if_neg hne, Nat.add_zero] at he
    exact hne (hextra e e he).1
  · exact absurd (hhome hp hr) (Nat.ne_of_gt hs)
  · exact absurd (hhome hp hr) (Nat.ne_of_gt hs)

theorem Once.step (hn : ¬ W.Circuit relays v) (hv : ∀ w, relays w → relays v)
    (h : Once W relays v s)
    (hs : step W relays s e = some t) : Once W relays v t := by
  obtain ⟨hpos, hsent, hself, hother⟩ := step_eq_some hs
  have hr := h.reached e hpos
  have hloop : ¬ W.Passes relays e e := fun hp => hn ⟨e, hr, .single hp⟩
  -- What is sent now was not sent before: else its cause, the link `e`, would be empty.
  have hfresh (e' : D) (hp : W.Passes relays e e') : s.sent e' = 0 :=
    Nat.eq_zero_of_not_pos fun hsent' => Nat.ne_of_gt hpos (h.spent e e' hp hr hsent')
  have hgone (e' : D) (hp : W.Passes relays e e') : t.transit e = 0 := by
    have hle := h.transit e e' hp
    have hone := h.sent e
    rw [hself, passed_eq_zero hloop]
    omega
  have hnew (e' : D) (he' : 0 < t.sent e') : 0 < s.sent e' ∨ W.Passes relays e e' := by
    by_contra hne
    obtain ⟨hzero, hp⟩ := not_or.mp hne
    rw [hsent, passed_eq_zero hp] at he'
    exact hzero he'
  refine ⟨fun e' => ?_, fun a b hab => ?_, fun a ha => ?_, fun a b hab ha hb => ?_,
    fun a b hab ha hb => ?_⟩
  · rw [hsent]
    by_cases hp : W.Passes relays e e'
    · rw [passed_eq_one hp, hfresh e' hp]
    · rw [passed_eq_zero hp]
      exact h.sent e'
  · have hle := h.transit a b hab
    rw [hsent]
    by_cases hae : a = e
    · rw [hae, hself]
      rw [hae] at hle
      omega
    · rw [hother a hae]
      omega
  · by_cases hp : W.Passes relays e a
    · exact hr.next hp
    · refine h.reached a ?_
      by_cases hae : a = e
      · exact hae ▸ hpos
      · rwa [hother a hae, passed_eq_zero hp] at ha
  · rcases hnew b hb with hb | hp
    · have hzero := h.spent a b hab ha hb
      have hae : a ≠ e := fun hae => Nat.ne_of_gt hpos (hae ▸ hzero)
      have hna : ¬ W.Passes relays e a := fun hp =>
        Nat.ne_of_gt (h.caused a b hab ha hb) (hfresh a hp)
      rw [hother a hae, hzero, passed_eq_zero hna]
    · rw [ha.pred_unique hn hv hr hab hp]
      exact hgone b hp
  · rw [hsent]
    refine Nat.add_pos_left ?_ _
    rcases hnew b hb with hb | hp
    · exact h.caused a b hab ha hb
    · rw [ha.pred_unique hn hv hr hab hp]
      exact hpos.trans_le (h.transit e b hp)

open Transition

theorem exists_step (hp : W.Passes relays e e') (hpos : 0 < s.transit e) :
    ∃ t, step W relays s e = some t ∧ 0 < t.transit e' ∧ t.sent e' = s.sent e' + 1 ∧
      ∀ a, s.sent a ≤ t.sent a := by
  refine ⟨_, if_pos hpos, ?_, ?_, fun a => Nat.le_add_right _ _⟩
  · simp [passed_eq_one hp]
  · simp [passed_eq_one hp]

theorem exists_run (hw : TransGen (W.Passes relays) a b) (hpos : 0 < s.transit a) :
    ∃ es t, Run (step W relays) anyStep s es t ∧ 0 < t.transit b ∧ s.sent b < t.sent b := by
  induction hw with
  | single hp =>
    obtain ⟨t, ht, hpos', hsent, -⟩ := exists_step hp hpos
    exact ⟨_, t, .cons trivial ht (.nil t), hpos', by omega⟩
  | @tail b c _ hp ih =>
    obtain ⟨es, t, hrun, hpos', -⟩ := ih
    obtain ⟨u, hu, hpos'', hsent, -⟩ := exists_step hp hpos'
    have hmono : s.sent c ≤ t.sent c :=
      hrun.invariant (I := fun x => s.sent c ≤ x.sent c) le_rfl fun x e y hx _ hs => by
        rw [(step_eq_some hs).2.1]
        omega
    exact ⟨_, u, hrun.snoc trivial hu, hpos'', by omega⟩

/-- Where the first node relays if any does, nothing is sent twice over a link exactly if there is
no circuit and none of the extra messages is passed on. -/
theorem sent_le_one_iff (hv : ∀ w, relays w → relays v) (hextra : ∀ e, 0 < extra e → W.src e = v) :
    (∀ es t, Run (step W relays) anyStep (start W v extra) es t → ∀ e, t.sent e ≤ 1) ↔
      ¬ W.Circuit relays v ∧ ∀ e e', 0 < extra e → ¬ W.Passes relays e e' := by
  constructor
  · intro h
    refine ⟨?_, fun e e' hpos hp => ?_⟩
    · rintro ⟨e, ⟨f, hf, hfe⟩, hloop⟩
      have hstart : 0 < (start W v extra).transit f := by simp [start, hf]
      have hfirst : ∃ es s, Run (step W relays) anyStep (start W v extra) es s ∧
          0 < s.transit e ∧ 0 < s.sent e := by
        rcases Relation.reflTransGen_iff_eq_or_transGen.mp hfe with rfl | hfe
        · exact ⟨[], _, .nil _, hstart, by simp [start, hf]⟩
        · obtain ⟨es, s, hrun, hpos, hsent⟩ := exists_run hfe hstart
          exact ⟨es, s, hrun, hpos, Nat.zero_lt_of_lt hsent⟩
      obtain ⟨es, s, hrun, hpos, hsent⟩ := hfirst
      obtain ⟨es', t, hrun', -, hlt⟩ := exists_run hloop hpos
      have hle := h _ t (hrun.append hrun') e
      omega
    · -- The extra message and the first one over `e` are delivered in turn.
      have hsrc := hextra e hpos
      have htwo : 2 ≤ (start W v extra).transit e := by simp [start, hsrc]; omega
      obtain ⟨s, hs, -, hsent, -⟩ := exists_step (s := start W v extra) hp (by omega)
      obtain ⟨-, -, hself, -⟩ := step_eq_some hs
      obtain ⟨t, ht, -, hsent', -⟩ := exists_step (s := s) hp (by omega)
      have hle := h _ t (.cons trivial hs (.cons trivial ht (.nil t))) e'
      omega
  · rintro ⟨hn, hx⟩ es t hrun
    have honce : Once W relays v t :=
      hrun.invariant (once_start hn fun e e' hpos => ⟨hextra e hpos, hx e e' hpos⟩)
        fun s e t hs _ hst => hs.step hn hv hst
    exact honce.sent

end Flood

end Wiring
