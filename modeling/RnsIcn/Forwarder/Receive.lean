import RnsIcn.Forwarder.Delivery

/-! # What an arrival resolves

Data answers the entry of its own name, or else that of the longest strict prefix that
asked with `can_be_prefix`. The waiters of that entry get it and the entry goes. No
other waiter and no other entry is touched.
-/

namespace RnsIcn

open Transition Fallible

structure Name.StrictPrefix (m n : Name) : Prop where
  components : m.components <+: n.components
  shorter : m.len < n.len
  unpinned : m.contentHash = none

/-- The entry of the name asked with `can_be_prefix`. -/
def Pit.PrefixPending (p : Pit) (m : Name) : Prop :=
  ∃ entry, p.find m = some entry ∧ entry.interest.canBePrefix = true

/-- The pending name that Data of the unpinned name `n` is matched to, if there is one. -/
inductive Pit.Matches (p : Pit) (n : Name) : Option Name → Prop where

  | exact {entry : PitEntry} : p.find n = some entry → Matches p n (some n)

  | ancestor {m : Name} : p.find n = none → m.StrictPrefix n → p.PrefixPending m →
      (∀ m' : Name, m'.StrictPrefix n → p.PrefixPending m' → m'.len ≤ m.len) →
      Matches p n (some m)

  | none : p.find n = none → (∀ m : Name, m.StrictPrefix n → ¬ p.PrefixPending m) →
      Matches p n none

section Names

variable {p : Pit} {n m : Name} {r r' : Option Name}

theorem Name.strictPrefix_ancestor {i : ℕ} (h : i < n.path.length) :
    (n.ancestor i).StrictPrefix n where
  components := (List.prefix_cons_inj _).mpr (List.take_prefix ..)
  shorter := by
    simp only [len, components, ancestor, List.length_cons, List.length_take]
    omega
  unpinned := rfl

theorem Name.StrictPrefix.eq_ancestor (h : m.StrictPrefix n) :
    ∃ i < n.path.length, m = n.ancestor i := by
  obtain ⟨haddr, hpath⟩ := List.cons_prefix_cons.mp h.components
  have hlen := h.shorter
  simp only [len, Name.components, List.length_cons] at hlen
  refine ⟨m.path.length, Nat.lt_of_succ_lt_succ hlen, ?_⟩
  rw [ancestor, ← haddr, ← List.prefix_iff_eq_take.mp hpath, ← h.unpinned]

theorem Name.len_ancestor {i : ℕ} (h : i < n.path.length) : (n.ancestor i).len = i + 1 := by
  simp only [len, components, ancestor, List.length_cons, List.length_take]
  omega

theorem Pit.prefixPending_iff :
    p.PrefixPending m ↔ (p.find m).any (·.interest.canBePrefix) = true := by
  cases h : p.find m <;> simp [PrefixPending, h]

theorem Forwarder.pendingAncestor_spec {i : ℕ} (h : pendingAncestor p n i = .ok r) :
    (∃ j < i, r = some (n.ancestor j) ∧ p.PrefixPending (n.ancestor j) ∧
      ∀ k < i, p.PrefixPending (n.ancestor k) → k ≤ j) ∨
    r = none ∧ ∀ k < i, ¬ p.PrefixPending (n.ancestor k) := by
  induction i with
  | zero => exact .inr ⟨(Except.ok.inj h).symm, fun k hk => absurd hk (Nat.not_lt_zero k)⟩
  | succ i ih =>
    obtain ⟨candidate, hc, h⟩ := bind_eq_ok.mp h
    obtain rfl : candidate = n.ancestor i := Name.new_eq_ok hc
    split at h
    · rename_i hp
      exact .inl ⟨i, i.lt_succ_self, (Except.ok.inj h).symm, Pit.prefixPending_iff.mpr hp,
        fun k hk _ => Nat.lt_succ_iff.mp hk⟩
    · rename_i hp
      rw [← Pit.prefixPending_iff] at hp
      have hlast {k : ℕ} (hk : k < i + 1) (hpk : p.PrefixPending (n.ancestor k)) : k < i :=
        (Nat.lt_succ_iff_lt_or_eq.mp hk).resolve_right fun he => hp (he ▸ hpk)
      rcases ih h with ⟨j, hj, hr, hpj, hmax⟩ | ⟨hr, hnone⟩
      · exact .inl ⟨j, hj.trans i.lt_succ_self, hr, hpj,
          fun k hk hpk => hmax k (hlast hk hpk) hpk⟩
      · exact .inr ⟨hr, fun k hk hpk => hnone k (hlast hk hpk) hpk⟩

theorem Forwarder.matches_of_answeredName (h : answeredName p n = .ok r) : p.Matches n r := by
  rw [answeredName] at h
  split at h
  · rename_i hf
    obtain rfl := Except.ok.inj h
    obtain ⟨entry, hentry⟩ := Option.isSome_iff_exists.mp hf
    exact .exact hentry
  · rename_i hf
    have hnone := Option.not_isSome_iff_eq_none.mp hf
    rcases pendingAncestor_spec h with ⟨j, hj, rfl, hp, hmax⟩ | ⟨rfl, hno⟩
    · refine .ancestor hnone (Name.strictPrefix_ancestor hj) hp fun m hm hpm => ?_
      obtain ⟨k, hk, rfl⟩ := hm.eq_ancestor
      rw [Name.len_ancestor hk, Name.len_ancestor hj]
      exact Nat.succ_le_succ (hmax k hk hpm)
    · refine .none hnone fun m hm hpm => ?_
      obtain ⟨k, hk, rfl⟩ := hm.eq_ancestor
      exact hno k hk hpm

theorem Name.StrictPrefix.eq_of_len {m' : Name} (h : m.StrictPrefix n) (h' : m'.StrictPrefix n)
    (hlen : m.len = m'.len) : m = m' := by
  obtain ⟨i, hi, rfl⟩ := h.eq_ancestor
  obtain ⟨j, hj, rfl⟩ := h'.eq_ancestor
  rw [len_ancestor hi, len_ancestor hj] at hlen
  rw [Nat.succ.inj hlen]

theorem Pit.Matches.unique (h : p.Matches n r) (h' : p.Matches n r') : r = r' := by
  cases h with
  | exact hf =>
    cases h' with
    | exact _ => rfl
    | ancestor hf' => cases hf.symm.trans hf'
    | none hf' => cases hf.symm.trans hf'
  | ancestor hf hm hp hmax =>
    cases h' with
    | exact hf' => cases hf.symm.trans hf'
    | ancestor _ hm' hp' hmax' =>
      rw [hm.eq_of_len hm' (le_antisymm (hmax' _ hm hp) (hmax _ hm' hp'))]
    | none _ hno => exact absurd hp (hno _ hm)
  | none hf hno =>
    cases h' with
    | exact hf' => cases hf.symm.trans hf'
    | ancestor _ hm hp => exact absurd hp (hno _ hm)
    | none _ _ => rfl

end Names

namespace Forwarder

variable [Hashlib] {s t : Forwarder} {d : Data} {cs : ContentStore} {unsolicited : Bool}
  {r : Option Name}

/-- What an arrival that is matched to `r` makes of `s`, where `cs` has the Data inserted. -/
structure Resolves (s : Forwarder) (d : Data) (unsolicited : Bool) (cs : ContentStore)
    (r : Option Name) (t : Forwarder) : Prop where
  /-- The live waiters of the matched name get the Data. -/
  resolved : ∀ m ∈ r, ∀ fut ∈ s.loop.notifiers.notifiers m,
    s.loop.notifiers.state fut = .pending → t.loop.notifiers.state fut = .done (.data d)
  /-- All other futures are as they were. -/
  others : ∀ fut, (∀ m ∈ r, fut ∈ s.loop.notifiers.notifiers m →
    s.loop.notifiers.state fut ≠ .pending) →
      t.loop.notifiers.state fut = s.loop.notifiers.state fut
  /-- A call that waits is completed exactly if it waits for the matched name. -/
  waiters : ∀ c call fut, s.loop.calls c = some call → call.phase.future = some fut →
    s.loop.notifiers.state fut = .pending →
      (t.loop.notifiers.state fut = .done (.data d) ↔ r = some call.interest.pitName)
  calls : t.loop.calls = s.loop.calls
  lists : ∀ m, t.loop.notifiers.notifiers m =
    if r = some m then [] else s.loop.notifiers.notifiers m
  pit : ∀ m, t.pit.find m = if r = some m then none else s.pit.find m
  store : t.cs = if r.isSome ∨ unsolicited then cs else s.cs

theorem resolves_matched (hs : s.Consistent) {m : Name} {inFace : FaceId}
    (hm : answeredName s.pit d.name.withoutContentHash = .ok (some m))
    (hcs : s.cs.insert d.name d s.time = .ok cs) :
    Resolves s d unsolicited cs (some m) (s.receiveData d inFace unsolicited) := by
  have he : s.receiveData d inFace unsolicited = { s with
      pit := (s.pit.satisfy m).remove m
      cs
      loop := (s.loop.record (.data inFace d)).notify m (.data d) } := by
    simp only [receiveData, hm, notifyWaiters, cacheAnswer, hcs]
  rw [he]
  constructor
  · rintro _ ⟨⟩ fut hfut hp
    exact (if_pos hfut).trans (congrArg (Futures.complete _) hp)
  · intro fut hno
    by_cases hfut : fut ∈ s.loop.notifiers.notifiers m
    · refine (if_pos hfut).trans ?_
      change Futures.complete (.data d) (s.loop.notifiers.state fut) = _
      cases hst : s.loop.notifiers.state fut with
      | pending => exact absurd hst (hno m rfl hfut)
      | done v => rfl
      | cancelled => rfl
    · exact if_neg hfut
  · intro c call fut hc hf hp
    have ho := hs.loop.owned c call fut hc hf
    constructor
    · intro hdone
      by_contra hne
      have hkey : m ≠ call.interest.pitName := fun he => hne (he ▸ rfl)
      have hsame := ho.state_announce_ne hkey (.data d)
      exact absurd ((hsame.trans hp).symm.trans hdone) (by simp)
    · intro hr
      obtain rfl := Option.some.inj hr
      exact ho.state_announce hp _
  · rfl
  · intro m'
    by_cases hm' : m = m'
    · subst hm'
      exact (Function.update_self ..).trans (if_pos rfl).symm
    · rw [if_neg fun h => hm' (Option.some.inj h)]
      exact Function.update_of_ne (Ne.symm hm') _ _
  · intro m'
    by_cases hm' : m = m'
    · subst hm'
      rw [if_pos rfl, Pit.find_remove, if_pos rfl]
    · rw [if_neg fun h => hm' (Option.some.inj h), Pit.find_remove, if_neg (Ne.symm hm'),
        Pit.find_satisfy, if_neg (Ne.symm hm')]
  · exact (if_pos (.inl rfl)).symm

theorem resolves_unmatched {inFace : FaceId}
    (hm : answeredName s.pit d.name.withoutContentHash = .ok none)
    (hcs : s.cs.insert d.name d s.time = .ok cs) :
    Resolves s d unsolicited cs none (s.receiveData d inFace unsolicited) := by
  have hpit := Pit.remove_of_find_eq_none (answeredName_none hm)
  have he : s.receiveData d inFace unsolicited = { s with
      cs := if unsolicited then cs else s.cs
      loop := s.loop.record (.data inFace d) } := by
    cases unsolicited <;> simp [receiveData, hm, cacheAnswer, hcs, hpit]
  rw [he]
  constructor
  · rintro m ⟨⟩
  · exact fun fut _ => rfl
  · intro c call fut hc hf hp
    constructor
    · intro hdone
      cases hp.symm.trans hdone
    · rintro ⟨⟩
  · rfl
  · exact fun m => rfl
  · exact fun m => rfl
  · cases unsolicited <;> rfl

/-- Data that is stored resolves the waiters and the entry of the one name it is matched to, and
it is cached exactly if there is such a name or unsolicited Data is taken. -/
theorem receiveData_resolves {ok : Forwarder → Label → Prop} (hs : Reachable Initial step ok s)
    (haddr : d.name.rnsAddr.length = RNS_ADDR_BYTES)
    (hcs : s.cs.insert d.name d s.time = .ok cs) (inFace : FaceId) (unsolicited : Bool) :
    ∃ r, (∀ r', s.pit.Matches d.name.withoutContentHash r' ↔ r' = r) ∧
      Resolves s d unsolicited cs r (s.receiveData d inFace unsolicited) := by
  obtain ⟨r, hr⟩ := answeredName_isOk s.pit (n := d.name.withoutContentHash) haddr
  have hmatch := matches_of_answeredName hr
  refine ⟨r, fun r' => ⟨fun h => h.unique hmatch, fun h => h ▸ hmatch⟩, ?_⟩
  cases r with
  | none => exact resolves_unmatched hr hcs
  | some m => exact resolves_matched (reachable_consistent hs) hr hcs

end Forwarder

namespace Forwarder

theorem request_resolved : letI := Data.paddedHash
    let s := relayAfter [1] [.express (request 1 1000) 7 [], .sent 0]
    ∃ cs, s.cs.insert relayName answer s.time = .ok cs ∧
      ∃ r, (∀ r', s.pit.Matches relayName r' ↔ r' = r) ∧
        Resolves s answer false cs r (s.receiveData answer 1 false) :=
  letI := Data.paddedHash
  ⟨_, rfl, receiveData_resolves (d := answer)
    ⟨relay [1], [.express (request 1 1000) 7 [], .sent 0], relay_initial [1], run_of_exec rfl⟩
    rfl rfl 1 false⟩

end Forwarder

end RnsIcn
