import RnsIcn.Forwarder.Tables
import RnsIcn.Lib.BoundedDict
import RnsIcn.Lib.Transition

/-! # The bounds of the PIT

The PIT is used through nine calls. It never holds more entries and nonces than it may,
whatever calls are made and whatever the clock shows. An entry that is neither removed
nor purged leaves only to make room for a new name, and it is then the one that expires
first.
-/

namespace RnsIcn

inductive PitOp where
  | inserted | aggregated
  deriving DecidableEq, Repr

namespace Pit

open Transition

/-- `Pit(nonce_ttl, max_entries, max_nonces)` -/
def new (nonceTtl maxEntries maxNonces : ℕ) : Pit := { nonceTtl, maxEntries, maxNonces }

def freshEntry (inFace : FaceId) (i : Interest) (timeoutMs now : ℕ) : PitEntry :=
  { interest := i, inFaces := [inFace], expiresAt := now + timeoutMs }

/-- `insert_or_aggregate` with any timeout, and what it returns. -/
def insertOrAggregateFor (p : Pit) (n : Name) (inFace : FaceId) (i : Interest)
    (timeoutMs now : ℕ) : Pit × PitOp :=
  match p.find n with
  | some entry =>
    if entry.satisfied then
      ({ p with entries := p.entries.set n (freshEntry inFace i timeoutMs now) }, .inserted)
    else if inFace ∈ entry.inFaces then (p, .aggregated)
    else
      ({ p with entries := p.entries.set n { entry with inFaces := entry.inFaces ++ [inFace] } },
        .aggregated)
  | none =>
    let p := if p.maxEntries ≤ p.entries.size then p.evictNearestExpiry else p
    ({ p with entries := p.entries.set n (freshEntry inFace i timeoutMs now) }, .inserted)

theorem insertOrAggregateFor_lifetime (p : Pit) (n : Name) (inFace : FaceId) (i : Interest)
    (now : ℕ) : (p.insertOrAggregateFor n inFace i i.lifetimeMs now).1 =
      p.insertOrAggregate n inFace i now := by
  unfold insertOrAggregateFor insertOrAggregate
  cases p.find n with
  | none => rfl
  | some entry =>
    by_cases hs : entry.satisfied = true
    · simp only [if_pos hs, freshEntry]
    · by_cases hi : inFace ∈ entry.inFaces
      · simp only [if_neg hs, if_pos hi]
      · simp only [if_neg hs, if_neg hi]

/-- The entries that `purge_expired` returns. -/
def expired (p : Pit) (now : ℕ) : List PitEntry :=
  (p.entries.filter fun _ e => e.satisfied || e.expiresAt ≤ now).values

/-- The calls with their arguments. -/
inductive Call where
  | find (n : Name)
  | isFull
  | insertOrAggregate (n : Name) (inFace : FaceId) (i : Interest) (timeoutMs : ℕ)
  | setOutFace (n : Name) (outFace : FaceId)
  | satisfy (n : Name)
  | remove (n : Name)
  | purgeExpired
  | checkLoop (inFace : FaceId) (nonce : Bytes)
  | recordNonce (inFace : FaceId) (nonce : Bytes)

inductive Answer where
  | nothing
  | entry (e : Option PitEntry)
  | truth (b : Bool)
  | op (o : PitOp)
  | faces (inFaces : Option (List FaceId))
  | removed (entries : List PitEntry)

/-- A call at the time `now`. -/
def call (p : Pit) (now : ℕ) : Call → Pit × Answer
  | .find n => (p, .entry (p.find n))
  | .isFull => (p, .truth p.isFull)
  | .insertOrAggregate n inFace i timeoutMs =>
    (p.insertOrAggregateFor n inFace i timeoutMs now).map id .op
  | .setOutFace n outFace => (p.setOutFace n outFace, .nothing)
  | .satisfy n => (p.satisfy n, .faces ((p.find n).map PitEntry.inFaces))
  | .remove n => (p.remove n, .entry (p.find n))
  | .purgeExpired => (p.purgeExpired now, .removed (p.expired now))
  | .checkLoop inFace nonce => (p, .truth (p.checkLoop inFace nonce))
  | .recordNonce inFace nonce => (p.recordNonce inFace nonce now, .nothing)

/-- A step is a call with the time that the clock shows. -/
def step (p : Pit) (c : ℕ × Call) : Option Pit := some (p.call c.1 c.2).1

inductive Touches (p : Pit) : Pit → Prop where
  | refl : Touches p p
  | set {n : Name} {e : PitEntry} (e' : PitEntry) (hfind : p.find n = some e)
      (hexpiry : e'.expiresAt = e.expiresAt) (hfaces : e.inFaces.Nodup → e'.inFaces.Nodup) :
      Touches p { p with entries := p.entries.set n e' }

inductive Changes (p : Pit) (now : ℕ) : Call → Pit → Prop where
  | touch {c : Call} {q : Pit} (h : Touches p q) : Changes p now c q
  | replace {n : Name} {inFace : FaceId} {i : Interest} {timeoutMs : ℕ} {e : PitEntry}
      (hfind : p.find n = some e) (hsatisfied : e.satisfied = true) :
      Changes p now (.insertOrAggregate n inFace i timeoutMs)
        { p with entries := p.entries.set n (freshEntry inFace i timeoutMs now) }
  | insert {n : Name} {inFace : FaceId} {i : Interest} {timeoutMs : ℕ} (hfind : p.find n = none)
      (hroom : p.entries.size < p.maxEntries) :
      Changes p now (.insertOrAggregate n inFace i timeoutMs)
        { p with entries := p.entries.set n (freshEntry inFace i timeoutMs now) }
  | evict {n : Name} {inFace : FaceId} {i : Interest} {timeoutMs : ℕ} (hfind : p.find n = none)
      (hfull : p.maxEntries ≤ p.entries.size) :
      Changes p now (.insertOrAggregate n inFace i timeoutMs)
        { p.evictNearestExpiry with
          entries := p.evictNearestExpiry.entries.set n (freshEntry inFace i timeoutMs now) }
  | remove (n : Name) : Changes p now (.remove n) (p.remove n)
  | purge : Changes p now .purgeExpired (p.purgeExpired now)
  | record (inFace : FaceId) (nonce : Bytes) :
      Changes p now (.recordNonce inFace nonce) (p.recordNonce inFace nonce now)

variable {p q : Pit} {n m : Name} {e : PitEntry} {now : ℕ} {c : Call}

theorem touches_setOutFace (p : Pit) (n : Name) (outFace : FaceId) :
    Touches p (p.setOutFace n outFace) := by
  unfold setOutFace
  split
  · rename_i entry hfind
    exact .set _ hfind rfl id
  · exact .refl

theorem touches_satisfy (p : Pit) (n : Name) : Touches p (p.satisfy n) := by
  unfold satisfy
  split
  · rename_i entry hfind
    exact .set _ hfind rfl id
  · exact .refl

section Insertion

variable (p : Pit) (n : Name) (inFace : FaceId) (i : Interest) (timeoutMs now : ℕ)

/-- A call that aggregates adds its face to the entry, if the face is not among those of it. -/
theorem touches_of_aggregated
    (h : (p.insertOrAggregateFor n inFace i timeoutMs now).2 = .aggregated) :
    Touches p (p.insertOrAggregateFor n inFace i timeoutMs now).1 := by
  unfold insertOrAggregateFor at h ⊢
  cases hfind : p.find n with
  | none =>
    simp only [hfind] at h
    cases h
  | some entry =>
    by_cases hs : entry.satisfied = true
    · simp only [hfind, if_pos hs] at h
      cases h
    · by_cases hi : inFace ∈ entry.inFaces
      · simp only [if_neg hs, if_pos hi]
        exact .refl
      · simp only [if_neg hs, if_neg hi]
        refine .set _ hfind rfl fun hnodup => ?_
        rw [← List.concat_eq_append]
        exact hnodup.concat hi

theorem changes_insertOrAggregateFor : Changes p now (.insertOrAggregate n inFace i timeoutMs)
    (p.insertOrAggregateFor n inFace i timeoutMs now).1 := by
  cases hop : (p.insertOrAggregateFor n inFace i timeoutMs now).2 with
  | aggregated => exact .touch (touches_of_aggregated p n inFace i timeoutMs now hop)
  | inserted =>
    unfold insertOrAggregateFor at hop ⊢
    cases hfind : p.find n with
    | none =>
      by_cases hfull : p.maxEntries ≤ p.entries.size
      · simp only [if_pos hfull]
        exact .evict hfind hfull
      · simp only [if_neg hfull]
        exact .insert hfind (not_le.mp hfull)
    | some entry =>
      by_cases hs : entry.satisfied = true
      · simp only [if_pos hs]
        exact .replace hfind hs
      · by_cases hi : inFace ∈ entry.inFaces
        · simp only [hfind, if_neg hs, if_pos hi] at hop
          cases hop
        · simp only [hfind, if_neg hs, if_neg hi] at hop
          cases hop

end Insertion

theorem changes_call (p : Pit) (now : ℕ) (c : Call) : Changes p now c (p.call now c).1 := by
  cases c with
  | find n => exact .touch .refl
  | isFull => exact .touch .refl
  | insertOrAggregate n inFace i timeoutMs => exact changes_insertOrAggregateFor ..
  | setOutFace n outFace => exact .touch (touches_setOutFace p n outFace)
  | satisfy n => exact .touch (touches_satisfy p n)
  | remove n => exact .remove n
  | purgeExpired => exact .purge
  | checkLoop inFace nonce => exact .touch .refl
  | recordNonce inFace nonce => exact .record inFace nonce

theorem Touches.eq (h : Touches p q) : q = { p with entries := q.entries } := by
  cases h <;> rfl

theorem Touches.size (h : Touches p q) : q.entries.size = p.entries.size := by
  cases h with
  | refl => rfl
  | set e' hfind => exact Dict.size_set_of_get?_eq_some hfind

theorem Touches.expiry (h : Touches p q) (m : Name) :
    (q.find m).map PitEntry.expiresAt = (p.find m).map PitEntry.expiresAt := by
  cases h with
  | refl => rfl
  | @set n e e' hfind hexpiry _ =>
    rw [find, Dict.get?_set]
    split
    · rename_i hm
      rw [hm, hfind, Option.map_some, Option.map_some, hexpiry]
    · rfl

theorem Touches.isSome (h : Touches p q) (m : Name) : (q.find m).isSome = (p.find m).isSome := by
  simpa only [Option.isSome_map] using congrArg Option.isSome (h.expiry m)

/-- The tables within their capacities, and the faces of an entry without repetitions. -/
structure Bounded (maxEntries maxNonces : ℕ) (p : Pit) : Prop where
  capacity : p.maxEntries = maxEntries
  nonceCapacity : p.maxNonces = maxNonces
  entries : p.entries.size ≤ maxEntries
  nonces : p.nonceTracker.size ≤ maxNonces
  faces : ∀ {n : Name} {e : PitEntry}, p.find n = some e → e.inFaces.Nodup

theorem bounded_new (nonceTtl maxEntries maxNonces : ℕ) :
    Bounded maxEntries maxNonces (new nonceTtl maxEntries maxNonces) :=
  ⟨rfl, rfl, Nat.zero_le _, Nat.zero_le _, nofun⟩

theorem entries_evictNearestExpiry (p : Pit) :
    p.evictNearestExpiry.entries = p.entries.dropLowest PitEntry.expiresAt := by
  unfold evictNearestExpiry Dict.dropLowest
  cases p.entries.items.argmin fun e => e.2.expiresAt <;> rfl

theorem exists_victim (h : 0 < p.entries.size) : ∃ victim e,
    p.entries.Lowest PitEntry.expiresAt victim e ∧ p.evictNearestExpiry =
      { p with entries := p.entries.erase victim, evictions := p.evictions + 1 } := by
  have hentries := p.entries_evictNearestExpiry
  obtain ⟨victim, e, hlow, hdrop⟩ := Dict.exists_lowest PitEntry.expiresAt h
  refine ⟨victim, e, hlow, ?_⟩
  rw [← hdrop, ← hentries]
  unfold evictNearestExpiry
  split
  · rename_i hnone
    rw [Dict.size, List.argmin_eq_none.mp hnone] at h
    cases h
  · rfl

theorem boundNonces_eq (p : Pit) : p.boundNonces =
    { p with nonceTracker := p.nonceTracker.makeRoom id p.maxNonces } := by
  unfold boundNonces Dict.makeRoom Dict.dropLowest
  split
  · simp only [id_eq]
    cases p.nonceTracker.items.argmin fun e => e.2 <;> rfl
  · rfl

section Bounds

variable {maxEntries maxNonces : ℕ}

theorem Bounded.write (h : Bounded maxEntries maxNonces p) {n : Name} {e : PitEntry}
    (hsize : (p.entries.set n e).size ≤ maxEntries) (hfaces : e.inFaces.Nodup) :
    Bounded maxEntries maxNonces { p with entries := p.entries.set n e } where
  capacity := h.capacity
  nonceCapacity := h.nonceCapacity
  entries := hsize
  nonces := h.nonces
  faces {m e'} hm := by
    rw [find, Dict.get?_set] at hm
    split at hm
    · obtain rfl := Option.some.inj hm
      exact hfaces
    · exact h.faces hm

theorem Bounded.filter (h : Bounded maxEntries maxNonces p) (f : Name → PitEntry → Bool)
    (g : FaceId × Bytes → ℕ → Bool) : Bounded maxEntries maxNonces { p with
      entries := p.entries.filter f, nonceTracker := p.nonceTracker.filter g } where
  capacity := h.capacity
  nonceCapacity := h.nonceCapacity
  entries := (Dict.size_filter_le f p.entries).trans h.entries
  nonces := (Dict.size_filter_le g p.nonceTracker).trans h.nonces
  faces {m e'} hm := by
    rw [find, Dict.get?_filter, Option.filter_eq_some_iff] at hm
    exact h.faces hm.1

theorem Bounded.remove (h : Bounded maxEntries maxNonces p) (n : Name) :
    Bounded maxEntries maxNonces (p.remove n) where
  capacity := h.capacity
  nonceCapacity := h.nonceCapacity
  entries := (Dict.size_filter_le _ p.entries).trans h.entries
  nonces := h.nonces
  faces {m e'} hm := by
    rw [find_remove] at hm
    split at hm
    · cases hm
    · exact h.faces hm

theorem Bounded.recordNonce (h : Bounded maxEntries maxNonces p) (hn : 0 < maxNonces)
    (inFace : FaceId) (nonce : Bytes) (now : ℕ) :
    Bounded maxEntries maxNonces (p.recordNonce inFace nonce now) := by
  have hnonces : p.nonceTracker.size ≤ p.maxNonces := h.nonceCapacity ▸ h.nonces
  unfold Pit.recordNonce
  rw [boundNonces_eq]
  refine ⟨h.capacity, h.nonceCapacity, h.entries, ?_, h.faces⟩
  rw [← h.nonceCapacity] at hn ⊢
  exact Dict.size_set_makeRoom_le hn hnonces _ _

theorem Bounded.changes (h : Bounded maxEntries maxNonces p) (he : 0 < maxEntries)
    (hn : 0 < maxNonces) (hc : Changes p now c q) : Bounded maxEntries maxNonces q := by
  have hsize := h.entries
  have hcap := h.capacity
  cases hc with
  | touch ht =>
    cases ht with
    | refl => exact h
    | set e' hfind _ hfaces =>
      refine h.write ?_ (hfaces (h.faces hfind))
      rwa [Dict.size_set_of_get?_eq_some hfind]
  | replace hfind _ =>
    refine h.write ?_ (List.nodup_singleton _)
    rwa [Dict.size_set_of_get?_eq_some hfind]
  | insert hfind hroom =>
    refine h.write ?_ (List.nodup_singleton _)
    rw [Dict.size_set_of_get?_eq_none hfind]
    omega
  | @evict n inFace i timeoutMs hfind hfull =>
    obtain ⟨victim, e, hlow, heq⟩ := exists_victim (p := p) (by omega)
    have herase := Dict.size_erase_of_get?_eq_some hlow.get?
    have hroom (x : PitEntry) : ((p.entries.erase victim).set n x).size ≤ maxEntries :=
      (Dict.size_set_le _ n x).trans (herase.le.trans hsize)
    have hwritten := (h.remove victim).write (hroom (freshEntry inFace i timeoutMs now))
      (List.nodup_singleton inFace)
    rw [heq]
    exact ⟨h.capacity, h.nonceCapacity, hroom _, h.nonces, hwritten.faces⟩
  | remove n => exact h.remove n
  | purge => exact h.filter _ _
  | record inFace nonce => exact h.recordNonce hn inFace nonce now

end Bounds

theorem find_purgeExpired_iff : (p.purgeExpired now).find m = some e ↔
    p.find m = some e ∧ ¬ (e.satisfied = true ∨ e.expiresAt ≤ now) := by
  rw [find, purgeExpired, Dict.get?_filter, Option.filter_eq_some_iff, ← find, not_or]
  simp

theorem exists_evicted (n : Name) (x : PitEntry) (hsize : 0 < p.entries.size) :
    ∃ victim e, p.entries.Lowest PitEntry.expiresAt victim e ∧
      p.evictNearestExpiry.evictions = p.evictions + 1 ∧
      ∀ m, (p.evictNearestExpiry.entries.set n x).get? m =
        if m = n then some x else if m = victim then none else p.find m := by
  obtain ⟨victim, e, hlow, heq⟩ := exists_victim hsize
  refine ⟨victim, e, hlow, by rw [heq], fun m => ?_⟩
  rw [heq, Dict.get?_set, Dict.get?_erase]
  rfl

/-- An entry of `m` that a call takes from the table and does not put back. -/
def Leaves (p q : Pit) (m : Name) (e : PitEntry) : Prop := p.find m = some e ∧ q.find m = none

theorem not_leaves_of_isSome (h : ∀ m, (p.find m).isSome → (q.find m).isSome) :
    ¬ Leaves p q m e := by
  rintro ⟨hp, hq⟩
  have hm := h m (by rw [hp]; rfl)
  rw [hq] at hm
  cases hm

theorem isSome_find_set {q : Pit} (hq : q.entries = p.entries.set n e)
    (h : (p.find m).isSome) : (q.find m).isSome := by
  rw [find, hq, Dict.get?_set]
  split
  · rfl
  · exact h

theorem Changes.leaves (h : Changes p now c q) (hl : Leaves p q m e) :
    c = .remove m ∨ (c = .purgeExpired ∧ (e.satisfied = true ∨ e.expiresAt ≤ now)) ∨
      ∃ n inFace i timeoutMs, c = .insertOrAggregate n inFace i timeoutMs ∧ p.find n = none ∧
        p.maxEntries ≤ p.entries.size ∧ p.entries.Lowest PitEntry.expiresAt m e := by
  obtain ⟨hp, hq⟩ := hl
  cases h with
  | touch ht =>
    have hsome := ht.isSome m
    rw [hp, hq] at hsome
    cases hsome
  | replace hfind _ =>
    exact absurd ⟨hp, hq⟩ (not_leaves_of_isSome fun _ => isSome_find_set rfl)
  | insert hfind hroom =>
    exact absurd ⟨hp, hq⟩ (not_leaves_of_isSome fun _ => isSome_find_set rfl)
  | @evict n inFace i timeoutMs hfind hfull =>
    have hsize := Dict.size_pos_of_get?_eq_some hp
    obtain ⟨victim, e', hlow, -, hget⟩ :=
      exists_evicted n (freshEntry inFace i timeoutMs now) hsize
    have hm := (hget m).symm.trans hq
    split at hm
    · cases hm
    · split at hm
      · rename_i hvictim
        subst hvictim
        obtain rfl : e = e' := Option.some.inj (hp.symm.trans hlow.get?)
        exact .inr (.inr ⟨n, inFace, i, timeoutMs, rfl, hfind, hfull, hlow⟩)
      · rw [hp] at hm
        cases hm
  | remove n =>
    rw [find_remove] at hq
    split at hq
    · rename_i hm
      exact .inl (hm ▸ rfl)
    · rw [hp] at hq
      cases hq
  | purge =>
    refine .inr (.inl ⟨rfl, ?_⟩)
    by_contra hkeep
    rw [find_purgeExpired_iff.mpr ⟨hp, hkeep⟩] at hq
    cases hq
  | record inFace nonce =>
    rw [find_recordNonce, hp] at hq
    cases hq

theorem exists_leaves_call (inFace : FaceId) (i : Interest) (timeoutMs : ℕ)
    (hfind : p.find n = none) (hfull : p.maxEntries ≤ p.entries.size) (hsize : 0 < p.entries.size) :
    ∃ victim e, ∀ m e', Leaves p (p.call now (.insertOrAggregate n inFace i timeoutMs)).1 m e' ↔
      m = victim ∧ e' = e := by
  have hcall : (p.call now (.insertOrAggregate n inFace i timeoutMs)).1 =
      { p.evictNearestExpiry with
        entries := p.evictNearestExpiry.entries.set n (freshEntry inFace i timeoutMs now) } := by
    unfold call insertOrAggregateFor
    simp only [hfind, if_pos hfull, Prod.map, id_eq]
  obtain ⟨victim, e, hlow, -, hget⟩ :=
    exists_evicted n (freshEntry inFace i timeoutMs now) hsize
  have hvictim : victim ≠ n := by
    rintro rfl
    cases hfind.symm.trans hlow.get?
  refine ⟨victim, e, fun m e' => ?_⟩
  rw [hcall, Leaves]
  constructor
  · rintro ⟨hp, hq⟩
    have hm := (hget m).symm.trans hq
    split at hm
    · cases hm
    · split at hm
      · rename_i hv
        subst hv
        exact ⟨rfl, Option.some.inj (hp.symm.trans hlow.get?)⟩
      · cases hp.symm.trans hm
  · rintro ⟨rfl, rfl⟩
    refine ⟨hlow.get?, (hget m).trans ?_⟩
    rw [if_neg hvictim, if_pos rfl]

def Call.isInsertion : Call → Bool
  | .insertOrAggregate .. => true
  | _ => false

/-- The steps that insert a name and take the entry of another one from the table. -/
def evicts (s : Pit × (ℕ × Call) × Pit) : Bool :=
  s.2.1.2.isInsertion && s.1.entries.keys.any fun m => (s.2.2.find m).isNone

theorem evicts_iff : evicts (p, (now, c), q) = true ↔
    c.isInsertion = true ∧ ∃ m e, Leaves p q m e := by
  rw [evicts, Bool.and_eq_true, List.any_eq_true]
  refine and_congr_right fun _ => ?_
  constructor
  · rintro ⟨m, hm, hnone⟩
    obtain ⟨e, he⟩ := Dict.mem_keys.mp hm
    exact ⟨m, e, he, Option.isNone_iff_eq_none.mp hnone⟩
  · rintro ⟨m, e, he, hnone⟩
    exact ⟨m, Dict.mem_keys.mpr ⟨e, he⟩, Option.isNone_iff_eq_none.mpr hnone⟩

theorem Changes.evictions (h : Changes p now c q) (hpos : 0 < p.maxEntries) :
    q.evictions = p.evictions + (evicts (p, (now, c), q)).toNat := by
  have hnone (he : q.evictions = p.evictions)
      (hc : ¬ (c.isInsertion = true ∧ ∃ m e, Leaves p q m e)) :
      q.evictions = p.evictions + (evicts (p, (now, c), q)).toNat := by
    rw [← evicts_iff, Bool.not_eq_true] at hc
    rw [hc, he]
    rfl
  cases h with
  | touch ht =>
    refine hnone (by rw [ht.eq]) ?_
    rintro ⟨-, m, e, hl⟩
    exact not_leaves_of_isSome (fun m hm => (ht.isSome m).trans hm) hl
  | replace hfind _ =>
    refine hnone rfl ?_
    rintro ⟨-, m, e, hl⟩
    exact not_leaves_of_isSome (fun _ => isSome_find_set rfl) hl
  | insert hfind hroom =>
    refine hnone rfl ?_
    rintro ⟨-, m, e, hl⟩
    exact not_leaves_of_isSome (fun _ => isSome_find_set rfl) hl
  | @evict n inFace i timeoutMs hfind hfull =>
    obtain ⟨victim, e, hlow, hcount, hget⟩ :=
      exists_evicted n (freshEntry inFace i timeoutMs now) (hpos.trans_le hfull)
    have hvictim : victim ≠ n := by
      rintro rfl
      cases hfind.symm.trans hlow.get?
    rw [evicts_iff.mpr ⟨rfl, victim, e, hlow.get?, ?_⟩]
    · exact hcount
    · exact (hget victim).trans (by rw [if_neg hvictim, if_pos rfl])
  | remove n => exact hnone rfl fun hc => Bool.false_ne_true hc.1
  | purge => exact hnone rfl fun hc => Bool.false_ne_true hc.1
  | record inFace nonce =>
    refine hnone ?_ fun hc => Bool.false_ne_true hc.1
    unfold Pit.recordNonce
    rw [boundNonces_eq]

/-- What a call does to the entries and nonces that are in the tables. -/
structure Accounts (p : Pit) (now : ℕ) (c : Call) (q : Pit) : Prop where
  leaves : ∀ m e, Leaves p q m e →
    c = .remove m ∨ (c = .purgeExpired ∧ (e.satisfied = true ∨ e.expiresAt ≤ now)) ∨
      ∃ n inFace i timeoutMs, c = .insertOrAggregate n inFace i timeoutMs ∧ p.find n = none ∧
        p.entries.size = p.maxEntries ∧ p.entries.Lowest PitEntry.expiresAt m e
  evicts : ∀ n inFace i timeoutMs, c = .insertOrAggregate n inFace i timeoutMs →
    p.find n = none → p.entries.size = p.maxEntries →
      ∃ victim e, ∀ m e', Leaves p q m e' ↔ m = victim ∧ e' = e
  aggregates : (p.call now c).2 = .op .aggregated → q.entries.size = p.entries.size ∧
    ∀ m, (q.find m).map PitEntry.expiresAt = (p.find m).map PitEntry.expiresAt
  purges : c = .purgeExpired →
    (∀ m e, q.find m = some e ↔ p.find m = some e ∧ ¬ (e.satisfied = true ∨ e.expiresAt ≤ now)) ∧
    (∀ e, e ∈ p.expired now ↔ ∃ m, p.find m = some e ∧ (e.satisfied = true ∨ e.expiresAt ≤ now)) ∧
    ∀ k t, q.nonceTracker.get? k = some t ↔ p.nonceTracker.get? k = some t ∧ ¬ t ≤ now

theorem mem_expired_iff : e ∈ p.expired now ↔
    ∃ m, p.find m = some e ∧ (e.satisfied = true ∨ e.expiresAt ≤ now) := by
  rw [expired, Dict.mem_values]
  simp only [Dict.get?_filter, Option.filter_eq_some_iff, Bool.or_eq_true, decide_eq_true_eq]
  rfl

theorem touches_of_answer (h : (p.call now c).2 = .op .aggregated) :
    Touches p (p.call now c).1 := by
  cases c with
  | insertOrAggregate n inFace i timeoutMs =>
    refine touches_of_aggregated p n inFace i timeoutMs now ?_
    exact Answer.op.inj h
  | _ => cases h

section Runs

variable {maxEntries maxNonces : ℕ} {calls : List (ℕ × Call)}

theorem Bounded.accounts (h : Bounded maxEntries maxNonces p) (he : 0 < maxEntries) (now : ℕ)
    (c : Call) : Accounts p now c (p.call now c).1 where
  leaves m e hl := by
    have hfits : p.entries.size ≤ p.maxEntries := h.capacity ▸ h.entries
    rcases (changes_call p now c).leaves hl with hr | hp | ⟨n, f, i, t, rfl, hfind, hfull, hlow⟩
    · exact .inl hr
    · exact .inr (.inl hp)
    · exact .inr (.inr ⟨n, f, i, t, rfl, hfind, le_antisymm hfits hfull, hlow⟩)
  evicts := by
    rintro n inFace i timeoutMs rfl hfind hfull
    have hcap := h.capacity
    exact exists_leaves_call inFace i timeoutMs hfind hfull.ge (by omega)
  aggregates ha := ⟨(touches_of_answer ha).size, (touches_of_answer ha).expiry⟩
  purges := by
    rintro rfl
    refine ⟨fun _ _ => find_purgeExpired_iff, fun _ => mem_expired_iff, fun k t => ?_⟩
    change (p.nonceTracker.filter _).get? k = some t ↔ _
    rw [Dict.get?_filter, Option.filter_eq_some_iff, decide_eq_true_eq, not_le]

theorem Bounded.step (h : Bounded maxEntries maxNonces p) (he : 0 < maxEntries)
    (hn : 0 < maxNonces) {l : ℕ × Call} (hs : step p l = some q) :
    Bounded maxEntries maxNonces q := by
  obtain rfl := Option.some.inj hs
  exact h.changes he hn (changes_call p l.1 l.2)

theorem exists_exec (p : Pit) (calls : List (ℕ × Call)) : ∃ q, exec step p calls = some q := by
  induction calls generalizing p with
  | nil => exact ⟨p, rfl⟩
  | cons l calls ih => exact ih _

theorem evictions_of_run (h : Run step anyStep p calls q) (hb : Bounded maxEntries maxNonces p)
    (he : 0 < maxEntries) (hn : 0 < maxNonces) :
    q.evictions = p.evictions + (trace step p calls).countP evicts := by
  induction h with
  | nil => rfl
  | @cons p r q l calls _ hs _ ih =>
    have hpos : 0 < p.maxEntries := hb.capacity ▸ he
    have hcount : r.evictions = p.evictions + (evicts (p, l, r)).toNat := by
      obtain rfl := Option.some.inj hs
      exact (changes_call p l.1 l.2).evictions hpos
    rw [ih (hb.step he hn hs), hcount, trace_cons hs, List.countP_cons]
    cases evicts (p, l, r) with
    | true =>
      change p.evictions + 1 + _ = p.evictions + (_ + 1)
      omega
    | false => rfl

/-- Through any sequence of calls, whatever times the clock shows, the tables stay within their
capacities, the evictions are counted, and nothing leaves them for another reason. -/
theorem bounds_kept {maxEntries maxNonces : ℕ} (he : 1 ≤ maxEntries) (hn : 1 ≤ maxNonces)
    (nonceTtl : ℕ) (calls : List (ℕ × Call)) :
    ∃ q, exec step (new nonceTtl maxEntries maxNonces) calls = some q ∧
      Bounded maxEntries maxNonces q ∧
      q.evictions = (trace step (new nonceTtl maxEntries maxNonces) calls).countP evicts ∧
      ∀ s ∈ trace step (new nonceTtl maxEntries maxNonces) calls,
        Bounded maxEntries maxNonces s.2.2 ∧ Accounts s.1 s.2.1.1 s.2.1.2 s.2.2 := by
  have hnew := bounded_new nonceTtl maxEntries maxNonces
  obtain ⟨q, hq⟩ := exists_exec (new nonceTtl maxEntries maxNonces) calls
  have hrun := run_of_exec hq
  have hkept := hrun.trace_invariant hnew fun _ _ _ hb _ hs => hb.step he hn hs
  refine ⟨q, hq, hrun.invariant hnew fun _ _ _ hb _ hs => hb.step he hn hs, ?_, fun s hs => ?_⟩
  · rw [evictions_of_run hrun hnew he hn]
    exact Nat.zero_add _
  · obtain ⟨-, hstep⟩ := hrun.of_mem_trace hs
    have hnext := Option.some.inj hstep
    rw [← hnext]
    refine ⟨hnext ▸ (hkept s hs).2, (hkept s hs).1.accounts he _ _⟩

end Runs

/-- Three names are inserted into a PIT for two, the second one with a short timeout. -/
def threeNames : List (ℕ × Call) :=
  let name (label : UInt8) : Name := ⟨List.replicate 16 0x01, [[label]], none⟩
  let insert (label : UInt8) (timeoutMs : ℕ) : Call :=
    .insertOrAggregate (name label) 1 { name := name label, nonce := List.replicate 8 0 } timeoutMs
  [(0, insert 0x61 10000), (1, insert 0x62 50), (2, insert 0x63 10000)]

theorem threeNames_evict_one : ∃ q, exec step (new 60000 2 3) threeNames = some q ∧
    q.entries.size ≤ 2 ∧ q.evictions = 1 := by
  obtain ⟨q, hq, hb, hcount, -⟩ :=
    @bounds_kept 2 3 (by decide) (by decide) 60000 threeNames
  refine ⟨q, hq, hb.entries, hcount.trans ?_⟩
  decide +kernel

end Pit

end RnsIcn
