import Mathlib.Order.Lattice.Nat
import RnsIcn.Lib.Gossip
import RnsIcn.Network.Peering
import RnsIcn.Server.Silent

/-! # Invalidations reach everyone

Servers pass invalidations on over their links, as they receive or originate them. Packets may be
lost on the way, repeated and reordered, but once every invalidation that was sent over a link has
arrived there, all servers that links join have recorded the same epochs.
-/

namespace RnsIcn

open Transition Relation

namespace Server

variable [Hashlib] {s t : Server} {v : Invalidate} {exclude : Option FaceId} {key : Bytes}

omit [Hashlib] in
def lastEpoch (s : Server) (key : Bytes) : WithBot ℕ :=
  (s.seenInvalidations.get? key).elim ⊥ fun epoch => epoch

omit [Hashlib] in
theorem get?_eq_of_lastEpoch (h : s.lastEpoch key = t.lastEpoch key) :
    s.seenInvalidations.get? key = t.seenInvalidations.get? key := by
  unfold lastEpoch at h
  cases hs : s.seenInvalidations.get? key <;> cases ht : t.seenInvalidations.get? key <;>
    simp_all

theorem isFresh_iff_lastEpoch (hk : ContentStore.nameHash v.name = .ok key) :
    s.isFresh v = true ↔ s.lastEpoch key < v.epoch := by
  rw [isFresh_iff, lastEpoch]
  constructor
  · rintro ⟨key', hk', hlt⟩
    obtain rfl := Except.ok.inj (hk.symm.trans hk')
    cases he : s.seenInvalidations.get? key with
    | none => exact WithBot.bot_lt_coe _
    | some epoch => exact WithBot.coe_lt_coe.mpr (hlt epoch he)
  · intro hlt
    refine ⟨key, hk, fun epoch he => ?_⟩
    rw [Option.mem_def.mp he] at hlt
    exact WithBot.coe_lt_coe.mp hlt

/-- Spreading an invalidation records its epoch, unless a higher one is recorded. -/
theorem Spreads.lastEpoch_eq (h : Spreads v exclude s t)
    (hk : ContentStore.nameHash v.name = .ok key) :
    t.lastEpoch key = max (s.lastEpoch key) v.epoch := by
  obtain ⟨key', hk', hseen⟩ := h.seen
  obtain rfl := Except.ok.inj (hk.symm.trans hk')
  by_cases hf : s.isFresh v = true
  · rw [if_pos hf] at hseen
    rw [max_eq_right ((isFresh_iff_lastEpoch hk).mp hf).le, lastEpoch, hseen, Dict.get?_set_self]
    rfl
  · rw [if_neg hf] at hseen
    rw [max_eq_left (not_lt.mp fun hlt => hf ((isFresh_iff_lastEpoch hk).mpr hlt)), lastEpoch,
      hseen]
    rfl

theorem Spreads.lastEpoch_ne (h : Spreads v exclude s t)
    (hk : ContentStore.nameHash v.name ≠ .ok key) : t.lastEpoch key = s.lastEpoch key := by
  obtain ⟨key', hk', hseen⟩ := h.seen
  have hne : key ≠ key' := fun he => hk (he ▸ hk')
  rw [lastEpoch, hseen, lastEpoch]
  split
  · rw [Dict.get?_set_ne _ _ hne]
  · rfl

end Server

namespace Network

open Server

section

variable {ι : Type} {D : Type*} [DecidableEq ι] {P : Peering ι D} {N M : ι → Server} {e : ι × Label}
  {ls : List (ι × Label)} {accepts : Invalidate → Bool} {d : D} {v : Invalidate} {key : Bytes}
  {i j : ι}

/-- The invalidation that an event delivers over a link. -/
def crosses (P : Peering ι D) (d : D) : ι × Label → Option Invalidate
  | (j, .incoming face raw _) =>
    if j = P.dst d ∧ face = P.face (P.rev d) then
      match parsePacket raw with
      | .ok (.invalidate v) => some v
      | _ => none
    else none
  | _ => none

theorem crosses_eq_some (h : crosses P d e = some v) : ∃ raw drawn,
    e = (P.dst d, .incoming (P.face (P.rev d)) raw drawn) ∧
      parsePacket raw = .ok (.invalidate v) := by
  obtain ⟨j, l⟩ := e
  cases l with
  | incoming face raw drawn =>
    rw [crosses] at h
    split at h
    · rename_i hat
      obtain ⟨rfl, rfl⟩ := hat
      split at h
      · rename_i w hw
        obtain rfl := Option.some.inj h
        exact ⟨raw, drawn, rfl, hw⟩
      · cases h
    · cases h
  | _ => cases h

omit [DecidableEq ι] in
/-- A face is the near end of at most one link, the one that what arrives at it came over. -/
theorem exists_link (P : Peering ι D) (i : ι) (face : Option FaceId) : ∃ link : Option D,
    (∀ d ∈ link, P.dst d = i ∧ face = some (P.face (P.rev d))) ∧
      ∀ d, P.src d = i → (some (P.face d) ≠ face ↔ ∀ d' ∈ link, d ≠ P.rev d') := by
  by_cases h : ∃ d, P.dst d = i ∧ face = some (P.face (P.rev d))
  · obtain ⟨link, hdst, hface⟩ := h
    refine ⟨some link, fun d hd => ?_, fun d hd => ?_⟩
    · obtain rfl := Option.some.inj hd
      exact ⟨hdst, hface⟩
    · rw [hface, Ne, Option.some_inj]
      constructor
      · rintro hne d' hd' rfl
        obtain rfl := Option.some.inj hd'
        exact hne rfl
      · exact fun hall he => hall link rfl (P.face_inj _ _ (hd.trans hdst.symm) he)
  · refine ⟨none, (fun d hd => by cases hd), fun d hd => ?_⟩
    refine iff_of_true (fun hface => h ⟨P.rev d, ?_, ?_⟩) fun d' hd' => by cases hd'
    · exact (P.dst_rev d).trans hd
    · rw [P.rev_rev]
      exact hface.symm

variable [Hashlib]

/-- The epochs of the invalidations with the key: the highest that each server has recorded, and
those that it has sent over its links. -/
def epochs (P : Peering ι D) (key : Bytes) (N : ι → Server) : Gossip ι D ℕ where
  known i := (N i).lastEpoch key
  sent d := {epoch | ∃ v, ContentStore.nameHash v.name = .ok key ∧ v.epoch = epoch ∧
    (P.face d, .invalidate v) ∈ (N (P.src d)).sent}

/-- The links are there, what arrives over a link was sent over it, and what a server originates
can be sent and is accepted. -/
structure Linked (P : Peering ι D) (accepts : Invalidate → Bool) (N : ι → Server)
    (e : ι × Label) : Prop where
  links : ∀ d, P.face d ∈ (N (P.src d)).faces
  arrives : ∀ d v, crosses P d e = some v → (P.face d, .invalidate v) ∈ (N (P.src d)).sent
  own : ∀ v, (N e.1).originated e.2 = some v → accepts v = true ∧ ∃ raw, v.toBytes = .ok raw

omit [DecidableEq ι] in
theorem epochs_eq (hknown : ∀ i, (M i).lastEpoch key = (N i).lastEpoch key)
    (hsent : ∀ i face v, ContentStore.nameHash v.name = .ok key →
      ((face, .invalidate v) ∈ (M i).sent ↔ (face, .invalidate v) ∈ (N i).sent)) :
    epochs P key M = epochs P key N := by
  simp only [epochs, hknown, Gossip.mk.injEq, true_and]
  refine funext fun d => Set.ext fun epoch => exists_congr fun v => ?_
  exact and_congr_right fun hk => and_congr_right fun _ => hsent _ _ v hk

structure Gossiping (P : Peering ι D) (accepts : Invalidate → Bool) (N : ι → Server) : Prop where
  verifier : ∀ i, (N i).invalidationVerifier = some accepts
  accepted : ∀ i face v, (face, .invalidate v) ∈ (N i).sent → accepts v = true
  backed : ∀ key, (epochs P key N).Backed P.toWiring

/-- What a step does with invalidations: nothing, or one server spreads an accepted one. -/
theorem step_spreads (h : Gossiping P accepts N) (hok : Linked P accepts N e)
    (hs : family Server.step N e = some M) :
    ((∀ i, (M i).seenInvalidations = (N i).seenInvalidations) ∧ ∀ i face v,
        ((face, .invalidate v) ∈ (M i).sent ↔ (face, .invalidate v) ∈ (N i).sent)) ∨
      ∃ v exclude, accepts v = true ∧ Spreads v exclude (N e.1) (M e.1) ∧
        ∀ face, exclude = some face → ∃ raw drawn, e.2 = .incoming face raw drawn ∧
          parsePacket raw = .ok (.invalidate v) := by
  obtain ⟨hst, hne⟩ := family_eq_some hs
  have hquiet (hseen : (M e.1).seenInvalidations = (N e.1).seenInvalidations)
      (hsent : ∀ face v, (face, .invalidate v) ∈ (M e.1).sent ↔
        (face, .invalidate v) ∈ (N e.1).sent) :
      (∀ i, (M i).seenInvalidations = (N i).seenInvalidations) ∧ ∀ i face v,
        ((face, .invalidate v) ∈ (M i).sent ↔ (face, .invalidate v) ∈ (N i).sent) := by
    constructor
    · intro i
      by_cases hi : i = e.1
      · exact hi ▸ hseen
      · rw [hne i hi]
    · intro i face v
      by_cases hi : i = e.1
      · exact hi ▸ hsent face v
      · rw [hne i hi]
  cases hc : (N e.1).considered e.2 with
  | none =>
    obtain ⟨hseen, hsent⟩ := step_silent hc hst
    exact .inl (hquiet hseen hsent)
  | some v =>
    obtain ⟨i, l⟩ := e
    cases l with
    | incoming face raw drawn =>
      simp only [considered] at hc
      split at hc
      · rename_i w hw
        split at hc
        · rename_i hv
          obtain rfl := Option.some.inj hc
          have hreceived := step_received hw hv hst
          split at hreceived
          · refine .inr ⟨w, some face, ?_, hreceived, ?_⟩
            · rwa [h.verifier, Option.any_some] at hv
            · rintro _ ⟨⟩
              exact ⟨raw, drawn, rfl, hw⟩
          · have hM : M i = N i := hreceived
            exact .inl (hquiet (by rw [hM]) fun _ _ => by rw [hM])
        · cases hc
      · cases hc
    | invalidate n byPrefix =>
      have horiginated : (N i).originated (.invalidate n byPrefix) = some v := hc
      obtain ⟨haccepts, raw, hraw⟩ := hok.own v horiginated
      exact .inr ⟨v, none, haccepts, originated_spreads horiginated hraw hst, fun _ h => by cases h⟩
    | _ => cases hc

/-- Spreading an invalidation is gossip: the server hears of its epoch, over the link that it came
over, if it came over one. -/
theorem Linked.tells (hok : Linked P accepts N e) {exclude : Option FaceId}
    (hspreads : Spreads v exclude (N e.1) (M e.1)) (hne : ∀ i ≠ e.1, M i = N i)
    (hcame : ∀ face, exclude = some face → ∃ raw drawn, e.2 = .incoming face raw drawn ∧
      parsePacket raw = .ok (.invalidate v)) (hk : ContentStore.nameHash v.name = .ok key) :
    ∃ link, Gossip.Tells P.toWiring e.1 v.epoch link (epochs P key N) (epochs P key M) := by
  obtain ⟨link, hlink, hexclude⟩ := exists_link P e.1 exclude
  refine ⟨link, fun d hd => ?_, funext fun i => ?_, fun d epoch => ?_⟩
  · obtain ⟨hdst, hface⟩ := hlink d hd
    obtain ⟨raw, drawn, hl, hp⟩ := hcame _ hface
    refine ⟨hdst, v, hk, rfl, hok.arrives d v ?_⟩
    have he : e = (P.dst d, .incoming (P.face (P.rev d)) raw drawn) := Prod.ext hdst.symm hl
    rw [he, Network.crosses, if_pos ⟨rfl, rfl⟩, hp]
  · rw [Function.update_apply]
    split
    · rename_i hi
      exact hi ▸ hspreads.lastEpoch_eq hk
    · rename_i hi
      change (M i).lastEpoch key = _
      rw [hne i hi]
      rfl
  · by_cases hd : P.src d = e.1
    · simp only [epochs, Set.mem_ofPred_eq, hd, hspreads.sent, ← hexclude d hd]
      have hface : P.face d ∈ (N e.1).faces := hd ▸ hok.links d
      constructor
      · rintro ⟨w, hw, rfl, hsent | ⟨hwv, -, hother⟩⟩
        · exact .inl ⟨w, hw, rfl, hsent⟩
        · cases hwv
          exact .inr ⟨rfl, trivial, hother⟩
      · rintro (⟨w, hw, rfl, hsent⟩ | ⟨rfl, -, hother⟩)
        · exact ⟨w, hw, rfl, .inl hsent⟩
        · exact ⟨v, hk, rfl, .inr ⟨rfl, hface, hother⟩⟩
    · simp only [epochs, Set.mem_ofPred_eq, hne _ hd, hd, false_and, and_false, or_false]

/-- For the epochs under a key, a step of the network is a step of the gossip or nothing. -/
theorem epochs_step (h : Gossiping P accepts N) (hok : Linked P accepts N e)
    (hs : family Server.step N e = some M) (key : Bytes) :
    epochs P key M = epochs P key N ∨ ∃ epoch link,
      Gossip.Tells P.toWiring e.1 epoch link (epochs P key N) (epochs P key M) := by
  have hne := (family_eq_some hs).2
  rcases step_spreads h hok hs with ⟨hseen, hsent⟩ | ⟨v, exclude, -, hspreads, hcame⟩
  · refine .inl (epochs_eq (fun i => ?_) fun i face v _ => hsent i face v)
    rw [lastEpoch, hseen i, lastEpoch]
  · by_cases hk : ContentStore.nameHash v.name = .ok key
    · obtain ⟨link, htells⟩ := hok.tells hspreads hne hcame hk
      exact .inr ⟨v.epoch, link, htells⟩
    · refine .inl (epochs_eq (fun i => ?_) fun i face w hw => ?_)
      · by_cases hi : i = e.1
        · exact hi ▸ hspreads.lastEpoch_ne hk
        · rw [hne i hi]
      · by_cases hi : i = e.1
        · subst hi
          rw [hspreads.sent]
          refine or_iff_left fun hnew => hk ?_
          rw [← Packet.invalidate.inj hnew.1, hw]
        · rw [hne i hi]

theorem lastEpoch_le (h : Gossiping P accepts N) (hok : Linked P accepts N e)
    (hs : family Server.step N e = some M) (i : ι) (key : Bytes) :
    (N i).lastEpoch key ≤ (M i).lastEpoch key := by
  rcases epochs_step h hok hs key with hsame | ⟨epoch, link, htells⟩
  · exact (congrFun (congrArg Gossip.known hsame) i).ge
  · exact htells.known_le i

theorem Gossiping.step (h : Gossiping P accepts N) (hok : Linked P accepts N e)
    (hs : family Server.step N e = some M) : Gossiping P accepts M where
  verifier i := (verifier_stable _).family (fun _ _ _ _ h => h) (fun _ _ h _ _ _ => h) hs
    (h.verifier i)
  accepted i face v hv := by
    rcases step_spreads h hok hs with ⟨-, hsent⟩ | ⟨w, exclude, haccepts, hspreads, -⟩
    · exact h.accepted i face v ((hsent i face v).mp hv)
    · by_cases hi : i = e.1
      · subst hi
        rcases (hspreads.sent face _).mp hv with hv | ⟨hv, -⟩
        · exact h.accepted _ face v hv
        · exact Packet.invalidate.inj hv ▸ haccepts
      · exact h.accepted i face v ((family_eq_some hs).2 i hi ▸ hv)
  backed key := by
    rcases epochs_step h hok hs key with hsame | ⟨epoch, link, htells⟩
    · exact hsame ▸ h.backed key
    · exact (h.backed key).tells htells

theorem le_lastEpoch_of_crosses (h : Gossiping P accepts N) (hok : Linked P accepts N e)
    (hs : family Server.step N e = some M) (hv : crosses P d e = some v)
    (hk : ContentStore.nameHash v.name = .ok key) :
    (v.epoch : WithBot ℕ) ≤ (M (P.dst d)).lastEpoch key := by
  have haccepts := h.accepted _ _ _ (hok.arrives d v hv)
  obtain ⟨raw, drawn, rfl, hp⟩ := crosses_eq_some hv
  obtain ⟨hst, -⟩ := family_eq_some hs
  have hreceived := step_received hp (by rwa [h.verifier, Option.any_some]) hst
  split at hreceived
  · have hspreads : Spreads v _ (N (P.dst d)) (M (P.dst d)) := hreceived
    rw [hspreads.lastEpoch_eq hk]
    exact le_max_right _ _
  · rename_i hf
    have hM : M (P.dst d) = N (P.dst d) := hreceived
    rw [hM]
    exact not_lt.mp fun hlt => hf ((isFresh_iff_lastEpoch hk).mpr hlt)

/-- Once every invalidation that was sent over a link has arrived, the servers that links join have
recorded the same epochs. -/
theorem epochs_agree (hverifier : ∀ i, (N i).invalidationVerifier = some accepts)
    (hseen : ∀ i, (N i).seenInvalidations = .empty) (hsent : ∀ i, (N i).sent = [])
    (h : Run (family Server.step) (Linked P accepts) N ls M)
    (harrived : ∀ d v, (P.face d, .invalidate v) ∈ (M (P.src d)).sent →
      v ∈ observed (family Server.step) (fun e => crosses P d e.2.1) N ls)
    (hjoin : ReflTransGen (fun i j => ∃ d, P.src d = i ∧ P.dst d = j) i j) (key : Bytes) :
    (M i).seenInvalidations.get? key = (M j).seenInvalidations.get? key := by
  have h₀ : Gossiping P accepts N := by
    refine ⟨hverifier, fun i face v hv => ?_, fun key => ⟨?_, ?_⟩⟩
    · simp [hsent] at hv
    · rintro d epoch ⟨v, -, -, hv⟩
      simp [hsent] at hv
    · intro d epoch hknown
      have hbot : (N (P.src d)).lastEpoch key = ⊥ := by
        rw [lastEpoch, hseen]
        rfl
      exact absurd (hbot.symm.trans hknown) (WithBot.coe_ne_bot).symm
  have hrun := h.with_invariant h₀ fun _ _ _ hg hok hs => hg.step hok hs
  have hM : Gossiping P accepts M := h.invariant h₀ fun _ _ _ hg hok hs => hg.step hok hs
  refine get?_eq_of_lastEpoch ((hM.backed key).agree ?_ hjoin)
  rintro d epoch ⟨v, hk, rfl, hv⟩
  refine hrun.observed_past (fun v M => ContentStore.nameHash v.name = .ok key →
    (v.epoch : WithBot ℕ) ≤ (M (P.dst d)).lastEpoch key) ?_ ?_ v (harrived d v hv) hk
  · exact fun N e M v hok hs hv hk => le_lastEpoch_of_crosses hok.1 hok.2 hs hv hk
  · exact fun N e M v hok hs hpast hk => (hpast hk).trans (lastEpoch_le hok.1 hok.2 hs _ key)

end

def linkedServers (_ : Bool) : Server := letI := Data.paddedHash; serverAfter verifying [.openFace]

def acceptsSigned (v : Invalidate) : Bool := v.signature.isSome

def ownPurge : Invalidate :=
  { name := postName, epoch := 0, signature := some (List.replicate 64 7) }

/-- A server originates an invalidation, and it arrives at the other one. -/
def purgedEverywhere : List (Bool × Label) :=
  [(false, .invalidate postName false),
    (true, .incoming 100 (wireBytes (.invalidate ownPurge)) drawn)]

def linkedServersAfter (es : List (Bool × Label)) : Bool → Server :=
  letI := Data.paddedHash
  (exec (family Server.step) linkedServers es).getD linkedServers

theorem purge_agreed :
    letI := Data.paddedHash
    let M := linkedServersAfter purgedEverywhere
    ∃ key, (M true).seenInvalidations.get? key = some 0 ∧
      (M false).seenInvalidations.get? key = (M true).seenInvalidations.get? key := by
  let := Data.paddedHash
  have hlinks₀ : Linked Overlay.pair acceptsSigned linkedServers
      (false, .invalidate postName false) := by
    refine ⟨by decide, (fun d v hv => by cases hv), fun v hv => ?_⟩
    obtain rfl : ownPurge = v := Option.some.inj hv
    exact ⟨rfl, _, rfl⟩
  have hlinks₁ : Linked Overlay.pair acceptsSigned (linkedServersAfter (purgedEverywhere.take 1))
      (true, .incoming 100 (wireBytes (.invalidate ownPurge)) drawn) := by
    refine ⟨by decide, fun d v hv => ?_, (fun v hv => by cases hv)⟩
    cases d
    · obtain rfl : ownPurge = v := Option.some.inj hv
      decide
    · cases hv
  have hrun : Run (family Server.step) (Linked Overlay.pair acceptsSigned) linkedServers
      purgedEverywhere (linkedServersAfter purgedEverywhere) :=
    .cons hlinks₀ (t := linkedServersAfter (purgedEverywhere.take 1)) rfl
      (.cons hlinks₁ rfl (.nil _))
  have harrived : ∀ d v, (Overlay.pair.face d, .invalidate v) ∈
      (linkedServersAfter purgedEverywhere (Overlay.pair.src d)).sent →
      v ∈ observed (family Server.step) (fun e => crosses Overlay.pair d e.2.1) linkedServers
        purgedEverywhere := by
    intro d v hv
    cases d
    · obtain hv : (100, Packet.invalidate v) = (100, .invalidate ownPurge) :=
        List.mem_singleton.mp hv
      obtain rfl := Packet.invalidate.inj (Prod.mk.inj hv).2
      exact List.mem_singleton.mpr rfl
    · cases hv
  have hjoin : ReflTransGen
      (fun i j => ∃ d, Overlay.pair.src d = i ∧ Overlay.pair.dst d = j) false true :=
    .single ⟨false, rfl, rfl⟩
  exact ⟨blake2b postName.encode, rfl, epochs_agree (fun _ => rfl) (fun _ => rfl) (fun _ => rfl)
    hrun harrived hjoin _⟩

end Network

end RnsIcn
