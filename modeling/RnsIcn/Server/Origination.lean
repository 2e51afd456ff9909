import RnsIcn.Server.Invalidation

/-! # Invalidations that a producer originates

The epoch of an own invalidation is the clock reading in seconds. Relays apply
all of them as long as the clock has moved on between any two for one name.
-/

namespace RnsIcn

open Effect Fallible Transition

/-- Signing sets the signature of an encodable invalidation and changes nothing else. -/
theorem Invalidate.sign_eq_ok [Hashlib] {v v' : Invalidate} {signer : Bytes → Bytes}
    (h : v.sign signer = .ok v') :
    (∃ key, ContentStore.nameHash v.name = .ok key) ∧
      ∃ sig, sig.length = SIGNATURE_BYTES ∧ v' = { v with signature := some sig } := by
  simp only [sign, bind_eq_ok] at h
  obtain ⟨bytes, hb, h⟩ := h
  obtain ⟨nameBytes, hn, -⟩ := bind_eq_ok.mp hb
  refine ⟨⟨blake2b nameBytes, by simp [ContentStore.nameHash, hn]⟩, ?_⟩
  split at h
  · obtain ⟨_, h, -⟩ := bind_eq_ok.mp h
    simp at h
  · rename_i hl
    exact ⟨_, not_not.mp hl, (Except.ok.inj h).symm⟩

namespace Server

variable {s t : Server} {l : Label} {v : Invalidate} {n : Name} {key : Bytes}

variable [Hashlib]

def originated (s : Server) : Label → Option Invalidate
  | .invalidate n byPrefix => s.considered (.invalidate n byPrefix)
  | _ => none

/-- The invalidation that an event delivers, if the verifier accepts it. -/
def received (s : Server) : Label → Option Invalidate
  | .incoming face raw drawn => s.considered (.incoming face raw drawn)
  | _ => none

/-- The invalidations that a run originates. -/
def originations (s : Server) (ls : List Label) : List Invalidate :=
  observed step (fun e => e.1.originated e.2.1) s ls

/-- The invalidations that a run receives and verifies. -/
def receptions (s : Server) (ls : List Label) : List Invalidate :=
  observed step (fun e => e.1.received e.2.1) s ls

/-- The clock is past every epoch that is recorded for the name of an own invalidation. -/
def Label.Later (s : Server) (l : Label) : Prop :=
  ∀ v key, s.originated l = some v → ContentStore.nameHash v.name = .ok key →
    ∀ e ∈ s.seenInvalidations.get? key, e < s.forwarder.time

/-- Nothing but verified invalidations of `n` from outside concerns the key of `n`. -/
def Label.Relaying (n : Name) (s : Server) (l : Label) : Prop :=
  ∀ v, s.considered l = some v → ContentStore.nameHash v.name = ContentStore.nameHash n →
    v.name = n ∧ s.received l = some v

theorem Label.Later.of_none (h : s.originated l = none) : l.Later s :=
  fun v key hv => by rw [h] at hv; cases hv

theorem Label.Relaying.of_none (h : s.considered l = none) : l.Relaying n s :=
  fun v hv => by rw [h] at hv; cases hv

theorem Label.Relaying.of_some (h : s.considered l = some v) (hr : s.received l = some v)
    (hn : v.name = n) : l.Relaying n s :=
  fun w hw _ => by
    obtain rfl := Option.some.inj (h.symm.trans hw)
    exact ⟨hn, hr⟩

theorem originated_eq_some (h : s.originated l = some v) :
    (∃ key, ContentStore.nameHash v.name = .ok key) ∧ v.epoch = s.forwarder.time ∧
      ∀ m byPrefix, l = .invalidate m byPrefix → v.name = m := by
  cases l with
  | invalidate m byPrefix =>
    obtain ⟨signer, -, h⟩ := Option.bind_eq_some_iff.mp h
    obtain ⟨hkey, sig, -, rfl⟩ := Invalidate.sign_eq_ok (Fallible.toOption_eq_some.mp h)
    exact ⟨hkey, rfl, fun _ _ h => (Label.invalidate.inj h).1⟩
  | _ => cases h

theorem Label.Later.of_seen {byPrefix : Bool} (h : ∀ key, ContentStore.nameHash n = .ok key →
    ∀ e ∈ s.seenInvalidations.get? key, e < s.forwarder.time) :
    (Label.invalidate n byPrefix).Later s :=
  fun _ key hv hk => h key ((originated_eq_some hv).2.2 n byPrefix rfl ▸ hk)

theorem step_originated (h : s.originated l = some v) (hs : s.step l = some t) :
    t.forwarder.cs = s.forwarder.cs.apply (.invalidate v.name v.isPrefix) ∧
      (s.isFresh v = true → ∃ key, ContentStore.nameHash v.name = .ok key ∧
        t.seenInvalidations.get? key = some v.epoch) ∧
      ∀ raw, v.toBytes = .ok raw → t.sent = s.faces.reverse.map (·, .invalidate v) ++ s.sent := by
  obtain ⟨⟨key, hk⟩, -⟩ := originated_eq_some h
  cases l with
  | invalidate m byPrefix =>
    obtain ⟨signer, hsigner, h⟩ := Option.bind_eq_some_iff.mp h
    have hsign : Invalidate.sign
        { name := m, epoch := s.forwarder.time, isPrefix := byPrefix } signer = .ok v :=
      Fallible.toOption_eq_some.mp h
    obtain rfl := Option.some.inj hs
    have hexec : exec (invalidate m byPrefix) s = exec (applyInvalidate v none)
        (if s.isFresh v then { s with seenInvalidations := s.seenInvalidations.set key v.epoch }
          else s) := by
      simp only [invalidate, exec_bind, exec_get, hsigner, hsign, exec_ofExcept,
        exec_invalidationIsFresh, hk]
      by_cases hf : s.isFresh v = true <;> simp [hf]
    rw [after, hexec, exec_applyInvalidate _ _ ⟨key, hk⟩]
    refine ⟨?_, fun hf => ⟨key, hk, ?_⟩, fun raw hraw => ?_⟩
    · by_cases hf : s.isFresh v = true <;> cases v.toBytes <;> simp [hf, withStore, sendAll]
    · cases v.toBytes <;> simp [hf, withStore, sendAll]
    · have hall : (s.faces.filter fun f => decide (f ∈ s.faces) && some f != none) = s.faces :=
        List.filter_eq_self.mpr fun f hf => by rw [decide_eq_true hf]; rfl
      by_cases hf : s.isFresh v = true <;> simp [hf, hraw, withStore, sendAll, hall]
  | _ => cases h

theorem relayed_of_received (h : s.received l = some v) (hf : s.isFresh v = true) :
    ∃ face, s.relayed l = some (face, v) := by
  cases l with
  | incoming face raw drawn =>
    simp only [received, considered] at h
    split at h
    · rename_i v' hp
      split at h
      · rename_i hv
        obtain rfl := Option.some.inj h
        exact ⟨face, by simp [relayed, hp, hv, hf]⟩
      · cases h
    · cases h
  | _ => cases h

/-- A step records an epoch under a key only if it considers an invalidation with that key. -/
theorem seen_eq (key : Bytes)
    (hno : ∀ v, s.considered l = some v → ContentStore.nameHash v.name ≠ .ok key)
    (hs : s.step l = some t) :
    t.seenInvalidations.get? key = s.seenInvalidations.get? key := by
  have hI : Stable fun u => u.seenInvalidations.get? key = s.seenInvalidations.get? key :=
    { frame := fun u w hst h => by
        have hw : w.seenInvalidations = u.seenInvalidations :=
          congrArg (fun u => u.seenInvalidations) hst
        rwa [hw]
      delete := fun _ _ _ h => h
      create := fun _ _ _ h => h
      insert := fun _ _ _ _ _ h => h
      sign := fun _ _ _ _ _ _ _ _ h => h
      openFace := fun _ h => h
      closeFace := fun _ _ h => h }
  refine hI.step rfl (fun _ _ => rfl) (fun v hv k hk _ => ?_) hs
  have hne : key ≠ k := by
    rintro rfl
    exact hno v hv hk
  exact Dict.get?_set_ne _ _ hne

/-- The epochs that a producer chooses for a name increase if the clock moves on in between. -/
theorem originations_increasing {ls : List Label} (h : Run step Label.Later s ls t) :
    (originations s ls).Pairwise fun v w => v.name = w.name → v.epoch < w.epoch := by
  refine h.observed_pairwise Remembers ?_ ?_ ?_
  · intro s l t v hl hs hv
    obtain ⟨⟨key, hk⟩, he, -⟩ := originated_eq_some hv
    obtain ⟨-, hseen, -⟩ := step_originated hv hs
    obtain ⟨k, hk, hs⟩ := hseen (isFresh_iff.mpr ⟨key, hk, fun e h => he ▸ hl v key hv hk e h⟩)
    exact ⟨k, hk, _, hs, le_rfl⟩
  · intro s l t v _ hs hv
    exact (remembers_stable v).step hv (fun _ _ => hv) (fun _ _ => hv.allows) hs
  · intro s l t v w hl hs hv hw hname
    obtain ⟨⟨key, hk⟩, he, -⟩ := originated_eq_some hw
    obtain ⟨k, hk', e, hse, hle⟩ := hv
    obtain rfl : k = key := ok_inj hk' (hname ▸ hk)
    exact hle.trans_lt (he ▸ hl w k hw hk e hse)

/-- A relay applies all verified invalidations of a name that come in the order of their epochs. -/
theorem receptions_applied (hkey : ContentStore.nameHash n = .ok key) {rs : List Label}
    (h : Run step (Label.Relaying n) s rs t)
    (hinc : ((receptions s rs).filter (·.name = n)).Pairwise fun v w => v.epoch < w.epoch)
    (hnew : ∀ v ∈ (receptions s rs).filter (·.name = n), ∀ e ∈ s.seenInvalidations.get? key,
      e < v.epoch) :
    ∀ e ∈ trace step s rs, ∀ v, e.1.received e.2.1 = some v → v.name = n →
      ∃ face, Relays face v e.1 e.2.2 := by
  induction h with
  | nil =>
    intro e he
    exact absurd he List.not_mem_nil
  | @cons s t u l ls hok hs hr ih =>
    rw [receptions, observed_cons hs, List.filter_append] at hinc hnew
    intro e he v hv hname
    rw [trace_cons hs] at he
    by_cases hhead : ∃ w, s.received l = some w ∧ w.name = n
    · obtain ⟨w, hw, hwn⟩ := hhead
      simp only [hw, Option.toList_some, List.filter_cons, hwn, decide_true, if_true,
        List.filter_nil, List.singleton_append, List.pairwise_cons, List.forall_mem_cons]
        at hinc hnew
      obtain ⟨face, hrel⟩ := relayed_of_received hw (isFresh_iff.mpr ⟨key, hwn ▸ hkey, hnew.1⟩)
      have hrelays := step_relayed hrel hs
      rcases List.mem_cons.mp he with rfl | he
      · obtain rfl := Option.some.inj (hw.symm.trans hv)
        exact ⟨face, hrelays⟩
      · refine ih hinc.2 (fun x hx epoch hepoch => ?_) e he v hv hname
        obtain ⟨k, hk, hseen⟩ := hrelays.seen
        obtain rfl : k = key := ok_inj hk (hwn ▸ hkey)
        obtain rfl := Option.some.inj (hseen.symm.trans hepoch)
        exact hinc.1 x hx
    · have hnone : (s.received l).toList.filter (·.name = n) = [] := by
        rw [List.filter_eq_nil_iff]
        intro w hw hwn
        exact hhead ⟨w, by simpa using hw, of_decide_eq_true hwn⟩
      have hseen := seen_eq key (fun w hw hk =>
        hhead ⟨w, (hok w hw (hk.trans hkey.symm)).2, (hok w hw (hk.trans hkey.symm)).1⟩) hs
      rw [hnone, List.nil_append] at hinc hnew
      rcases List.mem_cons.mp he with rfl | he
      · exact absurd ⟨v, hv, hname⟩ hhead
      · exact ih hinc (hseen ▸ hnew) e he v hv hname

/-- Every invalidation of a name that a producer originates at a later clock reading than the one
before is applied by every relay that gets them in order and can verify them. -/
theorem originations_applied {ls rs : List Label} {u w : Server}
    (ho : Run step Label.Later s ls t) (hr : Run step (Label.Relaying n) u rs w)
    (hnew : ∀ key, ContentStore.nameHash n = .ok key → u.seenInvalidations.get? key = none)
    (hsub : ((receptions u rs).filter (·.name = n)).Sublist
      ((originations s ls).filter (·.name = n))) :
    ((originations s ls).Pairwise fun v w => v.name = w.name → v.epoch < w.epoch) ∧
      ∀ e ∈ trace step u rs, ∀ v, e.1.received e.2.1 = some v → v.name = n →
        ∃ face, Relays face v e.1 e.2.2 := by
  have hinc := originations_increasing ho
  refine ⟨hinc, fun e he v hv hname => ?_⟩
  have hmem : v ∈ (receptions u rs).filter (·.name = n) :=
    List.mem_filter.mpr ⟨List.mem_filterMap.mpr ⟨e, he, hv⟩, by simpa using hname⟩
  obtain ⟨s', l, t', -, -, hv'⟩ := ho.of_mem_observed (List.mem_of_mem_filter (hsub.subset hmem))
  obtain ⟨⟨key, hk⟩, -⟩ := originated_eq_some hv'
  rw [hname] at hk
  refine receptions_applied hk hr ?_ (fun v _ epoch h => by rw [hnew key hk] at h; cases h) e he v
    hv hname
  refine ((hinc.filter _).sublist hsub).imp_of_mem fun {a b} ha hb hlt => hlt ?_
  exact (of_decide_eq_true (List.mem_filter.mp ha).2).trans
    (of_decide_eq_true (List.mem_filter.mp hb).2).symm

end Server

namespace Server

/-- The invalidation of `postName` that `publisher` signs at clock reading `epoch`. -/
def ownPurge (epoch : ℕ) : Invalidate :=
  { name := postName, epoch, signature := some (List.replicate 64 7) }

/-- A post is invalidated, published again and invalidated again, with the clock at these
readings. -/
def republished (first second : ℕ) : List Label :=
  [.forwarder (.tick 0 first), .invalidate postName false,
    .publishContent postName [0x68, 0x69] false none none, .forwarder (.tick 0 second),
    .invalidate postName false]

/-- A relay gets the invalidations and, as from a peer, the new post in between. -/
def relaying (first second : ℕ) : List Label :=
  [.openFace, .incoming 100 (wireBytes (.peer { rnsAddr := List.replicate 16 1 })) drawn,
    .incoming 100 (wireBytes (.invalidate (ownPurge first))) drawn,
    .incoming 100 (wireBytes (.data { name := postName, content := [0x68, 0x69] })) drawn,
    .incoming 100 (wireBytes (.invalidate (ownPurge second))) drawn]

theorem later_purge_applied :
    letI := Data.paddedHash
    receptions verifying (relaying 5 6) = [ownPurge 5, ownPurge 6] ∧
      ∀ e ∈ Transition.trace step verifying (relaying 5 6), ∀ v, e.1.received e.2.1 = some v →
        v.name = postName → ∃ face, Relays face v e.1 e.2.2 := by
  let := Data.paddedHash
  let own (k : ℕ) := serverAfter publisher ((republished 5 6).take k)
  let relay (k : ℕ) := serverAfter verifying ((relaying 5 6).take k)
  have hlater : (Label.invalidate postName false).Later (own 4) := by
    refine .of_seen fun key hk e he => ?_
    obtain ⟨-, rfl⟩ := ContentStore.nameHash_eq_ok.mp hk
    obtain rfl : 5 = e := Option.some.inj he
    decide
  have ho : Transition.Run step Label.Later publisher (republished 5 6) (own 5) :=
    .cons (.of_none rfl) (t := own 1) rfl
      (.cons (.of_seen fun _ _ _ he => by cases he) (t := own 2) rfl
        (.cons (.of_none rfl) (t := own 3) rfl (.cons (.of_none rfl) (t := own 4) rfl
          (.cons hlater rfl (.nil _)))))
  have hr : Transition.Run step (Label.Relaying postName) verifying (relaying 5 6) (relay 5) :=
    .cons (.of_none rfl) (t := relay 1) rfl (.cons (.of_none rfl) (t := relay 2) rfl
      (.cons (.of_some (v := ownPurge 5) rfl rfl rfl) (t := relay 3) rfl
        (.cons (.of_none rfl) (t := relay 4) rfl
          (.cons (.of_some (v := ownPurge 6) rfl rfl rfl) rfl (.nil _)))))
  have hsame : (receptions verifying (relaying 5 6)).filter (·.name = postName) =
      (originations publisher (republished 5 6)).filter (·.name = postName) := by rfl
  have hnew (key : Bytes) (_ : ContentStore.nameHash postName = .ok key) :
      verifying.seenInvalidations.get? key = none := rfl
  have hsub : ((receptions verifying (relaying 5 6)).filter (·.name = postName)).Sublist
      ((originations publisher (republished 5 6)).filter (·.name = postName)) := by
    rw [hsame]
  exact ⟨rfl, (originations_applied ho hr hnew hsub).2⟩

/-- Within one second both invalidations have the same epoch. A relay applies the first one only and
keeps the content that came in between. -/
theorem same_second_purge_ignored :
    letI := Data.paddedHash
    let t := serverAfter verifying (relaying 5 5)
    originations publisher (republished 5 5) = [ownPurge 5, ownPurge 5] ∧
      receptions verifying (relaying 5 5) = [ownPurge 5, ownPurge 5] ∧
      t.forwarder.cs.content.values.map Row.contentBytes = [[0x68, 0x69]] ∧
      ¬ ∀ e ∈ Transition.trace step verifying (relaying 5 5), ∀ v, e.1.received e.2.1 = some v →
        v.name = postName → ∃ face, Relays face v e.1 e.2.2 := by
  let := Data.paddedHash
  refine ⟨rfl, rfl, rfl, fun h => ?_⟩
  have hstale : (serverAfter verifying ((relaying 5 5).take 4)).isFresh (ownPurge 5) = false := rfl
  obtain ⟨face, hrel⟩ := h (serverAfter verifying ((relaying 5 5).take 4), _, _)
    (.tail _ (.tail _ (.tail _ (.tail _ (.head _))))) (ownPurge 5) rfl rfl
  exact Bool.false_ne_true (hstale.symm.trans hrel.fresh)

end Server

end RnsIcn
