import RnsIcn.Forwarder.Bookkeeping

/-! # The entries of the Pending Interest Table

An attempt on a face makes an entry for its name, and whatever ends the attempt drops it.
What is left in the table when nothing is in flight is what exceptions have left there.
-/

namespace RnsIcn

open Transition

/-- The call waits for a face that it has tried, or an exception has ended it. -/
inductive Phase.Holds : Phase → Prop where

  | sending (face : FaceId) (rest : List FaceId) : Holds (.sending face rest)

  | waiting (face : FaceId) (rest : List FaceId) (fut deadline : ℕ) :
      Holds (.waiting face rest fut deadline)

  | raised (e : PyError) : Holds (.raised e)

namespace EventLoop

variable {r r' : EventLoop} {c c' : CallId} {call : Call} {n : Name}

def HoldsBy (r : EventLoop) (c : CallId) (n : Name) : Prop :=
  ∃ call, r.calls c = some call ∧ call.interest.pitName = n ∧ call.phase.Holds

theorem HoldsBy.congr (h : r.HoldsBy c n) (hc : r'.calls = r.calls) : r'.HoldsBy c n := by
  rw [HoldsBy, hc]
  exact h

theorem HoldsBy.setCall_ne (h : r.HoldsBy c' n) (hne : c' ≠ c) (call : Call) :
    (r.setCall c call).HoldsBy c' n := by
  obtain ⟨call', hc, hn, hp⟩ := h
  exact ⟨call', by rw [calls_setCall, if_neg hne, hc], hn, hp⟩

theorem holdsBy_setCall (r : EventLoop) (c : CallId) (call : Call) (hp : call.phase.Holds) :
    (r.setCall c call).HoldsBy c call.interest.pitName :=
  ⟨call, by rw [calls_setCall, if_pos rfl], rfl, hp⟩

theorem HoldsBy.lt (h : r.HoldsBy c n) (hr : r.Consistent) : c < r.nextCall := by
  obtain ⟨call, hc, -⟩ := h
  exact hr.lt hc

end EventLoop

namespace Forwarder

open EventLoop

variable {s t : Forwarder} {c : CallId} {call : Call}

def Held (s : Forwarder) : Prop := ∀ n, (s.pit.find n).isSome = true → ∃ c, s.loop.HoldsBy c n

def HeldBut (s : Forwarder) (c : CallId) : Prop :=
  ∀ n, (s.pit.find n).isSome = true → ∃ c' ≠ c, s.loop.HoldsBy c' n

theorem HeldBut.held (h : s.HeldBut c) : s.Held := by
  intro n hn
  obtain ⟨c', -, hc⟩ := h n hn
  exact ⟨c', hc⟩

theorem Held.mono (h : s.Held) (hp : ∀ n, (t.pit.find n).isSome → (s.pit.find n).isSome)
    (hc : t.loop.calls = s.loop.calls) : t.Held := by
  intro n hn
  obtain ⟨c, hh⟩ := h n (hp n hn)
  exact ⟨c, hh.congr hc⟩

theorem HeldBut.mono (h : s.HeldBut c) (hp : ∀ n, (t.pit.find n).isSome → (s.pit.find n).isSome)
    (hc : t.loop.calls = s.loop.calls) : t.HeldBut c := by
  intro n hn
  obtain ⟨c', hne, hh⟩ := h n (hp n hn)
  exact ⟨c', hne, hh.congr hc⟩

theorem Held.but (h : s.Held) (hno : ∀ n, ¬ s.loop.HoldsBy c n) : s.HeldBut c := by
  intro n hn
  obtain ⟨c', hc⟩ := h n hn
  refine ⟨c', ?_, hc⟩
  rintro rfl
  exact hno n hc

theorem not_holdsBy (hc : s.loop.calls c = some call) (hp : ¬ call.phase.Holds) (n : Name) :
    ¬ s.loop.HoldsBy c n := by
  rintro ⟨call', hc', -, hp'⟩
  obtain rfl := Option.some.inj (hc.symm.trans hc')
  exact hp hp'

theorem Held.remove (h : s.Held) (hc : s.loop.calls c = some call)
    (ht : t.pit = s.pit.remove call.interest.pitName) (hr : t.loop.calls = s.loop.calls) :
    t.HeldBut c := by
  intro n hn
  rw [ht, Pit.find_remove] at hn
  split at hn
  · cases hn
  · rename_i hne
    obtain ⟨c', hh⟩ := h n hn
    refine ⟨c', ?_, hh.congr hr⟩
    rintro rfl
    obtain ⟨call', hc', rfl, -⟩ := hh
    obtain rfl := Option.some.inj (hc.symm.trans hc')
    exact hne rfl

theorem Held.setPhase (h : s.Held) (hc : s.loop.calls c = some call) {phase : Phase}
    (hp : phase.Holds) (ht : t.pit = s.pit)
    (hl : t.loop.calls = (s.loop.setCall c { call with phase }).calls) : t.Held := by
  intro n hn
  obtain ⟨c', hh⟩ := h n (ht ▸ hn)
  by_cases hne : c' = c
  · subst hne
    obtain ⟨call', hc', rfl, -⟩ := hh
    obtain rfl := Option.some.inj (hc.symm.trans hc')
    exact ⟨c', (holdsBy_setCall s.loop c' { call with phase } hp).congr hl⟩
  · exact ⟨c', (hh.setCall_ne hne _).congr hl⟩

theorem HeldBut.finish (h : s.HeldBut c) (call : Call) (phase : Phase) :
    (s.finish c call phase).Held := by
  intro n hn
  obtain ⟨c', hne, hh⟩ := h n hn
  exact ⟨c', hh.setCall_ne hne _⟩

theorem HeldBut.attempts (h : s.HeldBut c) (faces : List FaceId) :
    (s.attempts c call faces).Held := by
  induction faces generalizing s with
  | nil => exact h.finish call _
  | cons face rest ih =>
    have hfind {n : Name} (hne : n ≠ call.interest.pitName)
        (hn : (((s.pit.insertOrAggregate call.interest.pitName call.inFace call.interest
          s.loop.monotonic).setOutFace call.interest.pitName face).find n).isSome) :
        (s.pit.find n).isSome := by
      rw [Pit.find_setOutFace, if_neg hne] at hn
      obtain ⟨e, he⟩ := Option.isSome_iff_exists.mp hn
      simp [Pit.find_insertOrAggregate_ne hne he]
    have hnew {phase : Phase} (hp : phase.Holds) (r : EventLoop) (hr : r.calls = s.loop.calls)
        {n : Name} (hn : n ≠ call.interest.pitName → (s.pit.find n).isSome) :
        ∃ c', (r.setCall c { call with phase }).HoldsBy c' n := by
      by_cases hname : n = call.interest.pitName
      · exact ⟨c, hname ▸ holdsBy_setCall r c { call with phase } hp⟩
      · obtain ⟨c', hne, hh⟩ := h n (hn hname)
        exact ⟨c', (hh.congr hr).setCall_ne hne _⟩
    rw [Forwarder.attempts]
    split
    · split
      · exact fun n hn => hnew (.raised _) _ rfl fun hne => hfind hne hn
      · exact fun n hn => hnew (.sending face rest) _ rfl fun hne => hfind hne hn
    · apply ih
      refine h.mono (fun n hn => ?_) rfl
      rw [Pit.find_remove] at hn
      split at hn
      · cases hn
      · exact hfind ‹_› hn

theorem HeldBut.forward (h : s.HeldBut c) (faces : List FaceId) :
    (s.forward c call faces).Held := by
  rw [Forwarder.forward]
  split
  · exact h.finish call _
  · exact h.attempts faces

theorem Held.attemptFailed (h : s.Held) (hc : s.loop.calls c = some call) {u : Forwarder}
    (hu : u.pit = s.pit) (hl : u.loop.calls = s.loop.calls) (face : FaceId) (rest : List FaceId) :
    (u.attemptFailed c call face rest).Held := by
  rw [Forwarder.attemptFailed]
  refine HeldBut.attempts ?_ rest
  exact h.remove hc (by rw [hu]) hl

theorem Held.attemptSucceeded (h : s.Held) (hc : s.loop.calls c = some call) (face : FaceId)
    (d : Data) : (s.attemptSucceeded c call face d).Held := by
  rw [Forwarder.attemptSucceeded]
  refine HeldBut.finish ?_ call _
  exact h.remove hc rfl rfl

/-- A call that goes on under its id, and whose phase holds no entry, leaves those of the others. -/
theorem Held.spawn (h : s.Held) (hr : s.loop.Consistent) (call : Call)
    (ht : ∀ n, (t.pit.find n).isSome → (s.pit.find n).isSome) (hl : t.loop = s.loop.spawn call) :
    t.HeldBut s.loop.nextCall := by
  intro n hn
  obtain ⟨c', hh⟩ := h n (ht n hn)
  have hne := (hh.lt hr).ne
  refine ⟨c', hne, ?_⟩
  rw [hl]
  exact HoldsBy.setCall_ne (r := { s.loop with nextCall := s.loop.nextCall + 1 }) hh hne call

theorem HeldBut.enact (h : s.HeldBut c) (hr : s.loop.Consistent)
    (nonce : Bytes) (fibFaces : List (FaceId × ℕ)) (decision : StrategyDecision) :
    (s.enact c call nonce fibFaces decision).Held := by
  cases decision with
  | serveFromCache d => exact h.finish call _
  | serveStaleRevalidate d face =>
    refine HeldBut.finish ?_ call _
    rw [scheduleRevalidation]
    split
    · exact h
    · intro n hn
      obtain ⟨c', hne, hh⟩ := h n hn
      exact ⟨c', hne, HoldsBy.setCall_ne (r := { s.loop with nextCall := s.loop.nextCall + 1 }) hh
        (hh.lt hr).ne _⟩
  | suppressAggregate =>
    intro n hn
    obtain ⟨c', hne, hh⟩ := h n hn
    exact ⟨c', hh.setCall_ne hne _⟩
  | forwardTo face => exact h.forward _
  | noRoute => exact h.finish call _

variable [Hashlib]

theorem Held.express (h : s.Held) (hr : s.loop.Consistent) (i : Interest) (inFace : FaceId)
    (nonce : Bytes) : (s.express i inFace nonce).Held := by
  rw [Forwarder.express]
  split
  · refine (Held.spawn (t := { s with loop := _ }) h hr _ ?_ rfl).held
    exact fun n hn => hn
  · have hbut (cs : ContentStore) : Forwarder.HeldBut
        { s with
          cs
          pit := s.pit.recordNonce inFace i.nonce s.loop.monotonic
          loop := s.loop.spawn (.ofInterest i inFace) } s.loop.nextCall :=
      h.spawn hr (.ofInterest i inFace) (fun n hn => by simpa using hn) rfl
    cases hl : s.csLookup i with
    | mk cs lookup =>
      cases lookup with
      | error e => exact (hbut cs).finish _ _
      | ok csHit =>
        refine (hbut cs).enact ?_ _ _ _
        exact hr.spawn rfl

theorem Held.receiveData (h : s.Held) (d : Data) (inFace : FaceId) (unsolicited : Bool) :
    (s.receiveData d inFace unsolicited).Held := by
  have hremove {u : Forwarder} (hu : u.Held) (n : Name) : Forwarder.Held
      { u with pit := u.pit.remove n } := by
    refine hu.mono (fun m hm => ?_) rfl
    rw [Pit.find_remove] at hm
    split at hm
    · cases hm
    · exact hm
  have hcache {u : Forwarder} (hu : u.Held) (n : Name) : (u.cacheAnswer d n).Held := by
    rw [cacheAnswer]
    split
    · exact hu
    · exact hremove hu n
  rw [Forwarder.receiveData]
  simp only
  split
  · exact h
  · apply hcache
    refine h.mono (fun m hm => ?_) rfl
    rw [notifyWaiters, Pit.find_satisfy] at hm
    split at hm
    · rename_i hname
      rw [hname]
      simpa using hm
    · exact hm
  · split
    · apply hcache
      exact h
    · apply hremove
      exact h

theorem Held.step {l : Label} (h : s.Held) (hcon : s.Consistent) (hs : step s l = some t) :
    t.Held := by
  cases l with
  | express i inFace nonce => exact Option.some.inj hs ▸ h.express hcon.loop i inFace nonce
  | start c =>
    obtain ⟨call, hc, hs⟩ := Option.bind_eq_some_iff.mp hs
    split at hs
    · rename_i hp
      obtain rfl := Option.some.inj hs
      refine HeldBut.forward (h.but (not_holdsBy hc ?_)) _
      rw [hp]
      rintro ⟨⟩
    · cases hs
  | sent c =>
    obtain ⟨call, hc, hs⟩ := Option.bind_eq_some_iff.mp hs
    split at hs
    · obtain rfl := Option.some.inj hs
      exact h.setPhase hc (.waiting ..) rfl rfl
    · cases hs
  | sendRaised c e =>
    obtain ⟨call, hc, hs⟩ := Option.bind_eq_some_iff.mp hs
    split at hs
    · obtain rfl := Option.some.inj hs
      exact h.setPhase hc (.raised e) rfl rfl
    · cases hs
  | resume c =>
    obtain ⟨call, hc, hs⟩ := Option.bind_eq_some_iff.mp hs
    split at hs
    · split at hs
      · exact Option.some.inj hs ▸ h.attemptSucceeded hc _ _
      · exact Option.some.inj hs ▸ h.attemptFailed hc rfl rfl _ _
      · cases hs
    · rename_i hp
      have hbut : s.HeldBut c := by
        refine h.but (not_holdsBy hc ?_)
        rw [hp]
        rintro ⟨⟩
      split at hs
      · exact Option.some.inj hs ▸ hbut.finish call _
      · exact Option.some.inj hs ▸ hbut.finish call _
      · cases hs
    · cases hs
  | timeout c =>
    obtain ⟨call, hc, hs⟩ := Option.bind_eq_some_iff.mp hs
    split at hs
    · rename_i fut _ hp
      split at hs
      · obtain rfl := Option.some.inj hs
        exact h.attemptFailed (u := { s with loop := s.loop.giveUp fut }) hc rfl rfl _ _
      · cases hs
    · rename_i fut _ hp
      split at hs
      · obtain rfl := Option.some.inj hs
        refine HeldBut.finish (s := { s with loop := s.loop.giveUp fut }) ?_ call _
        refine h.but (not_holdsBy hc ?_)
        rw [hp]
        rintro ⟨⟩
      · cases hs
    · cases hs
  | receiveData d inFace unsolicited => exact Option.some.inj hs ▸ h.receiveData d inFace _
  | purgeExpired =>
    obtain rfl := Option.some.inj hs
    refine h.mono (fun n hn => ?_) rfl
    obtain ⟨e, he⟩ := Option.isSome_iff_exists.mp hn
    simp [Pit.find_purgeExpired he]
  | _ => exact Option.some.inj hs ▸ h

omit [Hashlib] in
theorem Held.cancel (h : s.Held) (c : CallId) : (s.cancel c).Held := by
  rcases s.cancel_cases c with he | ⟨call, r, hc, hr, he⟩
  · rw [he]
    exact h
  · rw [he]
    refine h.setPhase (t := { s with loop := r.setCall c _ }) hc (.raised .cancelledError) rfl ?_
    rcases hr with rfl | ⟨fut, rfl⟩
    · rfl
    · rfl

theorem taskStep_held {l : TaskLabel} (hcon : s.Consistent) (h : s.Held)
    (hs : taskStep s l = some t) : t.Held := by
  cases l with
  | event l => exact h.step hcon hs
  | cancel c => exact Option.some.inj hs ▸ h.cancel c

omit [Hashlib] in
theorem Initial.held (h : s.Initial) : s.Held := by
  intro n hn
  rw [Pit.find, h.pit] at hn
  cases hn

theorem run_held {ls : List TaskLabel} (h : Run taskStep anyStep s ls t) (hs : s.Initial) :
    t.Held :=
  (h.invariant (I := fun u => u.Consistent ∧ u.Held) ⟨hs.consistent, hs.held⟩
    fun _ _ _ hi _ hst => ⟨taskStep_consistent hi.1 hst, taskStep_held hi.1 hi.2 hst⟩).2

/-- In every state of a run the entries of the table are those of attempts in flight, but for what
calls that an exception ended have left. So once nothing is in flight, and no call was cut short,
the table is empty. -/
theorem entries_attempted {ls : List TaskLabel} (h : Run taskStep anyStep s ls t)
    (hs : s.Initial) :
    (∀ n e, t.pit.find n = some e → ∃ c call, t.loop.calls c = some call ∧
      call.interest.pitName = n ∧ call.phase.Holds) ∧
    (t.loop.Idle → (∀ c call, t.loop.calls c = some call → ∀ e, call.phase ≠ .raised e) →
      t.pit.entries = .empty) := by
  have hheld := run_held h hs
  refine ⟨fun n e he => hheld n (Option.isSome_of_mem he), fun hidle hno => ?_⟩
  apply Dict.ext_items
  refine List.eq_nil_iff_forall_not_mem.mpr fun x hx => ?_
  have he : t.pit.find x.1 = some x.2 := Dict.get?_eq_some.mpr hx
  obtain ⟨c, call, hc, -, hp⟩ := hheld x.1 (Option.isSome_of_mem he)
  have hended := hidle c call hc
  generalize hphase : call.phase = phase at hp hended
  cases hp with
  | sending | waiting => cases hended
  | raised e => exact hno c call hc e hphase

omit [Hashlib] in
theorem answered_call_emptied :
    letI := Data.paddedHash
    Run taskStep anyStep (relay [1]) answeredCall (relayTasks answeredCall) ∧
      (relayTasks answeredCall).pit.entries = .empty := by
  let := Data.paddedHash
  have hrun : Run taskStep anyStep (relay [1]) answeredCall (relayTasks answeredCall) :=
    run_of_exec rfl
  have hcon : (relayTasks answeredCall).Consistent :=
    hrun.invariant (relay_initial [1]).consistent fun _ _ _ hi _ hs => taskStep_consistent hi hs
  have hphase {c : CallId} {call : Call} (hc : (relayTasks answeredCall).loop.calls c = some call) :
      call.phase = .returned (some answer) := by
    obtain rfl : c = 0 := Nat.lt_one_iff.mp (hcon.loop.lt hc)
    have hp : ((relayTasks answeredCall).loop.calls 0).map Call.phase =
        some (.returned (some answer)) := rfl
    rw [hc] at hp
    exact Option.some.inj hp
  refine ⟨hrun, (entries_attempted hrun (relay_initial [1])).2 (fun c call hc => ?_) ?_⟩
  · rw [hphase hc]
    exact .returned _
  · intro c call hc e he
    rw [hphase hc] at he
    cases he

end Forwarder

end RnsIcn
