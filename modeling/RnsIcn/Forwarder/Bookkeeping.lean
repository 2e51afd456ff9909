import RnsIcn.Client.Range

/-! # The futures that are kept for the waiters

A call that waits is found through the future that is kept for its name. Arrivals
take the futures of a name off the table. A wait that ends without one, by its
lifetime or because the task of the call is cancelled, leaves its future there.
-/

namespace RnsIcn

open Transition

namespace EventLoop

variable {r r' : EventLoop} {c : CallId} {call : Call}

/-- Each future that is kept for a name is that of a call that still awaits it. -/
def Awaited (r : EventLoop) : Prop :=
  ∀ key, ∀ fut ∈ r.notifiers.notifiers key, r.notifiers.state fut = .pending ∧
    ∃ c call, r.calls c = some call ∧ call.phase.future = some fut

/-- No call is in flight. -/
def Idle (r : EventLoop) : Prop := ∀ c call, r.calls c = some call → call.phase.Ended

def Settled (r : EventLoop) (c : CallId) : Prop :=
  ∀ call fut, r.calls c = some call → call.phase.future = some fut →
    r.notifiers.state fut ≠ .pending

theorem Awaited.of_idle (h : r.Awaited) (hi : r.Idle) (key : Name) :
    r.notifiers.notifiers key = [] := by
  rw [List.eq_nil_iff_forall_not_mem]
  intro fut hm
  obtain ⟨-, c, call, hc, hf⟩ := h key fut hm
  rw [(hi c call hc).future] at hf
  cases hf

theorem settled_of_future (hc : r.calls c = some call) (hf : call.phase.future = none) :
    r.Settled c := by
  intro call' fut hc' hf'
  obtain rfl := Option.some.inj (hc.symm.trans hc')
  rw [hf] at hf'
  cases hf'

theorem settled_of_done (hc : r.calls c = some call) {fut : ℕ}
    (hf : call.phase.future = some fut) {reply : Reply}
    (hst : r.notifiers.state fut = .done reply) : r.Settled c := by
  intro call' fut' hc' hf'
  obtain rfl := Option.some.inj (hc.symm.trans hc')
  obtain rfl := Option.some.inj (hf.symm.trans hf')
  simp [hst]

theorem Awaited.setCall (h : r.Awaited) (hs : r.Settled c) (call : Call) :
    (r.setCall c call).Awaited := by
  intro key fut hm
  obtain ⟨hp, c', call', hc', hf⟩ := h key fut hm
  refine ⟨hp, c', call', ?_, hf⟩
  rw [calls_setCall, if_neg]
  · exact hc'
  · rintro rfl
    exact hs call' fut hc' hf hp

theorem Awaited.spawn (h : r.Awaited) (hr : r.Consistent) (call : Call) :
    (r.spawn call).Awaited := by
  refine Awaited.setCall (r := { r with nextCall := r.nextCall + 1 }) h (fun call' _ hc => ?_) call
  rw [show r.calls r.nextCall = none from hr.fresh _ le_rfl] at hc
  cases hc

theorem Awaited.wait (h : r.Awaited) (hs : r.Settled c) {key : Name}
    {phase : ℕ → ℕ → Phase} (hp : ∀ fut deadline, (phase fut deadline).future = some fut)
    (call : Call) : (r.wait c call key phase).Awaited := by
  intro key' fut hm
  rcases Futures.mem_notifiers_register.mp hm with hm | ⟨-, rfl⟩
  · obtain ⟨hst, c', call', hc', hf⟩ := h key' fut hm
    refine ⟨(Futures.state_register _ _ (r.notifiers.bound _ _ hm)).trans hst, c', call', ?_, hf⟩
    rw [calls_wait, if_neg]
    · exact hc'
    · rintro rfl
      exact hs call' fut hc' hf hst
  · exact ⟨Futures.state_register_self .., c, _, (calls_wait ..).trans (if_pos rfl), hp _ _⟩

theorem Awaited.outcome (h : r.Awaited) (hs : r.Settled c) {faces : List FaceId}
    (ho : Outcome r c call faces r') : r'.Awaited := by
  cases ho with
  | failed _ => exact h.setCall hs _
  | send _ => exact Awaited.setCall (r := { r with log := _ }) h hs _

theorem Awaited.notify (h : r.Awaited) (hr : r.Consistent) (key : Name) (reply : Reply) :
    (r.notify key reply).Awaited := by
  intro key' fut hm
  obtain ⟨hm, hne⟩ := Futures.mem_notifiers_announce.mp hm
  obtain ⟨hp, c, call, hc, hf⟩ := h key' fut hm
  have hown := hr.owned c call fut hc hf
  have hkey : key ≠ call.interest.pitName := fun he => hne ((hown.unique _ hm).trans he.symm)
  exact ⟨(hown.state_announce_ne hkey reply).trans hp, c, call, hc, hf⟩

theorem Awaited.giveUp (h : r.Awaited) {fut : ℕ} (hp : r.notifiers.state fut ≠ .pending) :
    (r.giveUp fut).Awaited := by
  intro key fut' hm
  obtain ⟨hst, hcall⟩ := h key fut' hm
  have hne : fut' ≠ fut := fun he => hp (he ▸ hst)
  exact ⟨(Futures.state_cancel_ne _ hne).trans hst, hcall⟩

theorem not_awaited_of_giveUp {key : Name} {fut : ℕ} (hown : r.notifiers.Owned key fut)
    (hp : r.notifiers.state fut = .pending)
    (hn : r'.notifiers = (r.giveUp fut).notifiers) : ¬ r'.Awaited := by
  intro h
  have hm : fut ∈ r'.notifiers.notifiers key := by
    rw [hn]
    exact hown.mem hp
  have hst := (h key fut hm).1
  rw [hn] at hst
  exact absurd ((Futures.state_cancel_self ..).symm.trans hst) (by simp)

end EventLoop

namespace Forwarder

open EventLoop

/-- An event of the forwarder, or the task of a call is cancelled. -/
inductive TaskLabel where
  | event (l : Label)
  | cancel (c : CallId)
  deriving DecidableEq, Repr

/-- The event ends the wait of a call before its future is done. -/
def GivesUp (s : Forwarder) (l : TaskLabel) : Prop :=
  ∃ c call fut, (l = .event (.timeout c) ∨ l = .cancel c) ∧ s.loop.calls c = some call ∧
    call.phase.future = some fut ∧ s.loop.notifiers.state fut = .pending

variable [Hashlib]

def taskStep (s : Forwarder) : TaskLabel → Option Forwarder
  | .event l => s.step l
  | .cancel c => some (s.cancel c)

variable {s t : Forwarder} {c : CallId} {call : Call}

theorem taskStep_consistent {l : TaskLabel} (h : s.Consistent) (hs : taskStep s l = some t) :
    t.Consistent := by
  cases l with
  | event l => exact step_consistent hs h
  | cancel c => exact Option.some.inj hs ▸ consistent_cancel h c

omit [Hashlib] in
theorem Ran.awaited {l : Label} {r : EventLoop} (ran : Ran s c call l r)
    (hc : s.loop.calls c = some call) (h : s.loop.Awaited) (hno : ¬ s.GivesUp (.event l)) :
    r.Awaited := by
  cases ran with
  | started hp ho => exact h.outcome (settled_of_future hc (by rw [hp]; rfl)) ho
  | sent hp => exact h.wait (settled_of_future hc (by rw [hp]; rfl)) (fun _ _ => rfl) call
  | sendRaised hp => exact h.setCall (settled_of_future hc (by rw [hp]; rfl)) _
  | answered hp hst =>
    exact Awaited.setCall (r := s.loop.record _) h (settled_of_done hc (by rw [hp]; rfl) hst) _
  | nacked hp hst ho =>
    exact Awaited.outcome (r := s.loop.record _) h (settled_of_done hc (by rw [hp]; rfl) hst) ho
  | shared hp hst => exact h.setCall (settled_of_done hc (by rw [hp]; rfl) hst) _
  | sharedNack hp hst => exact h.setCall (settled_of_done hc (by rw [hp]; rfl) hst) _
  | expired hp hst _ _ => exact absurd ⟨c, call, _, .inl rfl, hc, by rw [hp]; rfl, hst⟩ hno
  | sharedExpired hp hst _ => exact absurd ⟨c, call, _, .inl rfl, hc, by rw [hp]; rfl, hst⟩ hno

theorem Change.awaited {l : Label} {r : EventLoop} (ch : Change s l r) (hcon : s.loop.Consistent)
    (h : s.loop.Awaited) (hno : ¬ s.GivesUp (.event l)) : r.Awaited := by
  have hnew (i : Interest) (inFace : FaceId) :
      (s.loop.spawn (.ofInterest i inFace)).Awaited ∧
        (s.loop.spawn (.ofInterest i inFace)).Settled s.loop.nextCall :=
    ⟨h.spawn hcon _, settled_of_future ((calls_spawn ..).trans (if_pos rfl)) rfl⟩
  cases ch with
  | @routed i inFace => exact (hnew i inFace).1.outcome (hnew i inFace).2 ‹_›
  | @hit i inFace => exact (hnew i inFace).1.setCall (hnew i inFace).2 _
  | @hitStale i inFace nonce _ _ outFace =>
    have hcon' : (s.loop.spawn (.ofInterest i inFace)).Consistent := hcon.spawn rfl
    refine ((hnew i inFace).1.spawn hcon' _).setCall (settled_of_future ?_
      (show (Call.ofInterest i inFace).phase.future = none from rfl)) _
    have hlt : s.loop.nextCall ≠ (s.loop.spawn (.ofInterest i inFace)).nextCall :=
      (Nat.lt_succ_self _).ne
    rw [calls_spawn, if_neg hlt, calls_spawn, if_pos rfl]
  | @joined i inFace => exact (hnew i inFace).1.wait (hnew i inFace).2 (fun _ _ => rfl) _
  | ran hc ran => exact ran.awaited hc h hno
  | data _ => exact Awaited.notify (r := s.loop.record _) h (hcon.record _) _ _
  | unmatched _ => exact h
  | nack => exact Awaited.notify (r := s.loop.record _) h (hcon.record _) _ _
  | tick => exact h
  | quiet _ => exact h

omit [Hashlib] in
theorem awaited_cancel (h : s.loop.Awaited) (hno : ¬ s.GivesUp (.cancel c)) :
    (s.cancel c).loop.Awaited := by
  rw [cancel]
  cases hc : s.loop.calls c with
  | none => exact h
  | some call =>
    have hdone {fut : ℕ} (hf : call.phase.future = some fut) :
        s.loop.notifiers.state fut ≠ .pending :=
      fun hp => hno ⟨c, call, fut, .inr rfl, hc, hf, hp⟩
    have hgone {fut : ℕ} (hf : call.phase.future = some fut) (call' : Call) :
        ((s.loop.giveUp fut).setCall c call').Awaited := by
      refine (h.giveUp (hdone hf)).setCall (fun call'' fut' hc' hf' => ?_) call'
      obtain rfl := Option.some.inj (hc.symm.trans hc')
      obtain rfl := Option.some.inj (hf.symm.trans hf')
      rw [show (s.loop.giveUp fut).notifiers.state fut = .cancelled from
        Futures.state_cancel_self ..]
      rintro ⟨⟩
    cases hp : call.phase with
    | scheduled | sending =>
      simp only [hp]
      exact h.setCall (settled_of_future hc (by rw [hp]; rfl)) _
    | waiting | aggregated =>
      simp only [hp]
      exact hgone (by rw [hp]; rfl) _
    | returned | raised =>
      simp only [hp]
      exact h

theorem taskStep_awaited {l : TaskLabel} (hcon : s.Consistent) (h : s.loop.Awaited)
    (hs : taskStep s l = some t) (hno : ¬ s.GivesUp l) : t.loop.Awaited := by
  cases l with
  | event l => exact (step_change hs).awaited hcon.loop h hno
  | cancel c => exact Option.some.inj hs ▸ awaited_cancel h hno

theorem taskStep_not_awaited {l : TaskLabel} (hcon : s.Consistent) (hs : taskStep s l = some t)
    (hg : s.GivesUp l) : ¬ t.loop.Awaited := by
  obtain ⟨c, call, fut, hl, hc, hf, hp⟩ := hg
  refine not_awaited_of_giveUp (hcon.loop.owned c call fut hc hf) hp ?_
  rcases hl with rfl | rfl
  · have hstep : step s (.timeout c) = some t := hs
    have ran := (step_change hstep).ran_of_runs rfl hc
    generalize t.loop = r at ran
    cases ran with
    | expired hp' _ _ ho =>
      rw [hp'] at hf
      obtain rfl := Option.some.inj hf
      exact ho.notifiers
    | sharedExpired hp' _ _ =>
      rw [hp'] at hf
      obtain rfl := Option.some.inj hf
      rfl
  · obtain rfl := Option.some.inj hs
    rw [cancel, hc]
    cases hp' : call.phase with
    | waiting | aggregated =>
      rw [hp'] at hf
      obtain rfl := Option.some.inj hf
      simp only [hp']
      rfl
    | _ =>
      rw [hp'] at hf
      cases hf

omit [Hashlib] in
theorem Initial.awaited (h : s.Initial) : s.loop.Awaited := by
  intro key fut hm
  rw [h.notifiers] at hm
  cases hm

/-- In every state of a run the futures that are kept are those of calls that still await them, and
none is kept when no call is in flight, exactly if no wait of the run ended before its future was
done. -/
theorem futures_awaited_iff {ls : List TaskLabel} (h : Run taskStep anyStep s ls t)
    (hs : s.Initial) :
    (∀ e ∈ trace taskStep s ls, e.2.2.loop.Awaited ∧
      (e.2.2.loop.Idle → ∀ key, e.2.2.loop.notifiers.notifiers key = [])) ↔
    ∀ e ∈ trace taskStep s ls, ¬ e.1.GivesUp e.2.1 := by
  have hiff := h.trace_invariant_iff hs.consistent hs.awaited
    (fun _ _ _ hcon _ hst => taskStep_consistent hcon hst)
    (fun _ _ _ hcon ha _ hst hno => taskStep_awaited hcon ha hst hno)
    fun _ _ _ hcon _ hst hg => taskStep_not_awaited hcon hst hg
  rw [← hiff]
  exact forall₂_congr fun e _ => ⟨fun he => he.1, fun he => ⟨he, fun hi => he.of_idle hi⟩⟩

def answeredCall : List TaskLabel :=
  [.event (.express (request 1 1000) 7 []), .event (.sent 0),
    .event (.receiveData answer 1 false), .event (.resume 0)]

def expiredCall : List TaskLabel :=
  [.event (.express (request 1 1000) 7 []), .event (.sent 0), .event (.tick 1000 1),
    .event (.timeout 0)]

def relayTasks (ls : List TaskLabel) : Forwarder :=
  letI := Data.paddedHash
  (exec taskStep (relay [1]) ls).getD (relay [1])

omit [Hashlib] in
theorem answered_call_awaited :
    letI := Data.paddedHash
    Run taskStep anyStep (relay [1]) answeredCall (relayTasks answeredCall) ∧
      ∀ e ∈ trace taskStep (relay [1]) answeredCall, e.2.2.loop.Awaited ∧
        (e.2.2.loop.Idle → ∀ key, e.2.2.loop.notifiers.notifiers key = []) := by
  let := Data.paddedHash
  have hrun : Run taskStep anyStep (relay [1]) answeredCall (relayTasks answeredCall) :=
    run_of_exec rfl
  refine ⟨hrun, (futures_awaited_iff hrun (relay_initial [1])).mpr fun e he hg => ?_⟩
  obtain ⟨c, call, fut, hl, -⟩ := hg
  have hm := label_of_mem_trace he
  rcases hl with hl | hl <;> simp [hl, answeredCall] at hm

omit [Hashlib] in
/-- Nothing is in flight after a timeout, but the future of the call is still kept. -/
theorem expired_call_kept :
    letI := Data.paddedHash
    Run taskStep anyStep (relay [1]) expiredCall (relayTasks expiredCall) ∧
      (relayTasks expiredCall).loop.Idle ∧
      (relayTasks expiredCall).loop.notifiers.notifiers relayName = [0] ∧
      ¬ (relayTasks expiredCall).loop.Awaited := by
  let := Data.paddedHash
  have hsome : (exec taskStep (relay [1]) expiredCall).isSome = true := by decide +kernel
  have hrun : Run taskStep anyStep (relay [1]) expiredCall (relayTasks expiredCall) := by
    obtain ⟨t, ht⟩ := Option.isSome_iff_exists.mp hsome
    rw [relayTasks, ht]
    exact run_of_exec ht
  have hcon : (relayTasks expiredCall).Consistent :=
    hrun.invariant (relay_initial [1]).consistent fun _ _ _ hi _ hs => taskStep_consistent hi hs
  have hkept : (relayTasks expiredCall).loop.notifiers.notifiers relayName = [0] := rfl
  have hidle : (relayTasks expiredCall).loop.Idle := by
    intro c call hc
    obtain rfl : c = 0 := Nat.lt_one_iff.mp (hcon.loop.lt hc)
    have hphase : ((relayTasks expiredCall).loop.calls 0).map Call.phase =
        some (.returned none) := rfl
    have hp : call.phase = .returned none := by
      rw [hc] at hphase
      exact Option.some.inj hphase
    rw [hp]
    exact .returned none
  refine ⟨hrun, hidle, hkept, fun h => ?_⟩
  rw [h.of_idle hidle relayName] at hkept
  cases hkept

end Forwarder

end RnsIcn
