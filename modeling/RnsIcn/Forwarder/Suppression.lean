import RnsIcn.Forwarder.Attribution
import RnsIcn.Forwarder.Failover

/-! # Suppression of duplicates

An Interest for a name that is already pending joins the calls that wait for
that name and is not sent. The entry is found under the full name of the
Interest and was left under the name without a pin, so this covers the
Interests without a pin only.
-/

namespace RnsIcn

open Transition EventLoop

namespace Forwarder

variable {s t : Forwarder} {c : CallId} {call : Call} {l : Label}

/-- Call `c` waits behind another one or has ended, and the log has no attempt of it since it
was `log`. -/
structure Quiet (log : List Event) (c : CallId) (r : EventLoop) : Prop where
  idle : ∃ call, r.calls c = some call ∧
    ((∃ fut deadline, call.phase = .aggregated fut deadline) ∨ call.phase.Ended)
  silent : ∃ es, r.log = es ++ log ∧ ∀ e ∈ es, e.begins c = false

theorem Ran.ends {r : EventLoop} (ran : Ran s c call l r) {fut deadline : ℕ}
    (hp : call.phase = .aggregated fut deadline) :
    (∃ call', r.calls c = some call' ∧ call'.phase.Ended) ∧ r.log = s.loop.log := by
  have hset (r : EventLoop) (result : Option Data) :
      ∃ call', (r.setCall c { call with phase := .returned result }).calls c = some call' ∧
        call'.phase.Ended := ⟨_, (calls_setCall ..).trans (if_pos rfl), .returned result⟩
  cases ran with
  | shared hp' _ => exact ⟨hset .., rfl⟩
  | sharedNack hp' _ => exact ⟨hset .., rfl⟩
  | sharedExpired hp' _ _ => exact ⟨hset .., rfl⟩
  | started hp' _ => exact absurd (hp.symm.trans hp') (by simp)
  | sent hp' => exact absurd (hp.symm.trans hp') (by simp)
  | sendRaised hp' => exact absurd (hp.symm.trans hp') (by simp)
  | answered hp' _ => exact absurd (hp.symm.trans hp') (by simp)
  | nacked hp' _ _ => exact absurd (hp.symm.trans hp') (by simp)
  | expired hp' _ _ _ => exact absurd (hp.symm.trans hp') (by simp)

section Suppression

variable [Hashlib] {i : Interest} {inFace : FaceId} {nonce : Bytes} {log : List Event}

theorem Quiet.step (h : Quiet log c s.loop) (hs : s.loop.Consistent) (hstep : step s l = some t) :
    Quiet log c t.loop := by
  have ch := step_change hstep
  obtain ⟨⟨call, hc, hp⟩, older, hlog, hold⟩ := h
  by_cases hl : l.runs = some c
  · have ran := ch.ran_of_runs hl hc
    rcases hp with ⟨fut, deadline, hp⟩ | he
    · obtain ⟨⟨call', hc', he⟩, hr⟩ := ran.ends hp
      exact ⟨⟨call', hc', .inr he⟩, older, hr.trans hlog, hold⟩
    · exact absurd he ran.not_ended
  · refine ⟨⟨call, (ch.frame hs hc hl).calls, hp⟩, ?_⟩
    obtain ⟨es, hr, hes⟩ := ch.log
    refine ⟨es ++ older, by rw [hr, hlog, List.append_assoc], fun e he => ?_⟩
    rcases List.mem_append.mp he with he | he
    · by_contra hb
      rcases (hes e he).1 c (by simpa using hb) with hrun | hid
      · exact hl hrun
      · exact absurd hid (hs.lt hc).ne
    · exact hold e he

theorem quiet_of_run {ls : List Label} (hrun : Run step anyStep s ls t) (hs : s.Consistent)
    (h : Quiet log c s.loop) : Quiet log c t.loop :=
  (hrun.invariant (I := fun u => u.Consistent ∧ Quiet log c u.loop) ⟨hs, h⟩ fun _ _ _ hi _ hst =>
    ⟨step_consistent hst hi.1, hi.2.step hi.1.loop hst⟩).2

theorem express_joins (nonce : Bytes) (hn : s.pit.checkLoop inFace i.nonce = false)
    {csHit : Option Data} (hl : (s.csLookup i).2 = .ok csHit)
    (hmiss : csHit.filter (BestRoute.selectorSatisfied i) = none)
    (hp : Pit.Pending i.name s.pit) :
    (s.express i inFace nonce).loop = (s.loop.spawn (.ofInterest i inFace)).wait
      s.loop.nextCall (.ofInterest i inFace) i.name .aggregated := by
  obtain ⟨e, he, hsat⟩ := hp
  obtain ⟨cs, hcs⟩ : ∃ cs, s.csLookup i = (cs, .ok csHit) := ⟨_, Prod.ext rfl hl⟩
  rw [express]
  simp only [hn, hcs, Bool.false_eq_true, if_false, Pit.find_recordNonce, BestRoute.decide, hmiss,
    BestRoute.decidePending, he, Option.any_some, hsat, Bool.not_false, if_true]
  rfl

def NewJoined (s : Forwarder) (i : Interest) (inFace : FaceId) (nonce : Bytes)
    (fut deadline : ℕ) : Prop :=
  (s.express i inFace nonce).loop.calls s.loop.nextCall =
    some { Call.ofInterest i inFace with phase := .aggregated fut deadline }

theorem pending_of_newJoined {fut deadline : ℕ} (h : s.NewJoined i inFace nonce fut deadline) :
    Pit.Pending i.name s.pit := by
  have ch := express_change s i inFace nonce
  rw [NewJoined] at h
  generalize (s.express i inFace nonce).loop = r at ch h
  cases ch with
  | routed ho =>
    obtain ⟨call, hc, hp⟩ := ho.phase
    obtain rfl := Option.some.inj (hc.symm.trans h)
    rcases hp with hf | ⟨face, rest, -, hp⟩
    · cases hf
    · cases hp
  | hit =>
    rw [calls_setCall, if_pos rfl] at h
    cases h
  | hitStale =>
    rw [calls_setCall, if_pos rfl] at h
    cases h
  | joined he hs => exact ⟨_, he, hs⟩
  | ran _ ran => cases ran
  | quiet hq => cases hq

/-- A new call that waits behind others is not a repetition, and its lookup raised nothing. -/
theorem looked_up_of_newJoined {fut deadline : ℕ} (h : s.NewJoined i inFace nonce fut deadline) :
    s.pit.checkLoop inFace i.nonce = false ∧ ∃ csHit, (s.csLookup i).2 = .ok csHit := by
  rw [NewJoined, express] at h
  by_cases hn : s.pit.checkLoop inFace i.nonce = true
  · rw [if_pos hn] at h
    rw [calls_spawn, if_pos rfl] at h
    cases h
  · rw [if_neg hn] at h
    refine ⟨by simpa using hn, ?_⟩
    cases hl : s.csLookup i with
    | mk cs lookup =>
      cases lookup with
      | error e =>
        rw [hl] at h
        simp only [finish] at h
        rw [calls_setCall, if_pos rfl] at h
        cases h
      | ok csHit => exact ⟨csHit, rfl⟩

/-- The new call waits behind the future `fut₀`: what completes the one completes the other. It
is the only new call, and in no run does it begin an attempt. -/
structure Suppressed (s : Forwarder) (fut₀ : ℕ) (i : Interest) (inFace : FaceId)
    (nonce : Bytes) : Prop where
  joined : ∃ fut deadline, s.NewJoined i inFace nonce fut deadline ∧ ∀ n reply,
    ((s.express i inFace nonce).loop.notifiers.announce n reply).state fut = .done reply ↔
      ((s.express i inFace nonce).loop.notifiers.announce n reply).state fut₀ = .done reply
  alone : (s.express i inFace nonce).loop.nextCall = s.loop.nextCall + 1
  silent : ∀ ls t, Run step anyStep (s.express i inFace nonce) ls t →
    ∃ es, t.loop.log = es ++ s.loop.log ∧ ∀ e ∈ es, e.begins s.loop.nextCall = false

/-- An Interest for the name of a call that waits on an upstream, which the cache does not answer,
is suppressed exactly if it has no pin, its name is still pending in the PIT and its nonce is
new. -/
theorem suppressed_iff {ok : Forwarder → Label → Prop} {face : FaceId} {rest : List FaceId}
    {fut₀ deadline : ℕ} (hs : Reachable Initial step ok s) (hc : s.loop.calls c = some call)
    (hw : call.phase = .waiting face rest fut₀ deadline)
    (hst : s.loop.notifiers.state fut₀ = .pending) (hname : i.name = call.interest.name)
    (hmiss : ∀ d, (s.csLookup i).2 = .ok (some d) → BestRoute.selectorSatisfied i d = false)
    (inFace : FaceId) (nonce : Bytes) :
    s.Suppressed fut₀ i inFace nonce ↔
      i.name.contentHash = none ∧ Pit.Pending i.name s.pit ∧
        s.pit.checkLoop inFace i.nonce = false ∧ ∃ csHit, (s.csLookup i).2 = .ok csHit := by
  have hcon := reachable_consistent hs
  constructor
  · rintro ⟨⟨fut, deadline', hj, -⟩, -, -⟩
    obtain ⟨e, he, hsat⟩ := pending_of_newJoined hj
    have hpin := hcon.hashFree.contentHash i.name (by simp [he])
    exact ⟨hpin, ⟨e, he, hsat⟩, looked_up_of_newJoined hj⟩
  · rintro ⟨hpin, hp, hn, csHit, hl⟩
    have hno : csHit.filter (BestRoute.selectorSatisfied i) = none := by
      rw [Option.filter_eq_none_iff]
      rintro d rfl
      simp [hmiss d hl]
    have hloop := express_joins nonce hn hl hno hp
    have hcall : s.NewJoined i inFace nonce s.loop.notifiers.next
        (s.loop.monotonic + i.lifetimeMs) := by
      rw [NewJoined, hloop, calls_wait, if_pos rfl]
      rfl
    have hcon' := step_consistent (l := .express i inFace nonce) rfl hcon
    have hkey : i.name = call.interest.pitName := by
      rw [Interest.pitName, ← hname, ← Interest.pitName, Interest.pitName_eq hpin]
    refine ⟨⟨_, _, hcall, fun n reply => ?_⟩, ?_, fun ls t hrun => ?_⟩
    · -- Both futures are pending and owned by the name.
      have ho := hcon.loop.owned c call fut₀ hc (by rw [hw]; rfl)
      rw [← hkey] at ho
      have hnew : ((s.loop.notifiers.register i.name).announce n reply).state
          s.loop.notifiers.next = .done reply ↔ n = i.name :=
        (Futures.owned_register ..).state_announce_eq_done_iff (Futures.state_register_self ..)
      have hold : ((s.loop.notifiers.register i.name).announce n reply).state fut₀ =
          .done reply ↔ n = i.name :=
        (ho.register i.name).state_announce_eq_done_iff
          ((Futures.state_register _ _ ho.lt).trans hst)
      rw [hloop]
      exact hnew.trans hold.symm
    · rw [hloop]
      rfl
    · have hq : Quiet s.loop.log s.loop.nextCall (s.express i inFace nonce).loop :=
        ⟨⟨_, hcall, .inl ⟨_, _, rfl⟩⟩, [], by rw [hloop]; rfl, by simp⟩
      exact (quiet_of_run hrun hcon' hq).silent

end Suppression

def pinned (pin : Option Bytes) (nonce : UInt8) : Interest :=
  { request nonce 1000 with name := { relayName with contentHash := pin } }

def pinnedOnce (pin : Option Bytes) : Forwarder :=
  relayAfter [1] [.express (pinned pin 1) 7 [], .sent 0]

theorem relayAfter_reachable {faces : List FaceId} {ls : List Label} {s : Forwarder}
    (h : @exec _ _ (@step Data.paddedHash) (relay faces) ls = some s) :
    @Reachable _ _ Initial (@step Data.paddedHash) anyStep (relayAfter faces ls) := by
  rw [relayAfter, h]
  exact ⟨relay faces, ls, relay_initial faces, run_of_exec h⟩

theorem second_request_joins :
    letI := Data.paddedHash
    (pinnedOnce none).Suppressed 0 (pinned none 2) 8 [] :=
  letI := Data.paddedHash
  (suppressed_iff (c := 0) (s := pinnedOnce none) (i := pinned none 2) (relayAfter_reachable rfl)
    rfl rfl rfl rfl nofun 8 []).mpr ⟨rfl, ⟨_, rfl, rfl⟩, rfl, none, rfl⟩

/-- A second Interest with the pin of one that waits on an upstream is sent as well. -/
theorem pinned_duplicate_sent :
    letI := Data.paddedHash
    let pin := some (List.replicate 32 0x01)
    let s := pinnedOnce pin
    Reachable Initial step anyStep s ∧
    (∃ call, s.loop.calls 0 = some call ∧ call.phase = .waiting 1 [] 0 1000 ∧
      s.loop.notifiers.state 0 = .pending ∧ s.loop.monotonic < 1000 ∧
      call.interest = { pinned pin 2 with nonce := [1], hopLimit := call.interest.hopLimit }) ∧
    (s.csLookup (pinned pin 2)).2 = .ok none ∧
    ¬ s.Suppressed 0 (pinned pin 2) 8 [] ∧
    (s.express (pinned pin 2) 8 []).loop.log = .attempt 1 1 0 :: s.loop.log :=
  letI := Data.paddedHash
  have hsent : (((pinnedOnce (some (List.replicate 32 0x01))).express
      (pinned (some (List.replicate 32 0x01)) 2) 8 []).loop.calls 1).map Call.phase =
        some (.sending 1 []) := rfl
  have hnot : ¬ (pinnedOnce (some (List.replicate 32 0x01))).Suppressed 0
      (pinned (some (List.replicate 32 0x01)) 2) 8 [] := fun h => by
    obtain ⟨fut, deadline, hj, -⟩ := h.joined
    cases hsent.symm.trans (congrArg (Option.map Call.phase) hj)
  ⟨relayAfter_reachable rfl, ⟨_, rfl, rfl, rfl, by decide, rfl⟩, rfl, hnot, rfl⟩

end Forwarder

end RnsIcn
