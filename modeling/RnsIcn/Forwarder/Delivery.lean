import RnsIcn.Forwarder.Waiting
import RnsIcn.Wire.Envelope

/-! # Which answers reach a waiting call

Data that arrives completes the future of a waiting call when the PIT still has
an entry for its name. A call that is still sending has no future yet, and a
call whose entry is gone is not told, so both can end without the Data.
-/

namespace RnsIcn

open Transition

/-- A call that will not run again. -/
inductive Phase.Ended : Phase → Prop where

  | returned (result : Option Data) : Ended (.returned result)

  | raised (e : PyError) : Ended (.raised e)

theorem Phase.Failed.ne_returned {phase : Phase} (h : phase.Failed) (d : Data) :
    phase ≠ .returned (some d) := by
  cases h <;> exact nofun

theorem Phase.Ended.future {phase : Phase} (h : phase.Ended) : phase.future = none := by
  cases h <;> rfl

theorem Phase.Failed.ended {phase : Phase} (h : phase.Failed) : phase.Ended := by
  cases h with
  | none => exact .returned _
  | raised e => exact .raised e

namespace EventLoop

variable {r r' : EventLoop} {c c' : CallId} {call call' : Call} {d : Data}

/-- Call `c` has returned `d` or its future is completed with it. -/
def Got (d : Data) (c : CallId) (r : EventLoop) : Prop :=
  ∃ call, r.calls c = some call ∧ (call.phase = .returned (some d) ∨
    ∃ fut, call.phase.future = some fut ∧ r.notifiers.state fut = .done (.data d))

theorem Got.state_eq (h : Got d c r) (hc : r.calls c = some call) {fut : ℕ}
    (hf : call.phase.future = some fut) : r.notifiers.state fut = .done (.data d) := by
  obtain ⟨call', hcall, hp⟩ := h
  obtain rfl := Option.some.inj (hcall.symm.trans hc)
  rcases hp with hp | ⟨fut', hf', hs⟩
  · rw [hp] at hf; cases hf
  · rwa [Option.some.inj (hf.symm.trans hf')]

theorem Got.returned (h : r'.calls c = some { call with phase := .returned (some d) }) :
    Got d c r' := ⟨_, h, .inl rfl⟩

end EventLoop

open EventLoop

theorem Outcome.phase {r r' : EventLoop} {c : CallId} {call : Call} {faces : List FaceId}
    (ho : Outcome r c call faces r') :
    ∃ call', r'.calls c = some call' ∧ (call'.phase.Failed ∨
      ∃ face rest, face :: rest <:+ faces ∧ call'.phase = .sending face rest) := by
  cases ho with
  | failed hf => exact ⟨_, (calls_setCall ..).trans (if_pos rfl), .inl hf⟩
  | send _ hr => exact ⟨_, (calls_send ..).trans (if_pos rfl), .inr ⟨_, _, hr, rfl⟩⟩

namespace Forwarder

variable {s t : Forwarder} {c : CallId} {call : Call} {d : Data}

/-- A call that has sent or is sending its Interest, or joined another, and was not yet told
anything, within its lifetime. -/
inductive Live (s : Forwarder) (c : CallId) (call : Call) : Prop where

  | sending {face : FaceId} {rest : List FaceId} : s.loop.calls c = some call →
      call.phase = .sending face rest → Live s c call

  | waiting {face : FaceId} {rest : List FaceId} {fut deadline : ℕ} :
      s.loop.calls c = some call → call.phase = .waiting face rest fut deadline →
      s.loop.notifiers.state fut = .pending → s.loop.monotonic < deadline → Live s c call

  | aggregated {fut deadline : ℕ} : s.loop.calls c = some call →
      call.phase = .aggregated fut deadline → s.loop.notifiers.state fut = .pending →
      s.loop.monotonic < deadline → Live s c call

theorem pendingAncestor_find {p : Pit} {n m : Name} {i : ℕ}
    (h : pendingAncestor p n i = .ok (some m)) : (p.find m).isSome = true := by
  induction i with
  | zero => cases h
  | succ i ih =>
    obtain ⟨candidate, -, h⟩ := Fallible.bind_eq_ok.mp h
    split at h
    · rename_i hc
      obtain rfl := Option.some.inj (Except.ok.inj h)
      exact Option.isSome_of_any hc
    · exact ih h

theorem answeredName_of_find {p : Pit} {n : Name} (h : (p.find n).isSome = true) :
    answeredName p n = .ok (some n) := if_pos h

theorem answeredName_find {p : Pit} {n m : Name} (h : answeredName p n = .ok (some m)) :
    (p.find m).isSome = true := by
  rw [answeredName] at h
  split at h
  · obtain rfl := Option.some.inj (Except.ok.inj h)
    assumption
  · exact pendingAncestor_find h

theorem answeredName_isOk (p : Pit) {n : Name} (h : n.rnsAddr.length = RNS_ADDR_BYTES) :
    ∃ m, answeredName p n = .ok m := by
  have hanc (i : ℕ) : ∃ m, pendingAncestor p n i = .ok m := by
    induction i with
    | zero => exact ⟨none, rfl⟩
    | succ i ih =>
      simp only [pendingAncestor, Name.new, h, ne_eq, not_true_eq_false, if_false, bind,
        Except.bind]
      split
      · exact ⟨_, rfl⟩
      · exact ih
  rw [answeredName]
  split
  · exact ⟨_, rfl⟩
  · exact hanc _

theorem answeredName_none {p : Pit} {n : Name} (h : answeredName p n = .ok none) :
    p.find n = none := by
  by_contra hf
  rw [answeredName_of_find (Option.isSome_iff_ne_none.mpr hf)] at h
  cases h

theorem Ran.got {l : Label} {r : EventLoop} (ran : Ran s c call l r)
    (hc : s.loop.calls c = some call) (h : Got d c s.loop) : Got d c r := by
  have hidle (hf : call.phase.future = none) : call.phase = .returned (some d) := by
    obtain ⟨call', hc', hp | ⟨fut, hf', -⟩⟩ := h
    all_goals obtain rfl := Option.some.inj (hc'.symm.trans hc)
    · exact hp
    · rw [hf] at hf'; cases hf'
  have hstate {fut : ℕ} (hf : call.phase.future = some fut) := h.state_eq hc hf
  cases ran with
  | started hp ho => exact absurd (hp.symm.trans (hidle (by rw [hp]; rfl))) (by simp)
  | sent hp => exact absurd (hp.symm.trans (hidle (by rw [hp]; rfl))) (by simp)
  | sendRaised hp => exact absurd (hp.symm.trans (hidle (by rw [hp]; rfl))) (by simp)
  | @answered _ _ _ _ d' hp hst =>
    obtain rfl : d' = d := by simpa using hst.symm.trans (hstate (by rw [hp]; rfl))
    exact .returned ((calls_setCall ..).trans (if_pos rfl))
  | nacked hp hst ho => exact absurd (hst.symm.trans (hstate (by rw [hp]; rfl))) (by simp)
  | @shared _ _ d' hp hst =>
    obtain rfl : d' = d := by simpa using hst.symm.trans (hstate (by rw [hp]; rfl))
    exact .returned ((calls_setCall ..).trans (if_pos rfl))
  | sharedNack hp hst => exact absurd (hst.symm.trans (hstate (by rw [hp]; rfl))) (by simp)
  | expired hp hst hd ho => exact absurd (hst.symm.trans (hstate (by rw [hp]; rfl))) (by simp)
  | sharedExpired hp hst hd =>
    exact absurd (hst.symm.trans (hstate (by rw [hp]; rfl))) (by simp)

section Answers

variable [Hashlib]

theorem Change.got {l : Label} {r : EventLoop} (ch : Change s l r) (hs : s.loop.Consistent)
    (h : Got d c s.loop) : Got d c r := by
  obtain ⟨call, hc, hp⟩ := id h
  by_cases hl : l.runs = some c
  · exact (ch.ran_of_runs hl hc).got hc h
  · have hfr := ch.frame hs hc hl
    refine ⟨call, hfr.calls, hp.imp_right ?_⟩
    rintro ⟨fut, hf, hst⟩
    refine ⟨fut, hf, ?_⟩
    rcases hfr.future fut hf with he | ⟨hpend, -⟩
    · exact he.trans hst
    · exact absurd (hpend.symm.trans hst) (by simp)

theorem got_of_run {ls : List Label} (h : Run step anyStep s ls t) (hs : s.Consistent)
    (hg : Got d c s.loop) : Got d c t.loop :=
  (h.invariant (I := fun u => u.Consistent ∧ Got d c u.loop) ⟨hs, hg⟩ fun _ _ _ hi _ hst =>
    ⟨step_consistent hst hi.1, (step_change hst).got hi.1.loop hi.2⟩).2

/-- Whatever happens next, `c` can end, and every end of it is the return of `d`. -/
def Returns (s : Forwarder) (c : CallId) (d : Data) : Prop :=
  (∃ ls t call, Run step anyStep s ls t ∧ t.loop.calls c = some call ∧ call.phase.Ended) ∧
  ∀ ls t call, Run step anyStep s ls t → t.loop.calls c = some call → call.phase.Ended →
    call.phase = .returned (some d)

theorem returns_of_got (hs : s.Consistent) (hc : s.loop.calls c = some call) {fut : ℕ}
    (hf : call.phase.future = some fut) (hst : s.loop.notifiers.state fut = .done (.data d)) :
    Returns s c d := by
  have hg : Got d c s.loop := ⟨call, hc, .inr ⟨fut, hf, hst⟩⟩
  refine ⟨?_, fun ls t call' hrun hcall hend => ?_⟩
  · cases hp : call.phase with
    | waiting face rest fut' deadline =>
      obtain rfl : fut' = fut := by simpa [hp, Phase.future] using hf
      refine ⟨[.resume c], s.attemptSucceeded c call face d,
        { call with phase := .returned (some d) },
        .cons trivial (by simp [step, resume, hc, hp, hst]) (.nil _), ?_, .returned (some d)⟩
      exact (calls_setCall ..).trans (if_pos rfl)
    | aggregated fut' deadline =>
      obtain rfl : fut' = fut := by simpa [hp, Phase.future] using hf
      refine ⟨[.resume c], s.finish c call (.returned (some d)),
        { call with phase := .returned (some d) },
        .cons trivial (by simp [step, resume, hc, hp, hst]) (.nil _), ?_, .returned (some d)⟩
      exact (calls_setCall ..).trans (if_pos rfl)
    | _ => simp [hp, Phase.future] at hf
  · obtain ⟨call'', hcall', hp | ⟨fut', hf', -⟩⟩ := got_of_run hrun hs hg
    · obtain rfl := Option.some.inj (hcall'.symm.trans hcall)
      exact hp
    · obtain rfl := Option.some.inj (hcall'.symm.trans hcall)
      exact absurd (hf'.symm.trans hend.future) (by simp)

theorem tick_run (s : Forwarder) (ms : ℕ) :
    Run step anyStep s [.tick ms s.time]
      { s with loop := { s.loop with monotonic := s.loop.monotonic + ms } } :=
  .cons trivial rfl (.nil _)

theorem waiting_times_out {face : FaceId} {rest : List FaceId} {fut deadline : ℕ}
    (hc : s.loop.calls c = some call) (hp : call.phase = .waiting face rest fut deadline)
    (hs : s.loop.notifiers.state fut = .pending) :
    ∃ ls t call', Run step anyStep s ls t ∧ t.loop.calls c = some call' ∧
      (call'.phase.Failed ∨
        ∃ face' rest', face' :: rest' <:+ rest ∧ call'.phase = .sending face' rest') := by
  let s' : Forwarder := { s with
    loop := { s.loop with monotonic := s.loop.monotonic + deadline } }
  have hstep : step s' (.timeout c) =
      some ({ s' with loop := s'.loop.giveUp fut }.attemptFailed c call face rest) := by
    simp [step, timeout, s', hc, hp, hs]
  obtain ⟨call', hcall, hphase⟩ := Outcome.phase (attemptFailed_outcome
    (s := { s' with loop := s'.loop.giveUp fut }) (c := c) rfl face rest)
  exact ⟨_, _, call', (tick_run s deadline).snoc trivial hstep, hcall, hphase⟩

theorem sending_can_fail {face : FaceId} {rest : List FaceId}
    (hc : s.loop.calls c = some call) (hp : call.phase = .sending face rest) :
    ∃ ls t call', Run step anyStep s ls t ∧ t.loop.calls c = some call' ∧ call'.phase.Failed := by
  induction hn : rest.length using Nat.strong_induction_on generalizing s call face rest with
  | _ n ih =>
    let s' : Forwarder :=
      { s with loop := s.loop.wait c call call.interest.pitName (.waiting face rest) }
    have hstep : step s (.sent c) = some s' := by simp [step, sent, s', hc, hp]
    obtain ⟨ls, t, call', hrun, hcall, hphase⟩ := waiting_times_out (s := s') (c := c)
      ((calls_wait ..).trans (if_pos rfl)) rfl (Futures.state_register_self ..)
    have hrun' : Run step anyStep s (.sent c :: ls) t := .cons trivial hstep hrun
    rcases hphase with hf | ⟨face', rest', hsuf, hp'⟩
    · exact ⟨_, t, call', hrun', hcall, hf⟩
    · have hlt : rest'.length < n := hn ▸ hsuf.length_le
      obtain ⟨ls', u, call'', hrun'', hcall', hf⟩ := ih _ hlt hcall hp' rfl
      exact ⟨_, u, call'', hrun'.append hrun'', hcall', hf⟩

theorem waiting_can_fail {face : FaceId} {rest : List FaceId} {fut deadline : ℕ}
    (hc : s.loop.calls c = some call) (hp : call.phase = .waiting face rest fut deadline)
    (hs : s.loop.notifiers.state fut = .pending) :
    ∃ ls t call', Run step anyStep s ls t ∧ t.loop.calls c = some call' ∧ call'.phase.Failed := by
  obtain ⟨ls, t, call', hrun, hcall, hf | ⟨face', rest', -, hp'⟩⟩ := waiting_times_out hc hp hs
  · exact ⟨ls, t, call', hrun, hcall, hf⟩
  · obtain ⟨ls', u, call'', hrun', hcall', hf⟩ := sending_can_fail hcall hp'
    exact ⟨_, u, call'', hrun.append hrun', hcall', hf⟩

theorem aggregated_can_fail {fut deadline : ℕ} (hc : s.loop.calls c = some call)
    (hp : call.phase = .aggregated fut deadline) (hs : s.loop.notifiers.state fut = .pending) :
    ∃ ls t call', Run step anyStep s ls t ∧ t.loop.calls c = some call' ∧ call'.phase.Failed := by
  let s' : Forwarder := { s with
    loop := { s.loop with monotonic := s.loop.monotonic + deadline } }
  have hstep : step s' (.timeout c) =
      some ({ s' with loop := s'.loop.giveUp fut }.finish c call (.returned none)) := by
    simp [step, timeout, s', hc, hp, hs]
  exact ⟨_, _, _, (tick_run s deadline).snoc trivial hstep,
    (calls_setCall ..).trans (if_pos rfl), .none⟩

theorem not_returns_of_can_fail
    (h : ∃ ls t call', Run step anyStep s ls t ∧ t.loop.calls c = some call' ∧
      call'.phase.Failed) : ¬ Returns s c d := by
  obtain ⟨ls, t, call', hrun, hcall, hf⟩ := h
  intro hr
  exact hf.ne_returned d (hr.2 ls t call' hrun hcall hf.ended)

section Arrival

variable {inFace : FaceId} {unsolicited : Bool}

theorem receiveData_calls (s : Forwarder) (d : Data) (inFace : FaceId) (unsolicited : Bool) :
    (s.receiveData d inFace unsolicited).loop.calls = s.loop.calls := by
  have ch := receiveData_change s d inFace unsolicited
  generalize (s.receiveData d inFace unsolicited).loop = r at ch
  cases ch with
  | data _ => rfl
  | unmatched _ => rfl
  | ran _ ran => cases ran
  | quiet hq => cases hq

/-- Data that answers a pending name completes the calls that wait for that name. -/
theorem arrival_completes (hs : s.Consistent) (hc : s.loop.calls c = some call) {fut : ℕ}
    (hf : call.phase.future = some fut) (hp : s.loop.notifiers.state fut = .pending)
    (hm : answeredName s.pit d.name.withoutContentHash = .ok (some call.interest.pitName)) :
    (s.receiveData d inFace unsolicited).loop.notifiers.state fut = .done (.data d) := by
  have ch := receiveData_change s d inFace unsolicited
  generalize (s.receiveData d inFace unsolicited).loop = r at ch
  cases ch with
  | data hm' =>
    obtain rfl := Option.some.inj (Except.ok.inj (hm.symm.trans hm'))
    exact (hs.loop.owned c call fut hc hf).state_announce hp _
  | unmatched hn => exact absurd hm (hn _)
  | ran _ ran => cases ran
  | quiet hq => cases hq

/-- Data that answers a pending name is returned by every call that waits for that name. -/
theorem arrival_returned (hs : s.Consistent) (hc : s.loop.calls c = some call) {fut : ℕ}
    (hf : call.phase.future = some fut) (hp : s.loop.notifiers.state fut = .pending)
    (hm : answeredName s.pit d.name.withoutContentHash = .ok (some call.interest.pitName)) :
    Returns (s.receiveData d inFace unsolicited) c d :=
  returns_of_got (step_consistent (l := .receiveData d inFace unsolicited) rfl hs)
    ((receiveData_calls s d inFace unsolicited) ▸ hc) hf (arrival_completes hs hc hf hp hm)

/-- Data for a name without a PIT entry completes none of the calls that wait for it. -/
theorem arrival_misses (hs : s.Consistent) (hc : s.loop.calls c = some call) {fut : ℕ}
    (hf : call.phase.future = some fut) (hpit : s.pit.find call.interest.pitName = none) :
    (s.receiveData d inFace unsolicited).loop.notifiers.state fut =
      s.loop.notifiers.state fut := by
  have ch := receiveData_change s d inFace unsolicited
  generalize (s.receiveData d inFace unsolicited).loop = r at ch
  cases ch with
  | data hm =>
    refine (hs.loop.owned c call fut hc hf).state_announce_ne ?_ _
    rintro rfl
    have hfind := answeredName_find hm
    rw [hpit] at hfind
    cases hfind
  | unmatched _ => rfl
  | ran _ ran => cases ran
  | quiet hq => cases hq

end Arrival

/-- Data for the name of a live call reaches it exactly when the send of the call is done and the
PIT has an entry for the name. -/
theorem answer_returned_iff {ok : Forwarder → Label → Prop}
    (hs : Reachable Initial step ok s) (hlive : Live s c call)
    (hd : d.name.withoutContentHash = call.interest.pitName) (inFace : FaceId)
    (unsolicited : Bool) :
    Returns (s.receiveData d inFace unsolicited) c d ↔
      call.phase.future.isSome = true ∧
        (s.pit.find call.interest.pitName).isSome = true := by
  have hcon := reachable_consistent hs
  have hcalls : (s.receiveData d inFace unsolicited).loop.calls c = some call := by
    rw [receiveData_calls]; cases hlive <;> assumption
  have hreach {fut : ℕ} (hc : s.loop.calls c = some call) (hf : call.phase.future = some fut)
      (hst : s.loop.notifiers.state fut = .pending)
      (hpit : (s.pit.find call.interest.pitName).isSome = true) :
      Returns (s.receiveData d inFace unsolicited) c d :=
    arrival_returned hcon hc hf hst (by rw [hd]; exact answeredName_of_find hpit)
  cases hlive with
  | sending hc hp =>
    simp only [hp, Phase.future, Option.isSome_none, Bool.false_eq_true, false_and, iff_false]
    exact not_returns_of_can_fail (sending_can_fail hcalls hp)
  | @waiting _ _ fut _ hc hp hst hdl =>
    have hf : call.phase.future = some fut := by rw [hp]; rfl
    refine ⟨fun hr => ⟨by simp [hf], ?_⟩, fun h => hreach hc hf hst h.2⟩
    by_contra hpit
    rw [Option.not_isSome_iff_eq_none] at hpit
    exact not_returns_of_can_fail
      (waiting_can_fail hcalls hp ((arrival_misses hcon hc hf hpit).trans hst)) hr
  | @aggregated fut _ hc hp hst hdl =>
    have hf : call.phase.future = some fut := by rw [hp]; rfl
    refine ⟨fun hr => ⟨by simp [hf], ?_⟩, fun h => hreach hc hf hst h.2⟩
    by_contra hpit
    rw [Option.not_isSome_iff_eq_none] at hpit
    exact not_returns_of_can_fail
      (aggregated_can_fail hcalls hp ((arrival_misses hcon hc hf hpit).trans hst)) hr

end Answers

def relayName : Name := ⟨List.replicate 16 0x01, [[0x61]], none⟩

/-- A relay with a route to `relayName` over each of `faces`, the first the cheapest. -/
def relay (faces : List FaceId) : Forwarder where
  fib := ⟨[⟨relayName, faces.zipIdx.map fun (face, i) => (face, i)⟩]⟩
  faces := faces

theorem relay_initial (faces : List FaceId) : (relay faces).Initial := ⟨rfl, fun _ => rfl, rfl, rfl⟩

def relayAfter (faces : List FaceId) (ls : List Label) : Forwarder :=
  letI := Data.paddedHash
  (exec step (relay faces) ls).getD (relay faces)

def request (nonce : UInt8) (lifetimeMs : ℕ) : Interest :=
  { name := relayName, nonce := [nonce], lifetimeMs }

def answer : Data := { name := relayName, content := [0x68, 0x69] }

theorem waiting_call_answered :
    @Returns Data.paddedHash (@receiveData Data.paddedHash
      (relayAfter [1] [.express (request 1 1000) 7 [], .sent 0]) answer 1 false) 0 answer :=
  letI := Data.paddedHash
  (answer_returned_iff (s := relayAfter [1] [.express (request 1 1000) 7 [], .sent 0])
    ⟨relay [1], [.express (request 1 1000) 7 [], .sent 0], relay_initial [1], run_of_exec rfl⟩
    (.waiting rfl rfl rfl (by decide)) rfl 1 false).mpr ⟨rfl, rfl⟩

/-- A call that joined one with a shorter lifetime is live when Data for its name arrives, and
ends without it. -/
theorem shorter_lifetime_loses_answer :
    letI := Data.paddedHash
    let before : List Label := [.express (request 1 1000) 7 [], .sent 0,
      .express (request 2 4000) 8 [], .tick 1000 1, .timeout 0]
    let after : List Label := [.receiveData answer 1 false, .tick 3000 4, .timeout 1]
    (∃ call, Live (relayAfter [1] before) 1 call ∧
      answer.name.withoutContentHash = call.interest.pitName) ∧
    ((relayAfter [1] (before ++ after)).loop.calls 1).map Call.phase = some (.returned none) :=
  ⟨⟨{ interest := request 2 4000, inFace := 8, phase := .aggregated 1 4000 },
    .aggregated rfl rfl rfl (by decide), rfl⟩, rfl⟩

end Forwarder

end RnsIcn
