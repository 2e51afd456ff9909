import RnsIcn.Forwarder.Attribution
import RnsIcn.Forwarder.Failover

/-! # The hop limit of what is sent

A call that handles an Interest sends it with the hop limit lowered by one, on
the first face and on every later one. A refresh is a copy with the hop limit of
the Interest that asked for it, which its own forwarding lowers.
-/

namespace RnsIcn

open Transition EventLoop

/-- `j` is `i` up to the hop limit, or a refresh of it. -/
def Interest.Serves (i j : Interest) : Prop :=
  j = { i with hopLimit := j.hopLimit } ∨
    ∃ nonce, nonce.length = 8 ∧
      j = { i with nonce, mustBeFresh := true, hopLimit := j.hopLimit }

theorem Interest.Serves.refl (i : Interest) : i.Serves i := .inl rfl

theorem Interest.Serves.hop {i j : Interest} (h : i.Serves j) (hop : ℕ) :
    i.Serves { j with hopLimit := hop } := by
  rcases h with h | ⟨nonce, hn, h⟩
  · exact .inl (by rw [h])
  · exact .inr ⟨nonce, hn, by rw [h]⟩

theorem Interest.Serves.nonce {i j : Interest} (h : i.Serves j) (hi : i.nonce.length = 8) :
    j.nonce.length = 8 := by
  rcases h with h | ⟨nonce, hn, h⟩
  · rw [h]; exact hi
  · rw [h]; exact hn

def Phase.attempting : Phase → Bool
  | .sending .. | .waiting .. => true
  | _ => false

/-- The call handles `i`: its hop limit is that of `i` before it is forwarded and one less on
every attempt. -/
structure Handles (i : Interest) (call : Call) : Prop where
  serves : i.Serves call.interest
  scheduled : ∀ faces, call.phase = .scheduled faces → call.interest.hopLimit = i.hopLimit
  lowered : call.phase.attempting = true → call.interest.hopLimit + 1 = i.hopLimit

theorem Handles.of_ended {i : Interest} {call : Call} {phase : Phase}
    (h : i.Serves call.interest) (he : phase.Ended) : Handles i { call with phase } := by
  refine ⟨h, fun faces hp => ?_, fun hp => ?_⟩
  · rw [show phase = .scheduled faces from hp] at he
    cases he
  · cases he <;> cases hp

theorem Outcome.handles {r r' : EventLoop} {c : CallId} {call call' : Call} {faces : List FaceId}
    {i : Interest} (ho : Outcome r c call faces r') (h : i.Serves call.interest)
    (hl : call.interest.hopLimit + 1 = i.hopLimit) (hc : r'.calls c = some call') :
    Handles i call' := by
  cases ho with
  | failed hf =>
    rw [calls_setCall, if_pos rfl] at hc
    exact Option.some.inj hc ▸ .of_ended h hf.ended
  | send _ =>
    rw [calls_send, if_pos rfl] at hc
    exact Option.some.inj hc ▸ ⟨h, nofun, fun _ => hl⟩

/-- The attempts among the events that are logged: at most one, the last, of a call that is
sending then. -/
def BeginsLast (es : List Event) (r : EventLoop) : Prop :=
  ∀ c face start, .attempt c face start ∈ es → es.head? = some (.attempt c face start) ∧
    ∃ call rest, r.calls c = some call ∧ call.phase = .sending face rest

theorem Outcome.beginsLast {r r' : EventLoop} {c : CallId} {call : Call} {faces : List FaceId}
    {log : List Event} (ho : Outcome r c call faces r') (es : List Event) (hr : r.log = es ++ log)
    (hes : ∀ c face start, .attempt c face start ∉ es) :
    ∃ es', r'.log = es' ++ log ∧ BeginsLast es' r' := by
  cases ho with
  | failed _ => exact ⟨es, hr, fun c face start he => absurd he (hes c face start)⟩
  | @send face rest _ =>
    refine ⟨.attempt c face r.monotonic :: es, congrArg _ hr, fun c' face' start he => ?_⟩
    rcases List.mem_cons.mp he with he | he
    · obtain ⟨rfl, rfl, rfl⟩ := Event.attempt.inj he
      exact ⟨rfl, _, _, (calls_send ..).trans (if_pos rfl), rfl⟩
    · exact absurd he (hes c' face' start)

namespace Forwarder

variable {s t : Forwarder} {c : CallId} {call call' : Call} {l : Label} {i : Interest}

theorem forward_handles (h : i.Serves call.interest) (hl : call.interest.hopLimit = i.hopLimit)
    {faces : List FaceId} (hc : (s.forward c call faces).loop.calls c = some call') :
    Handles i call' := by
  rw [forward] at hc
  split at hc
  · rw [finish, calls_setCall, if_pos rfl] at hc
    exact Option.some.inj hc ▸ .of_ended h (.returned none)
  · rename_i hzero
    exact (attempts_outcome rfl faces).handles (h.hop (call.interest.hopLimit - 1))
      ((Nat.succ_pred_eq_of_ne_zero hzero).trans hl) hc

theorem forward_calls_ne {faces : List FaceId} {c' : CallId} (h : c' ≠ c) :
    (s.forward c call faces).loop.calls c' = s.loop.calls c' := by
  obtain ⟨hop, ho⟩ := forward_outcome s c call faces
  exact ho.calls_ne h

theorem Ran.handles {r : EventLoop} (ran : Ran s c call l r) (h : Handles i call)
    (hl : ∀ c, l ≠ .start c) (hc : r.calls c = some call') : Handles i call' := by
  have hended {r : EventLoop} {phase : Phase}
      (hc : (r.setCall c { call with phase }).calls c = some call') (he : phase.Ended) :
      Handles i call' := by
    rw [calls_setCall, if_pos rfl] at hc
    exact Option.some.inj hc ▸ .of_ended h.serves he
  cases ran with
  | started _ _ => exact absurd rfl (hl c)
  | sent hp =>
    rw [calls_wait, if_pos rfl] at hc
    obtain rfl := Option.some.inj hc
    exact ⟨h.serves, nofun, fun _ => h.lowered (by rw [hp]; rfl)⟩
  | sendRaised _ => exact hended hc (.raised _)
  | answered _ _ => exact hended hc (.returned _)
  | nacked hp _ ho => exact ho.handles h.serves (h.lowered (by rw [hp]; rfl)) hc
  | shared _ _ => exact hended hc (.returned _)
  | sharedNack _ _ => exact hended hc (.returned _)
  | expired hp _ _ ho => exact ho.handles h.serves (h.lowered (by rw [hp]; rfl)) hc
  | sharedExpired _ _ _ => exact hended hc (.returned _)

theorem enact_handles {nonce : Bytes} (hn : nonce.length = 8) {fibFaces : List (FaceId × ℕ)}
    {decision : StrategyDecision} {c' : CallId} (hi : call.interest = i)
    (hnew : c' = c ∨ s.loop.calls c' = none)
    (hc : (s.enact c call nonce fibFaces decision).loop.calls c' = some call') :
    Handles i call' := by
  subst hi
  have hserves := Interest.Serves.refl call.interest
  have hset {r : EventLoop} {phase : Phase} (he : phase.Ended)
      (hold : c' ≠ c → r.calls c' = some call' → Handles call.interest call')
      (hc : (r.setCall c { call with phase }).calls c' = some call') :
      Handles call.interest call' := by
    rw [calls_setCall] at hc
    split at hc
    · exact Option.some.inj hc ▸ .of_ended hserves he
    · exact hold ‹_› hc
  have hold {P : Prop} (hne : c' ≠ c) (hc : s.loop.calls c' = some call') : P := by
    rw [hnew.resolve_left hne] at hc
    cases hc
  cases decision with
  | serveFromCache d => exact hset (.returned _) (fun hne hc => hold hne hc) hc
  | serveStaleRevalidate d face =>
    refine hset (.returned _) (fun hne hc => ?_) hc
    rcases scheduleRevalidation_loop s call.interest call.inFace face nonce with hr | hr
    · exact hold hne (hr ▸ hc)
    · rw [hr, calls_spawn] at hc
      split at hc
      · obtain rfl := Option.some.inj hc
        refine ⟨.inr ⟨nonce, hn, rfl⟩, fun _ _ => rfl, ?_⟩
        rintro ⟨⟩
      · exact hold hne hc
  | suppressAggregate =>
    rw [enact, calls_wait] at hc
    split at hc
    · obtain rfl := Option.some.inj hc
      refine ⟨hserves, ?_, ?_⟩
      · rintro _ ⟨⟩
      · rintro ⟨⟩
    · exact hold ‹_› hc
  | forwardTo face =>
    rw [enact] at hc
    by_cases hne : c' = c
    · subst hne
      exact forward_handles hserves rfl hc
    · exact hold hne (forward_calls_ne hne ▸ hc)
  | noRoute => exact hset (.returned _) (fun hne hc => hold hne hc) hc

/-- What an event puts on a face: the call, the face and the Interest that is encoded. -/
def sentPacket (s t : Forwarder) : Option (CallId × FaceId × Interest) :=
  if t.loop.log = s.loop.log then none
  else
    match t.loop.log with
    | .attempt c face _ :: _ => (t.loop.calls c).map fun call => (c, face, call.interest)
    | _ => none

section Steps

variable [Hashlib]

theorem express_handles {inFace : FaceId} {nonce : Bytes} (hn : nonce.length = 8)
    (hnone : s.loop.calls c = none)
    (hc : (s.express i inFace nonce).loop.calls c = some call) : Handles i call := by
  have hnew : c = s.loop.nextCall ∨ (s.loop.spawn (.ofInterest i inFace)).calls c = none := by
    by_cases h : c = s.loop.nextCall
    · exact .inl h
    · exact .inr ((calls_spawn ..).trans ((if_neg h).trans hnone))
  have hended {r : EventLoop} {phase : Phase} (he : phase.Ended)
      (hr : c ≠ s.loop.nextCall → r.calls c = none)
      (hc : (r.setCall s.loop.nextCall { Call.ofInterest i inFace with phase }).calls c =
        some call) : Handles i call := by
    rw [calls_setCall] at hc
    split at hc
    · exact Option.some.inj hc ▸ .of_ended (.refl i) he
    · rw [hr ‹_›] at hc
      cases hc
  rw [express] at hc
  split at hc
  · exact hended (.returned none) (fun _ => hnone) hc
  · cases hl : s.csLookup i with
    | mk cs lookup =>
      rw [hl] at hc
      cases lookup with
      | error e => exact hended (.raised e) (fun hne => hnew.resolve_left hne) hc
      | ok csHit => exact enact_handles hn rfl hnew hc

theorem Handles.step (h : Handles i call) (hs : s.loop.Consistent)
    (hc : s.loop.calls c = some call) (hstep : step s l = some t)
    (hc' : t.loop.calls c = some call') : Handles i call' := by
  have ch := step_change hstep
  by_cases hl : l.runs = some c
  · by_cases hstart : ∀ c, l ≠ .start c
    · exact Ran.handles (ch.ran_of_runs hl hc) h hstart hc'
    · push Not at hstart
      obtain ⟨c', rfl⟩ := hstart
      cases hl
      obtain ⟨call₀, hc₀, hstep⟩ := Option.bind_eq_some_iff.mp hstep
      obtain rfl := Option.some.inj (hc₀.symm.trans hc)
      split at hstep
      · rename_i hp
        obtain rfl := Option.some.inj hstep
        exact forward_handles h.serves (h.scheduled _ hp) hc'
      · cases hstep
  · obtain rfl := Option.some.inj ((ch.frame hs hc hl).calls.symm.trans hc')
    exact h

theorem Change.nextCall_le {r : EventLoop} (ch : Change s l r) : s.loop.nextCall ≤ r.nextCall := by
  have hout {q : EventLoop} {c : CallId} {call : Call} {faces : List FaceId}
      (ho : Outcome q c call faces r) : r.nextCall = q.nextCall := by
    cases ho <;> rfl
  cases ch with
  | routed ho => exact (hout ho).symm ▸ Nat.le_succ _
  | hit => exact Nat.le_succ _
  | hitStale => exact (Nat.le_succ _).trans (Nat.le_succ _)
  | joined => exact Nat.le_succ _
  | ran hc ran =>
    cases ran with
    | started _ ho => exact (hout ho).ge
    | nacked _ _ ho => exact (hout ho).ge
    | expired _ _ _ ho => exact (hout ho).ge
    | _ => exact le_rfl
  | _ => exact le_rfl

theorem Change.beginsLast {r : EventLoop} (ch : Change s l r) :
    ∃ es, r.log = es ++ s.loop.log ∧ BeginsLast es r := by
  have hno (es : List Event) (hr : r.log = es ++ s.loop.log)
      (hes : ∀ c face start, .attempt c face start ∉ es) :
      ∃ es, r.log = es ++ s.loop.log ∧ BeginsLast es r :=
    ⟨es, hr, fun c face start he => absurd he (hes c face start)⟩
  cases ch with
  | routed ho => exact ho.beginsLast [] rfl (by simp)
  | ran hc ran =>
    cases ran with
    | started _ ho => exact ho.beginsLast [] rfl (by simp)
    | nacked _ _ ho => exact ho.beginsLast [_] rfl (by simp)
    | expired _ _ _ ho => exact ho.beginsLast [_] rfl (by simp)
    | answered _ _ => exact hno [_] rfl (by simp)
    | _ => exact hno [] rfl (by simp)
  | data _ => exact hno [_] rfl (by simp)
  | unmatched _ => exact hno [_] rfl (by simp)
  | nack => exact hno [_] rfl (by simp)
  | _ => exact hno [] rfl (by simp)

theorem sentPacket_eq {face : FaceId} {j : Interest} (hs : step s l = some t)
    (h : sentPacket s t = some (c, face, j)) :
    ∃ call rest, t.loop.calls c = some call ∧ call.phase = .sending face rest ∧
      call.interest = j := by
  obtain ⟨es, hlog, hes⟩ := Change.beginsLast (step_change hs)
  rw [sentPacket] at h
  split at h
  · cases h
  · rename_i hne
    split at h
    · rename_i c' face' start log hhead
      cases es with
      | nil => exact absurd hlog hne
      | cons e es =>
        obtain rfl := List.head_eq_of_cons_eq (hhead.symm.trans hlog)
        obtain ⟨-, call, rest, hc, hp⟩ := hes c' face' start List.mem_cons_self
        rw [hc] at h
        cases h
        exact ⟨call, rest, hc, hp, rfl⟩
    · cases h

theorem sentPacket_of_attempt (hs : step s l = some t) {face : FaceId} {start : ℕ}
    (he : .attempt c face start ∈ t.loop.log) :
    .attempt c face start ∈ s.loop.log ∨ ∃ j, sentPacket s t = some (c, face, j) := by
  obtain ⟨es, hlog, hes⟩ := Change.beginsLast (step_change hs)
  rw [hlog] at he
  rcases List.mem_append.mp he with he | he
  · obtain ⟨hhead, call, rest, hc, -⟩ := hes c face start he
    obtain ⟨es', rfl⟩ := List.head?_eq_some_iff.mp hhead
    refine .inr ⟨call.interest, ?_⟩
    have hne : t.loop.log ≠ s.loop.log := fun h => by
      have hlen := congrArg List.length (h.symm.trans hlog)
      simp at hlen
      omega
    rw [sentPacket, if_neg hne, hlog]
    simp [hc]
  · exact .inl he

end Steps

end Forwarder

end RnsIcn
