import RnsIcn.Forwarder.Steps

/-! # Calls and the futures they wait on

A call that waits owns its future under its hash-free name: while the future is
pending, an announcement for that name reaches it and no other one does. The
names in the PIT are hash-free.
-/

namespace RnsIcn

@[simp] theorem Call.pitName_hop (call : Call) (h : ℕ) :
    (call.hop h).interest.pitName = call.interest.pitName := rfl

theorem Interest.pitName_eq {i : Interest} (h : i.name.contentHash = none) :
    i.pitName = i.name := by
  rw [Interest.pitName, Name.withoutContentHash, ← h]

namespace EventLoop

variable {r r' : EventLoop} {c : CallId} {call : Call}

/-- Ids of later calls are free, a waiting call owns its future under its hash-free name, and no
two calls wait on one future. -/
structure Consistent (r : EventLoop) : Prop where
  fresh : ∀ c, r.nextCall ≤ c → r.calls c = none
  owned : ∀ c call fut, r.calls c = some call → call.phase.future = some fut →
    r.notifiers.Owned call.interest.pitName fut
  distinct : ∀ c c' call call' fut, r.calls c = some call → r.calls c' = some call' →
    call.phase.future = some fut → call'.phase.future = some fut → c = c'

theorem Consistent.lt (h : r.Consistent) (hc : r.calls c = some call) : c < r.nextCall := by
  by_contra hlt
  rw [h.fresh c (Nat.le_of_not_lt hlt)] at hc
  cases hc

theorem calls_setCall (r : EventLoop) (c c' : CallId) (call : Call) :
    (r.setCall c call).calls c' = if c' = c then some call else r.calls c' := by
  by_cases h : c' = c <;> simp [setCall, h]

theorem calls_spawn (r : EventLoop) (c' : CallId) (call : Call) :
    (r.spawn call).calls c' = if c' = r.nextCall then some call else r.calls c' :=
  calls_setCall { r with nextCall := r.nextCall + 1 } r.nextCall c' call

theorem calls_wait (r : EventLoop) (c c' : CallId) (call : Call) (key : Name)
    (phase : ℕ → ℕ → Phase) :
    (r.wait c call key phase).calls c' = if c' = c then
      some { call with phase := phase r.notifiers.next (r.monotonic + call.interest.lifetimeMs) }
      else r.calls c' :=
  calls_setCall { r with notifiers := r.notifiers.register key } c c' _

theorem calls_send (r : EventLoop) (c c' : CallId) (call : Call) (face : FaceId)
    (rest : List FaceId) :
    (r.send c call face rest).calls c' =
      if c' = c then some { call with phase := .sending face rest } else r.calls c' :=
  calls_setCall { r with log := .attempt c face r.monotonic :: r.log } c c' _

theorem Consistent.of_owned (h : r.Consistent) (hc : r'.calls = r.calls)
    (hn : r'.nextCall = r.nextCall)
    (ho : ∀ key fut, r.notifiers.Owned key fut → r'.notifiers.Owned key fut) :
    r'.Consistent where
  fresh c hlt := by rw [hc]; exact h.fresh c (hn ▸ hlt)
  owned c call fut hcall hf := ho _ _ (h.owned c call fut (hc ▸ hcall) hf)
  distinct c c' call call' fut hcall hcall' :=
    h.distinct c c' call call' fut (hc ▸ hcall) (hc ▸ hcall')

theorem Consistent.setCall (h : r.Consistent) (hc : c < r.nextCall)
    (hf : call.phase.future = none) : (r.setCall c call).Consistent where
  fresh c' hlt := by
    rw [calls_setCall, if_neg (Nat.ne_of_gt (Nat.lt_of_lt_of_le hc hlt))]
    exact h.fresh c' hlt
  owned c' call' fut hcall hfut := by
    rw [calls_setCall] at hcall
    split at hcall
    · obtain rfl := Option.some.inj hcall
      rw [hf] at hfut
      cases hfut
    · exact h.owned c' call' fut hcall hfut
  distinct c₁ c₂ call₁ call₂ fut h₁ h₂ hf₁ hf₂ := by
    rw [calls_setCall] at h₁ h₂
    split at h₁
    · obtain rfl := Option.some.inj h₁
      rw [hf] at hf₁
      cases hf₁
    · split at h₂
      · obtain rfl := Option.some.inj h₂
        rw [hf] at hf₂
        cases hf₂
      · exact h.distinct c₁ c₂ call₁ call₂ fut h₁ h₂ hf₁ hf₂

theorem Consistent.spawn (h : r.Consistent) (hf : call.phase.future = none) :
    (r.spawn call).Consistent :=
  Consistent.setCall (r := { r with nextCall := r.nextCall + 1 })
    ⟨fun c hlt => h.fresh c (Nat.le_of_succ_le hlt), h.owned, h.distinct⟩ (Nat.lt_succ_self _) hf

theorem Consistent.wait (h : r.Consistent) (hc : c < r.nextCall) {key : Name}
    (hkey : key = call.interest.pitName) {phase : ℕ → ℕ → Phase}
    (hp : ∀ fut deadline, (phase fut deadline).future = some fut) :
    (r.wait c call key phase).Consistent where
  fresh c' hlt := by
    rw [calls_wait, if_neg (Nat.ne_of_gt (Nat.lt_of_lt_of_le hc hlt))]
    exact h.fresh c' hlt
  owned c' call' fut hcall hfut := by
    rw [calls_wait] at hcall
    split at hcall
    · obtain rfl := Option.some.inj hcall
      obtain rfl := Option.some.inj ((hp _ _).symm.trans hfut)
      exact hkey ▸ Futures.owned_register r.notifiers key
    · exact (h.owned c' call' fut hcall hfut).register key
  distinct c₁ c₂ call₁ call₂ fut h₁ h₂ hf₁ hf₂ := by
    -- The future that `c` waits on now is younger than those of all other calls.
    rw [calls_wait] at h₁ h₂
    split at h₁ <;> split at h₂
    · exact (‹c₁ = c›).trans (‹c₂ = c›).symm
    · obtain rfl := Option.some.inj h₁
      obtain rfl := Option.some.inj ((hp _ _).symm.trans hf₁)
      exact absurd (h.owned c₂ call₂ _ h₂ hf₂).lt (lt_irrefl _)
    · obtain rfl := Option.some.inj h₂
      obtain rfl := Option.some.inj ((hp _ _).symm.trans hf₂)
      exact absurd (h.owned c₁ call₁ _ h₁ hf₁).lt (lt_irrefl _)
    · exact h.distinct c₁ c₂ call₁ call₂ fut h₁ h₂ hf₁ hf₂

theorem Consistent.send (h : r.Consistent) (hc : c < r.nextCall) (face : FaceId)
    (rest : List FaceId) : (r.send c call face rest).Consistent :=
  Consistent.setCall (r := { r with log := .attempt c face r.monotonic :: r.log })
    ⟨h.fresh, h.owned, h.distinct⟩ hc rfl

theorem Consistent.record (h : r.Consistent) (e : Event) : (r.record e).Consistent :=
  ⟨h.fresh, h.owned, h.distinct⟩

theorem Consistent.notify (h : r.Consistent) (key : Name) (reply : Reply) :
    (r.notify key reply).Consistent :=
  h.of_owned rfl rfl fun _ _ ho => ho.announce key reply

theorem Consistent.giveUp (h : r.Consistent) (fut : ℕ) : (r.giveUp fut).Consistent :=
  h.of_owned rfl rfl fun _ _ ho => ho.cancel fut

end EventLoop

theorem Outcome.consistent {r r' : EventLoop} {c : CallId} {call : Call} {faces : List FaceId}
    (ho : Outcome r c call faces r') (h : r.Consistent) (hc : c < r.nextCall) : r'.Consistent := by
  cases ho with
  | failed hf => exact h.setCall hc hf.future
  | send _ => exact h.send hc _ _

theorem Outcome.calls_ne {r r' : EventLoop} {c c' : CallId} {call : Call} {faces : List FaceId}
    (ho : Outcome r c call faces r') (h : c' ≠ c) : r'.calls c' = r.calls c' := by
  cases ho with
  | failed _ => exact (EventLoop.calls_setCall ..).trans (if_neg h)
  | send _ => exact (EventLoop.calls_send ..).trans (if_neg h)

theorem Outcome.notifiers {r r' : EventLoop} {c : CallId} {call : Call} {faces : List FaceId}
    (ho : Outcome r c call faces r') : r'.notifiers = r.notifiers := by
  cases ho <;> rfl

theorem Outcome.monotonic {r r' : EventLoop} {c : CallId} {call : Call} {faces : List FaceId}
    (ho : Outcome r c call faces r') : r'.monotonic = r.monotonic := by
  cases ho <;> rfl

namespace Forwarder

variable {s t : Forwarder}

structure Consistent (s : Forwarder) : Prop where
  loop : s.loop.Consistent
  hashFree : s.pit.HashFree

theorem Initial.consistent (h : s.Initial) : s.Consistent where
  loop := ⟨fun c _ => h.calls c, fun c call fut hc => by simp [h.calls] at hc,
    fun c c' call call' fut hc => by simp [h.calls] at hc⟩
  hashFree := ⟨fun n hn => by simp [Pit.find, h.pit] at hn⟩

theorem Ran.consistent {l : Label} {r : EventLoop} {c : CallId} {call : Call}
    (ran : Ran s c call l r) (hl : s.loop.Consistent) (hc : c < s.loop.nextCall) :
    r.Consistent := by
  cases ran with
  | started hp ho => exact ho.consistent hl hc
  | sent hp => exact hl.wait hc rfl fun _ _ => rfl
  | sendRaised hp => exact hl.setCall hc rfl
  | answered hp hs => exact (hl.record _).setCall hc rfl
  | nacked hp hs ho => exact ho.consistent (hl.record _) hc
  | shared hp hs => exact hl.setCall hc rfl
  | sharedNack hp hs => exact hl.setCall hc rfl
  | expired hp hs hd ho => exact ho.consistent ((hl.giveUp _).record _) hc
  | sharedExpired hp hs hd => exact (hl.giveUp _).setCall hc rfl

/-- The call that an event runs. -/
def Label.runs : Label → Option CallId
  | .start c | .sent c | .sendRaised c _ | .resume c | .timeout c => some c
  | _ => none

theorem Ran.runs {l : Label} {r : EventLoop} {c : CallId} {call : Call} (ran : Ran s c call l r) :
    l.runs = some c := by
  cases ran <;> rfl

theorem Ran.calls_ne {l : Label} {r : EventLoop} {c c' : CallId} {call : Call}
    (ran : Ran s c call l r) (h : c' ≠ c) : r.calls c' = s.loop.calls c' := by
  have hset (r : EventLoop) (call : Call) : (r.setCall c call).calls c' = r.calls c' :=
    (EventLoop.calls_setCall ..).trans (if_neg h)
  cases ran with
  | started hp ho => exact ho.calls_ne h
  | sent hp => exact (EventLoop.calls_wait ..).trans (if_neg h)
  | sendRaised hp => exact hset ..
  | answered hp hs => exact hset ..
  | nacked hp hs ho => exact ho.calls_ne h
  | shared hp hs => exact hset ..
  | sharedNack hp hs => exact hset ..
  | expired hp hs hd ho => exact ho.calls_ne h
  | sharedExpired hp hs hd => exact hset ..

theorem Ran.state {l : Label} {r : EventLoop} {c : CallId} {call : Call} (ran : Ran s c call l r)
    {fut : ℕ} (hlt : fut < s.loop.notifiers.next) (hf : call.phase.future ≠ some fut) :
    r.notifiers.state fut = s.loop.notifiers.state fut := by
  have hcancel {fut' : ℕ} (hf' : call.phase.future = some fut') :
      (s.loop.notifiers.cancel fut').state fut = s.loop.notifiers.state fut :=
    Futures.state_cancel_ne _ fun he => hf (he ▸ hf')
  cases ran with
  | started hp ho => rw [ho.notifiers]
  | sent hp => exact Futures.state_register _ _ hlt
  | sendRaised hp => rfl
  | answered hp hs => rfl
  | nacked hp hs ho => rw [ho.notifiers]; rfl
  | shared hp hs => rfl
  | sharedNack hp hs => rfl
  | expired hp hs hd ho => rw [ho.notifiers]; exact hcancel (by rw [hp]; rfl)
  | sharedExpired hp hs hd => exact hcancel (by rw [hp]; rfl)

theorem scheduleRevalidation_pit (s : Forwarder) (i : Interest) (inFace outFace : FaceId)
    (nonce : Bytes) : (s.scheduleRevalidation i inFace outFace nonce).pit = s.pit := by
  rw [scheduleRevalidation]
  split <;> rfl

theorem attemptFailed_hashFree (h : s.pit.HashFree) (c : CallId) (call : Call) (face : FaceId)
    (rest : List FaceId) : (s.attemptFailed c call face rest).pit.HashFree := by
  rw [attemptFailed]
  apply attempts_hashFree
  exact h.remove _

theorem enact_hashFree (h : s.pit.HashFree) (c : CallId) (call : Call) (nonce : Bytes)
    (fibFaces : List (FaceId × ℕ)) (decision : StrategyDecision) :
    (s.enact c call nonce fibFaces decision).pit.HashFree := by
  cases decision with
  | serveFromCache d => exact h
  | serveStaleRevalidate d face =>
    rw [enact, finish]
    exact (scheduleRevalidation_pit ..).symm ▸ h
  | suppressAggregate => exact h
  | forwardTo face => exact forward_hashFree h _
  | noRoute => exact h

variable [Hashlib]

theorem Change.consistent {l : Label} {r : EventLoop} (ch : Change s l r) (h : s.Consistent) :
    r.Consistent := by
  have hl := h.loop
  have hnew (i : Interest) (inFace : FaceId) :
      (s.loop.spawn (.ofInterest i inFace)).Consistent := hl.spawn rfl
  cases ch with
  | routed ho => exact ho.consistent (hnew _ _) (Nat.lt_succ_self _)
  | hit => exact (hnew _ _).setCall (Nat.lt_succ_self _) rfl
  | hitStale =>
    exact ((hnew _ _).spawn rfl).setCall (Nat.lt_succ_of_lt (Nat.lt_succ_self _)) rfl
  | joined hf =>
    exact (hnew _ _).wait (Nat.lt_succ_self _)
      (Interest.pitName_eq (h.hashFree.contentHash _ (Option.isSome_of_eq_some hf))).symm
      fun _ _ => rfl
  | ran hc ran => exact ran.consistent hl (hl.lt hc)
  | data hm => exact (hl.record _).notify _ _
  | unmatched hm => exact hl.record _
  | nack => exact (hl.record _).notify _ _
  | tick => exact ⟨hl.fresh, hl.owned, hl.distinct⟩
  | quiet _ => exact hl

theorem Change.ran_of_runs {l : Label} {r : EventLoop} {c : CallId} {call : Call}
    (ch : Change s l r) (hl : l.runs = some c) (hc : s.loop.calls c = some call) :
    Ran s c call l r := by
  cases ch with
  | ran hc' ran =>
    obtain rfl := Option.some.inj (hl.symm.trans ran.runs)
    obtain rfl := Option.some.inj (hc'.symm.trans hc)
    exact ran
  | quiet hq => cases l <;> cases hq <;> cases hl
  | _ => cases hl

inductive Announces (s : Forwarder) : Label → Name → Reply → Prop where

  | data {d : Data} {inFace : FaceId} {unsolicited : Bool} {m : Name} :
      answeredName s.pit d.name.withoutContentHash = .ok (some m) →
      Announces s (.receiveData d inFace unsolicited) m (.data d)

  | nack {name : Name} {inFace : FaceId} :
      Announces s (.receiveNack name inFace) name.withoutContentHash .nack

/-- What an event leaves of a call that it does not run: the call is as it was, and so is its
future unless the event announces a reply for its name. -/
structure Framed (s : Forwarder) (l : Label) (c : CallId) (call : Call) (r : EventLoop) :
    Prop where
  calls : r.calls c = some call
  future : ∀ fut, call.phase.future = some fut →
    r.notifiers.state fut = s.loop.notifiers.state fut ∨
      s.loop.notifiers.state fut = .pending ∧ ∃ reply,
        Announces s l call.interest.pitName reply ∧ r.notifiers.state fut = .done reply

theorem Change.frame {l : Label} {r : EventLoop} {c : CallId} {call : Call} (ch : Change s l r)
    (hs : s.loop.Consistent) (hc : s.loop.calls c = some call) (hl : l.runs ≠ some c) :
    Framed s l c call r := by
  have hlt := (hs.lt hc).ne
  have hspawn (i : Interest) (inFace : FaceId) :
      (s.loop.spawn (.ofInterest i inFace)).calls c = some call := by
    rw [EventLoop.calls_spawn, if_neg hlt, hc]
  have hregister {fut : ℕ} (key : Name) (hf : call.phase.future = some fut) :
      (s.loop.notifiers.register key).state fut = s.loop.notifiers.state fut :=
    Futures.state_register _ _ (hs.owned c call fut hc hf).lt
  have hannounce {key : Name} {reply : Reply} (ha : Announces s l key reply) {fut : ℕ}
      (hf : call.phase.future = some fut) :
      (s.loop.notifiers.announce key reply).state fut = s.loop.notifiers.state fut ∨
        s.loop.notifiers.state fut = .pending ∧ ∃ reply',
          Announces s l call.interest.pitName reply' ∧
            (s.loop.notifiers.announce key reply).state fut = .done reply' := by
    have ho := hs.owned c call fut hc hf
    by_cases hk : key = call.interest.pitName
    · subst hk
      cases hst : s.loop.notifiers.state fut with
      | pending => exact .inr ⟨rfl, reply, ha, ho.state_announce hst reply⟩
      | done w => exact .inl (Futures.state_announce_of_done hst)
      | cancelled => exact .inl (by simp [Futures.announce, hst, Futures.complete])
    · exact .inl (ho.state_announce_ne hk reply)
  cases ch with
  | routed ho =>
    exact ⟨(ho.calls_ne hlt).trans (hspawn _ _), fun _ _ => .inl (by rw [ho.notifiers]; rfl)⟩
  | hit =>
    exact ⟨(EventLoop.calls_setCall ..).trans ((if_neg hlt).trans (hspawn _ _)),
      fun _ _ => .inl rfl⟩
  | hitStale =>
    refine ⟨(EventLoop.calls_setCall ..).trans ((if_neg hlt).trans ?_), fun _ _ => .inl rfl⟩
    exact (EventLoop.calls_spawn ..).trans
      ((if_neg ((hs.lt hc).trans (Nat.lt_succ_self _)).ne).trans (hspawn _ _))
  | joined =>
    exact ⟨(EventLoop.calls_wait ..).trans ((if_neg hlt).trans (hspawn _ _)),
      fun _ hf => .inl (hregister _ hf)⟩
  | @ran _ c' call' _ hc' ran =>
    have hne : c ≠ c' := by rintro rfl; exact hl ran.runs
    refine ⟨(ran.calls_ne hne).trans hc, fun fut hf => .inl (ran.state ?_ ?_)⟩
    · exact (hs.owned c call fut hc hf).lt
    · exact fun hf' => hne (hs.distinct c c' call call' fut hc hc' hf hf')
  | data hm => exact ⟨hc, fun _ hf => hannounce (.data hm) hf⟩
  | unmatched hm => exact ⟨hc, fun _ _ => .inl rfl⟩
  | nack => exact ⟨hc, fun _ hf => hannounce .nack hf⟩
  | tick => exact ⟨hc, fun _ _ => .inl rfl⟩
  | quiet _ => exact ⟨hc, fun _ _ => .inl rfl⟩

theorem Change.monotonic_le {l : Label} {r : EventLoop} (ch : Change s l r) :
    s.loop.monotonic ≤ r.monotonic := by
  cases ch with
  | routed ho => exact ho.monotonic.ge
  | ran hc ran =>
    cases ran with
    | started hp ho => exact ho.monotonic.ge
    | nacked hp hs ho => exact ho.monotonic.ge
    | expired hp hs hd ho => exact ho.monotonic.ge
    | _ => exact le_rfl
  | tick => exact Nat.le_add_right _ _
  | _ => exact le_rfl

/-- The calls that an event adds: that of the Interest, which is forwarded, served, aggregated or
fails, and a refresh. -/
inductive Spawned (s : Forwarder) : Label → EventLoop → CallId → Call → Prop where

  | routed {i : Interest} {inFace : FaceId} {nonce : Bytes} {h : ℕ} {f : List FaceId}
      {r : EventLoop} {call : Call} :
      Outcome (s.loop.spawn (.ofInterest i inFace)) s.loop.nextCall
        ((Call.ofInterest i inFace).hop h) f r → r.calls s.loop.nextCall = some call →
      Spawned s (.express i inFace nonce) r s.loop.nextCall call

  | hit {i : Interest} {inFace : FaceId} {nonce : Bytes} {cs : ContentStore} {d : Data}
      {r : EventLoop} :
      s.csLookup i = (cs, .ok (some d)) → BestRoute.selectorSatisfied i d = true →
      Spawned s (.express i inFace nonce) r s.loop.nextCall
        { Call.ofInterest i inFace with phase := .returned (some d) }

  | refresh {i : Interest} {inFace : FaceId} {nonce : Bytes} {outFace : FaceId}
      {r : EventLoop} :
      Spawned s (.express i inFace nonce) r (s.loop.nextCall + 1)
        { interest := { i with nonce, mustBeFresh := true }, inFace, refreshes := some i.name
          phase := .scheduled [outFace] }

  | joined {i : Interest} {inFace : FaceId} {nonce : Bytes} {fut deadline : ℕ} {r : EventLoop} :
      r.notifiers.state fut = .pending →
      Spawned s (.express i inFace nonce) r s.loop.nextCall
        { Call.ofInterest i inFace with phase := .aggregated fut deadline }

theorem Spawned.express {l : Label} {r : EventLoop} {c : CallId} {call : Call}
    (h : Spawned s l r c call) :
    (∃ i inFace nonce, l = .express i inFace nonce) ∧ s.loop.nextCall ≤ c := by
  cases h with
  | routed => exact ⟨⟨_, _, _, rfl⟩, le_rfl⟩
  | hit => exact ⟨⟨_, _, _, rfl⟩, le_rfl⟩
  | refresh => exact ⟨⟨_, _, _, rfl⟩, Nat.le_succ _⟩
  | joined => exact ⟨⟨_, _, _, rfl⟩, le_rfl⟩

theorem Change.spawned {l : Label} {r : EventLoop} {c : CallId} {call : Call} (ch : Change s l r)
    (hnone : s.loop.calls c = none) (hc : r.calls c = some call) : Spawned s l r c call := by
  have hold {P : Prop} (hq : s.loop.calls c = some call) : P := by
    rw [hnone] at hq
    cases hq
  cases ch with
  | routed ho =>
    by_cases hid : c = s.loop.nextCall
    · subst hid
      exact .routed ho hc
    · rw [ho.calls_ne hid, EventLoop.calls_spawn, if_neg hid] at hc
      exact hold hc
  | hit hlook hsel =>
    rw [EventLoop.calls_setCall, EventLoop.calls_spawn] at hc
    split at hc
    · subst c
      exact Option.some.inj hc ▸ .hit hlook hsel
    · exact hold hc
  | hitStale hlook hsel =>
    rw [EventLoop.calls_setCall, EventLoop.calls_spawn, EventLoop.calls_spawn] at hc
    split at hc
    · subst c
      exact Option.some.inj hc ▸ .hit hlook hsel
    · split at hc
      · rename_i hid
        obtain rfl : c = s.loop.nextCall + 1 := hid
        exact Option.some.inj hc ▸ .refresh
      · exact hold hc
  | joined =>
    rw [EventLoop.calls_wait, EventLoop.calls_spawn] at hc
    split at hc
    · subst c
      exact Option.some.inj hc ▸ .joined (Futures.state_register_self ..)
    · exact hold hc
  | @ran _ c' call' _ hc' ran =>
    have hne : c ≠ c' := by rintro rfl; exact absurd (hnone.symm.trans hc') (by simp)
    exact hold ((ran.calls_ne hne).symm.trans hc)
  | data _ => exact hold hc
  | unmatched _ => exact hold hc
  | nack => exact hold hc
  | tick => exact hold hc
  | quiet _ => exact hold hc

theorem express_hashFree (h : s.pit.HashFree) (i : Interest) (inFace : FaceId) (nonce : Bytes) :
    (s.express i inFace nonce).pit.HashFree := by
  have hp := h.recordNonce inFace i.nonce s.loop.monotonic
  rw [express]
  split
  · exact h
  · cases hl : s.csLookup i with
    | mk cs lookup =>
      cases lookup with
      | error e => exact hp
      | ok csHit =>
        apply enact_hashFree
        exact hp

theorem cacheAnswer_hashFree (h : s.pit.HashFree) (d : Data) (n : Name) :
    (s.cacheAnswer d n).pit.HashFree := by
  rw [cacheAnswer]
  split
  · exact h
  · exact h.remove n

theorem receiveData_hashFree (h : s.pit.HashFree) (d : Data) (inFace : FaceId)
    (unsolicited : Bool) : (s.receiveData d inFace unsolicited).pit.HashFree := by
  rw [receiveData]
  simp only
  split
  · exact h
  · apply cacheAnswer_hashFree
    exact h.satisfy _
  · split
    · apply cacheAnswer_hashFree
      exact h
    · exact h.remove _

theorem step_hashFree {l : Label} (hs : step s l = some t) (h : s.pit.HashFree) :
    t.pit.HashFree := by
  cases l with
  | express i inFace nonce => exact Option.some.inj hs ▸ express_hashFree h ..
  | start c =>
    obtain ⟨call, -, hs⟩ := Option.bind_eq_some_iff.mp hs
    split at hs
    · exact Option.some.inj hs ▸ forward_hashFree h _
    · cases hs
  | sent c =>
    obtain ⟨call, -, hs⟩ := Option.bind_eq_some_iff.mp hs
    split at hs
    · exact Option.some.inj hs ▸ h
    · cases hs
  | sendRaised c e =>
    obtain ⟨call, -, hs⟩ := Option.bind_eq_some_iff.mp hs
    split at hs
    · exact Option.some.inj hs ▸ h
    · cases hs
  | resume c =>
    obtain ⟨call, -, hs⟩ := Option.bind_eq_some_iff.mp hs
    split at hs
    · split at hs
      · exact Option.some.inj hs ▸ h.remove _
      · exact Option.some.inj hs ▸ attemptFailed_hashFree h ..
      · cases hs
    · split at hs
      · exact Option.some.inj hs ▸ h
      · exact Option.some.inj hs ▸ h
      · cases hs
    · cases hs
  | timeout c =>
    obtain ⟨call, -, hs⟩ := Option.bind_eq_some_iff.mp hs
    split at hs
    · split at hs
      · obtain rfl := Option.some.inj hs
        apply attemptFailed_hashFree
        exact h
      · cases hs
    · split at hs
      · exact Option.some.inj hs ▸ h
      · cases hs
    · cases hs
  | receiveData d inFace unsolicited => exact Option.some.inj hs ▸ receiveData_hashFree h ..
  | receiveNack name inFace => exact Option.some.inj hs ▸ h
  | purgeExpired => exact Option.some.inj hs ▸ h.purgeExpired _
  | tick ms time => exact Option.some.inj hs ▸ h
  | registerFace face => exact Option.some.inj hs ▸ h
  | withdrawFace face => exact Option.some.inj hs ▸ h
  | addRoute namePrefix face cost => exact Option.some.inj hs ▸ h
  | store op => exact Option.some.inj hs ▸ h

theorem step_consistent {l : Label} (hs : step s l = some t) (h : s.Consistent) : t.Consistent :=
  ⟨(step_change hs).consistent h, step_hashFree hs h.hashFree⟩

theorem reachable_consistent {ok : Forwarder → Label → Prop}
    (h : Transition.Reachable Initial step ok s) : s.Consistent :=
  h.invariant (fun _ => Initial.consistent) fun _ _ _ hi _ hs => step_consistent hs hi

end Forwarder

end RnsIcn
