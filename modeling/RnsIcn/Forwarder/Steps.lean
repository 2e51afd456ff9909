import RnsIcn.Forwarder.Core

/-! # What a step can do

A forwarding decision ends in a failed call or in a new attempt. With this, the
effect of each event on the calls, their futures and the log is one of a few
changes, which the invariants are proved from.
-/

namespace RnsIcn

/-- The future that a suspended call waits on. -/
def Phase.future : Phase → Option ℕ
  | .waiting _ _ fut _ => some fut
  | .aggregated fut _ => some fut
  | _ => none

inductive Phase.Failed : Phase → Prop where

  | none : Failed (.returned none)

  | raised (e : PyError) : Failed (.raised e)

theorem Phase.Failed.future {phase : Phase} (h : phase.Failed) : phase.future = Option.none := by
  cases h <;> rfl

/-- The call with another hop limit, which forwarding lowers. -/
def Call.hop (call : Call) (h : ℕ) : Call :=
  { call with interest := { call.interest with hopLimit := h } }

def Call.ofInterest (i : Interest) (inFace : FaceId) : Call :=
  { interest := i, inFace, phase := .returned none }

/-- Forwarding `c` to one of `faces` fails the call or begins an attempt. -/
inductive Outcome (r : EventLoop) (c : CallId) (call : Call) (faces : List FaceId) :
    EventLoop → Prop where

  | failed {phase : Phase} : phase.Failed →
      Outcome r c call faces (r.setCall c { call with phase })

  | send {face : FaceId} {rest : List FaceId} {raw : Bytes} : call.interest.toBytes = .ok raw →
      face :: rest <:+ faces → Outcome r c call faces (r.send c call face rest)

theorem Outcome.mono {r r' : EventLoop} {c : CallId} {call : Call} {faces faces' : List FaceId}
    (h : Outcome r c call faces r') (hs : faces <:+ faces') : Outcome r c call faces' r' := by
  cases h with
  | failed hf => exact .failed hf
  | send hb hr => exact .send hb (hr.trans hs)

namespace Forwarder

variable {s t : Forwarder} {c : CallId} {call : Call}

theorem attempts_outcome {r : EventLoop} (hr : s.loop = r) (faces : List FaceId) :
    Outcome r c call faces (s.attempts c call faces).loop := by
  induction faces generalizing s with
  | nil => exact hr ▸ .failed .none
  | cons face rest ih =>
    rw [attempts]
    split
    · split
      · exact hr ▸ .failed (.raised _)
      · rename_i hb
        exact hr ▸ .send hb (List.suffix_refl _)
    · refine Outcome.mono ?_ (List.suffix_cons face rest)
      exact ih hr

theorem attemptFailed_outcome {r : EventLoop} (hr : s.loop = r) (face : FaceId)
    (rest : List FaceId) :
    Outcome (r.record (.failure c face call.interest.pitName r.monotonic)) c call rest
      (s.attemptFailed c call face rest).loop := by
  rw [attemptFailed]
  exact attempts_outcome (by rw [hr]) rest

theorem forward_outcome (s : Forwarder) (c : CallId) (call : Call) (faces : List FaceId) :
    ∃ h, Outcome s.loop c (call.hop h) faces (s.forward c call faces).loop := by
  rw [forward]
  split
  · exact ⟨call.interest.hopLimit, .failed .none⟩
  · exact ⟨_, attempts_outcome rfl _⟩

theorem attempts_cs (s : Forwarder) (c : CallId) (call : Call) (faces : List FaceId) :
    (s.attempts c call faces).cs = s.cs := by
  induction faces generalizing s with
  | nil => rfl
  | cons face rest ih =>
    rw [attempts]
    split
    · split <;> rfl
    · exact ih _

theorem forward_cs (s : Forwarder) (c : CallId) (call : Call) (faces : List FaceId) :
    (s.forward c call faces).cs = s.cs := by
  rw [forward]
  split
  · rfl
  · exact attempts_cs ..

theorem attemptFailed_cs (s : Forwarder) (c : CallId) (call : Call) (face : FaceId)
    (rest : List FaceId) : (s.attemptFailed c call face rest).cs = s.cs := by
  rw [attemptFailed]
  exact attempts_cs ..

theorem scheduleRevalidation_cs (s : Forwarder) (i : Interest) (inFace outFace : FaceId)
    (nonce : Bytes) : (s.scheduleRevalidation i inFace outFace nonce).cs = s.cs := by
  rw [scheduleRevalidation]
  split <;> rfl

theorem enact_cs (s : Forwarder) (c : CallId) (call : Call) (nonce : Bytes)
    (fibFaces : List (FaceId × ℕ)) (decision : StrategyDecision) :
    (s.enact c call nonce fibFaces decision).cs = s.cs := by
  cases decision with
  | serveStaleRevalidate d face => exact scheduleRevalidation_cs ..
  | forwardTo face => exact forward_cs ..
  | _ => rfl

theorem attempts_hashFree (h : s.pit.HashFree) (faces : List FaceId) :
    (s.attempts c call faces).pit.HashFree := by
  induction faces generalizing s with
  | nil => exact h
  | cons face rest ih =>
    have hp := h.forward (n := call.interest.pitName) rfl call.inFace face call.interest
      s.loop.monotonic
    rw [attempts]
    split
    · split <;> exact hp
    · exact ih (hp.remove _)

theorem forward_hashFree (h : s.pit.HashFree) (faces : List FaceId) :
    (s.forward c call faces).pit.HashFree := by
  rw [forward]
  split
  · exact h
  · exact attempts_hashFree h faces

theorem scheduleRevalidation_loop (s : Forwarder) (i : Interest) (inFace outFace : FaceId)
    (nonce : Bytes) :
    (s.scheduleRevalidation i inFace outFace nonce).loop = s.loop ∨
      (s.scheduleRevalidation i inFace outFace nonce).loop = s.loop.spawn
        { interest := { i with nonce, mustBeFresh := true }, inFace, refreshes := some i.name
          phase := .scheduled [outFace] } := by
  rw [scheduleRevalidation]
  split
  · exact .inl rfl
  · exact .inr rfl

theorem cacheAnswer_loop [Hashlib] (s : Forwarder) (d : Data) (n : Name) :
    (s.cacheAnswer d n).loop = s.loop := by
  rw [cacheAnswer]
  split <;> rfl

variable [Hashlib]

/-- The events that change tables but no call. -/
def Label.Quiet : Label → Prop
  | .purgeExpired | .registerFace _ | .withdrawFace _ | .addRoute .. | .store _ => True
  | _ => False

/-- The changes that an event makes when it runs the suspended call `c`. -/
inductive Ran (s : Forwarder) (c : CallId) (call : Call) : Label → EventLoop → Prop where

  | started {outFaces : List FaceId} {h : ℕ} {r : EventLoop} :
      call.phase = .scheduled outFaces → Outcome s.loop c (call.hop h) outFaces r →
      Ran s c call (.start c) r

  | sent {face : FaceId} {rest : List FaceId} : call.phase = .sending face rest →
      Ran s c call (.sent c) (s.loop.wait c call call.interest.pitName (.waiting face rest))

  | sendRaised {face : FaceId} {rest : List FaceId} {e : PyError} :
      call.phase = .sending face rest →
      Ran s c call (.sendRaised c e) (s.loop.setCall c { call with phase := .raised e })

  | answered {face : FaceId} {rest : List FaceId} {fut deadline : ℕ} {d : Data} :
      call.phase = .waiting face rest fut deadline →
      s.loop.notifiers.state fut = .done (.data d) →
      Ran s c call (.resume c) ((s.loop.record (.success c face d)).setCall c
        { call with phase := .returned (some d) })

  | nacked {face : FaceId} {rest : List FaceId} {fut deadline : ℕ} {r : EventLoop} :
      call.phase = .waiting face rest fut deadline → s.loop.notifiers.state fut = .done .nack →
      Outcome (s.loop.record (.failure c face call.interest.pitName s.loop.monotonic)) c call rest
        r → Ran s c call (.resume c) r

  | shared {fut deadline : ℕ} {d : Data} : call.phase = .aggregated fut deadline →
      s.loop.notifiers.state fut = .done (.data d) →
      Ran s c call (.resume c) (s.loop.setCall c { call with phase := .returned (some d) })

  | sharedNack {fut deadline : ℕ} : call.phase = .aggregated fut deadline →
      s.loop.notifiers.state fut = .done .nack →
      Ran s c call (.resume c) (s.loop.setCall c { call with phase := .returned none })

  | expired {face : FaceId} {rest : List FaceId} {fut deadline : ℕ} {r : EventLoop} :
      call.phase = .waiting face rest fut deadline → s.loop.notifiers.state fut = .pending →
      deadline ≤ s.loop.monotonic →
      Outcome ((s.loop.giveUp fut).record
        (.failure c face call.interest.pitName s.loop.monotonic)) c call rest r →
      Ran s c call (.timeout c) r

  | sharedExpired {fut deadline : ℕ} : call.phase = .aggregated fut deadline →
      s.loop.notifiers.state fut = .pending → deadline ≤ s.loop.monotonic →
      Ran s c call (.timeout c)
        ((s.loop.giveUp fut).setCall c { call with phase := .returned none })

inductive Change (s : Forwarder) : Label → EventLoop → Prop where

  | routed {i : Interest} {inFace : FaceId} {nonce : Bytes} {h : ℕ} {f : List FaceId}
      {r : EventLoop} :
      Outcome (s.loop.spawn (.ofInterest i inFace)) s.loop.nextCall
        ((Call.ofInterest i inFace).hop h) f r → Change s (.express i inFace nonce) r

  | hit {i : Interest} {inFace : FaceId} {nonce : Bytes} {cs : ContentStore} {d : Data} :
      s.csLookup i = (cs, .ok (some d)) → BestRoute.selectorSatisfied i d = true →
      Change s (.express i inFace nonce) ((s.loop.spawn (.ofInterest i inFace)).setCall
        s.loop.nextCall { Call.ofInterest i inFace with phase := .returned (some d) })

  | hitStale {i : Interest} {inFace : FaceId} {nonce : Bytes} {cs : ContentStore} {d : Data}
      {outFace : FaceId} :
      s.csLookup i = (cs, .ok (some d)) → BestRoute.selectorSatisfied i d = true →
      Change s (.express i inFace nonce) (((s.loop.spawn (.ofInterest i inFace)).spawn
        { interest := { i with nonce, mustBeFresh := true }, inFace, refreshes := some i.name
          phase := .scheduled [outFace] }).setCall s.loop.nextCall
            { Call.ofInterest i inFace with phase := .returned (some d) })

  | joined {i : Interest} {inFace : FaceId} {nonce : Bytes} {e : PitEntry} :
      s.pit.find i.name = some e → e.satisfied = false →
      Change s (.express i inFace nonce) ((s.loop.spawn (.ofInterest i inFace)).wait
        s.loop.nextCall (.ofInterest i inFace) i.name .aggregated)

  | ran {l : Label} {c : CallId} {call : Call} {r : EventLoop} :
      s.loop.calls c = some call → Ran s c call l r → Change s l r

  | data {d : Data} {inFace : FaceId} {unsolicited : Bool} {m : Name} :
      answeredName s.pit d.name.withoutContentHash = .ok (some m) →
      Change s (.receiveData d inFace unsolicited)
        ((s.loop.record (.data inFace d)).notify m (.data d))

  | unmatched {d : Data} {inFace : FaceId} {unsolicited : Bool} :
      (∀ m, answeredName s.pit d.name.withoutContentHash ≠ .ok (some m)) →
      Change s (.receiveData d inFace unsolicited) (s.loop.record (.data inFace d))

  | nack {name : Name} {inFace : FaceId} :
      Change s (.receiveNack name inFace)
        ((s.loop.record (.nack inFace name)).notify name.withoutContentHash .nack)

  | tick {ms time : ℕ} :
      Change s (.tick ms time) { s.loop with monotonic := s.loop.monotonic + ms }

  | quiet {l : Label} : l.Quiet → Change s l s.loop

theorem express_change (s : Forwarder) (i : Interest) (inFace : FaceId) (nonce : Bytes) :
    Change s (.express i inFace nonce) (s.express i inFace nonce).loop := by
  rw [express]
  split
  · refine .routed (h := i.hopLimit) (f := []) ?_
    convert Outcome.failed Phase.Failed.none using 1
    simp [EventLoop.spawn, EventLoop.setCall, Call.ofInterest, Call.hop]
  · cases hl : s.csLookup i with
    | mk cs lookup =>
      cases lookup with
      | error e => exact .routed (h := i.hopLimit) (f := []) (.failed (.raised e))
      | ok csHit =>
        simp only
        rcases BestRoute.decide_cases s.strategy (s.loop.spawn (.ofInterest i inFace)).monotonic i
          (s.fib.lookup i.name)
          ((s.pit.recordNonce inFace i.nonce s.loop.monotonic).find i.name) csHit with
          ⟨d, rfl, hs, h | ⟨face, h⟩⟩ | ⟨e, he, hs, h⟩ | ⟨-, face, h⟩ | h
        all_goals
          simp only [Call.ofInterest] at h
          rw [h, enact]
        · exact .hit hl hs
        · simp only
          rcases scheduleRevalidation_loop { s with
            cs, pit := s.pit.recordNonce inFace i.nonce s.loop.monotonic
            loop := s.loop.spawn (.ofInterest i inFace) } i inFace face nonce with hr | hr
          all_goals
            simp only [Call.ofInterest] at hr
            rw [finish, hr]
          · exact .hit hl hs
          · exact .hitStale hl hs
        · rw [Pit.find_recordNonce] at he
          exact .joined he hs
        · obtain ⟨h, ho⟩ := forward_outcome { s with
            cs, pit := s.pit.recordNonce inFace i.nonce s.loop.monotonic
            loop := s.loop.spawn (.ofInterest i inFace) } s.loop.nextCall
            (.ofInterest i inFace) _
          exact .routed ho
        · exact .routed (h := i.hopLimit) (f := []) (.failed .none)

theorem receiveData_change (s : Forwarder) (d : Data) (inFace : FaceId) (unsolicited : Bool) :
    Change s (.receiveData d inFace unsolicited) (s.receiveData d inFace unsolicited).loop := by
  rw [receiveData]
  simp only
  split
  · rename_i e h
    exact .unmatched fun m hm => by simp [h] at hm
  · rename_i m h
    rw [cacheAnswer_loop]
    exact .data h
  · rename_i h
    have hn : ∀ m, answeredName s.pit d.name.withoutContentHash ≠ .ok (some m) := fun m hm => by
      simp [h] at hm
    split
    · rw [cacheAnswer_loop]
      exact .unmatched hn
    · exact .unmatched hn

theorem resume_change (h : s.resume c = some t) : Change s (.resume c) t.loop := by
  obtain ⟨call, hc, h⟩ := Option.bind_eq_some_iff.mp h
  split at h
  · rename_i face rest fut deadline hp
    split at h
    · rename_i d hs
      obtain rfl := Option.some.inj h
      exact .ran hc (.answered hp hs)
    · rename_i hs
      obtain rfl := Option.some.inj h
      exact .ran hc (.nacked hp hs (attemptFailed_outcome (by rfl) ..))
    · cases h
  · rename_i fut deadline hp
    split at h
    · rename_i d hs
      obtain rfl := Option.some.inj h
      exact .ran hc (.shared hp hs)
    · rename_i hs
      obtain rfl := Option.some.inj h
      exact .ran hc (.sharedNack hp hs)
    · cases h
  · cases h

theorem timeout_change (h : s.timeout c = some t) : Change s (.timeout c) t.loop := by
  obtain ⟨call, hc, h⟩ := Option.bind_eq_some_iff.mp h
  split at h
  · rename_i face rest fut deadline hp
    split at h
    · rename_i hs
      obtain rfl := Option.some.inj h
      exact .ran hc (.expired hp hs.1 hs.2 (attemptFailed_outcome (by rfl) ..))
    · cases h
  · rename_i fut deadline hp
    split at h
    · rename_i hs
      obtain rfl := Option.some.inj h
      exact .ran hc (.sharedExpired hp hs.1 hs.2)
    · cases h
  · cases h

theorem start_change (h : s.start c = some t) : Change s (.start c) t.loop := by
  obtain ⟨call, hc, h⟩ := Option.bind_eq_some_iff.mp h
  split at h
  · rename_i outFaces hp
    obtain rfl := Option.some.inj h
    obtain ⟨h, ho⟩ := forward_outcome s c call outFaces
    exact .ran hc (.started hp ho)
  · cases h

theorem sent_change (h : s.sent c = some t) : Change s (.sent c) t.loop := by
  obtain ⟨call, hc, h⟩ := Option.bind_eq_some_iff.mp h
  split at h
  · rename_i hp
    obtain rfl := Option.some.inj h
    exact .ran hc (.sent hp)
  · cases h

theorem sendRaised_change {e : PyError} (h : s.sendRaised c e = some t) :
    Change s (.sendRaised c e) t.loop := by
  obtain ⟨call, hc, h⟩ := Option.bind_eq_some_iff.mp h
  split at h
  · rename_i hp
    obtain rfl := Option.some.inj h
    exact .ran hc (.sendRaised hp)
  · cases h

theorem step_change {l : Label} (h : step s l = some t) : Change s l t.loop := by
  cases l with
  | express i inFace nonce => exact Option.some.inj h ▸ express_change ..
  | start c => exact start_change h
  | sent c => exact sent_change h
  | sendRaised c e => exact sendRaised_change h
  | resume c => exact resume_change h
  | timeout c => exact timeout_change h
  | receiveData d inFace unsolicited => exact Option.some.inj h ▸ receiveData_change ..
  | receiveNack name inFace => exact Option.some.inj h ▸ .nack
  | tick ms time => exact Option.some.inj h ▸ .tick
  | purgeExpired => exact Option.some.inj h ▸ .quiet trivial
  | registerFace face => exact Option.some.inj h ▸ .quiet trivial
  | withdrawFace face => exact Option.some.inj h ▸ .quiet trivial
  | addRoute namePrefix face cost => exact Option.some.inj h ▸ .quiet trivial
  | store op => exact Option.some.inj h ▸ .quiet trivial

def storeOp (s : Forwarder) : Label → Option StoreOp
  | .express i inFace _ =>
    if s.pit.checkLoop inFace i.nonce then none
    else if i.canBePrefix then some (.getPrefix i.name i.child i.minSequence s.time)
    else some (.get i.name s.time)
  | .receiveData d _ cacheUnsolicited =>
    match answeredName s.pit d.name.withoutContentHash with
    | .error _ => none
    | .ok (some _) => some (.insert d.name d s.time)
    | .ok none => if cacheUnsolicited then some (.insert d.name d s.time) else none
  | .store op => some op
  | _ => none

omit [Hashlib] in
theorem eq_insert_of_receiveData {d : Data} {inFace : FaceId} {unsolicited : Bool} {op : StoreOp}
    (h : s.storeOp (.receiveData d inFace unsolicited) = some op) :
    op = .insert d.name d s.time := by
  rw [storeOp] at h
  split at h
  · cases h
  · exact (Option.some.inj h).symm
  · split at h
    · exact (Option.some.inj h).symm
    · cases h

theorem csLookup_cs (s : Forwarder) (i : Interest) :
    (s.csLookup i).1 = s.cs.purgeExpired s.time := by
  rw [csLookup]
  split <;> rfl

theorem express_cs (s : Forwarder) (i : Interest) (inFace : FaceId) (nonce : Bytes) :
    (s.express i inFace nonce).cs =
      ((s.storeOp (.express i inFace nonce)).map s.cs.apply).getD s.cs := by
  rw [express, storeOp]
  split
  · rfl
  · have happly : ((if i.canBePrefix then some (.getPrefix i.name i.child i.minSequence s.time)
        else some (.get i.name s.time)).map s.cs.apply).getD s.cs = s.cs.purgeExpired s.time := by
      split <;> rfl
    rw [happly, ← csLookup_cs]
    cases hl : s.csLookup i with
    | mk cs lookup =>
      cases lookup with
      | error e => rfl
      | ok csHit => exact enact_cs ..

theorem cacheAnswer_cs (s : Forwarder) (d : Data) (n : Name) :
    (s.cacheAnswer d n).cs = s.cs.apply (.insert d.name d s.time) := by
  rw [cacheAnswer, ContentStore.apply]
  split <;> simp [*]

theorem receiveData_cs (s : Forwarder) (d : Data) (inFace : FaceId) (unsolicited : Bool) :
    (s.receiveData d inFace unsolicited).cs =
      ((s.storeOp (.receiveData d inFace unsolicited)).map s.cs.apply).getD s.cs := by
  rw [receiveData, storeOp]
  cases ha : answeredName s.pit d.name.withoutContentHash with
  | error e => simp only; rfl
  | ok matched =>
    cases matched with
    | some m => simp only; exact cacheAnswer_cs ..
    | none =>
      cases unsolicited with
      | true => simp only; exact cacheAnswer_cs ..
      | false => simp only; rfl

theorem step_cs {l : Label} (h : step s l = some t) :
    t.cs = ((s.storeOp l).map s.cs.apply).getD s.cs := by
  cases l with
  | express i inFace nonce => exact Option.some.inj h ▸ express_cs ..
  | receiveData d inFace unsolicited => exact Option.some.inj h ▸ receiveData_cs ..
  | start c =>
    obtain ⟨call, -, h⟩ := Option.bind_eq_some_iff.mp h
    split at h
    · exact Option.some.inj h ▸ forward_cs ..
    · cases h
  | sent c =>
    obtain ⟨call, -, h⟩ := Option.bind_eq_some_iff.mp h
    split at h
    · exact Option.some.inj h ▸ rfl
    · cases h
  | sendRaised c e =>
    obtain ⟨call, -, h⟩ := Option.bind_eq_some_iff.mp h
    split at h
    · exact Option.some.inj h ▸ rfl
    · cases h
  | resume c =>
    obtain ⟨call, -, h⟩ := Option.bind_eq_some_iff.mp h
    split at h
    · split at h
      · exact Option.some.inj h ▸ rfl
      · exact Option.some.inj h ▸ attemptFailed_cs ..
      · cases h
    · split at h
      · exact Option.some.inj h ▸ rfl
      · exact Option.some.inj h ▸ rfl
      · cases h
    · cases h
  | timeout c =>
    obtain ⟨call, -, h⟩ := Option.bind_eq_some_iff.mp h
    split at h
    · split at h
      · exact Option.some.inj h ▸ attemptFailed_cs ..
      · cases h
    · split at h
      · exact Option.some.inj h ▸ rfl
      · cases h
    · cases h
  | _ => exact Option.some.inj h ▸ rfl

end Forwarder

end RnsIcn
