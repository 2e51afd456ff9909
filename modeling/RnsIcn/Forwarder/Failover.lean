import RnsIcn.Forwarder.Delivery

/-! # Failover and the calls that share it

A call that forwards tries its faces in turn and puts its name back into the PIT
for each. The calls that joined it wait through timeouts of the earlier faces
for the answer of a later one. A NACK ends them at once.
-/

namespace RnsIcn

open Transition EventLoop

def Phase.forwards : Phase → Bool
  | .scheduled _ | .sending .. | .waiting .. => true
  | _ => false

/-- Call `c` forwards the name and its current attempt is open. -/
inductive EventLoop.Forwarding (n : Name) (c : CallId) (r : EventLoop) : Prop where

  | sending {call : Call} {face : FaceId} {rest : List FaceId} : r.calls c = some call →
      call.interest.pitName = n → call.phase = .sending face rest → Forwarding n c r

  | waiting {call : Call} {face : FaceId} {rest : List FaceId} {fut deadline : ℕ} :
      r.calls c = some call → call.interest.pitName = n →
      call.phase = .waiting face rest fut deadline → r.notifiers.state fut = .pending →
      Forwarding n c r

/-- Call `c` was aggregated under the name and waits until the deadline. -/
def EventLoop.Joined (n : Name) (c : CallId) (deadline : ℕ) (r : EventLoop) : Prop :=
  ∃ call fut, r.calls c = some call ∧ call.interest.pitName = n ∧
    call.phase = .aggregated fut deadline ∧ r.notifiers.state fut = .pending

/-- Call `c` ended without Data. -/
def EventLoop.FailedCall (c : CallId) (r : EventLoop) : Prop :=
  ∃ call, r.calls c = some call ∧ call.phase.Failed

def Phase.begun : Phase → Bool
  | .sending .. | .waiting .. => true
  | _ => false

def EventLoop.Encoded (r : EventLoop) : Prop :=
  ∀ c call, r.calls c = some call → call.phase.begun = true →
    ∃ raw, call.interest.toBytes = .ok raw

/-- The PIT has an entry for the name that is not satisfied. -/
def Pit.Pending (n : Name) (p : Pit) : Prop := ∃ e, p.find n = some e ∧ e.satisfied = false

theorem Pit.Pending.insertOrAggregate (p : Pit) (n : Name) (inFace outFace : FaceId) (i : Interest)
    (now : ℕ) : Pit.Pending n ((p.insertOrAggregate n inFace i now).setOutFace n outFace) := by
  rw [Pit.Pending, Pit.find_setOutFace, if_pos rfl, Pit.find_insertOrAggregate_self]
  refine ⟨_, rfl, ?_⟩
  simp only [Pit.forwardEntry]
  split
  · rename_i e he
    have hs : e.satisfied = false := by simpa using (Option.filter_eq_some_iff.mp he).2
    split <;> exact hs
  · rfl

theorem EventLoop.Encoded.setCall {r : EventLoop} {c : CallId} {call : Call} (h : r.Encoded)
    (hcall : call.phase.begun = true → ∃ raw, call.interest.toBytes = .ok raw) :
    (r.setCall c call).Encoded := by
  intro c' call' hc' hb
  rw [calls_setCall] at hc'
  split at hc'
  · obtain rfl := Option.some.inj hc'
    exact hcall hb
  · exact h c' call' hc' hb

theorem EventLoop.Encoded.wait {r : EventLoop} {c : CallId} {call : Call} (h : r.Encoded)
    (key : Name) (phase : ℕ → ℕ → Phase)
    (hcall : (∀ fut deadline, (phase fut deadline).begun = false) ∨
      ∃ raw, call.interest.toBytes = .ok raw) : (r.wait c call key phase).Encoded := by
  refine Encoded.setCall (r := { r with notifiers := _ }) h fun hb =>
    hcall.resolve_left fun hno => ?_
  exact absurd (hb.symm.trans (hno _ _)) (by simp)

theorem Outcome.encoded {r r' : EventLoop} {c : CallId} {call : Call} {faces : List FaceId}
    (ho : Outcome r c call faces r') (h : r.Encoded) : r'.Encoded := by
  cases ho with
  | failed hf => exact h.setCall fun hb => by cases hf <;> cases hb
  | send hb _ => exact Encoded.setCall (r := { r with log := _ }) h fun _ => ⟨_, hb⟩

namespace Forwarder

section Tables

variable {s : Forwarder} {n : Name} {c : CallId} {call : Call}

theorem attempts_keeps (hn : n ≠ call.interest.pitName) (s : Forwarder) (c : CallId)
    (faces : List FaceId) : Pit.Keeps n s.pit (s.attempts c call faces).pit := by
  induction faces generalizing s with
  | nil => exact .refl n s.pit
  | cons face rest ih =>
    have hput := (Pit.keeps_insertOrAggregate hn s.pit call.inFace call.interest
      s.loop.monotonic).trans (Pit.keeps_setOutFace hn _ face)
    rw [attempts]
    split
    · split <;> exact hput
    · refine Pit.Keeps.trans ?_ (ih _)
      exact hput.trans (Pit.keeps_remove hn _)

theorem forward_keeps (hn : n ≠ call.interest.pitName) (s : Forwarder) (c : CallId)
    (faces : List FaceId) : Pit.Keeps n s.pit (s.forward c call faces).pit := by
  rw [forward]
  split
  · exact .refl n s.pit
  · apply attempts_keeps
    exact hn

theorem attemptFailed_keeps (hn : n ≠ call.interest.pitName) (s : Forwarder) (c : CallId)
    (face : FaceId) (rest : List FaceId) :
    Pit.Keeps n s.pit (s.attemptFailed c call face rest).pit := by
  rw [attemptFailed]
  refine Pit.Keeps.trans ?_ (attempts_keeps hn _ c rest)
  exact Pit.keeps_remove hn _

theorem attempts_pending (s : Forwarder) (c : CallId) (call : Call) (faces : List FaceId) :
    FailedCall c (s.attempts c call faces).loop ∨
      Pit.Pending call.interest.pitName (s.attempts c call faces).pit := by
  induction faces generalizing s with
  | nil => exact .inl ⟨_, (calls_setCall ..).trans (if_pos rfl), .none⟩
  | cons face rest ih =>
    rw [attempts]
    split
    · split
      · exact .inl ⟨_, (calls_setCall ..).trans (if_pos rfl), .raised _⟩
      · exact .inr (Pit.Pending.insertOrAggregate ..)
    · exact ih _

theorem cacheAnswer_keeps [Hashlib] {m : Name} (hn : n ≠ m) (s : Forwarder) (d : Data) :
    Pit.Keeps n s.pit (s.cacheAnswer d m).pit := by
  rw [cacheAnswer]
  split
  · exact .refl n s.pit
  · exact Pit.keeps_remove hn _

theorem Ran.not_ended {l : Label} {r : EventLoop} (ran : Ran s c call l r) :
    ¬ call.phase.Ended := by
  have hne {phase : Phase} (hp : call.phase = phase) (hnot : ¬ phase.Ended) :
      ¬ call.phase.Ended := by
    rw [hp]
    exact hnot
  cases ran with
  | started hp _ => exact hne hp nofun
  | sent hp => exact hne hp nofun
  | sendRaised hp => exact hne hp nofun
  | answered hp _ => exact hne hp nofun
  | nacked hp _ _ => exact hne hp nofun
  | shared hp _ => exact hne hp nofun
  | sharedNack hp _ => exact hne hp nofun
  | expired hp _ _ _ => exact hne hp nofun
  | sharedExpired hp _ _ => exact hne hp nofun

theorem attemptFailed_goes_on (s : Forwarder) (c : CallId) (call : Call) (face : FaceId)
    (rest : List FaceId) :
    FailedCall c (s.attemptFailed c call face rest).loop ∨
      Forwarding call.interest.pitName c (s.attemptFailed c call face rest).loop ∧
        Pit.Pending call.interest.pitName (s.attemptFailed c call face rest).pit := by
  have ho : Outcome
      (s.loop.record (.failure c face call.interest.pitName s.loop.monotonic)) c call rest
      (s.attemptFailed c call face rest).loop := attemptFailed_outcome rfl face rest
  have hp : FailedCall c (s.attemptFailed c call face rest).loop ∨
      Pit.Pending call.interest.pitName (s.attemptFailed c call face rest).pit := by
    rw [attemptFailed]
    exact attempts_pending ..
  generalize (s.attemptFailed c call face rest).loop = r at ho hp
  cases ho with
  | failed hf => exact .inl ⟨_, (calls_setCall ..).trans (if_pos rfl), hf⟩
  | send _ =>
    exact hp.imp_right fun hp => ⟨.sending ((calls_send ..).trans (if_pos rfl)) rfl rfl, hp⟩

theorem Forwarding.ne_joined {r : EventLoop} {deadline : ℕ} (h : Forwarding n c₀ r)
    (hj : Joined n c deadline r) : c₀ ≠ c := by
  rintro rfl
  obtain ⟨call', fut, hc', -, hp', -⟩ := hj
  cases h with
  | sending hc hn hp =>
    obtain rfl := Option.some.inj (hc.symm.trans hc')
    exact absurd (hp.symm.trans hp') (by simp)
  | waiting hc hn hp hst =>
    obtain rfl := Option.some.inj (hc.symm.trans hc')
    exact absurd (hp.symm.trans hp') (by simp)

/-- The future of a call that is not run stays pending while nothing is announced for it. -/
theorem Framed.pending {r : EventLoop} (h : Framed s l c call r) {fut : ℕ}
    (hf : call.phase.future = some fut) (hp : s.loop.notifiers.state fut = .pending)
    (hno : ∀ reply, ¬ Announces s l call.interest.pitName reply) :
    r.notifiers.state fut = .pending := by
  rcases h.future fut hf with he | ⟨-, reply, ha, -⟩
  · exact he.trans hp
  · exact absurd ha (hno reply)

theorem ran_joined {l : Label} {r : EventLoop} {fut deadline : ℕ} (ran : Ran s c call l r)
    (hp : call.phase = .aggregated fut deadline) (hs : s.loop.notifiers.state fut = .pending) :
    deadline ≤ s.loop.monotonic := by
  cases ran with
  | started hp' _ => exact absurd (hp.symm.trans hp') (by simp)
  | sent hp' => exact absurd (hp.symm.trans hp') (by simp)
  | sendRaised hp' => exact absurd (hp.symm.trans hp') (by simp)
  | answered hp' _ => exact absurd (hp.symm.trans hp') (by simp)
  | nacked hp' _ _ => exact absurd (hp.symm.trans hp') (by simp)
  | expired hp' _ _ _ => exact absurd (hp.symm.trans hp') (by simp)
  | shared hp' hst =>
    obtain ⟨rfl, rfl⟩ := Phase.aggregated.inj (hp.symm.trans hp')
    exact absurd (hs.symm.trans hst) (by simp)
  | sharedNack hp' hst =>
    obtain ⟨rfl, rfl⟩ := Phase.aggregated.inj (hp.symm.trans hp')
    exact absurd (hs.symm.trans hst) (by simp)
  | sharedExpired hp' _ hd =>
    obtain ⟨rfl, rfl⟩ := Phase.aggregated.inj (hp.symm.trans hp')
    exact hd

theorem Forwarding.open {r : EventLoop} (h : Forwarding n c r) : ¬ FailedCall c r := by
  rintro ⟨call, hc, hf⟩
  cases h with
  | sending hc' _ hp =>
    obtain rfl := Option.some.inj (hc.symm.trans hc')
    rw [hp] at hf
    cases hf
  | waiting hc' _ hp _ =>
    obtain rfl := Option.some.inj (hc.symm.trans hc')
    rw [hp] at hf
    cases hf

end Tables

section Sharing

variable [Hashlib] {s t : Forwarder} {n : Name} {c c₀ : CallId} {call : Call} {l : Label}

theorem Encoded.change {r : EventLoop} {l : Label} (ch : Change s l r) (h : s.loop.Encoded) :
    r.Encoded := by
  have hspawn {call : Call} (hcall : call.phase.begun = false) : (s.loop.spawn call).Encoded :=
    Encoded.setCall (r := { s.loop with nextCall := _ }) h fun hb =>
      absurd (hb.symm.trans hcall) (by simp)
  cases ch with
  | routed ho => exact ho.encoded (hspawn rfl)
  | hit => exact (hspawn rfl).setCall fun hb => by cases hb
  | hitStale =>
    refine Encoded.setCall (Encoded.setCall (r := { EventLoop.spawn _ _ with nextCall := _ })
      (hspawn rfl) fun hb => by cases hb) fun hb => by cases hb
  | joined => exact (hspawn rfl).wait _ _ (.inl fun _ _ => rfl)
  | @ran l c call r hc ran =>
    have hraw {face : FaceId} {rest : List FaceId} (hp : call.phase = .sending face rest) :
        ∃ raw, call.interest.toBytes = .ok raw := h c call hc (by rw [hp]; rfl)
    cases ran with
    | started _ ho => exact ho.encoded h
    | sent hp => exact h.wait _ _ (.inr (hraw hp))
    | sendRaised _ => exact h.setCall fun hb => by cases hb
    | answered _ _ => exact Encoded.setCall (r := { s.loop with log := _ }) h fun hb => by cases hb
    | nacked _ _ ho => exact ho.encoded h
    | shared _ _ => exact h.setCall fun hb => by cases hb
    | sharedNack _ _ => exact h.setCall fun hb => by cases hb
    | expired _ _ _ ho => exact ho.encoded h
    | sharedExpired _ _ _ =>
      exact Encoded.setCall (r := { s.loop with notifiers := _ }) h fun hb => by cases hb
  | data _ => exact h
  | unmatched _ => exact h
  | nack => exact h
  | tick => exact h
  | quiet _ => exact h

theorem receiveData_keeps (hn : (s.pit.find n).isSome = true) (d : Data) (inFace : FaceId)
    (unsolicited : Bool)
    (hm : answeredName s.pit d.name.withoutContentHash ≠ .ok (some n)) :
    Pit.Keeps n s.pit (s.receiveData d inFace unsolicited).pit := by
  have hname : n ≠ d.name.withoutContentHash := by
    rintro rfl
    exact hm (by rw [answeredName, if_pos hn])
  rw [receiveData]
  simp only
  split
  · exact .refl n s.pit
  · rename_i m he
    have hne : n ≠ m := by rintro rfl; exact hm he
    refine Pit.Keeps.trans ?_ (cacheAnswer_keeps hne _ d)
    exact Pit.keeps_satisfy hne _
  · split
    · refine Pit.Keeps.trans ?_ (cacheAnswer_keeps hname _ d)
      exact .refl n s.pit
    · exact Pit.keeps_remove hname _

theorem ran_keeps (hs : step s l = some t) (hl : l.runs = some c) (hc : s.loop.calls c = some call)
    (hn : call.phase.forwards = true → n ≠ call.interest.pitName) : Pit.Keeps n s.pit t.pit := by
  have hcall {call' : Call} (h : s.loop.calls c = some call') : call' = call :=
    Option.some.inj (h.symm.trans hc)
  cases l with
  | start _ =>
    cases hl
    obtain ⟨call', hc', hs⟩ := Option.bind_eq_some_iff.mp hs
    obtain rfl := hcall hc'
    split at hs
    · rename_i hp
      exact Option.some.inj hs ▸ forward_keeps (hn (by rw [hp]; rfl)) s c _
    · cases hs
  | sent _ =>
    obtain ⟨call', hc', hs⟩ := Option.bind_eq_some_iff.mp hs
    split at hs
    · exact Option.some.inj hs ▸ .refl n s.pit
    · cases hs
  | sendRaised _ _ =>
    obtain ⟨call', hc', hs⟩ := Option.bind_eq_some_iff.mp hs
    split at hs
    · exact Option.some.inj hs ▸ .refl n s.pit
    · cases hs
  | resume _ =>
    cases hl
    obtain ⟨call', hc', hs⟩ := Option.bind_eq_some_iff.mp hs
    obtain rfl := hcall hc'
    split at hs
    · rename_i hp
      have hne := hn (by rw [hp]; rfl)
      split at hs
      · exact Option.some.inj hs ▸ Pit.keeps_remove hne _
      · exact Option.some.inj hs ▸ attemptFailed_keeps hne ..
      · cases hs
    · split at hs
      · exact Option.some.inj hs ▸ .refl n s.pit
      · exact Option.some.inj hs ▸ .refl n s.pit
      · cases hs
    · cases hs
  | timeout _ =>
    cases hl
    obtain ⟨call', hc', hs⟩ := Option.bind_eq_some_iff.mp hs
    obtain rfl := hcall hc'
    split at hs
    · rename_i hp
      split at hs
      · obtain rfl := Option.some.inj hs
        refine Pit.Keeps.trans ?_ (attemptFailed_keeps (hn (by rw [hp]; rfl)) _ c _ _)
        exact .refl n s.pit
      · cases hs
    · split at hs
      · exact Option.some.inj hs ▸ .refl n s.pit
      · cases hs
    · cases hs
  | _ => cases hl

/-- A new Interest leaves the entry of `n` unless it forwards `n`, which it does not while that
name is pending and the Interest is not pinned. -/
theorem express_keeps (hp : Pit.Pending n s.pit) {i : Interest} (inFace : FaceId) (nonce : Bytes)
    (hi : i.pitName = n → i.name = n) :
    Pit.Keeps n s.pit (s.express i inFace nonce).pit := by
  have hrec := Pit.keeps_recordNonce n s.pit inFace i.nonce s.loop.monotonic
  rw [express]
  split
  · exact .refl n s.pit
  · cases hl : s.csLookup i with
    | mk cs lookup =>
      cases lookup with
      | error e => exact hrec
      | ok csHit =>
        simp only
        rcases BestRoute.decide_cases s.strategy (s.loop.spawn (.ofInterest i inFace)).monotonic i
          (s.fib.lookup i.name)
          ((s.pit.recordNonce inFace i.nonce s.loop.monotonic).find i.name) csHit with
          ⟨d, -, -, h | ⟨face, h⟩⟩ | ⟨e, -, -, h⟩ | ⟨hnone, face, h⟩ | h
        all_goals
          simp only [Call.ofInterest] at h
          rw [h, enact]
        · exact hrec
        · rw [finish, scheduleRevalidation_pit]
          exact hrec
        · exact hrec
        · refine Pit.Keeps.trans hrec (forward_keeps (s := { s with
            cs, pit := s.pit.recordNonce inFace i.nonce s.loop.monotonic
            loop := s.loop.spawn (.ofInterest i inFace) }) ?_ _ _)
          intro hname
          obtain ⟨e, he, hsat⟩ := hp
          rw [Pit.find_recordNonce, hi hname.symm, he] at hnone
          simp [hsat] at hnone
        · exact hrec

/-- The run of events that the calls waiting for `n` behind `c₀` share: no NACK for the name, no
sweep or eviction of its entry, and no other call that forwards it. -/
structure Undisturbed (n : Name) (c₀ : CallId) (s : Forwarder) (l : Label) : Prop where
  nack : ∀ name face, l = .receiveNack name face → name.withoutContentHash ≠ n
  sweep : l = .purgeExpired → ∀ e, s.pit.find n = some e → s.loop.monotonic < e.expiresAt
  eviction : ∀ t, step s l = some t → t.pit.evictions = s.pit.evictions
  sole : ∀ c call, s.loop.calls c = some call → c ≠ c₀ → call.interest.pitName = n →
    call.phase.forwards = false
  unpinned : ∀ i face nonce, l = .express i face nonce → i.pitName = n → i.name = n

theorem step_pending (hs : step s l = some t) (hu : Undisturbed n c₀ s l)
    (hl : l.runs ≠ some c₀) (hno : ∀ reply, ¬ Announces s l n reply)
    (hp : Pit.Pending n s.pit) : Pit.Pending n t.pit := by
  have hof (hk : Pit.Keeps n s.pit t.pit) : Pit.Pending n t.pit := by
    rwa [Pit.Pending, hk.find (hu.eviction t hs)]
  obtain ⟨e, he, hsat⟩ := hp
  have hsome : (s.pit.find n).isSome = true := by simp [he]
  cases hr : l.runs with
  | some c =>
    have hne : c ≠ c₀ := by rintro rfl; exact hl hr
    cases hc : s.loop.calls c with
    | none =>
      cases l <;> cases hr <;>
        simp [step, start, sent, sendRaised, resume, timeout, hc] at hs
    | some call =>
      refine hof (ran_keeps hs hr hc fun hf => ?_)
      rintro rfl
      simp [hu.sole c call hc hne rfl] at hf
  | none =>
    cases l with
    | express i inFace nonce =>
      exact hof (Option.some.inj hs ▸
        express_keeps ⟨e, he, hsat⟩ inFace nonce (hu.unpinned i inFace nonce rfl))
    | receiveData d inFace unsolicited =>
      exact hof (Option.some.inj hs ▸
        receiveData_keeps hsome d inFace unsolicited fun h => hno _ (.data h))
    | purgeExpired =>
      obtain rfl := Option.some.inj hs
      have hlt := hu.sweep rfl e he
      refine ⟨e, ?_, hsat⟩
      rw [Pit.find, Pit.purgeExpired, Dict.get?_filter, Option.filter_eq_some_iff]
      exact ⟨he, by simp [hsat, hlt]⟩
    | receiveNack name inFace => exact hof (Option.some.inj hs ▸ .refl n s.pit)
    | tick ms time => exact hof (Option.some.inj hs ▸ .refl n s.pit)
    | registerFace face => exact hof (Option.some.inj hs ▸ .refl n s.pit)
    | withdrawFace face => exact hof (Option.some.inj hs ▸ .refl n s.pit)
    | addRoute namePrefix face cost => exact hof (Option.some.inj hs ▸ .refl n s.pit)
    | store op => exact hof (Option.some.inj hs ▸ .refl n s.pit)
    | _ => cases hr

theorem FailedCall.frame {r : EventLoop} (h : FailedCall c s.loop) (hs : s.loop.Consistent)
    (ch : Change s l r) : FailedCall c r := by
  obtain ⟨call, hc, hf⟩ := h
  have hl : l.runs ≠ some c := fun hl => (ch.ran_of_runs hl hc).not_ended hf.ended
  exact ⟨call, (ch.frame hs hc hl).calls, hf⟩

theorem Forwarding.frame {r : EventLoop} (h : Forwarding n c s.loop) (hs : s.loop.Consistent)
    (ch : Change s l r) (hl : l.runs ≠ some c) (hno : ∀ reply, ¬ Announces s l n reply) :
    Forwarding n c r := by
  cases h with
  | sending hc hn hp => exact .sending (ch.frame hs hc hl).calls hn hp
  | waiting hc hn hp hst =>
    have hfr := ch.frame hs hc hl
    exact .waiting hfr.calls hn hp (hfr.pending (by rw [hp]; rfl) hst (hn ▸ hno))

theorem Joined.frame {r : EventLoop} {deadline : ℕ} (h : Joined n c deadline s.loop)
    (hs : s.loop.Consistent) (ch : Change s l r) (hl : l.runs ≠ some c)
    (hno : ∀ reply, ¬ Announces s l n reply) : Joined n c deadline r := by
  obtain ⟨call, fut, hc, hn, hp, hst⟩ := h
  have hfr := ch.frame hs hc hl
  exact ⟨call, fut, hfr.calls, hn, hp, hfr.pending (by rw [hp]; rfl) hst (hn ▸ hno)⟩

/-- What the calls behind a forwarding call can count on: the call that joined is answered, out
of time, or still behind an open attempt whose name is pending. -/
inductive Shares (n : Name) (c₀ c : CallId) (deadline : ℕ) (s : Forwarder) : Prop where

  | got (d : Data) : Got d c s.loop → Shares n c₀ c deadline s

  | expired : deadline ≤ s.loop.monotonic → Shares n c₀ c deadline s

  | failed : FailedCall c₀ s.loop → Shares n c₀ c deadline s

  | sharing : Forwarding n c₀ s.loop → Joined n c deadline s.loop → Pit.Pending n s.pit →
      Shares n c₀ c deadline s

/-- The forwarding call runs: its send returns, or its attempt times out and it goes on. -/
theorem forwarding_step (hs : step s l = some t) (hl : l.runs = some c₀)
    (hf : Forwarding n c₀ s.loop) (hp : Pit.Pending n s.pit) :
    FailedCall c₀ t.loop ∨ Forwarding n c₀ t.loop ∧ Pit.Pending n t.pit := by
  cases hf with
  | @sending call face rest hc hn hph =>
    cases l with
    | start => cases hl; simp [step, start, hc, hph] at hs
    | sent =>
      cases hl
      obtain rfl : _ = t := by simpa [step, sent, hc, hph] using hs
      exact .inr ⟨.waiting ((calls_wait ..).trans (if_pos rfl)) hn rfl
        (Futures.state_register_self ..), hp⟩
    | sendRaised _ e =>
      cases hl
      obtain rfl : _ = t := by simpa [step, sendRaised, hc, hph] using hs
      exact .inl ⟨_, (calls_setCall ..).trans (if_pos rfl), .raised e⟩
    | resume => cases hl; simp [step, resume, hc, hph] at hs
    | timeout => cases hl; simp [step, timeout, hc, hph] at hs
    | _ => cases hl
  | @waiting call face rest fut deadline hc hn hph hst =>
    cases l with
    | start => cases hl; simp [step, start, hc, hph] at hs
    | sent => cases hl; simp [step, sent, hc, hph] at hs
    | sendRaised => cases hl; simp [step, sendRaised, hc, hph] at hs
    | resume => cases hl; simp [step, resume, hc, hph, hst] at hs
    | timeout =>
      cases hl
      simp only [step, timeout, hc, Option.bind_some, hph, hst, true_and] at hs
      split at hs
      · obtain rfl := Option.some.inj hs
        exact hn ▸ attemptFailed_goes_on _ c₀ call face rest
      · cases hs
    | _ => cases hl

/-- A step of an undisturbed run keeps what the call that joined can count on. -/
theorem Shares.step {deadline : ℕ} (h : Shares n c₀ c deadline s) (hcon : s.Consistent)
    (hu : Undisturbed n c₀ s l) (hs : step s l = some t) : Shares n c₀ c deadline t := by
  have ch := step_change hs
  cases h with
  | got d hg => exact .got d (ch.got hcon.loop hg)
  | expired hd => exact .expired (hd.trans ch.monotonic_le)
  | failed hf => exact .failed (FailedCall.frame hf hcon.loop ch)
  | sharing hf hj hp =>
    have hne := Forwarding.ne_joined hf hj
    by_cases hl₀ : l.runs = some c₀
    · -- The attempt of the forwarding call ends or goes on; the other call is not run.
      have hno : ∀ reply, ¬ Announces s l n reply := by
        rintro reply (⟨_⟩ | _) <;> cases hl₀
      have hj' := Joined.frame hj hcon.loop ch (by rw [hl₀]; simpa using hne) hno
      rcases forwarding_step hs hl₀ hf hp with hfail | ⟨hf', hp'⟩
      · exact .failed hfail
      · exact .sharing hf' hj' hp'
    by_cases hl : l.runs = some c
    · -- The joined call runs although it was told nothing: its lifetime is over.
      obtain ⟨call, fut, hc, hn, hph, hst⟩ := hj
      exact .expired ((ran_joined (ch.ran_of_runs hl hc) hph hst).trans ch.monotonic_le)
    · by_cases hann : ∃ reply, Announces s l n reply
      · obtain ⟨reply, ha⟩ := hann
        obtain ⟨call, fut, hc, hn, hph, hst⟩ := hj
        cases ha with
        | @data d _ _ _ hm =>
          obtain rfl := Option.some.inj hs
          refine .got d ⟨call, (congrFun (receiveData_calls ..) c).trans hc,
            .inr ⟨fut, by rw [hph]; rfl, ?_⟩⟩
          exact arrival_completes hcon hc (by rw [hph]; rfl) hst (hn ▸ hm)
        | nack => exact absurd rfl (hu.nack _ _ rfl)
      · have hno : ∀ reply, ¬ Announces s l n reply := fun reply ha => hann ⟨reply, ha⟩
        exact .sharing (Forwarding.frame hf hcon.loop ch hl₀ hno)
          (Joined.frame hj hcon.loop ch hl hno)
          (step_pending hs hu hl₀ hno hp)

/-- Call `c` joined another one and a NACK has ended it, or is to end it. -/
def Refused (c : CallId) (r : EventLoop) : Prop :=
  ∃ call, r.calls c = some call ∧ (call.phase = .returned none ∨
    ∃ fut deadline, call.phase = .aggregated fut deadline ∧
      r.notifiers.state fut = .done .nack)

theorem Change.refused {r : EventLoop} (ch : Change s l r) (hs : s.loop.Consistent)
    (h : Refused c s.loop) : Refused c r := by
  obtain ⟨call, hc, hp⟩ := h
  by_cases hl : l.runs = some c
  · have ran := ch.ran_of_runs hl hc
    rcases hp with hp | ⟨fut, deadline, hp, hst⟩
    · exact absurd (by rw [hp]; exact .returned none) ran.not_ended
    · cases ran with
      | sharedNack => exact ⟨_, (calls_setCall ..).trans (if_pos rfl), .inl rfl⟩
      | shared hp' hst' =>
        obtain ⟨rfl, -⟩ := Phase.aggregated.inj (hp.symm.trans hp')
        cases hst.symm.trans hst'
      | sharedExpired hp' hst' _ =>
        obtain ⟨rfl, -⟩ := Phase.aggregated.inj (hp.symm.trans hp')
        cases hst.symm.trans hst'
      | started hp' _ => cases hp.symm.trans hp'
      | sent hp' => cases hp.symm.trans hp'
      | sendRaised hp' => cases hp.symm.trans hp'
      | answered hp' _ => cases hp.symm.trans hp'
      | nacked hp' _ _ => cases hp.symm.trans hp'
      | expired hp' _ _ _ => cases hp.symm.trans hp'
  · have hfr := ch.frame hs hc hl
    refine ⟨call, hfr.calls, hp.imp_right ?_⟩
    rintro ⟨fut, deadline, hp, hst⟩
    refine ⟨fut, deadline, hp, ?_⟩
    rcases hfr.future fut (by rw [hp]; rfl) with he | ⟨hpend, -⟩
    · exact he.trans hst
    · cases hpend.symm.trans hst

end Sharing

def sharedCalls : List Label :=
  [.express (request 1 1000) 7 [], .sent 0, .express (request 2 4000) 8 []]

/-- The relay with both calls under way, after the first face has not answered for `ms`. -/
def unanswered (ms : ℕ) : Forwarder := relayAfter [1, 2] (sharedCalls ++ [.tick ms 1])

end Forwarder

end RnsIcn
