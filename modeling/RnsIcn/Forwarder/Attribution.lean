import RnsIcn.Forwarder.Answer

/-! # Which face a failure or a success is credited to

The strategy is told of an attempt when it ends. A reply completes every attempt
of its name whatever face it came from, so a failure or a success is justified
by the face of the attempt only while replies arrive on the faces that the
attempts await.
-/

namespace RnsIcn

open Transition EventLoop

def BestRoute.learn (b : BestRoute) : Event → BestRoute
  | .failure _ face _ time => b.recordFailure face time
  | .success _ face _ => b.recordSuccess face
  | _ => b

def BestRoute.replay (b : BestRoute) (log : List Event) : BestRoute :=
  log.foldr (fun e b => b.learn e) b

namespace Event

def begins (c : CallId) : Event → Bool
  | .attempt c' _ _ => c' = c
  | _ => false

def ends (c : CallId) : Event → Bool
  | .failure c' .. | .success c' .. => c' = c
  | _ => false

end Event

def lastAttempt (c : CallId) (log : List Event) : Option (FaceId × ℕ) :=
  log.findSome? fun
    | .attempt c' face start => if c' = c then some (face, start) else none
    | _ => none

def sinceAttempt (c : CallId) (log : List Event) : List Event :=
  log.takeWhile fun e => !e.begins c

def Refused (c : CallId) (i : Interest) (face : FaceId) (log : List Event) : Prop :=
  ∃ name, .nack face name ∈ sinceAttempt c log ∧ name.withoutContentHash = i.pitName

/-- `face` delivered no Data that the Interest asks for since the attempt began. -/
def Silent (c : CallId) (i : Interest) (face : FaceId) (log : List Event) : Prop :=
  ∀ d, .data face d ∈ sinceAttempt c log → ¬ i.Asks d

/-- The last attempt of call `c` is on `face`, which refused it or let its lifetime pass. -/
def Blamed (c : CallId) (i : Interest) (face : FaceId) (time : ℕ) (log : List Event) : Prop :=
  ∃ start, lastAttempt c log = some (face, start) ∧
    (Refused c i face log ∨ start + i.lifetimeMs ≤ time ∧ Silent c i face log)

/-- The last attempt of call `c` is on `face`, which delivered `d` since. -/
def Credited (c : CallId) (face : FaceId) (d : Data) (log : List Event) : Prop :=
  ∃ start, lastAttempt c log = some (face, start) ∧ .data face d ∈ sinceAttempt c log

/-- An event is justified by the log before it and the Interest of its call. -/
def Justified (calls : CallId → Option Call) : Event → List Event → Prop
  | .failure c face _ time, log =>
    ∃ call, calls c = some call ∧ Blamed c call.interest face time log
  | .success c face d, log => (∃ call, calls c = some call) ∧ Credited c face d log
  | _, _ => True

def AllJustified (calls : CallId → Option Call) : List Event → Prop
  | [] => True
  | e :: log => Justified calls e log ∧ AllJustified calls log

theorem AllJustified.mem {calls : CallId → Option Call} {newer older : List Event} {e : Event}
    (h : AllJustified calls (newer ++ e :: older)) : Justified calls e older := by
  induction newer with
  | nil => exact h.1
  | cons _ _ ih => exact ih h.2

theorem lastAttempt_cons {c : CallId} {e : Event} (log : List Event) (h : e.begins c = false) :
    lastAttempt c (e :: log) = lastAttempt c log := by
  cases e with
  | attempt c' face start =>
    have hne : c' ≠ c := by simpa [Event.begins] using h
    simp [lastAttempt, hne]
  | _ => rfl

theorem sinceAttempt_cons {c : CallId} {e : Event} (log : List Event) (h : e.begins c = false) :
    sinceAttempt c (e :: log) = e :: sinceAttempt c log := by
  simp [sinceAttempt, h]

theorem lastAttempt_self (c : CallId) (face : FaceId) (start : ℕ) (log : List Event) :
    lastAttempt c (.attempt c face start :: log) = some (face, start) := by
  simp [lastAttempt]

theorem sinceAttempt_self (c : CallId) (face : FaceId) (start : ℕ) (log : List Event) :
    sinceAttempt c (.attempt c face start :: log) = [] := by
  simp [sinceAttempt, Event.begins]

theorem lastAttempt_append {c : CallId} {es : List Event} (log : List Event)
    (h : ∀ e ∈ es, e.begins c = false) : lastAttempt c (es ++ log) = lastAttempt c log := by
  induction es with
  | nil => rfl
  | cons e es ih =>
    rw [List.forall_mem_cons] at h
    exact (lastAttempt_cons _ h.1).trans (ih h.2)

theorem sinceAttempt_append {c : CallId} {es : List Event} (log : List Event)
    (h : ∀ e ∈ es, e.begins c = false) :
    sinceAttempt c (es ++ log) = es ++ sinceAttempt c log := by
  induction es with
  | nil => rfl
  | cons e es ih =>
    rw [List.forall_mem_cons] at h
    exact (sinceAttempt_cons _ h.1).trans (congrArg _ (ih h.2))

section Evidence

variable {c : CallId} {i : Interest} {face : FaceId} {d : Data} {es log : List Event}

theorem Refused.append (h : Refused c i face log) (hes : ∀ e ∈ es, e.begins c = false) :
    Refused c i face (es ++ log) := by
  obtain ⟨name, hm, hn⟩ := h
  exact ⟨name, by rw [sinceAttempt_append _ hes]; exact List.mem_append_right _ hm, hn⟩

theorem Credited.append (h : Credited c face d log) (hes : ∀ e ∈ es, e.begins c = false) :
    Credited c face d (es ++ log) := by
  obtain ⟨start, hl, hm⟩ := h
  exact ⟨start, by rw [lastAttempt_append _ hes, hl],
    by rw [sinceAttempt_append _ hes]; exact List.mem_append_right _ hm⟩

theorem Silent.append (h : Silent c i face log) (hes : ∀ e ∈ es, e.begins c = false)
    (hd : ∀ d, .data face d ∈ es → ¬ i.Asks d) : Silent c i face (es ++ log) := by
  intro d hm
  rw [sinceAttempt_append _ hes] at hm
  rcases List.mem_append.mp hm with hm | hm
  · exact hd d hm
  · exact h d hm

end Evidence

structure Tracked (r : EventLoop) (c : CallId) (call : Call) : Prop where
  sending : ∀ face rest, call.phase = .sending face rest →
    ∃ start, lastAttempt c r.log = some (face, start) ∧ start ≤ r.monotonic ∧
      Silent c call.interest face r.log
  pending : ∀ face rest fut deadline, call.phase = .waiting face rest fut deadline →
    r.notifiers.state fut = .pending →
    ∃ start, lastAttempt c r.log = some (face, start) ∧
      start + call.interest.lifetimeMs ≤ deadline ∧ Silent c call.interest face r.log
  answered : ∀ face rest fut deadline d, call.phase = .waiting face rest fut deadline →
    r.notifiers.state fut = .done (.data d) → Credited c face d r.log
  refused : ∀ face rest fut deadline, call.phase = .waiting face rest fut deadline →
    r.notifiers.state fut = .done .nack →
    (∃ start, lastAttempt c r.log = some (face, start)) ∧ Refused c call.interest face r.log

theorem Tracked.idle {r : EventLoop} {c : CallId} {call : Call}
    (hs : ∀ face rest, call.phase ≠ .sending face rest)
    (hw : ∀ face rest fut deadline, call.phase ≠ .waiting face rest fut deadline) :
    Tracked r c call where
  sending face rest hp := absurd hp (hs face rest)
  pending face rest fut deadline hp := absurd hp (hw face rest fut deadline)
  answered face rest fut deadline _ hp := absurd hp (hw face rest fut deadline)
  refused face rest fut deadline hp := absurd hp (hw face rest fut deadline)

theorem Tracked.failed {r : EventLoop} {c : CallId} {call : Call} {phase : Phase}
    (hf : phase.Failed) : Tracked r c { call with phase } := by
  cases hf <;> exact .idle (by simp) (by simp)

theorem Outcome.tracked {r r' : EventLoop} {c : CallId} {call call' : Call} {faces : List FaceId}
    (ho : Outcome r c call faces r') (hc : r'.calls c = some call') : Tracked r' c call' := by
  cases ho with
  | failed hf =>
    rw [calls_setCall, if_pos rfl] at hc
    exact Option.some.inj hc ▸ .failed hf
  | @send face rest hr =>
    rw [calls_send, if_pos rfl] at hc
    obtain rfl := Option.some.inj hc
    constructor
    · intro face' rest' hp
      obtain ⟨rfl, rfl⟩ := Phase.sending.inj hp
      refine ⟨r.monotonic, lastAttempt_self .., le_rfl, fun d hm => ?_⟩
      rw [show (r.send c call face rest).log = .attempt c face r.monotonic :: r.log from rfl,
        sinceAttempt_self] at hm
      cases hm
    all_goals
      intros
      rename_i hp _
      cases hp

theorem Outcome.allJustified {r r' : EventLoop} {c : CallId} {call : Call} {faces : List FaceId}
    {calls : CallId → Option Call} (ho : Outcome r c call faces r')
    (h : AllJustified calls r.log) : AllJustified calls r'.log := by
  cases ho with
  | failed _ => exact h
  | send _ => exact ⟨trivial, h⟩

theorem Outcome.interest {r r' : EventLoop} {c : CallId} {call : Call} {faces : List FaceId}
    (ho : Outcome r c call faces r') :
    ∃ call', r'.calls c = some call' ∧ call'.interest = call.interest := by
  cases ho with
  | failed _ => exact ⟨_, (calls_setCall ..).trans (if_pos rfl), rfl⟩
  | send _ => exact ⟨_, (calls_send ..).trans (if_pos rfl), rfl⟩

/-- Events are added to a log, and none of them begins or ends an attempt of a call other than
`c`, nor brings Data. -/
theorem Outcome.log {r r' : EventLoop} {c : CallId} {call : Call} {faces : List FaceId}
    (ho : Outcome r c call faces r') : ∃ es, r'.log = es ++ r.log ∧
      ∀ e ∈ es, (∀ c', e.begins c' = true → c' = c) ∧ ∀ face d, e ≠ .data face d := by
  cases ho with
  | failed _ => exact ⟨[], rfl, by simp⟩
  | @send face rest _ =>
    refine ⟨[.attempt c face r.monotonic], rfl, fun e he => ?_⟩
    obtain rfl := List.mem_singleton.mp he
    exact ⟨fun c' h => (of_decide_eq_true h).symm, nofun⟩

theorem AllJustified.mono {calls calls' : CallId → Option Call} {log : List Event}
    (h : AllJustified calls log)
    (hc : ∀ c call, calls c = some call → ∃ call' hop, calls' c = some call' ∧
      call'.interest = (call.hop hop).interest) : AllJustified calls' log := by
  induction log with
  | nil => trivial
  | cons e log ih =>
    refine ⟨?_, ih h.2⟩
    cases e with
    | failure c face name time =>
      obtain ⟨call, hcall, hb⟩ := h.1
      obtain ⟨call', hop, hcall', hi⟩ := hc c call hcall
      exact ⟨call', hcall', hi ▸ hb⟩
    | success c face d =>
      obtain ⟨⟨call, hcall⟩, hcr⟩ := h.1
      obtain ⟨call', hop, hcall', -⟩ := hc c call hcall
      exact ⟨⟨call', hcall'⟩, hcr⟩
    | _ => trivial

section Steps

namespace Forwarder

variable {s t : Forwarder} {c : CallId} {call : Call} {l : Label}

def Awaits (s : Forwarder) (call : Call) (face : FaceId) : Prop :=
  ∃ rest fut deadline, call.phase = .waiting face rest fut deadline ∧
    s.loop.notifiers.state fut = .pending

/-- A reply arrives on the face that the attempts it completes await, and Data that an attempt
asked its face for completes it. -/
def Label.Attributable (s : Forwarder) : Label → Prop
  | .receiveNack name inFace => ∀ c call face, s.loop.calls c = some call →
      s.Awaits call face → name.withoutContentHash = call.interest.pitName → face = inFace
  | .receiveData d inFace _ => ∀ c call, s.loop.calls c = some call →
      (∀ face, s.Awaits call face →
        answeredName s.pit d.name.withoutContentHash = .ok (some call.interest.pitName) →
          face = inFace) ∧
      (call.interest.Asks d → (∀ rest, call.phase ≠ .sending inFace rest) ∧
        (s.Awaits call inFace →
          answeredName s.pit d.name.withoutContentHash = .ok (some call.interest.pitName)))
  | _ => True

theorem Ran.interest {r : EventLoop} (ran : Ran s c call l r) :
    ∃ call' hop, r.calls c = some call' ∧ call'.interest = (call.hop hop).interest := by
  have hset (r : EventLoop) (phase : Phase) :
      ∃ call' hop, (r.setCall c { call with phase }).calls c = some call' ∧
        call'.interest = (call.hop hop).interest :=
    ⟨_, call.interest.hopLimit, (calls_setCall ..).trans (if_pos rfl), rfl⟩
  have hout {q r : EventLoop} {faces : List FaceId} (ho : Outcome q c call faces r) :
      ∃ call' hop, r.calls c = some call' ∧ call'.interest = (call.hop hop).interest := by
    obtain ⟨call', hc, hi⟩ := ho.interest
    exact ⟨call', call.interest.hopLimit, hc, hi⟩
  cases ran with
  | started hp ho =>
    obtain ⟨call', hc, hi⟩ := ho.interest
    exact ⟨call', _, hc, hi⟩
  | sent hp => exact ⟨_, call.interest.hopLimit, (calls_wait ..).trans (if_pos rfl), rfl⟩
  | sendRaised hp => exact hset ..
  | answered hp hs => exact hset ..
  | nacked hp hs ho => exact hout ho
  | shared hp hs => exact hset ..
  | sharedNack hp hs => exact hset ..
  | expired hp hs hd ho => exact hout ho
  | sharedExpired hp hs hd => exact hset ..

theorem Ran.log {r : EventLoop} (ran : Ran s c call l r) : ∃ es, r.log = es ++ s.loop.log ∧
    ∀ e ∈ es, (∀ c', e.begins c' = true → c' = c) ∧ ∀ face d, e ≠ .data face d := by
  have hone {e : Event} {q : EventLoop} {faces : List FaceId} (he : ∀ c', e.begins c' = false)
      (hd : ∀ face d, e ≠ .data face d) (hq : q.log = e :: s.loop.log)
      (ho : Outcome q c call faces r) : ∃ es, r.log = es ++ s.loop.log ∧
        ∀ e ∈ es, (∀ c', e.begins c' = true → c' = c) ∧ ∀ face d, e ≠ .data face d := by
    obtain ⟨es, hlog, hes⟩ := ho.log
    refine ⟨es ++ [e], by rw [hlog, hq, List.append_assoc]; rfl, fun e' he' => ?_⟩
    rcases List.mem_append.mp he' with he' | he'
    · exact hes e' he'
    · obtain rfl := List.mem_singleton.mp he'
      exact ⟨fun c' h => absurd ((he c').symm.trans h) (by simp), hd⟩
  cases ran with
  | started hp ho => exact ho.log
  | @answered face rest fut deadline d hp hs =>
    refine ⟨[.success c face d], rfl, fun e he => ?_⟩
    obtain rfl := List.mem_singleton.mp he
    exact ⟨nofun, nofun⟩
  | nacked hp hs ho => exact hone (fun _ => rfl) (by simp) rfl ho
  | expired hp hs hd ho => exact hone (fun _ => rfl) (by simp) rfl ho
  | _ => exact ⟨[], rfl, by simp⟩

theorem Ran.tracked {r : EventLoop} {call' : Call} (ran : Ran s c call l r)
    (h : Tracked s.loop c call) (hc : r.calls c = some call') : Tracked r c call' := by
  have hset {r : EventLoop} {phase : Phase}
      (hc : (r.setCall c { call with phase }).calls c = some call')
      (hs : ∀ face rest, phase ≠ .sending face rest)
      (hw : ∀ face rest fut deadline, phase ≠ .waiting face rest fut deadline) :
      Tracked (r.setCall c { call with phase }) c call' := by
    rw [calls_setCall, if_pos rfl] at hc
    exact Option.some.inj hc ▸ .idle hs hw
  cases ran with
  | started hp ho => exact ho.tracked hc
  | @sent face rest hp =>
    obtain ⟨start, hl, hle, hsil⟩ := h.sending face rest hp
    rw [calls_wait, if_pos rfl] at hc
    obtain rfl := Option.some.inj hc
    have hfut : (s.loop.notifiers.register call.interest.pitName).state s.loop.notifiers.next =
        .pending := Futures.state_register_self ..
    constructor
    · exact nofun
    · intro face' rest' fut deadline hp' _
      obtain ⟨rfl, rfl, rfl, rfl⟩ := Phase.waiting.inj hp'
      exact ⟨start, hl, Nat.add_le_add_right hle _, hsil⟩
    · intro face' rest' fut deadline d hp' hst
      obtain ⟨rfl, rfl, rfl, rfl⟩ := Phase.waiting.inj hp'
      exact absurd (hfut.symm.trans hst) (by simp)
    · intro face' rest' fut deadline hp' hst
      obtain ⟨rfl, rfl, rfl, rfl⟩ := Phase.waiting.inj hp'
      exact absurd (hfut.symm.trans hst) (by simp)
  | sendRaised hp => exact hset hc (by simp) (by simp)
  | answered hp hs => exact hset hc (by simp) (by simp)
  | nacked hp hs ho => exact ho.tracked hc
  | shared hp hs => exact hset hc (by simp) (by simp)
  | sharedNack hp hs => exact hset hc (by simp) (by simp)
  | expired hp hs hd ho => exact ho.tracked hc
  | sharedExpired hp hs hd => exact hset hc (by simp) (by simp)

/-- What a call that runs reports of its attempt is justified by what is tracked of it. -/
theorem Ran.allJustified {r : EventLoop} {calls : CallId → Option Call} {call' : Call} {hop : ℕ}
    (ran : Ran s c call l r) (h : Tracked s.loop c call) (hc : calls c = some call')
    (hi : call'.interest = (call.hop hop).interest) (hlog : AllJustified calls s.loop.log) :
    AllJustified calls r.log := by
  have hblame {face : FaceId} {time : ℕ} (hb : Blamed c call.interest face time s.loop.log) :
      Justified calls (.failure c face call.interest.pitName time) s.loop.log :=
    ⟨call', hc, hi ▸ hb⟩
  cases ran with
  | started hp ho => exact ho.allJustified hlog
  | answered hp hs => exact ⟨⟨⟨call', hc⟩, h.answered _ _ _ _ _ hp hs⟩, hlog⟩
  | nacked hp hs ho =>
    obtain ⟨⟨start, hl⟩, href⟩ := h.refused _ _ _ _ hp hs
    exact ho.allJustified ⟨hblame ⟨start, hl, .inl href⟩, hlog⟩
  | expired hp hs hd ho =>
    obtain ⟨start, hl, hle, hsil⟩ := h.pending _ _ _ _ hp hs
    exact ho.allJustified ⟨hblame ⟨start, hl, .inr ⟨hle.trans hd, hsil⟩⟩, hlog⟩
  | _ => exact hlog

/-- All that the log reports of attempts is justified, and so is what it is going to report. -/
structure Attributed (s : Forwarder) : Prop where
  consistent : s.Consistent
  tracked : ∀ c call, s.loop.calls c = some call → Tracked s.loop c call
  log : AllJustified s.loop.calls s.loop.log

theorem Initial.attributed (h : s.Initial) : s.Attributed where
  consistent := h.consistent
  tracked c call hc := by simp [h.calls] at hc
  log := by rw [h.log]; trivial

/-- The strategy has learnt from the log, and from nothing else since it was `b`. -/
def Replays (b : BestRoute) (s : Forwarder) : Prop := s.strategy = b.replay s.loop.log

section Replay

variable {b : BestRoute}

theorem Replays.attempts (h : Replays b s) (c : CallId) (call : Call) (faces : List FaceId) :
    Replays b (s.attempts c call faces) := by
  induction faces generalizing s with
  | nil => exact h
  | cons face rest ih =>
    rw [Forwarder.attempts]
    split
    · split <;> exact h
    · exact ih (s := { s with pit := _ }) h

theorem Replays.forward (h : Replays b s) (c : CallId) (call : Call) (faces : List FaceId) :
    Replays b (s.forward c call faces) := by
  rw [Forwarder.forward]
  split
  · exact h
  · exact h.attempts ..

theorem Replays.attemptFailed (h : Replays b s) (c : CallId) (call : Call) (face : FaceId)
    (rest : List FaceId) : Replays b (s.attemptFailed c call face rest) := by
  rw [Forwarder.attemptFailed]
  apply Replays.attempts
  exact congrArg (BestRoute.recordFailure · face s.loop.monotonic) h

theorem Replays.attemptSucceeded (h : Replays b s) (c : CallId) (call : Call) (face : FaceId)
    (d : Data) : Replays b (s.attemptSucceeded c call face d) := by
  rw [Forwarder.attemptSucceeded]
  exact congrArg (BestRoute.recordSuccess · face) h

theorem Replays.enact (h : Replays b s) (c : CallId) (call : Call) (nonce : Bytes)
    (fibFaces : List (FaceId × ℕ)) (decision : StrategyDecision) :
    Replays b (s.enact c call nonce fibFaces decision) := by
  cases decision with
  | serveStaleRevalidate d face =>
    rw [Forwarder.enact, scheduleRevalidation]
    split <;> exact h
  | forwardTo face => exact h.forward ..
  | _ => exact h

end Replay

variable [Hashlib]

theorem receiveData_log (s : Forwarder) (d : Data) (inFace : FaceId) (unsolicited : Bool) :
    (s.receiveData d inFace unsolicited).loop.log = .data inFace d :: s.loop.log := by
  have ch := receiveData_change s d inFace unsolicited
  generalize (s.receiveData d inFace unsolicited).loop = r at ch
  cases ch with
  | data _ => rfl
  | unmatched _ => rfl
  | ran _ ran => cases ran
  | quiet hq => cases hq

/-- Events are added to the log: those that begin an attempt are of the call that runs or of a new
one, and the Data is the one that arrives. -/
theorem Change.log {r : EventLoop} (ch : Change s l r) : ∃ es, r.log = es ++ s.loop.log ∧
    ∀ e ∈ es, (∀ c, e.begins c = true → l.runs = some c ∨ c = s.loop.nextCall) ∧
      ∀ face d, e = .data face d → ∃ unsolicited, l = .receiveData d face unsolicited := by
  have hone {e : Event} (he : ∀ c, e.begins c = false)
      (hd : ∀ face d, e = .data face d → ∃ unsolicited, l = .receiveData d face unsolicited)
      (hr : r.log = e :: s.loop.log) : ∃ es, r.log = es ++ s.loop.log ∧
        ∀ e ∈ es, (∀ c, e.begins c = true → l.runs = some c ∨ c = s.loop.nextCall) ∧
          ∀ face d, e = .data face d → ∃ unsolicited, l = .receiveData d face unsolicited := by
    refine ⟨[e], hr, fun e' he' => ?_⟩
    obtain rfl := List.mem_singleton.mp he'
    exact ⟨fun c h => absurd ((he c).symm.trans h) (by simp), hd⟩
  cases ch with
  | routed ho =>
    obtain ⟨es, hlog, hes⟩ := ho.log
    exact ⟨es, hlog, fun e he => ⟨fun c hb => .inr ((hes e he).1 c hb),
      fun face d hd => absurd hd ((hes e he).2 face d)⟩⟩
  | ran hc ran =>
    obtain ⟨es, hlog, hes⟩ := ran.log
    exact ⟨es, hlog, fun e he => ⟨fun c hb => .inl ((hes e he).1 c hb ▸ ran.runs),
      fun face d hd => absurd hd ((hes e he).2 face d)⟩⟩
  | @data d inFace unsolicited m hm =>
    refine hone (fun _ => rfl) (fun face d' h => ⟨unsolicited, ?_⟩) rfl
    obtain ⟨rfl, rfl⟩ := Event.data.inj h
    rfl
  | @unmatched d inFace unsolicited hm =>
    refine hone (fun _ => rfl) (fun face d' h => ⟨unsolicited, ?_⟩) rfl
    obtain ⟨rfl, rfl⟩ := Event.data.inj h
    rfl
  | nack => exact hone (fun _ => rfl) (by simp) rfl
  | _ => exact ⟨[], rfl, by simp⟩

/-- The attempt of a call that does not run stays tracked if the event is attributable. -/
theorem Tracked.frame (h : Tracked s.loop c call) (hs : s.Consistent)
    (hc : s.loop.calls c = some call) (hstep : step s l = some t) (hok : l.Attributable s)
    (hl : l.runs ≠ some c) : Tracked t.loop c call := by
  have ch := step_change hstep
  have hfr := ch.frame hs.loop hc hl
  obtain ⟨es, hlog, hes⟩ := Change.log ch
  have hbegin : ∀ e ∈ es, e.begins c = false := fun e he => by
    by_contra hb
    rcases (hes e he).1 c (by simpa using hb) with hrun | hid
    · exact hl hrun
    · exact absurd hid (hs.loop.lt hc).ne
  have hlast : lastAttempt c t.loop.log = lastAttempt c s.loop.log := by
    rw [hlog, lastAttempt_append _ hbegin]
  have hfuture {face : FaceId} {rest : List FaceId} {fut deadline : ℕ}
      (hp : call.phase = .waiting face rest fut deadline) : call.phase.future = some fut := by
    rw [hp]; rfl
  constructor
  · intro face rest hp
    obtain ⟨start, hst, hle, hsil⟩ := h.sending face rest hp
    refine ⟨start, hlast.trans hst, hle.trans ch.monotonic_le, ?_⟩
    rw [hlog]
    refine hsil.append hbegin fun d hd hasks => ?_
    obtain ⟨unsolicited, rfl⟩ := (hes _ hd).2 face d rfl
    exact ((hok c call hc).2 hasks).1 rest hp
  · intro face rest fut deadline hp hst
    have hpend : s.loop.notifiers.state fut = .pending := by
      rcases hfr.future fut (hfuture hp) with he | ⟨hpend, -⟩
      · exact he.symm.trans hst
      · exact hpend
    obtain ⟨start, hstart, hle, hsil⟩ := h.pending face rest fut deadline hp hpend
    refine ⟨start, hlast.trans hstart, hle, ?_⟩
    rw [hlog]
    refine hsil.append hbegin fun d hd hasks => ?_
    -- Data from the face that the attempt asked for would have completed the future.
    obtain ⟨unsolicited, rfl⟩ := (hes _ hd).2 face d rfl
    have hm := ((hok c call hc).2 hasks).2 ⟨rest, fut, deadline, hp, hpend⟩
    obtain rfl := Option.some.inj hstep
    exact absurd (hst.symm.trans (arrival_completes hs hc (hfuture hp) hpend hm)) (by simp)
  · intro face rest fut deadline d hp hst
    rcases hfr.future fut (hfuture hp) with he | ⟨hpend, reply, ha, hdone⟩
    · rw [hlog]
      exact (h.answered face rest fut deadline d hp (he.symm.trans hst)).append hbegin
    · obtain rfl : reply = .data d := FutureState.done.inj (hdone.symm.trans hst)
      obtain ⟨start, hstart, -⟩ := h.pending face rest fut deadline hp hpend
      generalize hk : call.interest.pitName = k at ha
      cases ha with
      | data hm =>
        obtain rfl := (hok c call hc).1 face ⟨rest, fut, deadline, hp, hpend⟩ (hk ▸ hm)
        obtain rfl := Option.some.inj hstep
        refine ⟨start, hlast.trans hstart, ?_⟩
        rw [receiveData_log, sinceAttempt_cons _ rfl]
        exact List.mem_cons_self
  · intro face rest fut deadline hp hst
    rcases hfr.future fut (hfuture hp) with he | ⟨hpend, reply, ha, hdone⟩
    · obtain ⟨⟨start, hstart⟩, href⟩ :=
        h.refused face rest fut deadline hp (he.symm.trans hst)
      rw [hlog]
      exact ⟨⟨start, by rw [← hlog, hlast, hstart]⟩, href.append hbegin⟩
    · obtain rfl : reply = .nack := FutureState.done.inj (hdone.symm.trans hst)
      obtain ⟨start, hstart, -⟩ := h.pending face rest fut deadline hp hpend
      generalize hk : call.interest.pitName = k at ha
      cases ha with
      | @nack name inFace =>
        obtain rfl := hok c call face hc ⟨rest, fut, deadline, hp, hpend⟩ hk.symm
        obtain rfl := Option.some.inj hstep
        refine ⟨⟨start, hlast.trans hstart⟩, name, ?_, hk.symm⟩
        rw [show (s.receiveNack name face).loop.log = .nack face name :: s.loop.log from rfl,
          sinceAttempt_cons _ rfl]
        exact List.mem_cons_self

theorem Change.tracked_new {r : EventLoop} (ch : Change s l r) (hnew : s.loop.calls c = none)
    (hc : r.calls c = some call) : Tracked r c call := by
  cases ch.spawned hnew hc with
  | routed ho hc => exact ho.tracked hc
  | hit => exact .idle (by simp) (by simp)
  | refresh => exact .idle (by simp) (by simp)
  | joined => exact .idle (by simp) (by simp)

theorem Change.interest {r : EventLoop} (ch : Change s l r) (hs : s.loop.Consistent)
    (hc : s.loop.calls c = some call) :
    ∃ call' hop, r.calls c = some call' ∧ call'.interest = (call.hop hop).interest := by
  by_cases hl : l.runs = some c
  · exact Ran.interest (ch.ran_of_runs hl hc)
  · exact ⟨call, call.interest.hopLimit, (ch.frame hs hc hl).calls, rfl⟩

theorem Change.allJustified {r : EventLoop} (ch : Change s l r) (hs : s.Attributed) :
    AllJustified r.calls r.log := by
  have hlog : AllJustified r.calls s.loop.log :=
    hs.log.mono fun c call hc => Change.interest ch hs.consistent.loop hc
  cases ch with
  | routed ho => exact ho.allJustified hlog
  | @ran l c call r hc ran =>
    obtain ⟨call', hop, hc', hi⟩ := Ran.interest ran
    exact Ran.allJustified ran (hs.tracked c call hc) hc' hi hlog
  | data => exact ⟨trivial, hlog⟩
  | unmatched => exact ⟨trivial, hlog⟩
  | nack => exact ⟨trivial, hlog⟩
  | _ => exact hlog

theorem Attributed.step (h : s.Attributed) (hok : l.Attributable s) (hs : step s l = some t) :
    t.Attributed := by
  have ch := step_change hs
  refine ⟨step_consistent hs h.consistent, fun c call hc => ?_, Change.allJustified ch h⟩
  cases hc₀ : s.loop.calls c with
  | none => exact Change.tracked_new ch hc₀ hc
  | some call₀ =>
    by_cases hl : l.runs = some c
    · exact Ran.tracked (ch.ran_of_runs hl hc₀) (h.tracked c call₀ hc₀) hc
    · obtain rfl := Option.some.inj ((ch.frame h.consistent.loop hc₀ hl).calls.symm.trans hc)
      exact Tracked.frame (h.tracked c call₀ hc₀) h.consistent hc₀ hs hok hl

theorem Replays.step {b : BestRoute} (h : Replays b s) (hs : step s l = some t) :
    Replays b t := by
  cases l with
  | express i inFace nonce =>
    obtain rfl := Option.some.inj hs
    rw [express]
    split
    · exact h
    · cases hl : s.csLookup i with
      | mk cs lookup =>
        cases lookup with
        | error e => exact h
        | ok csHit =>
          apply Replays.enact
          exact h
  | start c =>
    obtain ⟨call, -, hs⟩ := Option.bind_eq_some_iff.mp hs
    split at hs
    · exact Option.some.inj hs ▸ h.forward ..
    · cases hs
  | sent c =>
    obtain ⟨call, -, hs⟩ := Option.bind_eq_some_iff.mp hs
    split at hs
    · exact Option.some.inj hs ▸ h
    · cases hs
  | sendRaised c e =>
    obtain ⟨call, -, hs⟩ := Option.bind_eq_some_iff.mp hs
    split at hs
    · exact Option.some.inj hs ▸ h
    · cases hs
  | resume c =>
    obtain ⟨call, -, hs⟩ := Option.bind_eq_some_iff.mp hs
    split at hs
    · split at hs
      · exact Option.some.inj hs ▸ h.attemptSucceeded ..
      · exact Option.some.inj hs ▸ h.attemptFailed ..
      · cases hs
    · split at hs
      · exact Option.some.inj hs ▸ h
      · exact Option.some.inj hs ▸ h
      · cases hs
    · cases hs
  | timeout c =>
    obtain ⟨call, -, hs⟩ := Option.bind_eq_some_iff.mp hs
    split at hs
    · split at hs
      · obtain rfl := Option.some.inj hs
        apply Replays.attemptFailed
        exact h
      · cases hs
    · split at hs
      · exact Option.some.inj hs ▸ h
      · cases hs
    · cases hs
  | receiveData d inFace unsolicited =>
    obtain rfl := Option.some.inj hs
    rw [receiveData]
    simp only
    split
    · exact h
    · rw [cacheAnswer]; split <;> exact h
    · split
      · rw [cacheAnswer]; split <;> exact h
      · exact h
  | _ => exact Option.some.inj hs ▸ h

theorem strategy_replays (hi : Initial s) {ls : List Label} (hrun : Run step anyStep s ls t) :
    t.strategy = s.strategy.replay t.loop.log := by
  have h₀ : Replays s.strategy s := by rw [Replays, hi.log]; rfl
  exact hrun.invariant (I := Replays s.strategy) h₀ fun _ _ _ h _ hs => h.step hs

/-- While replies arrive on the faces that the attempts await, each failure that the strategy is
told of is of a face that sent a NACK or nothing, and each success of a face that sent the Data. -/
theorem outcomes_justified (hs : Reachable Initial step (fun s l => l.Attributable s) s)
    {newer older : List Event} {e : Event} (hlog : s.loop.log = newer ++ e :: older) :
    Justified s.loop.calls e older := by
  have hinv : s.Attributed := hs.invariant (fun _ => Initial.attributed)
    fun _ _ _ hi hok hst => hi.step hok hst
  exact (hlog ▸ hinv.log).mem

end Forwarder

end Steps

namespace Forwarder

def lateNack : List Label :=
  [.express (request 1 1000) 7 [], .sent 0, .tick 1000 1, .timeout 0, .sent 0,
    .receiveNack relayName 1]

def lateNackLog : List Event :=
  [.nack 1 relayName, .attempt 0 2 1000, .failure 0 1 relayName 1000, .attempt 0 1 0]

/-- Face 2 is blamed for the NACK that face 1 sent. -/
theorem late_nack_blames_backup :
    letI := Data.paddedHash
    (relayAfter [1, 2] (lateNack ++ [.resume 0])).loop.log =
        .failure 0 2 relayName 1000 :: lateNackLog ∧
      ¬ Justified (relayAfter [1, 2] (lateNack ++ [.resume 0])).loop.calls
        (.failure 0 2 relayName 1000) lateNackLog :=
  letI := Data.paddedHash
  ⟨rfl, fun ⟨call, hc, start, hl, h⟩ => by
    obtain rfl := Option.some.inj ((show _ = some _ from rfl).symm.trans hc)
    obtain ⟨-, rfl⟩ := Prod.mk.inj (Option.some.inj ((show _ = some _ from rfl).symm.trans hl))
    rcases h with ⟨name, hm, -⟩ | ⟨hle, -⟩
    · rw [show sinceAttempt 0 lateNackLog = [.nack 1 relayName] from rfl] at hm
      simp at hm
    · exact absurd hle (by decide)⟩

theorem answer_credited :
    letI := Data.paddedHash
    ∃ t, Run step (fun s l => l.Attributable s) (relay [1])
        [.express (request 1 1000) 7 [], .sent 0, .receiveData answer 1 false, .resume 0] t ∧
      t.loop.log = [.success 0 1 answer, .data 1 answer, .attempt 0 1 0] ∧
      Justified t.loop.calls (.success 0 1 answer) [.data 1 answer, .attempt 0 1 0] :=
  letI := Data.paddedHash
  have hok : (Label.receiveData answer 1 false).Attributable requested := fun c call hc => by
    obtain rfl := requested_call hc
    refine ⟨?_, fun _ => ⟨nofun, fun _ => rfl⟩⟩
    rintro face ⟨rest, fut, deadline, hp, -⟩ -
    exact (Phase.waiting.inj hp).1.symm
  have hrun : Run step (fun s l => l.Attributable s) (relay [1])
      [.express (request 1 1000) 7 [], .sent 0, .receiveData answer 1 false, .resume 0] _ :=
    .cons trivial rfl (.cons (t := requested) trivial rfl (.cons hok rfl
      (.cons trivial rfl (.nil _))))
  ⟨_, hrun, rfl, outcomes_justified ⟨relay [1], _, relay_initial [1], hrun⟩
    (show _ = [] ++ _ :: _ from rfl)⟩

end Forwarder

end RnsIcn
